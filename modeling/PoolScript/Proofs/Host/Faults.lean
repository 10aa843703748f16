import PoolScript.Host
import PoolScript.Intrinsic
import PoolScript.Proofs.Host.Balance

/-!
# Ordinary faults

That too many calls are open is found out when a call is entered, and that a branch has no `if`
before it when the branch is begun. What can be found out anywhere else is an *ordinary* fault:
neither the heap nor an intrinsic fails with another one (`Intrinsic.call_ordinary`), no request is
answered with one (`HostRequest.answer_ordinary`), and so an honest host function never raises one
(`HostProgram.run_ordinary`).
-/

namespace PoolScript

namespace Fault

/-- The machine itself finds faults of this kind out, and nothing that it calls upon does. -/
def Kind.ofMachine : Kind → Bool
  | stackOverflow | misplacedElse => true
  | _ => false

/-- What the machine does not find out by itself is not that calls are too deep. -/
theorem Kind.ne_stackOverflow {kind : Kind} (h : ¬kind.ofMachine) : kind ≠ .stackOverflow := by
  rintro rfl
  exact h rfl

/-- Nor is it that a branch has no `if`. -/
theorem Kind.ne_misplacedElse {kind : Kind} (h : ¬kind.ofMachine) : kind ≠ .misplacedElse := by
  rintro rfl
  exact h rfl

/-- A fault, if there is one, is none that only the machine itself finds out. -/
def Ordinary {α : Type} : Except Fault α → Prop
  | .ok _ => True
  | .error f => ¬f.kind.ofMachine

end Fault

open Fault (Ordinary)

namespace Fault

variable {α β : Type} {r : Except Fault α} {f : Fault}

theorem Ordinary.error (h : Ordinary r) (hr : r = .error f) : ¬f.kind.ofMachine := by
  subst hr
  exact h

/-- What is made of a result that is there raises nothing. -/
theorem Ordinary.map (h : Ordinary r) (g : α → β) : Ordinary (r.map g) := by
  cases r with
  | ok => trivial
  | error f => exact h

/-- Several results, of which the first fault counts. -/
theorem Ordinary.mapM {g : α → Except Fault β} (h : ∀ a, Ordinary (g a)) (as : List α) :
    Ordinary (as.mapM g) := by
  induction as with
  | nil => trivial
  | cons a as ih =>
    rw [List.mapM_cons]
    have ha := h a
    generalize g a = r at ha ⊢
    cases r with
    | error f => exact ha
    | ok b =>
      generalize as.mapM g = r at ih ⊢
      cases r with
      | error f => exact ih
      | ok bs => trivial

end Fault

namespace Pool

/-- A pool fails only for want of room. -/
theorem alloc_ordinary {α : Type} (p : Pool α) (a : α) : Ordinary (p.alloc a).1 := by
  simp only [alloc]
  split
  · trivial
  · split
    · trivial
    · rintro ⟨⟩

end Pool

namespace Heap

variable (heap : Heap)

theorem allocString_ordinary (text : String) : Ordinary (heap.allocString text).1 :=
  (heap.strings.alloc_ordinary text).map _

theorem allocArray_ordinary : Ordinary heap.allocArray.1 :=
  (heap.cells.alloc_ordinary (.head none)).map _

theorem allocScalar_ordinary (s : Scalar) : Ordinary (heap.allocScalar s).1 := by
  cases s with
  | str text => exact heap.allocString_ordinary text
  | _ => trivial

/-- A string that is not there is a stale handle. -/
theorem str_ordinary (h : Handle) : Ordinary (heap.str h) := by
  rw [str]
  split
  · trivial
  · rintro ⟨⟩

/-- An array is no scalar, which is a fault of types. -/
theorem scalar_ordinary (v : Value) : Ordinary (heap.scalar v) := by
  cases v with
  | str h => exact (heap.str_ordinary h).map _
  | array => rintro ⟨⟩
  | _ => trivial

/-- An array that is not there is a stale handle. -/
theorem first_ordinary (h : Handle) : Ordinary (heap.first h) := by
  rw [first]
  split
  · trivial
  · rintro ⟨⟩

/-! ### Walking -/

theorem elements_ordinary (a : Handle) : Ordinary (heap.elements a) :=
  (heap.first_ordinary a).map _

theorem size_ordinary (a : Handle) : Ordinary (heap.size a) :=
  (heap.elements_ordinary a).map _

/-- A walk fails where a link leads nowhere or a key cannot be compared. -/
theorem findFrom_ordinary (key : Scalar) (n : Nat) (link : Option Handle) :
    Ordinary (heap.findFrom key n link) := by
  fun_induction findFrom heap key n link with
  | case1 => trivial
  | case2 => rintro ⟨⟩
  | case3 => trivial
  | case4 _ _ _ _ _ ih => exact ih
  | case5 => rintro ⟨⟩

theorem find_ordinary (a : Handle) (key : Scalar) : Ordinary (heap.find a key) := by
  rw [find]
  split
  · exact heap.findFrom_ordinary ..
  · next hf => exact (heap.first_ordinary a).error hf

theorem findValue_ordinary (a : Handle) (key : Value) : Ordinary (heap.findValue a key) := by
  rw [findValue]
  split
  · exact heap.find_ordinary ..
  · next hf => exact (heap.scalar_ordinary key).error hf

theorem get?_ordinary (a : Handle) (key : Scalar) : Ordinary (heap.get? a key) :=
  (heap.find_ordinary a key).map _

/-! ### Writing -/

/-- Setting an element fails as finding the key does, or for want of room. -/
theorem set_ordinary (a : Handle) (key v : Value) : Ordinary (heap.set a key v).1 := by
  rw [set]
  split
  · split
    · trivial
    · rintro ⟨⟩
  · split
    · rintro ⟨⟩
    · split
      · next link _ =>
        have halloc := heap.cells.alloc_ordinary (.element ⟨key, v, link⟩)
        rw [insertFirst]
        generalize heap.cells.alloc (.element ⟨key, v, link⟩) = r at halloc ⊢
        rcases r with ⟨_ | _, cells⟩
        · exact halloc
        · trivial
      · next hf => exact (heap.first_ordinary a).error hf
  · next hf => exact (heap.findValue_ordinary a key).error hf

/-- An element that is not found in front of another one is a stale handle. -/
theorem unlink_ordinary (a : Handle) (link : Option Handle) (h : Handle) (e : Element) :
    Ordinary (heap.unlink a link h e).1 := by
  rw [unlink]
  split
  · trivial
  · rintro ⟨⟩

/-- Removing an element fails as finding it or unlinking it does. -/
theorem remove_ordinary (a : Handle) (key : Scalar) : Ordinary (heap.remove a key).1 := by
  rw [remove]
  split
  · next h e _ =>
    split
    · next link _ =>
      have hunlink := heap.unlink_ordinary a link h e
      generalize heap.unlink a link h e = r at hunlink ⊢
      rcases r with ⟨_ | _, heap'⟩
      · exact hunlink
      · trivial
    · next hf => exact (heap.first_ordinary a).error hf
  · trivial
  · next hf => exact (heap.find_ordinary a key).error hf

theorem removeValue_ordinary (a : Handle) (key : Value) :
    Ordinary (heap.removeValue a key).1 := by
  rw [removeValue]
  split
  · exact heap.remove_ordinary ..
  · next hf => exact (heap.scalar_ordinary key).error hf

/-! ### Text -/

theorem innerText_ordinary (v : Value) : Ordinary (heap.innerText v) := by
  cases v with
  | str h => exact (heap.scalar_ordinary (.str h)).map _
  | _ => trivial

/-- An element shows what its key and its value are. -/
theorem elementText_ordinary (e : Element) : Ordinary (heap.elementText e) := by
  rw [elementText]
  split
  · trivial
  · next hf => exact (heap.innerText_ordinary e.key).error hf
  · next hf _ => exact (heap.innerText_ordinary e.value).error hf

/-- An array shows its elements and fails as the first of them does. -/
theorem display_ordinary (v : Value) : Ordinary (heap.display v) := by
  cases v with
  | array a =>
    rw [display]
    split
    · exact (Ordinary.mapM heap.elementText_ordinary _).map _
    · next hf => exact (heap.elements_ordinary a).error hf
  | str h => exact (heap.scalar_ordinary (.str h)).map _
  | _ => trivial

end Heap

/-! ### Intrinsics -/

/-- An intrinsic fails for its arguments, or as the heap does. -/
theorem Intrinsic.call_ordinary (i : Intrinsic) (args : List Value) (heap : Heap)
    (out : LineWriter) : Ordinary (i.call args heap out).1 := by
  have happly : Ordinary (i.apply args heap out).1 := by
    unfold apply
    split
    · next v _ =>
      split
      · trivial
      · next hf => exact (heap.display_ordinary v).error hf
    · exact (heap.removeValue_ordinary ..).map _
    · rintro ⟨⟩
    · exact (heap.size_ordinary _).map _
    all_goals first | trivial | rintro ⟨⟩
  exact happly

/-! ### Host functions -/

namespace HostRequest

variable (heap : Heap) (frame : Frame)

theorem value?_ordinary (name : String) : Ordinary (value? frame name) := by
  rw [value?]
  split
  · trivial
  · rintro ⟨⟩

theorem array?_ordinary (name : String) : Ordinary (array? frame name) := by
  rw [array?]
  split
  · trivial
  · rintro ⟨⟩
  · next hf => exact (value?_ordinary frame name).error hf

/-- A new value is bound to a name, if it could be made. -/
theorem bindNew_ordinary (name : String) {made : Except Fault Value × Heap}
    (h : Ordinary made.1) : Ordinary (bindNew name made frame).1 := by
  rcases made with ⟨_ | _, heap⟩
  · exact h
  · trivial

/-- What is to be stored is made first, the key before the value. -/
theorem store_ordinary (name : String) (key value : Scalar) :
    Ordinary (store name key value heap frame).1 := by
  have hkey := heap.allocScalar_ordinary key
  rw [store]
  generalize heap.allocScalar key = r at hkey ⊢
  rcases r with ⟨_ | k, heap⟩
  · exact hkey
  · have hvalue := heap.allocScalar_ordinary value
    simp only
    generalize heap.allocScalar value = r at hvalue ⊢
    rcases r with ⟨_ | v, heap⟩
    · exact hvalue
    · simp only
      split
      · exact heap.set_ordinary ..
      · rintro ⟨⟩

/-- A request fails for its name, for a type, or as the heap does. -/
theorem answer_ordinary (r : HostRequest) : Ordinary (r.answer heap frame).1 := by
  cases r with
  | get name | getText name | refs name => exact (value?_ordinary frame name).map _
  | has | typeOf | live | setInt | setFloat => trivial
  | getInt name =>
    simp only [answer]
    split
    · trivial
    · rintro ⟨⟩
    · next hf => exact (value?_ordinary frame name).error hf
  | getFloat name =>
    simp only [answer]
    split
    · split
      · trivial
      · rintro ⟨⟩
    · next hf => exact (value?_ordinary frame name).error hf
  | getStr name =>
    simp only [answer]
    split
    · exact heap.str_ordinary _
    · rintro ⟨⟩
    · next hf => exact (value?_ordinary frame name).error hf
  | setStr name text => exact bindNew_ordinary frame name (heap.allocString_ordinary text)
  | makeArray name => exact bindNew_ordinary frame name heap.allocArray_ordinary
  | arrayGet name key depth =>
    simp only [answer]
    split
    · next h _ =>
      split
      · trivial
      · rintro ⟨⟩
      · next hf => exact (heap.get?_ordinary h key).error hf
    · next hf => exact (array?_ordinary frame name).error hf
  | arraySet name key value =>
    have hmade : Ordinary (if frame.contains name then (.ok (), heap, frame)
        else bindNew name heap.allocArray frame : Except Fault Unit × Heap × Frame).1 := by
      split
      · trivial
      · exact bindNew_ordinary frame name heap.allocArray_ordinary
    simp only [answer]
    generalize (if frame.contains name then (.ok (), heap, frame)
        else bindNew name heap.allocArray frame : Except Fault Unit × Heap × Frame) = r at hmade ⊢
    rcases r with ⟨_ | _, heap, frame⟩
    · exact hmade
    · exact store_ordinary heap frame name key value
  | arrayRemove name key =>
    simp only [answer]
    split
    · exact heap.remove_ordinary ..
    · next hf => exact (array?_ordinary frame name).error hf
  | arraySize name =>
    simp only [answer]
    split
    · exact heap.size_ordinary _
    · next hf => exact (array?_ordinary frame name).error hf
  | entries name depth =>
    simp only [answer]
    split
    · exact (heap.elements_ordinary _).map _
    · next hf => exact (array?_ordinary frame name).error hf

end HostRequest

/-- What a host function sees in a look are no faults of the machine either. -/
theorem HostLook.see_ordinary (l : HostLook) (heap : Heap) (frame : Frame)
    (cursors : List Handle) :
    ∀ f ∈ l.faults (l.see heap frame cursors).1, ¬f.kind.ofMachine := by
  cases l with
  | first name =>
    simp only [see]
    split
    · next h _ =>
      split
      · rintro _ ⟨⟩
      · next hf =>
        rintro _ rfl
        exact (heap.first_ordinary h).error hf
    · next hf =>
      rintro _ rfl
      exact (HostRequest.array?_ordinary frame name).error hf
  | _ => rintro _ ⟨⟩

/-- An honest host function raises ordinary faults only. -/
theorem HostProgram.run_ordinary (p : HostProgram) {seen : Set Fault} (hp : p.Honest seen)
    (hs : ∀ f ∈ seen, ¬f.kind.ofMachine) (heap : Heap) (frame : Frame)
    (cursors : List Handle) (journal : List String) :
    Ordinary (p.run heap frame cursors journal).1 := by
  induction p generalizing seen heap frame cursors journal with
  | done => trivial
  | raise f =>
    rcases hp with hf | hf
    · exact hs f hf
    · show ¬f.kind.ofMachine
      rw [hf]
      exact Bool.false_ne_true
  | request r next ih =>
    rw [run]
    have hr := HostRequest.answer_ordinary heap frame r
    generalize r.answer heap frame = a at hr ⊢
    obtain ⟨reply, heap', frame'⟩ := a
    cases reply with
    | ok a => exact ih _ (hp.1 a) hs ..
    | error f =>
      refine ih _ (hp.2 f) ?_ ..
      rintro g (rfl | hg)
      · exact hr
      · exact hs g hg
  | look l next ih =>
    rw [run]
    refine ih _ (hp _) ?_ ..
    rintro f (hf | hf)
    · exact HostLook.see_ordinary l heap frame cursors f hf
    · exact hs f hf
  | note line next ih => exact ih hp hs ..

end PoolScript
