import PoolScript.Proofs.Heap.Draining
import PoolScript.Proofs.Heap.Pairs
import PoolScript.Proofs.Pool.Ledger

/-!
# Requests that fail

A request that fails leaves everything as it was (`HostRequest.Unchanged`): the frame, and every
string and every cell of the heap, with what they hold and how often they are counted. The one
exception is an element that is stored in a variable that is not set. The array for it is made
first, and it stays, bound to the variable, if the element cannot be stored
(`HostRequest.LeavesArray`).

* `Heap.Makes.release`, `Heap.Makes.releaseAll`: the key and the value that were made for an element
  are given back without a trace;
* `HostRequest.answer_error`: what any request leaves behind that fails.
-/

namespace PoolScript

namespace Pool

variable {α : Type} {p q : Pool α} {h : Handle} {a : α}

/-- What was put into a slot is taken out of it again. -/
theorem Allocated.update_none (hal : p.Allocated a h q) :
    Function.update q.entry? h none = p.entry? := by
  rw [hal.entry?, Function.update_idem, ← hal.vacant, Function.update_eq_self]

/-- The only reference to something is given back. -/
theorem release_once (he : p.entry? h = some ⟨a, 1, false⟩) :
    p.release h = (some a, p.vacate h.index) := by
  simp [release, he]

theorem entry?_release_once (he : p.entry? h = some ⟨a, 1, false⟩) :
    Pool.entry? (p.release h).2 = Function.update p.entry? h none := by
  rw [release_once he]
  exact entry?_vacate he

theorem live_release_once (he : p.entry? h = some ⟨a, 1, false⟩) :
    (p.release h).2.live = p.live - 1 := by
  rw [release_once he]
  rfl

end Pool

namespace Heap

variable {heap heap' heap'' : Heap} {v w : Value} {f : Fault}

/-- The handles of both heaps lead to the same, counted as often and pinned or not, and as much is
    counted as there. -/
structure SameEntries (heap heap' : Heap) : Prop where
  strings : heap'.strings.entry? = heap.strings.entry?
  cells : heap'.cells.entry? = heap.cells.entry?
  liveStrings : heap'.liveStrings = heap.liveStrings
  liveCells : heap'.liveCells = heap.liveCells

namespace SameEntries

theorem refl (heap : Heap) : heap.SameEntries heap :=
  ⟨rfl, rfl, rfl, rfl⟩

theorem lists (h : heap.SameEntries heap') (a : Handle) (ps : Pairs) :
    heap'.Lists a ps ↔ heap.Lists a ps := by
  have hget : heap'.cells.get? = heap.cells.get? := by
    funext k
    rw [Pool.get?, Pool.get?, h.cells]
  rw [Lists, Lists, hget]

end SameEntries

/-- A new cell that begins an array is in no other array. -/
theorem lists_update {a b : Handle} {ps : Pairs} {e : Entry Cell} {link : Option Handle}
    (hv : heap.cells.entry? a = none) (he : e.content = .head link)
    (hc : heap'.cells.entry? = Function.update heap.cells.entry? a (some e)) (hba : b ≠ a) :
    heap'.Lists b ps ↔ heap.Lists b ps := by
  have hget : heap'.cells.get? = Function.update heap.cells.get? a (some (.head link)) :=
    he ▸ Pool.get?_update hc
  have hother {k : Handle} (hk : k ≠ a) : heap'.cells.get? k = heap.cells.get? k := by
    rw [hget, Function.update_of_ne hk]
  constructor
  · rintro ⟨l, xs, hb, hx, hps⟩
    rw [hother hba] at hb
    refine ⟨l, xs, hb, hx.congr fun p hp => (hother ?_).symm, hps⟩
    rintro rfl
    have hp := hx.element hp
    rw [hget, Function.update_self] at hp
    cases hp
  · rintro ⟨l, xs, hb, hx, hps⟩
    rw [← hother hba] at hb
    refine ⟨l, xs, hb, hx.congr fun p hp => hother ?_, hps⟩
    rintro rfl
    have hp := hx.element hp
    rw [Pool.get?, hv] at hp
    cases hp

/-! ### Values made for an element -/

/-- `v` was made from a scalar: it is a number, or a new string. -/
inductive Makes (heap : Heap) : Value → Heap → Prop
  | number {v : Value} : v.isCounted = false → Makes heap v heap
  | string {text : String} {h : Handle} {strings : Pool String} :
      heap.strings.Allocated text h strings → Makes heap (.str h) ⟨strings, heap.cells⟩

theorem allocScalar_cases (hs : heap.strings.WellFormed) (s : Scalar) :
    (∃ v heap', heap.allocScalar s = (.ok v, heap') ∧ heap.Makes v heap') ∨
      ∃ f, heap.allocScalar s = (.error f, heap) := by
  cases s with
  | int n => exact .inl ⟨_, _, rfl, .number rfl⟩
  | float x => exact .inl ⟨_, _, rfl, .number rfl⟩
  | str text =>
    rcases allocString_cases hs text with ⟨h, strings, ha, hal⟩ | ha
    · exact .inl ⟨_, _, ha, .string hal⟩
    · exact .inr ⟨_, ha⟩

theorem release_number (hv : v.isCounted = false) (heap : Heap) : heap.release v = heap := by
  cases v with
  | int n => exact (release_eq ..).trans (drain_nil heap)
  | float x => exact (release_eq ..).trans (drain_nil heap)
  | str h => cases hv
  | array h => cases hv

theorem release_str (h : Handle) (heap : Heap) :
    heap.release (.str h) = ⟨(heap.strings.release h).2, heap.cells⟩ :=
  (release_eq ..).trans (drain_nil _)

namespace Makes

theorem wellFormed (h : heap.Makes v heap') (hs : heap.strings.WellFormed) :
    heap'.strings.WellFormed := by
  cases h with
  | number => exact hs
  | string hal => exact hal.wellFormed hs

/-- What was made and given back has left no trace. -/
theorem release (h : heap.Makes v heap') : heap.SameEntries (heap'.release v) := by
  cases h with
  | number hv =>
    rw [release_number hv]
    exact .refl heap
  | @string text h strings hal =>
    rw [release_str]
    have he : strings.entry? h = some ⟨text, 1, false⟩ := by rw [hal.entry?, Function.update_self]
    refine ⟨?_, rfl, ?_, rfl⟩
    · rw [Pool.entry?_release_once he, hal.update_none]
    · rw [Heap.liveStrings, Pool.live_release_once he, hal.live]
      rfl

/-- The same for two values that were made one after the other. -/
theorem releaseAll (hv : heap.Makes v heap') (hw : heap'.Makes w heap'') :
    heap.SameEntries (heap''.releaseAll [v, w]) := by
  rw [releaseAll_pair]
  cases hv with
  | number hv =>
    rw [release_number hv]
    exact hw.release
  | @string text h strings hal =>
    have hvh : strings.entry? h = some ⟨text, 1, false⟩ := by rw [hal.entry?, Function.update_self]
    cases hw with
    | number hw =>
      rw [release_number hw]
      exact Makes.release (.string hal)
    | @string text' k strings' hal' =>
      -- The second string was made while the first one was there, so they are in two slots.
      have hkh : k ≠ h := by
        rintro rfl
        cases hal'.vacant.symm.trans hvh
      have hh : strings'.entry? h = some ⟨text, 1, false⟩ := by
        rw [hal'.entry?, Function.update_of_ne hkh.symm, hvh]
      have hk : Pool.entry? (strings'.release h).2 k = some ⟨text', 1, false⟩ := by
        rw [Pool.entry?_release_once hh, Function.update_of_ne hkh, hal'.entry?,
          Function.update_self]
      rw [release_str, release_str]
      refine ⟨?_, rfl, ?_, rfl⟩
      · rw [Pool.entry?_release_once hk, Pool.entry?_release_once hh,
          Function.update_comm hkh.symm, hal'.update_none, hal.update_none]
      · rw [Heap.liveStrings, Pool.live_release_once hk, Pool.live_release_once hh, hal'.live,
          hal.live]
        rfl

end Makes

/-! ### Operations that fail -/

theorem unlink_eq_of_error {a h : Handle} {link : Option Handle} {e : Element}
    (hf : (heap.unlink a link h e).1 = .error f) : (heap.unlink a link h e).2 = heap := by
  rw [unlink] at hf ⊢
  split at hf
  · cases hf
  · rfl

/-- Setting an element fails before anything is written. -/
theorem set_eq_of_error {a : Handle} {key : Value} (hf : (heap.set a key v).1 = .error f) :
    (heap.set a key v).2 = heap.releaseAll [key, v] := by
  rw [set_eq] at hf ⊢
  split at hf
  · cases hf
  · split at hf
    · next link hl =>
      have hfull := (heap.insertOrRelease_error_iff a link key v).1 ⟨f, hf⟩
      rw [insertOrRelease, insertFirst_of_isFull hfull]
    · rfl
  · rfl

/-- Removing one fails before that, too. -/
theorem remove_eq_of_error {a : Handle} {key : Scalar} (hf : (heap.remove a key).1 = .error f) :
    (heap.remove a key).2 = heap := by
  unfold remove at hf ⊢
  split at hf
  · next h e he =>
    split at hf
    · next link hl =>
      split at hf
      · cases hf
      · next g heap' hu =>
        have hback := unlink_eq_of_error (congrArg Prod.fst hu)
        rwa [hu] at hback
    · rfl
  · cases hf
  · rfl

end Heap

namespace HostRequest

variable {heap : Heap} {frame : Frame} {name : String} {f : Fault}

/-- The frame and the heap `after` are as they were. -/
structure Unchanged (heap : Heap) (frame : Frame) (after : Heap × Frame) : Prop where
  frame : after.2 = frame
  entries : heap.SameEntries after.1
  arrays : ∀ a ps, after.1.Lists a ps ↔ heap.Lists a ps
  liveStrings : after.1.liveStrings = heap.liveStrings
  liveCells : after.1.liveCells = heap.liveCells

/-- An element is to be stored in a variable that is not set, and there is room for an array. -/
def BeginsArray (name : String) (heap : Heap) (frame : Frame) : HostRequest → Prop
  | arraySet n _ _ => n = name ∧ frame.get? n = none ∧ heap.liveCells < heap.cells.capacity
  | _ => False

/-- The variable `name` has become the new array `a` without elements, and everything else is as
    it was. -/
structure LeavesArray (name : String) (a : Handle) (heap : Heap) (frame : Frame)
    (after : Heap × Frame) : Prop where
  frame : after.2 = (frame.set name (.array a)).2
  vacant : heap.cells.entry? a = none
  strings : after.1.strings.entry? = heap.strings.entry?
  cells : after.1.cells.entry? = Function.update heap.cells.entry? a (some ⟨.head none, 1, false⟩)
  arrays : ∀ b ps, b ≠ a → (after.1.Lists b ps ↔ heap.Lists b ps)
  liveStrings : after.1.liveStrings = heap.liveStrings
  liveCells : after.1.liveCells = heap.liveCells + 1

theorem Unchanged.of_sameEntries {heap' : Heap} (h : heap.SameEntries heap') (frame : Frame) :
    Unchanged heap frame (heap', frame) :=
  ⟨rfl, h, h.lists, h.liveStrings, h.liveCells⟩

theorem Unchanged.refl (heap : Heap) (frame : Frame) : Unchanged heap frame (heap, frame) :=
  .of_sameEntries (.refl heap) frame

/-! ### Storing elements -/

/-- Storing that fails gives back what it made. -/
theorem store_error (heap : Heap) (hs : heap.strings.WellFormed) {key value : Scalar}
    (hf : (store name key value heap frame).1 = .error f) :
    heap.SameEntries (store name key value heap frame).2 := by
  rcases Heap.allocScalar_cases hs key with ⟨k, heap₁, hk, hmk⟩ | ⟨e, hk⟩
  · rcases Heap.allocScalar_cases (hmk.wellFormed hs) value with ⟨v, heap₂, hv, hmv⟩ | ⟨e, hv⟩
    · have hback := hmk.releaseAll hmv
      simp only [store, hk, hv] at hf ⊢
      split at hf
      · rw [Heap.set_eq_of_error hf]
        exact hback
      · exact hback
    · simp only [store, hk, hv]
      exact hmk.release
  · simp only [store, hk]
    exact .refl heap

/-- A variable that is not set becomes a new array, if there is room for one. -/
theorem bindNew_allocArray_cases (hc : heap.cells.WellFormed) (hn : frame.get? name = none) :
    (∃ a cells, bindNew name heap.allocArray frame =
        (.ok (), ⟨heap.strings, cells⟩, (frame.set name (.array a)).2) ∧
      heap.cells.Allocated (.head none) a cells) ∨
    ∃ f, bindNew name heap.allocArray frame = (.error f, heap, frame) ∧
      heap.cells.live = heap.cells.capacity := by
  obtain ⟨strings, cells⟩ := heap
  rcases hc.alloc_cases (.head none) with ⟨a, cells', ha, hal⟩ | ⟨ha, hlive⟩
  · refine .inl ⟨a, cells', ?_, hal⟩
    have hmade : Heap.allocArray ⟨strings, cells⟩ = (.ok (.array a), ⟨strings, cells'⟩) := by
      simp only [Heap.allocArray, ha]
      rfl
    rw [hmade]
    simp only [bindNew, bind, Frame.set, hn]
    exact congrArg (fun heap => (Except.ok (), heap, _)) (Heap.drain_nil _)
  · refine .inr ⟨.poolExhausted cells.name cells.capacity, ?_, hlive⟩
    simp only [Heap.allocArray, ha]
    rfl

/-- The array that is made for an element stays when storing the element fails. -/
theorem leavesArray_of_store {a : Handle} {cells : Pool Cell} {heap' : Heap}
    (hal : heap.cells.Allocated (.head none) a cells)
    (h : Heap.SameEntries ⟨heap.strings, cells⟩ heap') :
    LeavesArray name a heap frame (heap', (frame.set name (.array a)).2) where
  frame := rfl
  vacant := hal.vacant
  strings := h.strings
  cells := h.cells.trans hal.entry?
  arrays _ _ hba := Heap.lists_update hal.vacant rfl (h.cells.trans hal.entry?) hba
  liveStrings := h.liveStrings
  liveCells := h.liveCells.trans hal.live

/-- What a request leaves behind that fails. -/
structure Fails (r : HostRequest) (heap : Heap) (frame : Frame) (after : Heap × Frame) : Prop where
  /-- If it has begun an array, the array stays. -/
  begins : ∀ name, r.BeginsArray name heap frame → ∃ a, LeavesArray name a heap frame after
  /-- If not, nothing has changed. -/
  unchanged : (∀ name, ¬r.BeginsArray name heap frame) → Unchanged heap frame after

theorem arraySet_error (hs : heap.strings.WellFormed) (hc : heap.cells.WellFormed)
    {key value : Scalar} (hf : ((arraySet name key value).answer heap frame).1 = .error f) :
    (arraySet name key value).Fails heap frame ((arraySet name key value).answer heap frame).2 := by
  have hset : frame.contains name = (frame.get? name).isSome := rfl
  simp only [answer, hset] at hf ⊢
  cases hn : frame.get? name with
  | some v =>
    rw [hn, Option.isSome_some, if_pos rfl] at hf
    rw [Option.isSome_some, if_pos rfl]
    refine ⟨?_, fun _ => .of_sameEntries (store_error heap hs hf) frame⟩
    rintro _ ⟨-, hnone, -⟩
    cases hn.symm.trans hnone
  | none =>
    rw [hn, Option.isSome_none, if_neg Bool.false_ne_true] at hf
    rw [Option.isSome_none, if_neg Bool.false_ne_true]
    rcases bindNew_allocArray_cases hc hn with ⟨a, cells, hb, hal⟩ | ⟨e, hb, hlive⟩ <;>
      rw [hb] at hf ⊢
    · refine ⟨?_, fun h => absurd ⟨rfl, hn, hal.live_lt⟩ (h name)⟩
      rintro _ ⟨rfl, -, -⟩
      exact ⟨a, leavesArray_of_store hal (store_error ⟨heap.strings, cells⟩ hs hf)⟩
    · refine ⟨?_, fun _ => .refl heap frame⟩
      rintro _ ⟨-, -, hlt⟩
      exact absurd hlive hlt.ne

theorem bindNew_error {made : Except Fault Value × Heap}
    (hmade : ∀ f, made.1 = .error f → made.2 = heap)
    (hf : (bindNew name made frame).1 = .error f) :
    (bindNew name made frame).2 = (heap, frame) := by
  obtain ⟨v | e, heap'⟩ := made
  · cases hmade v rfl
    rfl
  · cases hf

/-! ### Requests -/

/-- A request that fails leaves everything as it was, but for the array that is made for an
    element. -/
theorem answer_error (hs : heap.strings.WellFormed) (hc : heap.cells.WellFormed)
    {r : HostRequest} (hf : (r.answer heap frame).1 = .error f) :
    r.Fails heap frame (r.answer heap frame).2 := by
  have same {r : HostRequest} (hr : ∀ name, ¬r.BeginsArray name heap frame) {after : Heap × Frame}
      (h : after = (heap, frame)) : r.Fails heap frame after :=
    ⟨fun name hb => absurd hb (hr name), fun _ => h ▸ .refl heap frame⟩
  -- By what is asked for. Only an element that is set in a variable begins an array that stays.
  cases r with
  | setInt | setFloat => cases hf
  | setStr name text =>
    refine same (fun _ => id) (bindNew_error (fun e he => ?_) hf)
    rcases Heap.allocString_cases hs text with ⟨h, strings, ha, -⟩ | ha
    · cases (congrArg Prod.fst ha).symm.trans he
    · rw [ha]
  | makeArray name =>
    refine same (fun _ => id) (bindNew_error (fun e he => ?_) hf)
    rcases Heap.allocArray_cases hc with ⟨h, cells, ha, -⟩ | ha
    · cases (congrArg Prod.fst ha).symm.trans he
    · rw [ha]
  | arraySet name key value => exact arraySet_error hs hc hf
  | arrayRemove name key =>
    refine same (fun _ => id) ?_
    simp only [answer] at hf ⊢
    split at hf
    · rw [Heap.remove_eq_of_error hf]
    · rfl
  | getInt | getFloat | getStr | arrayGet | arraySize | entries =>
    refine same (fun _ => id) ?_
    simp only [answer]
    repeat' split
    all_goals rfl
  | _ => exact same (fun _ => id) rfl

end HostRequest

end PoolScript
