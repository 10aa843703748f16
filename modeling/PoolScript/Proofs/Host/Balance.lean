import PoolScript.Proofs.Frame
import PoolScript.Proofs.Heap.Operate

/-!
# Host functions keep heaps balanced

A host function owns what is in the frame of its call, and nothing else: requests take no
values and give none out. So it keeps the heap balanced for its frame, whatever it does and
even when it raises a fault of its own.

A host function is *honest* if it raises only faults that requests or looks have shown it,
and faults of its own kind. An honest host function never raises that a handle leads nowhere.

* `HostRequest.answer_serves`: what a request leaves behind;
* `HostProgram.run_balanced`, `HostProgram.run_sane`: what a host function leaves behind.
-/

namespace PoolScript

open Fault (Sane)
open Heap (Yields nothing single)

variable {heap : Heap} {frame : Frame} {m : Multiset Value} {pins : Set Value} {v : Value}

/-- The heap is balanced for the frame, and a fault is no stale handle. -/
def Heap.Serves {α : Type} (m : Multiset Value) (pins : Set Value)
    (r : Except Fault α × Heap × Frame) : Prop :=
  r.2.1.Balanced (r.2.2.values + m) pins ∧ Sane r.1

namespace HostRequest

/-! ### Variables -/

theorem value?_sane (frame : Frame) (name : String) : Sane (value? frame name) := by
  rw [value?]
  split
  · trivial
  · rintro ⟨⟩

/-- A variable that is set is among those of the frame. -/
theorem mem_of_value? {name : String} (h : value? frame name = .ok v) : v ∈ frame.values := by
  rw [value?] at h
  split at h
  · next hv =>
    cases h
    exact Frame.mem_values hv
  · cases h

theorem array?_sane (frame : Frame) (name : String) : Sane (array? frame name) := by
  have hs := value?_sane frame name
  rw [array?]
  split
  · trivial
  · rintro ⟨⟩
  · next hf => rwa [hf] at hs

theorem mem_of_array? {name : String} {h : Handle} (ha : array? frame name = .ok h) :
    .array h ∈ frame.values := by
  rw [array?] at ha
  split at ha
  · next hv =>
    cases ha
    exact mem_of_value? hv
  · cases ha
  · cases ha

/-- So what it refers to lives. -/
theorem live_of_value? (hb : heap.Balanced (frame.values + m) pins) {name : String}
    (h : value? frame name = .ok v) : heap.Live v :=
  hb.live (Multiset.mem_add.2 (.inl (mem_of_value? h)))

theorem live_of_array? (hb : heap.Balanced (frame.values + m) pins) {name : String} {h : Handle}
    (ha : array? frame name = .ok h) : heap.Live (.array h) :=
  hb.live (Multiset.mem_add.2 (.inl (mem_of_array? ha)))

/-- The frame owns what is bound, and what it had is given back. -/
theorem bind_balanced (hb : heap.Balanced ({v} + (frame.values + m)) pins) (name : String) :
    (bind name v heap frame).1.Balanced ((bind name v heap frame).2.values + m) pins := by
  rw [← add_assoc, ← Frame.values_set frame name v, add_assoc] at hb
  exact hb.releaseAll

/-- What was made is owned by the frame afterwards. -/
theorem bindNew_serves {made : Except Fault Value × Heap}
    (h : Yields single (frame.values + m) pins made) (name : String) :
    Heap.Serves m pins (bindNew name made frame) := by
  obtain ⟨r, heap⟩ := made
  cases r with
  | ok v => exact ⟨bind_balanced h name, trivial⟩
  | error f => exact h

/-- The key and the value are owned by the array, or they are given back. -/
theorem store_yields (hb : heap.Balanced (frame.values + m) pins) (name : String)
    (key value : Scalar) :
    Yields nothing (frame.values + m) pins (store name key value heap frame) := by
  rw [store]
  have hk := hb.allocScalar key
  split
  · next f heap' he =>
    rw [he] at hk
    exact hk
  · next k heap' he =>
    rw [he] at hk
    change heap'.Balanced ({k} + _) pins at hk
    have hv := Heap.Balanced.allocScalar (m := {k} + (frame.values + m)) hk value
    split
    · next f heap'' he' =>
      rw [he'] at hv
      exact ⟨hv.1.release, hv.2⟩
    · next v heap'' he' =>
      rw [he'] at hv
      replace hv : heap''.Balanced ({k} + ({v} + (frame.values + m))) pins := by
        rw [add_left_comm]
        exact hv
      split
      · next h hh =>
        exact hv.set (hv.live (by simp [Frame.mem_values hh]))
      · refine ⟨Heap.Balanced.releaseAll ?_, by rintro ⟨⟩⟩
        rwa [Heap.coe_pair, add_assoc]

theorem store_serves (hb : heap.Balanced (frame.values + m) pins) (name : String)
    (key value : Scalar) :
    Heap.Serves m pins ((store name key value heap frame).1,
      (store name key value heap frame).2, frame) := by
  have h := store_yields hb name key value
  generalize store name key value heap frame = r at h ⊢
  obtain ⟨r, heap'⟩ := r
  cases r with
  | ok => exact ⟨zero_add (frame.values + m : Multiset Value) ▸ h, trivial⟩
  | error f => exact h

/-- An array is made first where the variable is not set. -/
theorem arraySet_serves (hb : heap.Balanced (frame.values + m) pins) (name : String)
    (key value : Scalar) :
    Heap.Serves m pins ((arraySet name key value).answer heap frame) := by
  simp only [answer]
  by_cases hc : frame.contains name
  · rw [if_pos hc]
    exact store_serves hb name key value
  · rw [if_neg hc]
    have h := bindNew_serves hb.yields_allocArray name
    generalize bindNew name heap.allocArray frame = r at h ⊢
    obtain ⟨r, heap', frame'⟩ := r
    cases r with
    | ok => exact store_serves h.1 name key value
    | error f => exact h

/-! ### Requests -/

/-- No request is answered with a handle that leads nowhere, and all are counted right. -/
theorem answer_serves (hb : heap.Balanced (frame.values + m) pins) (r : HostRequest) :
    Heap.Serves m pins (r.answer heap frame) := by
  -- What is only looked at leaves the heap. A handle that is followed comes from a variable, so it
  -- is live.
  cases r with
  | get name depth => exact ⟨hb, (value?_sane frame name).map _⟩
  | has name => exact ⟨hb, trivial⟩
  | typeOf name => exact ⟨hb, trivial⟩
  | getInt name =>
    have hs := value?_sane frame name
    simp only [answer]
    split
    · exact ⟨hb, trivial⟩
    · exact ⟨hb, by rintro ⟨⟩⟩
    · next hf => exact ⟨hb, by rwa [hf] at hs⟩
  | getFloat name =>
    have hs := value?_sane frame name
    simp only [answer]
    split
    · split
      · exact ⟨hb, trivial⟩
      · exact ⟨hb, by rintro ⟨⟩⟩
    · next hf => exact ⟨hb, by rwa [hf] at hs⟩
  | getStr name =>
    have hs := value?_sane frame name
    simp only [answer]
    split
    · next h hh =>
      obtain ⟨text, ht⟩ := Heap.Balanced.str (live_of_value? hb hh)
      rw [ht]
      exact ⟨hb, trivial⟩
    · exact ⟨hb, by rintro ⟨⟩⟩
    · next hf => exact ⟨hb, by rwa [hf] at hs⟩
  | getText name => exact ⟨hb, (value?_sane frame name).map _⟩
  | refs name => exact ⟨hb, (value?_sane frame name).map _⟩
  | live => exact ⟨hb, trivial⟩
  | setInt name n => exact ⟨bind_balanced (hb.number rfl) name, trivial⟩
  | setFloat name x => exact ⟨bind_balanced (hb.number rfl) name, trivial⟩
  | setStr name text => exact bindNew_serves (hb.yields_allocString text) name
  | makeArray name => exact bindNew_serves hb.yields_allocArray name
  | arrayGet name key depth =>
    have hs := array?_sane frame name
    simp only [answer]
    split
    · next h hh =>
      have hg := hb.get? (live_of_array? hb hh) key
      split
      · exact ⟨hb, trivial⟩
      · exact ⟨hb, by rintro ⟨⟩⟩
      · next hf => exact ⟨hb, by rwa [hf] at hg⟩
    · next hf => exact ⟨hb, by rwa [hf] at hs⟩
  | arraySet name key value => exact arraySet_serves hb name key value
  | arrayRemove name key =>
    have hs := array?_sane frame name
    simp only [answer]
    split
    · next h hh =>
      have hr := hb.remove (live_of_array? hb hh) key
      generalize heap.remove h key = r at hr ⊢
      obtain ⟨r, heap'⟩ := r
      cases r with
      | ok => exact ⟨zero_add (frame.values + m : Multiset Value) ▸ hr, trivial⟩
      | error f => exact hr
    · next hf => exact ⟨hb, by rwa [hf] at hs⟩
  | arraySize name =>
    have hs := array?_sane frame name
    simp only [answer]
    split
    · next h hh => exact ⟨hb, hb.size (live_of_array? hb hh)⟩
    · next hf => exact ⟨hb, by rwa [hf] at hs⟩
  | entries name depth =>
    have hs := array?_sane frame name
    simp only [answer]
    split
    · next h hh =>
      obtain ⟨_, _, -, -, he⟩ := hb.elements (live_of_array? hb hh)
      refine ⟨hb, ?_⟩
      rw [he]
      trivial
    · next hf => exact ⟨hb, by rwa [hf] at hs⟩

end HostRequest

/-! ### Looks -/

namespace HostLook

/-- The fault that a look shows. -/
def faults : (l : HostLook) → l.Reply → Set Fault
  | first _, .error f => {f}
  | _, _ => ∅

/-- No look meets a handle that leads nowhere. -/
theorem see_sane (hb : heap.Balanced (frame.values + m) pins) (l : HostLook)
    (cursors : List Handle) :
    ∀ f ∈ l.faults (l.see heap frame cursors).1, ¬f.Dangling := by
  cases l with
  | first name =>
    have hs := HostRequest.array?_sane frame name
    simp only [see]
    split
    · next h hh =>
      obtain ⟨link, hl⟩ := Heap.live_array.1 (HostRequest.live_of_array? hb hh)
      rw [Heap.first_eq_ok.2 hl]
      rintro _ ⟨⟩
    · next f hf =>
      rintro _ rfl
      rwa [hf] at hs
  | _ => rintro _ ⟨⟩

end HostLook

/-! ### Host functions -/

namespace HostProgram

/-- A host function keeps the books whatever it asks for. -/
theorem run_balanced (p : HostProgram) (hb : heap.Balanced (frame.values + m) pins)
    (cursors : List Handle) (journal : List String) :
    (p.run heap frame cursors journal).2.1.Balanced
      ((p.run heap frame cursors journal).2.2.1.values + m) pins := by
  induction p generalizing heap frame cursors journal with
  | done => exact hb
  | raise f => exact hb
  | request r next ih =>
    rw [run]
    exact ih _ (HostRequest.answer_serves hb r).1 ..
  | look l next ih =>
    rw [run]
    exact ih _ hb ..
  | note line next ih => exact ih hb ..

/-- Only the faults in `seen`, those shown on the way and those of the host are raised. -/
def Honest (seen : Set Fault) : HostProgram → Prop
  | done => True
  | raise f => f ∈ seen ∨ f.kind = .foreign
  | request r next =>
    (∀ a : r.Reply, (next (.ok a)).Honest seen) ∧ ∀ f, (next (.error f)).Honest (insert f seen)
  | look l next => ∀ a : l.Reply, (next a).Honest (l.faults a ∪ seen)
  | note _ next => next.Honest seen

/-- An honest host function raises no fault of a handle that leads nowhere. -/
theorem run_sane (p : HostProgram) {seen : Set Fault} (hp : p.Honest seen)
    (hs : ∀ f ∈ seen, ¬f.Dangling) (hb : heap.Balanced (frame.values + m) pins)
    (cursors : List Handle) (journal : List String) :
    Sane (p.run heap frame cursors journal).1 := by
  induction p generalizing seen heap frame cursors journal with
  | done => trivial
  | raise f =>
    rcases hp with hf | hf
    · exact hs f hf
    · intro hi
      cases hi <;> cases hf
  | request r next ih =>
    rw [run]
    obtain ⟨hb', hr⟩ := HostRequest.answer_serves hb r
    generalize r.answer heap frame = a at hb' hr ⊢
    obtain ⟨reply, heap', frame'⟩ := a
    cases reply with
    | ok a => exact ih _ (hp.1 a) hs hb' ..
    | error f =>
      -- The fault of the request may be raised from now on, and it is no stale handle.
      refine ih _ (hp.2 f) ?_ hb' ..
      rintro g (rfl | hg)
      · exact hr
      · exact hs g hg
  | look l next ih =>
    rw [run]
    refine ih _ (hp _) ?_ hb ..
    rintro f (hf | hf)
    · exact HostLook.see_sane hb l cursors f hf
    · exact hs f hf
  | note line next ih => exact ih hp hs hb ..

end HostProgram

end PoolScript
