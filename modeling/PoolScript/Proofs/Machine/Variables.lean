import PoolScript.Machine.State
import PoolScript.Proofs.Host.Balance
import PoolScript.Proofs.Machine.Evolution

/-!
# The values of a state

Besides what is stored in its heap, the state of a machine has the values of its variables,
those of all calls that are open. A state is *balanced* for `m` if its heap is balanced for
these values and `m`: then `m` is what is left to somebody else, the continuation of a
machine or the host.

The operations that statements and calls are made of keep states balanced, consume the values
that they are given and never fail for a handle that leads nowhere, as long as a call is open
where they need its frame (`State.Yields`).
-/

namespace PoolScript

open Fault (Sane)
open Heap (nothing single)

namespace State

variable {α : Type} {s : State} {heap : Heap} {m : Multiset Value} {pins : Set Value}
  {v key : Value} {n : Nat} {name : String}

/-- The values of the variables of all calls. -/
def values (s : State) : Multiset Value :=
  (s.frames.map fun frame => (frame.values : Multiset Value)).sum

/-- The heap is balanced for the variables and `m`. -/
def Balanced (s : State) (m : Multiset Value) (pins : Set Value) : Prop :=
  s.heap.Balanced (s.values + m) pins

/-- What an operation gives out is owned besides `m`, and `n` calls are open after it. -/
structure Yields (own : α → Multiset Value) (m : Multiset Value) (pins : Set Value) (n : Nat)
    (r : Except Fault α × State) : Prop where
  heap : Heap.Yields own (r.2.values + m) pins (r.1, r.2.heap)
  depth : r.2.frames.length = n

/-- The values of the innermost call come besides those of the others. -/
theorem values_cons (heap : Heap) (frame : Frame) (frames : List Frame) (out : LineWriter)
    (journal : List String) :
    values ⟨heap, frame :: frames, out, journal⟩ =
      frame.values + (frames.map fun frame => (frame.values : Multiset Value)).sum := by
  simp [values]

namespace Yields

theorem ok {own : α → Multiset Value} {a : α} (hb : s.Balanced (own a + m) pins)
    (hn : s.frames.length = n) : Yields own m pins n (.ok a, s) := by
  refine ⟨?_, hn⟩
  rw [Balanced, add_left_comm] at hb
  exact hb

theorem error {own : α → Multiset Value} {f : Fault} (hb : s.Balanced m pins)
    (hf : ¬f.Dangling) (hn : s.frames.length = n) : Yields own m pins n (.error f, s) :=
  ⟨⟨hb, hf⟩, hn⟩

theorem of_ok {own : α → Multiset Value} {a : α} (h : Yields own m pins n (.ok a, s)) :
    s.Balanced (own a + m) pins := by
  rw [Balanced, add_left_comm]
  exact h.heap

theorem of_error {own : α → Multiset Value} {f : Fault} (h : Yields own m pins n (.error f, s)) :
    s.Balanced m pins ∧ ¬f.Dangling :=
  h.heap

end Yields

namespace Balanced

/-! ### The heap -/

/-- What is left to somebody else lives. -/
theorem live (hb : s.Balanced m pins) (hv : v ∈ m) : s.heap.Live v :=
  Heap.Balanced.live hb (Multiset.mem_add.2 (.inr hv))

theorem onHeap {own : α → Multiset Value} {f : Heap → Except Fault α × Heap}
    (h : Heap.Yields own (s.values + m) pins (f s.heap)) :
    Yields own m pins s.frames.length (s.onHeap f) :=
  ⟨h, rfl⟩

theorem releaseAll {vs : List Value} (hb : s.Balanced (vs + m) pins) :
    (s.releaseAll vs).Balanced m pins := by
  rw [Balanced, add_left_comm] at hb
  exact Heap.Balanced.releaseAll hb

theorem number (hb : s.Balanced m pins) (hv : v.isCounted = false) :
    s.Balanced ({v} + m) pins := by
  rw [Balanced, add_left_comm]
  exact Heap.Balanced.number hb hv

theorem of_number (hb : s.Balanced ({v} + m) pins) (hv : v.isCounted = false) :
    s.Balanced m pins := by
  rw [Balanced, add_left_comm] at hb
  exact Heap.Balanced.of_number hb hv

/-! ### Variables -/

/-- Where a call is open its frame is looked into. -/
theorem exists_lookup (hs : s.frames ≠ []) (name : String) :
    ∃ frame frames, s.frames = frame :: frames ∧ s.lookup name = .ok (frame.get? name) := by
  rcases s with ⟨heap, _ | ⟨frame, frames⟩, out, journal⟩
  · exact absurd rfl hs
  · exact ⟨frame, frames, rfl, rfl⟩

/-- What a variable refers to lives. -/
theorem lookup_live (hb : s.Balanced m pins) (h : s.lookup name = .ok (some v)) :
    s.heap.Live v := by
  rcases s with ⟨heap, _ | ⟨frame, frames⟩, out, journal⟩
  · cases h
  · refine Heap.Balanced.live hb (Multiset.mem_add.2 (.inl ?_))
    rw [values_cons]
    exact Multiset.mem_add.2 (.inl (Frame.mem_values (Except.ok.inj h)))

/-- A copy of a variable is owned besides the variable. -/
theorem load (hb : s.Balanced m pins) (hs : s.frames ≠ []) (name : String) :
    Yields single m pins s.frames.length (s.load name) := by
  rcases s with ⟨heap, _ | ⟨frame, frames⟩, out, journal⟩
  · exact absurd rfl hs
  simp only [State.load]
  cases hv : frame.get? name with
  | none => exact .error hb (by rintro ⟨⟩) rfl
  | some v =>
    have hlookup : State.lookup ⟨heap, frame :: frames, out, journal⟩ name = .ok (some v) :=
      congrArg Except.ok hv
    have hlive := hb.lookup_live hlookup
    rcases heap.retain_cases v with ⟨heap', hr, hcopy⟩ | ⟨a, hr, ha⟩
    · simp only [hr]
      exact ⟨Heap.Balanced.retain hb hlive hcopy, rfl⟩
    · obtain rfl := ha hlive.isLive
      simp only [hr]
      exact .error hb (by rintro ⟨⟩) rfl

/-- A variable owns what it is bound to, and what it had is given back. -/
theorem bind (hb : s.Balanced ({v} + m) pins) (hs : s.frames ≠ []) (name : String) :
    Yields nothing m pins s.frames.length (s.bind name v) := by
  rcases s with ⟨heap, _ | ⟨frame, frames⟩, out, journal⟩
  · exact absurd rfl hs
  refine .ok ?_ rfl
  rw [zero_add]
  rw [Balanced, values_cons, add_left_comm, add_assoc] at hb
  rw [Balanced, values_cons, add_assoc]
  exact HostRequest.bind_balanced hb name

/-! ### Elements -/

/-- A copy of an element is owned besides the array. -/
theorem element (hb : s.Balanced m pins) (hs : s.frames ≠ []) (name : String)
    (hk : key ∈ m) : Yields single m pins s.frames.length (s.element name key) := by
  rw [State.element]
  obtain ⟨frame, frames, -, hl⟩ := exists_lookup hs name
  split
  · next h hh =>
    have hf := onHeap (Heap.Balanced.fetch hb (hb.lookup_live hh) (hb.live hk))
    generalize s.onHeap (Heap.fetch h key) = r at hf ⊢
    obtain ⟨r, s'⟩ := r
    cases r with
    | error f => exact ⟨hf.heap, hf.depth⟩
    | ok o =>
      cases o with
      | some v => exact ⟨hf.heap, hf.depth⟩
      | none =>
        have hb' : s'.Balanced m pins := zero_add m ▸ hf.of_ok
        have hd := Heap.Balanced.display hb' (hb'.live hk)
        simp only
        split
        · exact .error hb' (by rintro ⟨⟩) hf.depth
        · next f he => exact .error hb' (by rwa [he] at hd) hf.depth
  · exact .error hb (by rintro ⟨⟩) rfl
  · exact .error hb (by rintro ⟨⟩) rfl
  · next f hf => cases hl.symm.trans hf

/-- The key is given back after the element was looked for. -/
theorem loadElement (hb : s.Balanced ({key} + m) pins) (hs : s.frames ≠ []) (name : String) :
    Yields single m pins s.frames.length (s.loadElement name key) := by
  have he := hb.element hs name (Multiset.mem_add.2 (.inl (Multiset.mem_singleton_self _)))
  rw [State.loadElement]
  generalize s.element name key = r at he ⊢
  obtain ⟨r, s'⟩ := r
  cases r with
  | ok v =>
    refine .ok (releaseAll ?_) he.depth
    rw [add_left_comm]
    exact he.of_ok
  | error f => exact .error (releaseAll he.of_error.1) he.of_error.2 he.depth

/-- An array that is made for a variable is owned by it. -/
theorem ensureArray (hb : s.Balanced m pins) (hs : s.frames ≠ []) (name : String) :
    Yields nothing m pins s.frames.length (s.ensureArray name) := by
  rcases s with ⟨heap, _ | ⟨frame, frames⟩, out, journal⟩
  · exact absurd rfl hs
  simp only [State.ensureArray]
  split
  · refine .ok ?_ rfl
    rwa [zero_add]
  · have ha := Heap.Balanced.yields_allocArray hb
    generalize heap.allocArray = r at ha ⊢
    obtain ⟨r, heap'⟩ := r
    cases r with
    | ok v =>
      refine bind (s := ⟨heap', frame :: frames, out, journal⟩) ?_ (by rintro ⟨⟩) name
      rw [Balanced, add_left_comm]
      exact ha
    | error f => exact .error ha.1 ha.2 rfl

/-- The key and the value are owned by the array then, or given back. -/
theorem storeElement (hb : s.Balanced ({key} + ({v} + m)) pins) (hs : s.frames ≠ [])
    (name : String) : Yields nothing m pins s.frames.length (s.storeElement name key v) := by
  have pair {s : State} (hb : s.Balanced ({key} + ({v} + m)) pins) :
      s.Balanced (([key, v] : List Value) + m) pins := by rwa [Heap.coe_pair, add_assoc]
  have he := hb.ensureArray hs name
  rw [State.storeElement]
  generalize s.ensureArray name = r at he ⊢
  obtain ⟨r, s'⟩ := r
  cases r with
  | error f => exact .error (releaseAll (pair he.of_error.1)) he.of_error.2 he.depth
  | ok u =>
    have hb' : s'.Balanced ({key} + ({v} + m)) pins := zero_add ({key} + ({v} + m)) ▸ he.of_ok
    have hs' : s'.frames ≠ [] := by
      rw [← List.length_pos_iff] at hs ⊢
      rwa [he.depth]
    obtain ⟨frame, frames, -, hl⟩ := exists_lookup hs' name
    simp only
    split
    · next h hh =>
      -- The variable keeps the array alive, though key and value are all that is held.
      rw [← he.depth]
      refine onHeap (Heap.Balanced.set ?_ (hb'.lookup_live hh))
      rw [Balanced, add_left_comm, add_left_comm s'.values] at hb'
      exact hb'
    · exact .error (releaseAll (pair hb')) (by rintro ⟨⟩) he.depth
    · next f hf => cases hl.symm.trans hf

/-! ### Calls -/

/-- The frame of a call owns the arguments, but for those that are given back. -/
theorem bindParams {heap : Heap} {frame : Frame} (ps : List String) (args : List Value)
    (hb : heap.Balanced (frame.values + (args + m)) pins) :
    (State.bindParams heap frame ps args).1.Balanced
      ((State.bindParams heap frame ps args).2.values + m) pins := by
  fun_induction State.bindParams heap frame ps args with
  | case1 heap frame p ps v vs old frame' hset ih =>
    refine ih ?_
    rw [Heap.coe_cons_add, add_left_comm] at hb
    have := HostRequest.bind_balanced hb p
    simpa only [HostRequest.bind, hset] using this
  | case2 heap frame ps vs h =>
    refine Heap.Balanced.releaseAll ?_
    rwa [add_left_comm]

/-- A call is entered with a new frame, or refused with the arguments given back. -/
theorem enter {args : List Value} (hb : s.Balanced (args + m) pins) (depth : Nat)
    (function : String) (params : List String) :
    (∃ s', s.enter depth function params args = (.ok (), s') ∧ s'.Balanced m pins ∧
      s'.frames.length = s.frames.length + 1) ∨
    (∃ s', s.enter depth function params args = (.error (.stackOverflow depth), s') ∧
      s'.Balanced m pins ∧ s'.frames.length = s.frames.length) := by
  obtain ⟨heap, frames, out, journal⟩ := s
  simp only [State.enter]
  split
  · exact .inr ⟨_, rfl, hb.releaseAll, rfl⟩
  · refine .inl ⟨_, rfl, ?_, rfl⟩
    rw [Balanced, values_cons, add_assoc]
    refine bindParams params args ?_
    rw [Balanced, add_left_comm] at hb
    rwa [← zero_add (Multiset.ofList args + _)] at hb

/-- What a call returns is owned besides its other variables. -/
theorem take_result {frame : Frame} {frames : List Frame} {out : LineWriter} {journal : List String}
    (hb : Balanced ⟨heap, frame :: frames, out, journal⟩ m pins) :
    heap.Balanced ({(frame.get? Frame.resultName).getD (.int 0)} +
      ((frame.take Frame.resultName).2.values +
        ((frames.map fun frame => (frame.values : Multiset Value)).sum + m))) pins := by
  have ht := Frame.values_take frame Frame.resultName
  rw [Balanced, values_cons, ← ht, add_assoc] at hb
  simp only [Frame.take] at hb ⊢
  cases hr : frame.get? Frame.resultName with
  | none =>
    rw [hr, Option.toList_none, Multiset.coe_nil, zero_add] at hb
    exact Heap.Balanced.number hb rfl
  | some v =>
    rw [hr, Option.toList_some, Multiset.coe_singleton, add_assoc] at hb
    exact hb

/-- A call is left in balance in whatever order its variables are given up. -/
theorem leave (hb : s.Balanced m pins) (hs : s.frames ≠ []) (order : TearDown) :
    (s.leave order).2.Balanced ({(s.leave order).1} + m) pins ∧
      (s.leave order).2.frames.length + 1 = s.frames.length := by
  rcases s with ⟨heap, _ | ⟨frame, frames⟩, out, journal⟩
  · exact absurd rfl hs
  refine ⟨?_, rfl⟩
  have hv := hb.take_result
  simp only [State.leave, Frame.take] at hv ⊢
  generalize (⟨frame.function, frame.locals.erase Frame.resultName⟩ : Frame) = left at hv ⊢
  generalize (frame.get? Frame.resultName).getD (.int 0) = v at hv ⊢
  -- The pin keeps the result when the other variables are given back.
  have hp := hv.pin hv.live_owned
  rw [add_left_comm, ← Multiset.coe_eq_coe.2 (order.perm (heap.pin v).slots left)] at hp
  have hp := hp.releaseAll
  have hu := hp.unpin hp.live_owned
  rw [add_left_comm] at hu
  exact hu

/-- When all calls are given up nothing is left to their variables. -/
theorem unwind (hb : s.Balanced m pins) (order : TearDown) :
    (s.unwind order).Balanced m pins ∧ (s.unwind order).frames = [] := by
  obtain ⟨heap, frames, out, journal⟩ := s
  refine ⟨?_, rfl⟩
  simp only [Balanced, values] at hb
  simp only [Balanced, values, State.unwind, List.map_nil, List.sum_nil, zero_add]
  -- One call after the other gives its variables back.
  induction frames generalizing heap with
  | nil => simpa using hb
  | cons frame frames ih =>
    refine ih (heap.releaseAll (order.list heap.slots frame)) (Heap.Balanced.releaseAll ?_)
    rw [List.map_cons, List.sum_cons, add_assoc] at hb
    rwa [Multiset.coe_eq_coe.2 (order.perm heap.slots frame)]

/-- Nothing is left in the heap of a state that has been reset. -/
theorem reset (hs : s.heap.strings.WellFormed) (hc : s.heap.cells.WellFormed)
    (order : TearDown) :
    (s.reset order).Balanced 0 pins ∧ (s.reset order).frames = [] := by
  have he := State.unwind_evolves (.refl s.heap) order
  obtain ⟨heap, frames, out, journal⟩ := s
  exact ⟨Heap.Balanced.clear (he.strings.wellFormed hs) (he.cells.wellFormed hc), rfl⟩

/-- A host function leaves the state balanced, and one that is honest fails for no handle. -/
theorem runHost (hb : s.Balanced m pins) (hs : s.frames ≠ []) (p : HostProgram) :
    (s.runHost p).2.Balanced m pins ∧ (s.runHost p).2.frames.length = s.frames.length ∧
      (p.Honest ∅ → Sane (s.runHost p).1) := by
  rcases s with ⟨heap, _ | ⟨frame, frames⟩, out, journal⟩
  · exact absurd rfl hs
  rw [Balanced, values_cons, add_assoc] at hb
  refine ⟨?_, rfl, fun hp => p.run_sane hp (by rintro _ ⟨⟩) hb [] journal⟩
  have := p.run_balanced hb [] journal
  rw [Balanced]
  change Heap.Balanced _ (values ⟨_, _ :: frames, out, _⟩ + m) pins
  rw [values_cons, add_assoc]
  exact this

end Balanced

end State

end PoolScript
