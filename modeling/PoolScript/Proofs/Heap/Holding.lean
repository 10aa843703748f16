import Mathlib.Logic.Relation
import PoolScript.Proofs.Heap.Actions

/-!
# Working with a heap

Whoever works with a heap holds values, in their own hands and in the guards of values on their
way out of calls. They do one thing after another with the heap (`Heap.Deed`), each value that is
taken is one that they hold, and each value that is looked at is held or lives in the heap. When
the heap is cleared, they go on holding what they held: these values are *lost*.

Each step keeps the books of the heap and its keys distinct (`Step.kept`), as long as no value that
was lost comes alive again. That cannot be while nothing was lost or no slot was vacated as often
as there are generations (`Certain`). So the books are kept in every state that is reached from an
empty heap (`Reached.kept`).
-/

namespace PoolScript.Heap

/-- What is done with a heap. -/
inductive Deed where
  | act (a : HeapAction)
  /-- A number is made from nothing. -/
  | number (v : Value)
  | pinReturn (v : Value)
  | adopt (p : Pinned)
  | clear

/-- What is pinned after a deed, when `pins` were pinned before. -/
def Deed.repin (pins : Set Value) : Deed → Set Value
  | act a => a.repin pins
  | number _ => pins
  | pinReturn v => insert v pins
  | adopt p => pins \ {p.value}
  | clear => ∅

/-- The array that a deed writes. -/
def Deed.writes : Deed → Option Handle
  | act a => a.writes
  | _ => none

/-- A heap and what whoever works with it holds. -/
structure Holding where
  heap : Heap
  values : Multiset Value
  guards : Multiset Pinned
  /-- The strings and arrays that were held when the heap was cleared. -/
  lost : Set Value

namespace Holding

/-- All values that are held, those in guards included. -/
def owned (s : Holding) : Multiset Value :=
  s.values + s.guards.map Pinned.value

/-- An empty heap, and nothing that is held. -/
def start (strings cells : Nat) : Holding :=
  ⟨.empty strings cells, 0, 0, ∅⟩

/-- One thing is done with a heap. -/
inductive Step : Deed → Holding → Holding → Prop
  | act {a : HeapAction} {heap : Heap} {rest : Multiset Value} {guards : Multiset Pinned}
      {lost : Set Value}
      (borrows : ∀ v ∈ a.borrows, v ∈ rest + guards.map Pinned.value ∨ heap.Live v) :
      Step (.act a) ⟨heap, a.takes + rest, guards, lost⟩
        ⟨(a.perform heap).2, (a.perform heap).1 + rest, guards, lost⟩
  | number {v : Value} {heap : Heap} {values : Multiset Value} {guards : Multiset Pinned}
      {lost : Set Value} (number : v.isCounted = false) :
      Step (.number v) ⟨heap, values, guards, lost⟩ ⟨heap, {v} + values, guards, lost⟩
  | pinReturn {v : Value} {heap : Heap} {rest : Multiset Value} {guards : Multiset Pinned}
      {lost : Set Value} :
      Step (.pinReturn v) ⟨heap, {v} + rest, guards, lost⟩
        ⟨(heap.pinReturn v).2, rest, {(heap.pinReturn v).1} + guards, lost⟩
  | adopt {p : Pinned} {heap : Heap} {values : Multiset Value} {rest : Multiset Pinned}
      {lost : Set Value} :
      Step (.adopt p) ⟨heap, values, {p} + rest, lost⟩
        ⟨(p.adopt heap).2, {(p.adopt heap).1} + values, rest, lost⟩
  | clear {s : Holding} :
      Step .clear s { s with
        heap := s.heap.clear
        lost := s.lost ∪ {v | v ∈ s.owned ∧ v.isCounted} }

/-- Some things are done with a heap, one after another. -/
def Leads : Holding → Holding → Prop :=
  Relation.ReflTransGen fun s t => ∃ d, Step d s t

/-- The states that are reached from an empty heap. -/
def Reached (strings cells : Nat) (s : Holding) : Prop :=
  (start strings cells).Leads s

/-- Nothing that was lost can be taken for something else: either nothing was held when the heap was
    cleared, or no slot came to the end of its generations. -/
def Certain (s : Holding) : Prop :=
  s.lost = ∅ ∨ s.heap.Young

/-- The books of the heap are kept, the keys of every array are distinct, and the slots of what was
    lost were vacated. -/
structure Kept (s : Holding) (φ : Handle → List (Handle × Element)) (pins : Set Value) : Prop where
  booked : s.heap.Booked φ s.owned pins s.lost
  keyed : s.heap.Keyed φ
  retired : ∀ v ∈ s.lost, s.heap.Retired v

variable {d : Deed} {s s' : Holding} {strings cells : Nat}
  {φ : Handle → List (Handle × Element)} {pins : Set Value}

/-! ### Steps evolve the heap -/

theorem Step.evolves (h : Step d s s') : s.heap.Evolves s'.heap := by
  cases h with
  | act => exact HeapAction.perform_evolves ..
  | number => exact .refl _
  | pinReturn => exact (Becomes.refl.pin _).evolves
  | adopt => exact (Becomes.refl.unpin _).evolves
  | clear => exact (Evolves.refl _).clear

theorem Step.lost_subset (h : Step d s s') : s.lost ⊆ s'.lost := by
  cases h with
  | clear => exact Set.subset_union_left
  | _ => exact subset_rfl

theorem Step.lost_eq (h : Step d s s') (hd : d ≠ .clear) : s'.lost = s.lost := by
  cases h with
  | clear => exact absurd rfl hd
  | _ => rfl

theorem Step.certain (h : Step d s s') (hc : s'.Certain) : s.Certain :=
  hc.imp (fun hl => Set.subset_empty_iff.1 (h.lost_subset.trans hl.subset)) h.evolves.young

theorem Leads.evolves (h : s.Leads s') : s.heap.Evolves s'.heap := by
  induction h with
  | refl => exact .refl _
  | tail _ h ih =>
    obtain ⟨d, h⟩ := h
    exact ih.trans h.evolves

/-! ### Steps keep the books -/

theorem Kept.start (strings cells : Nat) : (start strings cells).Kept (fun _ => []) ∅ where
  booked := by
    simpa [Holding.start, owned] using Booked.empty strings cells
  keyed _ := .nil _
  retired _ hv := hv.elim

/-- What was lost is not made again. -/
theorem Kept.spares (hk : s.Kept φ pins) (hc : s.Certain) : s.heap.Spares s.lost := by
  rcases hc with hl | hy
  · exact hl ▸ .empty _
  · exact ⟨fun hal hv => hal.not_retired hy.strings (hk.retired _ hv),
      fun hal hv => hal.not_retired hy.cells (hk.retired _ hv)⟩

theorem Kept.known (hk : s.Kept φ pins) {v : Value} (hv : v ∈ s.owned ∨ s.heap.Live v) :
    s.heap.Live v ∨ v ∈ s.lost :=
  hv.elim hk.booked.known .inl

/-- What is held when the heap is cleared is retired by that, if it was not lost before. -/
theorem Kept.retired_clear (hk : s.Kept φ pins) {v : Value}
    (hv : v ∈ s.lost ∪ {v | v ∈ s.owned ∧ v.isCounted}) : s.heap.clear.Retired v := by
  have lost (hv : v ∈ s.lost) : s.heap.clear.Retired v :=
    (Evolves.refl s.heap).clear.retired (hk.retired v hv)
  rcases hv with hv | ⟨hv, hc⟩
  · exact lost hv
  · rcases hk.booked.known hv with hl | hl
    · obtain ⟨n, pinned, ht⟩ := hl hc
      exact (Evolves.refl s.heap).clear.retired_of_clear hk.booked.strings hk.booked.cells
        (isLive_of_tally? ht) hc
    · exact lost hl

theorem Kept.clear (hk : s.Kept φ pins) :
    Kept { s with
      heap := s.heap.clear
      lost := s.lost ∪ {v | v ∈ s.owned ∧ v.isCounted} } (fun _ => []) ∅ where
  booked := by
    refine .clear hk.booked.strings hk.booked.cells (fun v hv hc => .inr ⟨hv, hc⟩) ?_
    rintro v (hv | ⟨-, hc⟩)
    · exact (hk.retired v hv).isCounted
    · exact hc
  keyed _ := .nil _
  retired _ hv := hk.retired_clear hv

/-- One step that does not clear the heap changes it in one of the ways that there are, and keeps
    the books. -/
theorem Step.change (h : Step d s s') (hk : s.Kept φ pins) (hc : s.Certain) (hd : d ≠ .clear) :
    ∃ φ', Change s.heap φ d.writes s'.heap φ' ∧ s'.Kept φ' (d.repin pins) := by
  have hs := hk.spares hc
  have hr := fun v hv => h.evolves.retired (hk.retired v hv)
  -- What is lost stays lost, so it is the books for what is held then that matter.
  have kept {φ'} (hch : Change s.heap φ d.writes s'.heap φ') (hl : s'.lost = s.lost)
      (hb : s'.heap.Booked φ' s'.owned (d.repin pins) s.lost) :
      ∃ φ', Change s.heap φ d.writes s'.heap φ' ∧ s'.Kept φ' (d.repin pins) :=
    ⟨φ', hch, hl ▸ hb, hch.keyed hk.booked hk.keyed hb, hl ▸ hr⟩
  have hb := hk.booked
  cases h with
  | @act a heap rest guards lost borrows =>
    simp only [owned, add_assoc] at hb
    obtain ⟨φ', hch, hb'⟩ := HeapAction.perform_booked hb hs fun v hv => by
      refine hk.known ((borrows v hv).imp_left fun hv => ?_)
      rw [owned, add_assoc]
      exact Multiset.mem_add.2 (.inr hv)
    refine kept hch rfl ?_
    rw [owned, add_assoc]
    exact hb'
  | @number v heap values guards lost hv =>
    refine kept (.thinned (.refl heap)) rfl ?_
    rw [owned, add_assoc]
    exact hb.number hv
  | @pinReturn v heap rest guards lost =>
    have hv : heap.Live v ∨ v ∈ lost := hk.known (.inl (by simp [owned]))
    refine kept (.thinned (.pin heap v)) rfl ?_
    have he : owned ⟨(heap.pinReturn v).2, rest, {(heap.pinReturn v).1} + guards, lost⟩ =
        owned ⟨heap, {v} + rest, guards, lost⟩ := by
      simp only [owned, Heap.pinReturn, Multiset.map_add, Multiset.map_singleton]
      abel
    rw [he]
    exact hb.pin hv
  | @adopt p heap values rest lost =>
    have hv : heap.Live p.value ∨ p.value ∈ lost := hk.known (.inl (by simp [owned]))
    refine kept (.thinned (.unpin heap p.value)) rfl ?_
    have he : owned ⟨(p.adopt heap).2, {(p.adopt heap).1} + values, rest, lost⟩ =
        owned ⟨heap, values, {p} + rest, lost⟩ := by
      simp only [owned, Heap.Pinned.adopt, Multiset.map_add, Multiset.map_singleton]
      abel
    rw [he]
    exact hb.unpin hv
  | clear => exact absurd rfl hd

/-- One step keeps the books, and cells are only inherited. -/
theorem Step.kept (h : Step d s s') (hk : s.Kept φ pins) (hc : s.Certain) :
    ∃ φ', s'.Kept φ' (d.repin pins) ∧
      Layout.Inherits s.heap.cells.get? φ s'.heap.cells.get? φ' := by
  by_cases hd : d = .clear
  · subst hd
    cases h
    refine ⟨_, hk.clear, fun ha => ?_, fun ha => ?_⟩ <;>
      simp [Heap.clear, Pool.get?, Pool.entry?_clear hk.booked.cells.size_lt] at ha
  · obtain ⟨φ', hch, hk'⟩ := h.change hk hc hd
    exact ⟨φ', hk', hch.inherits hk.booked.laid⟩

/-- In every state that is reached from an empty heap the books are kept. -/
theorem Reached.kept (h : Reached strings cells s) (hc : s.Certain) : ∃ φ pins, s.Kept φ pins := by
  -- By induction on the steps, from the last one backwards for what is certain.
  induction h with
  | refl => exact ⟨_, _, .start strings cells⟩
  | tail _ h ih =>
    obtain ⟨d, h⟩ := h
    obtain ⟨φ, pins, hk⟩ := ih (h.certain hc)
    obtain ⟨φ', hk', -⟩ := h.kept hk (h.certain hc)
    exact ⟨φ', _, hk'⟩

/-! ### A heap with an element -/

/-- What is there after the action `a`, when `rest` is held besides what it takes. -/
def does (a : HeapAction) (rest : Multiset Value) (s : Holding) : Holding :=
  { s with heap := (a.perform s.heap).2, values := (a.perform s.heap).1 + rest }

theorem Step.does {a : HeapAction} {rest : Multiset Value} (hv : s.values = a.takes + rest)
    (hb : ∀ v ∈ a.borrows, v ∈ rest) : Step (.act a) s (s.does a rest) := by
  obtain ⟨heap, values, guards, lost⟩ := s
  obtain rfl : values = a.takes + rest := hv
  exact .act fun v hm => .inl (Multiset.mem_add.2 (.inl (hb v hm)))

theorem Reached.does {a : HeapAction} {rest : Multiset Value} (h : Reached strings cells s)
    (hv : s.values = a.takes + rest) (hb : ∀ v ∈ a.borrows, v ∈ rest) :
    Reached strings cells (s.does a rest) :=
  h.tail ⟨_, .does hv hb⟩

/-- An array whose only element has a text as its key and the same text as its value. -/
def mirror : Holding :=
  let array : Value := .array ⟨0, 0⟩
  let text : Value := .str ⟨0, 0⟩
  (start 2 2).does .allocArray 0
    |>.does (.allocScalar (.str "glass")) {array}
    |>.does (.retain text) {text, array}
    |>.does (.set ⟨0, 0⟩ text text) {array}

theorem mirror_reached : Reached 2 2 mirror := by
  have h : Reached 2 2 (start 2 2) := .refl
  refine (((h.does ?_ ?_).does ?_ ?_).does ?_ ?_).does ?_ ?_
  all_goals decide +kernel

end Holding

end PoolScript.Heap
