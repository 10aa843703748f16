import PoolScript.Proofs.Heap.Change
import PoolScript.Proofs.Heap.Evolution

/-!
# What can be done with a heap

A `HeapAction` *takes* some values, which whoever does it does not hold afterwards, *borrows*
others, which they go on holding, and *gives* values that they hold from then on.

An action that takes and borrows values that are held changes the heap in one of the ways of
`Heap.Change`, and keeps its books (`HeapAction.perform_booked`). So it keeps the heap balanced
for what is held (`HeapAction.perform_balanced`). Any action at all evolves the heap
(`HeapAction.perform_evolves`).
-/

namespace PoolScript

/-- What a host can do with a heap. -/
inductive HeapAction where
  | releaseAll (vs : List Value)
  | allocScalar (s : Scalar)
  | allocArray
  | retain (v : Value)
  | set (array : Handle) (key value : Value)
  | fetch (array : Handle) (key : Value)
  | remove (array : Handle) (key : Scalar)
  | removeValue (array : Handle) (key : Value)
  | entry (cell : Handle)
  | pin (v : Value)
  | unpin (v : Value)

namespace HeapAction

/-- The values that an action takes. -/
def takes : HeapAction → List Value
  | releaseAll vs => vs
  | set _ key value => [key, value]
  | _ => []

/-- The values that an action only looks at, or that stay where they are. -/
def borrows : HeapAction → List Value
  | retain v => [v]
  | set array _ _ => [.array array]
  | fetch array key => [.array array, key]
  | remove array _ => [.array array]
  | removeValue array key => [.array array, key]
  | pin v => [v]
  | unpin v => [v]
  | _ => []

/-- The array that an action writes. -/
def writes : HeapAction → Option Handle
  | set array _ _ => some array
  | remove array _ => some array
  | removeValue array _ => some array
  | _ => none

/-- The value that an operation made, if it did not fail. -/
def made : Except Fault Value → List Value
  | .ok v => [v]
  | .error _ => []

/-- Does something with a heap. Gives the values that come of it. -/
def perform : HeapAction → Heap → List Value × Heap
  | releaseAll vs, heap => ([], heap.releaseAll vs)
  | allocScalar s, heap => (heap.allocScalar s).map made id
  | allocArray, heap => heap.allocArray.map made id
  | retain v, heap => (heap.retain v).map made id
  | set array key value, heap => ([], (heap.set array key value).2)
  | fetch array key, heap =>
    match heap.fetch array key with
    | (.ok v, heap) => (v.toList, heap)
    | (.error _, heap) => ([], heap)
  | remove array key, heap => ([], (heap.remove array key).2)
  | removeValue array key, heap => ([], (heap.removeValue array key).2)
  | entry cell, heap =>
    match heap.entry cell with
    | (.ok (some (key, value)), heap) => ([key, value], heap)
    | (_, heap) => ([], heap)
  | pin v, heap => ([], heap.pin v)
  | unpin v, heap => ([], heap.unpin v)

/-- An action pins only values in `pins`. -/
def PinsIn (pins : Set Value) : HeapAction → Prop
  | pin v => v ∈ pins
  | _ => True

/-- What is pinned after an action, when `pins` were pinned before. -/
def repin (pins : Set Value) : HeapAction → Set Value
  | pin v => insert v pins
  | unpin v => pins \ {v}
  | _ => pins

theorem repin_subset {a : HeapAction} {p pins : Set Value} (hp : p ⊆ pins) (ha : a.PinsIn pins) :
    a.repin p ⊆ pins := by
  cases a with
  | pin v => exact Set.insert_subset ha hp
  | unpin v => exact Set.sdiff_subset.trans hp
  | _ => exact hp

end HeapAction

/-! ### Actions keep the books -/

namespace HeapAction

variable {heap : Heap} {φ : Handle → List (Handle × Element)} {m : Multiset Value}
  {pins gone : Set Value} {a : HeapAction}

open Heap (Thins Booked)

/-- An action with values that are owned keeps the books. -/
theorem perform_booked (hk : heap.Booked φ (a.takes + m) pins gone) (hs : heap.Spares gone)
    (hv : ∀ v ∈ a.borrows, heap.Live v ∨ v ∈ gone) :
    ∃ φ', Heap.Change heap φ a.writes (a.perform heap).2 φ' ∧
      (a.perform heap).2.Booked φ' ((a.perform heap).1 + m) (a.repin pins) gone := by
  have zero {heap : Heap} {φ : Handle → List (Handle × Element)} {pins : Set Value}
      (hk : heap.Booked φ m pins gone) :
      heap.Booked φ ((([] : List Value) : Multiset Value) + m) pins gone := (zero_add m).symm ▸ hk
  have owned : a.takes = [] → heap.Booked φ m pins gone := fun h => by simpa [h] using hk
  cases a with
  | releaseAll vs => exact ⟨φ, .thinned (.releaseAll ..), zero hk.releaseAll⟩
  | allocScalar s =>
    cases s with
    | int n => exact ⟨φ, .thinned (.refl heap), (owned rfl).number rfl⟩
    | float x => exact ⟨φ, .thinned (.refl heap), (owned rfl).number rfl⟩
    | str text =>
      simp only [perform, Heap.allocScalar]
      rcases Heap.allocString_cases hk.strings text with ⟨h, strings, ha, hal⟩ | ha
      · rw [ha]
        exact ⟨φ, .string hal, (owned rfl).add_string hal (hs.strings hal)⟩
      · rw [ha]
        exact ⟨φ, .thinned (.refl heap), zero (owned rfl)⟩
  | allocArray =>
    simp only [perform]
    rcases Heap.allocArray_cases hk.cells with ⟨h, cells, ha, hal⟩ | ha
    · rw [ha]
      exact ⟨_, .array hal, (owned rfl).add_head hal (hs.cells hal)⟩
    · rw [ha]
      exact ⟨φ, .thinned (.refl heap), zero (owned rfl)⟩
  | retain v =>
    simp only [perform]
    rcases heap.retain_cases v with ⟨heap', hr, hcopy⟩ | ⟨_, hr, -⟩
    · rw [hr]
      exact ⟨φ, .thinned (.retains hcopy), (owned rfl).retain (hv v (by simp [borrows])) hcopy⟩
    · rw [hr]
      exact ⟨φ, .thinned (.refl heap), zero (owned rfl)⟩
  -- What is set takes its key and its value from those that are owned.
  | set array key value =>
    obtain ⟨φ', ho⟩ := Heap.set_outcome hk.cells hk.laid array key value
    refine ⟨φ', .set rfl ho, zero (Booked.set ?_ hs ho)⟩
    rw [← add_assoc]
    exact hk
  | fetch array key =>
    have hf := (owned rfl).fetch array key
    have ht := Thins.fetch heap array key
    simp only [perform]
    generalize heap.fetch array key = r at hf ht ⊢
    rcases r with ⟨_ | v, heap'⟩ <;> exact ⟨φ, .thinned ht, hf⟩
  | remove array key =>
    obtain ⟨φ', ho⟩ := Heap.remove_outcome hk.laid array key
    exact ⟨φ', .remove rfl ho, zero ((owned rfl).remove ho)⟩
  | removeValue array key =>
    simp only [perform, Heap.removeValue]
    cases heap.scalar key with
    | ok s =>
      obtain ⟨φ', ho⟩ := Heap.remove_outcome hk.laid array s
      exact ⟨φ', .remove rfl ho, zero ((owned rfl).remove ho)⟩
    | error f => exact ⟨φ, .thinned (.refl heap), zero (owned rfl)⟩
  | entry cell =>
    have he := (owned rfl).entry cell
    have ht := Thins.entry heap cell
    simp only [perform]
    generalize heap.entry cell = r at he ht ⊢
    rcases r with ⟨_ | _ | ⟨key, value⟩, heap'⟩ <;> exact ⟨φ, .thinned ht, he⟩
  | pin v => exact ⟨φ, .thinned (.pin ..), zero ((owned rfl).pin (hv v (by simp [borrows])))⟩
  | unpin v =>
    exact ⟨φ, .thinned (.unpin ..), zero ((owned rfl).unpin (hv v (by simp [borrows])))⟩

/-- An action with values that are owned keeps the heap balanced. -/
theorem perform_balanced (hb : heap.Balanced (a.takes + m) pins) (ha : ∀ v ∈ a.borrows, v ∈ m)
    (hp : a.PinsIn pins) : (a.perform heap).2.Balanced ((a.perform heap).1 + m) pins := by
  obtain ⟨φ, p, hp', hk⟩ := hb.booked
  have live (v : Value) (hv : v ∈ a.borrows) : heap.Live v ∨ v ∈ (∅ : Set Value) :=
    hk.known (Multiset.mem_add.2 (.inr (ha v hv)))
  obtain ⟨φ', -, hk'⟩ := perform_booked hk (.empty heap) live
  exact hk'.balanced (repin_subset hp' hp)

end HeapAction

/-! ### Actions evolve the heap -/

theorem HeapAction.perform_evolves (a : HeapAction) (heap : Heap) :
    heap.Evolves (a.perform heap).2 := by
  have h : heap.Becomes heap := .refl
  refine Heap.Becomes.evolves ?_
  cases a with
  | releaseAll vs => exact h.releaseAll vs
  | allocScalar s => exact h.allocScalar s
  | allocArray => exact h.allocArray
  | retain v => exact h.retain v
  | set array key value => exact h.set ..
  | fetch array key =>
    have hf := h.fetch array key
    simp only [perform]
    generalize heap.fetch array key = r at hf ⊢
    rcases r with ⟨_ | v, heap'⟩ <;> exact hf
  | remove array key => exact h.remove ..
  | removeValue array key => exact h.removeValue ..
  | entry cell =>
    have he := h.entry cell
    simp only [perform]
    generalize heap.entry cell = r at he ⊢
    rcases r with ⟨_ | _ | ⟨key, value⟩, heap'⟩ <;> exact he
  | pin v => exact h.pin v
  | unpin v => exact h.unpin v

end PoolScript
