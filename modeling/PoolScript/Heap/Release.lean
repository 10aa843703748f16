import PoolScript.Heap

/-!
# Giving references back

When the last reference to an array is given back, its elements go with it, and the
references that their keys and values were are given back in turn. What remains to be
given back is a list, the next reference in front; arrays in which an array contains
itself keep each other alive and are never reached.

* `collect_length`: collecting elements puts two references on the list for each cell it
  frees, which is why the list comes to its end.
-/

namespace PoolScript.Heap

/-- Frees the elements from `link` on, with what they own put in front of `pending`. -/
def collect (link : Option Handle) (pending : List Value) (cells : Pool Cell) :
    List Value × Pool Cell :=
  match link with
  | none => (pending, cells)
  | some h =>
    match _ : cells.reclaim h with
    | (some (.element e), cells') => collect e.next (e.value :: e.key :: pending) cells'
    | (_, cells') => (pending, cells')
termination_by cells.used
decreasing_by
  have := Pool.used_reclaim_some ‹cells.reclaim h = _›
  omega

/-- The elements that the freed cell `c` leads to: those of an array, if it was a head. -/
def elementsOf : Cell → Option Handle
  | .head next => next
  | .element _ => none

/-- Collecting does not lengthen the list by more than two for each cell it frees. -/
theorem collect_length (link : Option Handle) (pending : List Value) (cells : Pool Cell) :
    (collect link pending cells).1.length + 2 * (collect link pending cells).2.used ≤
      pending.length + 2 * cells.used := by
  fun_induction collect link pending cells with
  | case1 => exact Nat.le_refl _
  | case2 pending cells h e cells' hr ih =>
    have := Pool.used_reclaim_some hr
    simp only [List.length_cons] at ih
    omega
  | case3 pending cells h c cells' _ hr =>
    cases c with
    | none => exact Nat.le_of_eq (by rw [Pool.used_reclaim_none hr])
    | some c =>
      exact Nat.add_le_add_left
        (Nat.mul_le_mul_left 2 (Nat.le.intro (Pool.used_reclaim_some hr))) _

/-- Gives all references in `pending` back, the front one first. -/
def drain (pending : List Value) (heap : Heap) : Heap :=
  match pending, heap with
  | [], heap => heap
  | .str h :: pending, ⟨strings, cells⟩ => drain pending ⟨(strings.release h).2, cells⟩
  | .array h :: pending, ⟨strings, cells⟩ =>
    match _ : cells.release h with
    | (some c, cells') =>
      let rest := collect (elementsOf c) pending cells'
      drain rest.1 ⟨strings, rest.2⟩
    | (none, cells') => drain pending ⟨strings, cells'⟩
  | _ :: pending, heap => drain pending heap
termination_by pending.length + 2 * heap.cells.used
decreasing_by
  · simp only [List.length_cons]; omega
  · have h₁ := Pool.used_release_some ‹cells.release h = _›
    have h₂ := collect_length (elementsOf c) pending cells'
    simp only [List.length_cons]
    omega
  · have h₁ := Pool.used_release_none ‹cells.release h = _›
    simp only [List.length_cons]
    omega
  · simp only [List.length_cons]; omega

/-- Gives the reference `v` back. -/
def release (v : Value) (heap : Heap) : Heap :=
  heap.drain [v]

/-- Gives the references `vs` back in turn. -/
def releaseAll (vs : List Value) (heap : Heap) : Heap :=
  heap.drain vs

/-- Lifts the pin from what `v` refers to, and gives it up if nothing else refers to it. -/
def unpin (v : Value) (heap : Heap) : Heap :=
  match v, heap with
  | .str h, ⟨strings, cells⟩ => ⟨(strings.unpin h).2, cells⟩
  | .array h, ⟨strings, cells⟩ =>
    match cells.unpin h with
    | (some c, cells) =>
      let rest := collect (elementsOf c) [] cells
      drain rest.1.reverse ⟨strings, rest.2⟩
    | (none, cells) => ⟨strings, cells⟩
  | _, heap => heap

/-- A value on its way out of a call, pinned until its receiver adopts it. -/
structure Pinned where
  value : Value

/-- Pins `v` for its way out of a call. -/
def pinReturn (v : Value) (heap : Heap) : Pinned × Heap :=
  (⟨v⟩, heap.pin v)

/-- The value that was pinned, its pin lifted. -/
def Pinned.adopt (p : Pinned) (heap : Heap) : Value × Heap :=
  (p.value, heap.unpin p.value)

end PoolScript.Heap
