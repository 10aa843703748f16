import PoolScript.Heap.Release

/-!
# Giving back one by one

To give a list of references back is to give its first one back, then what that one held, and then
the others (`drain_cons`). So what is done with a list is known from what is done with one
reference (`drain_induction`), and a list can be given back in two parts (`drain_append`).
-/

namespace PoolScript.Heap

/-- Gives the reference `v` back. What it held, if it was the last one to an array, remains to be
    given back. -/
def giveBack (v : Value) (heap : Heap) : List Value × Heap :=
  match v, heap with
  | .str h, ⟨strings, cells⟩ => ([], ⟨(strings.release h).2, cells⟩)
  | .array h, ⟨strings, cells⟩ =>
    match cells.release h with
    | (some c, cells) =>
      let rest := collect (elementsOf c) [] cells
      (rest.1, ⟨strings, rest.2⟩)
    | (none, cells) => ([], ⟨strings, cells⟩)
  | _, heap => ([], heap)

/-! ### Collecting -/

theorem collect_some (h : Handle) (pending : List Value) (cells : Pool Cell) :
    collect (some h) pending cells =
      match cells.reclaim h with
      | (some (.element e), cells) => collect e.next (e.value :: e.key :: pending) cells
      | (_, cells) => (pending, cells) := by
  -- The left side alone is unfolded: the `collect` on the right is the recursive call.
  rw [collect.eq_def]
  dsimp only
  generalize cells.reclaim h = r
  rcases r with ⟨_ | _ | _, _⟩ <;> rfl

/-- What remained to be given back before comes after what is collected. -/
theorem collect_append (link : Option Handle) (more pending : List Value) (cells : Pool Cell) :
    collect link (more ++ pending) cells =
      ((collect link more cells).1 ++ pending, (collect link more cells).2) := by
  fun_induction collect link more cells with
  | case1 more cells => rw [collect]
  | case2 more cells h e cells' hr ih =>
    rw [collect_some, hr]
    exact ih
  | case3 more cells h c cells' hc hr =>
    rw [collect_some, hr]
    rcases c with _ | _ | e
    · rfl
    · rfl
    · exact (hc e rfl).elim

/-! ### Draining -/

theorem drain_nil (heap : Heap) : heap.drain [] = heap := by
  rw [drain]

theorem drain_cons (v : Value) (pending : List Value) (heap : Heap) :
    heap.drain (v :: pending) = (heap.giveBack v).2.drain ((heap.giveBack v).1 ++ pending) := by
  obtain ⟨strings, cells⟩ := heap
  cases v with
  | int => rw [drain.eq_def]; rfl
  | float => rw [drain.eq_def]; rfl
  | str h => rw [drain.eq_def]; rfl
  | array h =>
    rw [drain.eq_def]
    simp only [giveBack]
    split
    · next c cells' hr =>
      rw [hr]
      have hc := collect_append (elementsOf c) [] pending cells'
      rw [List.nil_append] at hc
      simp only [hc]
    · next cells' hr =>
      rw [hr]
      rfl

theorem release_eq (v : Value) (heap : Heap) :
    heap.release v = (heap.giveBack v).2.drain (heap.giveBack v).1 := by
  rw [release, drain_cons, List.append_nil]

/-- What remains to be given back is no longer than the cells that were freed allow. -/
theorem giveBack_length (v : Value) (heap : Heap) :
    (heap.giveBack v).1.length + 2 * (heap.giveBack v).2.cells.used ≤ 2 * heap.cells.used := by
  obtain ⟨strings, cells⟩ := heap
  cases v with
  | array h =>
    simp only [giveBack]
    split
    · next c cells' hr =>
      have hused := Pool.used_release_some hr
      have hlength := collect_length (elementsOf c) [] cells'
      simp only [List.length_nil] at hlength ⊢
      omega
    · next cells' hr => exact Nat.le_of_eq (by simp [Pool.used_release_none hr])
  | _ => exact Nat.le_of_eq (Nat.zero_add _)

/-- What holds of nothing to give back, and of a reference when it holds of what remains after it,
    holds of every list. -/
theorem drain_induction {P : List Value → Heap → Prop} (nil : ∀ heap, P [] heap)
    (cons : ∀ v pending heap, P ((giveBack v heap).1 ++ pending) (giveBack v heap).2 →
      P (v :: pending) heap) : ∀ pending heap, P pending heap
  | [], heap => nil heap
  | v :: pending, heap => cons v pending heap (drain_induction nil cons _ _)
termination_by pending heap => pending.length + 2 * heap.cells.used
decreasing_by
  have := giveBack_length v heap
  simp only [List.length_append, List.length_cons]
  omega

/-- The references of two lists are given back one list after the other. -/
theorem drain_append (vs ws : List Value) (heap : Heap) :
    heap.drain (vs ++ ws) = (heap.drain vs).drain ws := by
  induction vs, heap using drain_induction with
  | nil heap => rw [List.nil_append, drain_nil]
  | cons v pending heap ih =>
    rw [List.cons_append, drain_cons, drain_cons, ← List.append_assoc]
    exact ih

theorem releaseAll_pair (v w : Value) (heap : Heap) :
    heap.releaseAll [v, w] = (heap.release v).release w :=
  drain_append [v] [w] heap

end PoolScript.Heap
