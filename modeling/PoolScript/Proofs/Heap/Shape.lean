import Mathlib.Algebra.BigOperators.Group.Finset.Basic
import PoolScript.Proofs.Heap.Wrapping
import PoolScript.Proofs.Pool.Handles

/-!
# The shape of arrays

In every state that is reached from an empty heap the cells in use are heads and elements, and
each element is in the chain of one head (`Heap.Shaped`). So the number of cells is found by
counting the arrays and adding up their sizes.

* `liveCells_eq`: counting cells;
* `Reached.shaped`: the shape is kept whatever is done with a heap.
-/

namespace PoolScript

namespace Heap

variable {heap : Heap} {φ : Handle → List (Handle × Element)}

/-- Heads and elements make up arrays. -/
structure Shaped (heap : Heap) : Prop where
  /-- The links from a head on lead from element to element and come to an end. -/
  chain : ∀ a link, heap.cells.get? a = some (.head link) →
    ∃ xs, Layout.Chain heap.cells.get? link xs
  /-- Every element is in one chain, once. -/
  once : ∀ h e, heap.cells.get? h = some (.element e) →
    ∃ a link xs, heap.cells.get? a = some (.head link) ∧ Layout.Chain heap.cells.get? link xs ∧
      (xs.map (·.1)).count h = 1 ∧
      ∀ b link' ys, heap.cells.get? b = some (.head link') →
        Layout.Chain heap.cells.get? link' ys → h ∈ ys.map (·.1) → b = a
  /-- Elements are counted once and never pinned. -/
  counts : ∀ h e n pinned, heap.cells.entry? h = some ⟨.element e, n, pinned⟩ →
    n = 1 ∧ pinned = false
  /-- No key is an array. -/
  key : ∀ h e, heap.cells.get? h = some (.element e) → e.key.isKey = true
  /-- No two elements of an array have the same key. -/
  apart : ∀ a link xs, heap.cells.get? a = some (.head link) →
    Layout.Chain heap.cells.get? link xs → ∀ p ∈ xs, ∀ q ∈ xs, p.1 ≠ q.1 →
    ∃ r t, heap.scalar p.2.key = .ok r ∧ heap.scalar q.2.key = .ok t ∧ r.same t = false
  /-- There are as many cells as arrays and elements of arrays. -/
  cells : ∃ (arrays : Finset Handle) (size : Handle → Nat),
    (∀ a, a ∈ arrays ↔ ∃ link, heap.cells.get? a = some (.head link)) ∧
    (∀ a ∈ arrays, heap.size a = .ok (size a)) ∧
    heap.liveCells = arrays.card + ∑ a ∈ arrays, size a

/-- The cells of the elements of arrays are all cells but the heads. -/
theorem liveCells_eq (hw : heap.cells.Consistent) (hl : Layout.Laid heap.cells.get? φ)
    {arrays : Finset Handle}
    (ha : ∀ a, a ∈ arrays ↔ ∃ link, heap.cells.get? a = some (.head link)) :
    heap.liveCells = arrays.card + ∑ a ∈ arrays, (φ a).length := by
  let cellsOf (a : Handle) : Finset Handle := ((φ a).map (·.1)).toFinset
  have mem_cellsOf {a h} : h ∈ cellsOf a ↔ ∃ e, (h, e) ∈ φ a := by
    simp [cellsOf]
  -- Each live cell is a head, or an element in the chain of one.
  have hall : heap.cells.handles.toFinset = arrays ∪ arrays.biUnion cellsOf := by
    ext h
    rw [List.mem_toFinset, Pool.mem_handles, Finset.mem_union, ha, Finset.mem_biUnion]
    constructor
    · rintro ⟨_ | e, hh⟩
      · exact .inl ⟨_, hh⟩
      · obtain ⟨a, link, hal, hm⟩ := hl.reached hh
        exact .inr ⟨a, (ha a).2 ⟨link, hal⟩, mem_cellsOf.2 ⟨e, hm⟩⟩
    · rintro (⟨link, hh⟩ | ⟨a, haa, hm⟩)
      · exact ⟨_, hh⟩
      · obtain ⟨link, hal⟩ := (ha a).1 haa
        obtain ⟨e, hm⟩ := mem_cellsOf.1 hm
        exact ⟨_, hl.element hal hm⟩
  -- None is both, and none is in two chains, so their numbers add up.
  have hheads : Disjoint arrays (arrays.biUnion cellsOf) := by
    refine Finset.disjoint_left.2 fun h hh hm => ?_
    obtain ⟨a, haa, hm⟩ := Finset.mem_biUnion.1 hm
    obtain ⟨link, hal⟩ := (ha a).1 haa
    obtain ⟨e, hm⟩ := mem_cellsOf.1 hm
    obtain ⟨l, hhl⟩ := (ha h).1 hh
    cases hhl.symm.trans (hl.element hal hm)
  have hchains : Set.PairwiseDisjoint (arrays : Set Handle) cellsOf := by
    intro a haa b hbb hab
    refine Finset.disjoint_left.2 fun h hm hm' => hab ?_
    obtain ⟨la, hla⟩ := (ha a).1 haa
    obtain ⟨lb, hlb⟩ := (ha b).1 hbb
    obtain ⟨e, hm⟩ := mem_cellsOf.1 hm
    obtain ⟨d, hm'⟩ := mem_cellsOf.1 hm'
    exact hl.disjoint hla hlb hm hm'
  have hcard : ∀ a ∈ arrays, (cellsOf a).card = (φ a).length := by
    intro a haa
    obtain ⟨link, hal⟩ := (ha a).1 haa
    rw [List.toFinset_card_of_nodup (hl.chain hal).nodup, List.length_map]
  calc heap.liveCells
      = heap.cells.handles.toFinset.card := by
        rw [List.toFinset_card_of_nodup heap.cells.nodup_handles, Pool.length_handles]
        exact hw.live_eq
    _ = arrays.card + ∑ a ∈ arrays, (φ a).length := by
        rw [hall, Finset.card_union_of_disjoint hheads, Finset.card_biUnion hchains,
          Finset.sum_congr rfl hcard]

namespace Holding

variable {s : Holding} {strings cells : Nat}

/-- Arrays have their shape in every state that is reached from an empty heap. -/
theorem Reached.shaped (h : Reached strings cells s) (hc : s.Certain) : s.heap.Shaped := by
  obtain ⟨φ, pins, hk⟩ := h.kept hc
  have hl := hk.booked.laid
  refine ⟨fun a link ha => ⟨φ a, hl.chain ha⟩, fun h e hh => ?_, fun h e n pinned he =>
    hk.booked.element he, fun h e hh => ?_, fun a link xs ha hx p hp q hq hpq => ?_, ?_⟩
  · -- An element is on the chain of the array that reaches it, and on no other one.
    obtain ⟨a, link, ha, hm⟩ := hl.reached hh
    refine ⟨a, link, φ a, ha, hl.chain ha,
      List.count_eq_one_of_mem (hl.chain ha).nodup (List.mem_map.2 ⟨_, hm, rfl⟩), ?_⟩
    intro b link' ys hb hy hmb
    obtain rfl := (hl.chain hb).unique hy
    obtain ⟨p, hp, rfl⟩ := List.mem_map.1 hmb
    exact hl.disjoint hb ha hp hm
  · obtain ⟨a, link, ha, hm⟩ := hl.reached hh
    obtain ⟨t, ht⟩ := (hk.keyed ha).scalar e.key (List.mem_map.2 ⟨_, hm, rfl⟩)
    exact isKey_of_scalar ht
  · obtain rfl := (hl.chain ha).unique hx
    have : Std.Symm fun p q : Handle × Element => s.heap.Apart p.2.key q.2.key :=
      ⟨fun _ _ h => h.symm⟩
    have hkeys := List.pairwise_map.1 (hk.keyed ha).pairwise
    exact hkeys.forall hp hq (by rintro rfl; exact hpq rfl)
  · -- The cells are counted by the arrays and their chains.
    have harrays (a : Handle) : a ∈ s.heap.finite_arrays.toFinset ↔
        ∃ link, s.heap.cells.get? a = some (.head link) := Set.Finite.mem_toFinset _
    have hcount := liveCells_eq hk.booked.cells.toConsistent hl harrays
    refine ⟨_, fun a => (φ a).length, harrays, fun a ha => ?_, hcount⟩
    obtain ⟨link, ha⟩ := (harrays a).1 ha
    rw [Heap.size, elements_eq hl ha, Except.map, List.length_map]

theorem mirror_shaped :
    mirror.heap.Shaped ∧ mirror.heap.liveCells = 2 ∧ mirror.heap.size ⟨0, 0⟩ = .ok 1 :=
  ⟨Reached.shaped mirror_reached (.inl rfl), by decide +kernel, by rfl⟩

/-- The array that is left in `torn` has a link that leads nowhere. -/
theorem torn_unshaped : Reached 1 2 torn ∧ ¬torn.heap.Shaped := by
  refine ⟨torn_reached, fun h => ?_⟩
  obtain ⟨xs, hx⟩ := h.chain _ _ torn_head
  cases hx with
  | cons he => cases torn_element.symm.trans he

end Holding

end Heap

end PoolScript
