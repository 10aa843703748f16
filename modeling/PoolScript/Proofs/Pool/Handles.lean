import Mathlib.Data.List.Nodup
import Mathlib.Data.Set.Finite.Basic
import PoolScript.Proofs.Pool.Entries

/-!
# The handles of a pool

What a pool holds is found by the handles of its slots in use (`Pool.handles`). There are as many
of them as things that are held, and each of them is there once.
-/

namespace PoolScript.Pool

variable {α : Type} {p : Pool α} {h : Handle} {a : α}

/-- The handles of what a pool holds, slot by slot. -/
def handles (p : Pool α) : List Handle :=
  (List.range p.slots.size).filterMap fun i =>
    p.slots[i]?.bind fun s => s.entry.map fun _ => ⟨i, s.generation⟩

theorem mem_handles : h ∈ p.handles ↔ ∃ a, p.get? h = some a := by
  constructor
  · intro hh
    obtain ⟨i, -, hi⟩ := List.mem_filterMap.1 hh
    obtain ⟨s, hs, hi⟩ := Option.bind_eq_some_iff.1 hi
    obtain ⟨e, he, rfl⟩ := Option.map_eq_some_iff.1 hi
    exact ⟨e.content, get?_eq_some.2 ⟨_, _, entry?_eq_some.2 ⟨s, hs, rfl, he⟩⟩⟩
  · rintro ⟨a, ha⟩
    obtain ⟨n, pinned, he⟩ := get?_eq_some.1 ha
    obtain ⟨s, hs, hg, he'⟩ := entry?_eq_some.1 he
    refine List.mem_filterMap.2 ⟨h.index, List.mem_range.2 (index_lt he), ?_⟩
    rw [hs, Option.bind_some, he', Option.map_some, hg]

theorem nodup_handles (p : Pool α) : p.handles.Nodup := by
  -- A handle tells the slot that it is taken from.
  have index {i : Nat} {h : Handle} (hi : (p.slots[i]?.bind fun s => s.entry.map fun _ =>
      (⟨i, s.generation⟩ : Handle)) = some h) : h.index = i := by
    obtain ⟨s, -, hi⟩ := Option.bind_eq_some_iff.1 hi
    obtain ⟨e, -, rfl⟩ := Option.map_eq_some_iff.1 hi
    rfl
  exact List.nodup_range.filterMap fun i j h hi hj => (index hi).symm.trans (index hj)

theorem length_handles (p : Pool α) : p.handles.length = p.used := by
  have hslots : (List.range p.slots.size).map (p.slots[·]?) = p.slots.toList.map some := by
    refine List.ext_getElem (by simp) fun i hi hi' => ?_
    simp at hi
    simp [hi]
  have hp (i : Nat) : (p.slots[i]?.bind fun s => s.entry.map fun _ =>
      (⟨i, s.generation⟩ : Handle)).isSome = (p.slots[i]?).any inUse := by
    cases p.slots[i]? with
    | none => rfl
    | some s => simp [inUse]
  calc p.handles.length
      = (List.range p.slots.size).countP fun i => (p.slots[i]?).any inUse := by
        rw [handles, List.length_filterMap_eq_countP]
        exact List.countP_congr fun i _ => by rw [hp]
    _ = ((List.range p.slots.size).map (p.slots[·]?)).countP (·.any inUse) := by
        rw [List.countP_map]; rfl
    _ = p.slots.toList.countP inUse := by
        rw [hslots, List.countP_map]; rfl
    _ = p.used := Array.countP_toList ..

/-- A pool holds finitely many things. -/
theorem finite_handles (p : Pool α) {q : Handle → Prop} (hq : ∀ h, q h → ∃ a, p.get? h = some a) :
    {h | q h}.Finite :=
  p.handles.finite_toSet.subset fun h hh => mem_handles.2 (hq h hh)

theorem exists_of_mem_contents (ha : a ∈ p.contents) : ∃ h, p.get? h = some a := by
  obtain ⟨s, hs, ha⟩ := List.mem_flatMap.1 ha
  obtain ⟨e, he, rfl⟩ : ∃ e, s.entry = some e ∧ e.content = a := by
    simpa [held] using ha
  obtain ⟨i, hi⟩ := List.mem_iff_getElem?.1 hs
  have hs' : p.slots[i]? = some s := by simpa using hi
  exact ⟨⟨i, s.generation⟩, get?_eq_some.2 ⟨_, _, entry?_eq_some.2 ⟨s, hs', rfl, he⟩⟩⟩

end PoolScript.Pool
