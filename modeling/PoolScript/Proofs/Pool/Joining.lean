import PoolScript.Proofs.Pool.Entries

/-!
# New entries beside old ones

Nothing that was there before leads to a new entry. So it makes no difference whether something is
put into a pool before references are given back, or is joined to what is left then
(`Pool.Joined.release`), although it need not get the same slot if it is put there afterwards.
-/

namespace PoolScript

namespace Pool

variable {α : Type} {p q : Pool α} {a : α} {h k : Handle} {e : Entry α} {i : Nat}

/-- `q` is `p`, with `a` in the slot of `h`, which is vacant or not open in `p`. There is one
    reference to `a`. -/
structure Joined (p : Pool α) (a : α) (h : Handle) (q : Pool α) : Prop where
  generation : h.generation = .ofNat (p.freesAt h.index)
  vacant : ∀ s, p.slots[h.index]? = some s → s.entry = none
  slot : q.slots[h.index]? = some ⟨p.freesAt h.index, some ⟨a, 1, false⟩⟩
  others : ∀ i, i ≠ h.index → q.slots[i]? = p.slots[i]?
  /-- The vacant slots will be used in the same order. -/
  free : q.free = p.free.erase h.index
  live : q.live = p.live + 1
  name : q.name = p.name
  capacity : q.capacity = p.capacity

theorem alloc_joined (hw : p.Consistent) (hq : p.alloc a = (.ok h, q)) : p.Joined a h q := by
  rw [alloc] at hq
  -- The slot vacated last is used again, or else a new one is opened.
  split at hq
  · next i free hf =>
    cases hq
    obtain ⟨s, hs, hse⟩ := (hw.mem_free i).1 (hf ▸ List.mem_cons_self)
    have hi : i < p.slots.size := (Array.getElem?_eq_some_iff.1 hs).1
    refine ⟨rfl, fun t ht => ?_, ?_, fun j hj => ?_, ?_, rfl, rfl, rfl⟩
    · cases hs.symm.trans ht
      exact hse
    · simp [put, hi]
    · simp [put, Array.getElem?_setIfInBounds_ne (Ne.symm hj)]
    · simp [hf]
  · next hf =>
    split at hq
    · cases hq
      refine ⟨?_, fun t ht => ?_, ?_, fun j hj => ?_, ?_, rfl, rfl, rfl⟩
      · simp [freesAt]
      · simp at ht
      · simp [freesAt]
      · simp [Array.getElem?_push, hj]
      · simp [hf]
    · cases hq

namespace Joined

variable (hj : p.Joined a h q)

include hj

theorem freesAt (hi : i ≠ h.index) : q.freesAt i = p.freesAt i := by
  rw [Pool.freesAt, hj.others i hi]
  rfl

theorem entry?_self : p.entry? h = none := by
  rw [Pool.entry?]
  split
  · next s hs => rw [hj.vacant s hs, ite_self]
  · rfl

theorem index_ne (he : p.entry? k = some e) : k.index ≠ h.index := by
  intro hi
  obtain ⟨s, hs, -, hse⟩ := entry?_eq_some.1 he
  cases (hj.vacant s (hi ▸ hs)).symm.trans hse

/-- Other handles lead where they led before. -/
theorem entry?_of_ne (hk : k ≠ h) : q.entry? k = p.entry? k := by
  by_cases hi : k.index = h.index
  · -- A handle to the same slot is of another generation, and leads nowhere.
    cases hq : q.entry? k with
    | none =>
      cases hp : p.entry? k with
      | none => rfl
      | some e => exact absurd hi (hj.index_ne hp)
    | some e =>
      obtain ⟨s, hs, hg, -⟩ := entry?_eq_some.1 hq
      cases hj.slot.symm.trans (hi ▸ hs)
      refine absurd ?_ hk
      obtain ⟨i, g⟩ := h
      obtain ⟨_, _⟩ := k
      obtain rfl := hi
      exact congrArg _ (hg.symm.trans hj.generation.symm)
  · simp only [Pool.entry?, hj.others _ hi]

/-- Whatever becomes of another slot, `a` is joined to it. -/
theorem set {free free' : List Nat} {live live' : Nat} (hi : i ≠ h.index) (s : Slot α)
    (hfree : free' = free.erase h.index) (hlive : live' = live + 1) :
    Joined { p with slots := p.slots.setIfInBounds i s, free := free, live := live } a h
      { q with slots := q.slots.setIfInBounds i s, free := free', live := live' } := by
  have hfrees : Pool.freesAt
      { p with slots := p.slots.setIfInBounds i s, free := free, live := live } h.index =
      p.freesAt h.index := by
    simp only [Pool.freesAt, Array.getElem?_setIfInBounds_ne hi]
  refine ⟨hfrees ▸ hj.generation, fun t ht => ?_, ?_, fun j hjh => ?_, hfree, hlive, hj.name,
    hj.capacity⟩
  · exact hj.vacant t (by rwa [Array.getElem?_setIfInBounds_ne hi] at ht)
  · rw [hfrees, Array.getElem?_setIfInBounds_ne hi]
    exact hj.slot
  · by_cases hij : i = j
    · -- A slot that both have, or neither of them.
      subst hij
      have hsize : i < q.slots.size ↔ i < p.slots.size := by
        rw [← not_le, ← not_le, ← Array.getElem?_eq_none_iff, hj.others i hi,
          Array.getElem?_eq_none_iff]
      simp only [Array.getElem?_setIfInBounds, if_true, hsize]
    · simp only [Array.getElem?_setIfInBounds_ne hij, hj.others j hjh]

theorem put (hi : i ≠ h.index) (e : Entry α) : (p.put i e).Joined a h (q.put i e) := by
  rw [Pool.put, Pool.put, hj.freesAt hi]
  exact hj.set hi _ hj.free hj.live

theorem vacate (hi : i ≠ h.index) (hlive : 0 < p.live) :
    (p.vacate i).Joined a h (q.vacate i) := by
  rw [Pool.vacate, Pool.vacate, hj.freesAt hi]
  refine hj.set hi _ ?_ ?_
  · rw [List.erase_cons_tail (by simpa using hi), hj.free]
  · rw [hj.live, Nat.add_sub_cancel, Nat.sub_add_cancel hlive]

theorem release (hw : p.Consistent) (hk : k ≠ h) :
    (q.release k).1 = (p.release k).1 ∧ (p.release k).2.Joined a h (q.release k).2 := by
  simp only [Pool.release, hj.entry?_of_ne hk]
  cases he : p.entry? k with
  | none => exact ⟨rfl, hj⟩
  | some e =>
    have hi := hj.index_ne he
    dsimp only
    split
    · exact ⟨rfl, hj.vacate hi (hw.live_pos he)⟩
    · exact ⟨rfl, hj.put hi _⟩

end Joined

end Pool

end PoolScript
