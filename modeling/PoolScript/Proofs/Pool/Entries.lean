import Mathlib.Algebra.Order.Group.Multiset
import Mathlib.Logic.Function.Basic
import PoolScript.Pool

/-!
# Pools as maps of handles

A pool is understood as the map from handles to what they lead to (`Pool.entry?`). Every
operation changes this map at one handle: `put` sets it, `vacate` takes it away, and `alloc`
adds a handle that led nowhere before.

A pool is *consistent* if its list of vacant slots and its counter of the slots in use are right.
The operations keep it so, and a consistent pool has room as long as fewer slots are in use than its
capacity allows. It is *well-formed* if, what is more, the numbers of its slots fit into thirty-two
bits.

* `entry?_put`, `entry?_vacate`: the map after an operation;
* `contents_put`, `contents_vacate`: the things held, in any order, after an operation;
* `Consistent.alloc_cases`: what allocation does in a consistent pool (`Allocated`), and when it
  fails.
-/

namespace PoolScript.Pool

variable {α : Type} {p q : Pool α} {h k : Handle} {e e' : Entry α} {a : α}

/-! ### The map of handles -/

/-- A handle leads to the entry of its slot while it has the generation of the slot. -/
theorem entry?_eq_some :
    p.entry? h = some e ↔
      ∃ s, p.slots[h.index]? = some s ∧ s.generation = h.generation ∧ s.entry = some e := by
  rw [Pool.entry?]
  cases hs : p.slots[h.index]? with
  | none => simp
  | some s => by_cases hg : s.generation = h.generation <;> simp [hg]

/-- A handle that leads somewhere is one of a slot that is open. -/
theorem index_lt (he : p.entry? h = some e) : h.index < p.slots.size :=
  let ⟨hi, _⟩ := exists_slot_of_entry? he
  hi

/-- A slot in use has one handle that leads to it. -/
theorem eq_of_index_eq (hh : p.entry? h = some e) (hk : p.entry? k = some e')
    (hi : h.index = k.index) : h = k := by
  obtain ⟨s, hs, hg, -⟩ := entry?_eq_some.1 hh
  obtain ⟨t, ht, hg', -⟩ := entry?_eq_some.1 hk
  obtain rfl : s = t := Option.some.inj (hs.symm.trans (hi ▸ ht))
  cases h; cases k
  exact Handle.mk.injEq .. ▸ ⟨hi, hg.symm.trans hg'⟩

theorem freesAt_eq {s : Slot α} {i : Nat} (hs : p.slots[i]? = some s) : p.freesAt i = s.frees := by
  simp [freesAt, hs]

/-- An entry that is written is found by the handle of its slot. -/
theorem entry?_put_slot {i : Nat} {s : Slot α} (hs : p.slots[i]? = some s) (e : Entry α) :
    Pool.entry? (p.put i e) = Function.update p.entry? ⟨i, s.generation⟩ (some e) := by
  obtain ⟨hi, -⟩ := Array.getElem?_eq_some_iff.1 hs
  funext k
  by_cases hk : k = ⟨i, s.generation⟩
  · subst hk
    rw [Function.update_self, entry?_eq_some]
    exact ⟨⟨s.frees, some e⟩, by simp [put, hi, freesAt_eq hs], rfl, rfl⟩
  rw [Function.update_of_ne hk]
  by_cases hik : i = k.index
  · -- A handle to the same slot in another generation leads nowhere, before and after.
    have hne : s.generation ≠ k.generation := fun hg => hk <| by
      cases k
      exact Handle.mk.injEq .. ▸ ⟨hik.symm, hg.symm⟩
    subst hik
    simp only [put, entry?, Array.getElem?_setIfInBounds_self_of_lt hi, hs, freesAt]
    rw [if_neg hne]
    exact if_neg hne
  · simp only [put, entry?, Array.getElem?_setIfInBounds_ne hik]

/-- The handle that leads to a slot in use. -/
theorem handle_eq {s : Slot α} (he : p.entry? h = some e) (hs : p.slots[h.index]? = some s) :
    (⟨h.index, s.generation⟩ : Handle) = h := by
  obtain ⟨t, ht, hg, -⟩ := entry?_eq_some.1 he
  obtain rfl := Option.some.inj (hs.symm.trans ht)
  rw [hg]

/-- To write the entry of a handle changes the map there only. -/
theorem entry?_put (he : p.entry? h = some e) (e' : Entry α) :
    Pool.entry? (p.put h.index e') = Function.update p.entry? h (some e') := by
  obtain ⟨s, hs, -, -⟩ := entry?_eq_some.1 he
  rw [entry?_put_slot hs, handle_eq he hs]

/-- To vacate the slot of a handle takes the handle out of the map, and no other. -/
theorem entry?_vacate (he : p.entry? h = some e) :
    Pool.entry? (p.vacate h.index) = Function.update p.entry? h none := by
  funext k
  by_cases hi : h.index = k.index
  · have hlt : k.index < p.slots.size := hi ▸ index_lt he
    have hn : Pool.entry? (p.vacate h.index) k = none := by
      simp only [vacate, entry?, hi, Array.getElem?_setIfInBounds_self_of_lt hlt, ite_self]
    rw [hn]
    by_cases hk : k = h
    · rw [hk, Function.update_self]
    · rw [Function.update_of_ne hk]
      cases hke : p.entry? k with
      | none => rfl
      | some e' => exact absurd (eq_of_index_eq he hke hi).symm hk
  · rw [Function.update_of_ne fun hk => hi (congrArg Handle.index hk.symm)]
    simp only [vacate, entry?, Array.getElem?_setIfInBounds_ne hi]

/-- What is held is changed where the map is. -/
theorem get?_update {x : Option (Entry α)} (hq : q.entry? = Function.update p.entry? h x) :
    q.get? = Function.update p.get? h (x.map (·.content)) := by
  funext k
  by_cases hk : k = h
  · subst hk; simp [get?, hq]
  · simp [get?, hq, hk]

theorem get?_put (he : p.entry? h = some e) (e' : Entry α) :
    Pool.get? (p.put h.index e') = Function.update p.get? h (some e'.content) :=
  get?_update (entry?_put he e')

theorem get?_vacate (he : p.entry? h = some e) :
    Pool.get? (p.vacate h.index) = Function.update p.get? h none :=
  get?_update (entry?_vacate he)

/-- What is held has an entry. -/
theorem get?_eq_some {a : α} :
    p.get? h = some a ↔ ∃ n pinned, p.entry? h = some ⟨a, n, pinned⟩ := by
  rw [get?, Option.map_eq_some_iff]
  exact ⟨fun ⟨⟨_, n, pinned⟩, he, ha⟩ => ⟨n, pinned, ha ▸ he⟩, fun ⟨n, pinned, he⟩ => ⟨_, he, rfl⟩⟩

/-! ### The things held -/

/-- The thing that a slot holds, if it is in use. -/
def held (s : Slot α) : List α :=
  (s.entry.map Entry.content).toList

/-- The things that a pool holds, slot by slot. -/
def contents (p : Pool α) : List α :=
  p.slots.toList.flatMap held

/-- Changing the slot `i` trades what it held for what it holds. -/
theorem contents_set {i : Nat} {s : Slot α} (hs : p.slots[i]? = some s) :
    ∃ rest : List α, p.contents.Perm (held s ++ rest) ∧
      ∀ t, ((p.slots.setIfInBounds i t).toList.flatMap held).Perm (held t ++ rest) := by
  obtain ⟨hi, rfl⟩ := Array.getElem?_eq_some_iff.1 hs
  refine ⟨(p.slots.toList.take i).flatMap held ++ (p.slots.toList.drop (i + 1)).flatMap held,
    ?_, fun t => ?_⟩
  · have hl : p.slots.toList =
        p.slots.toList.take i ++ p.slots[i] :: p.slots.toList.drop (i + 1) := by
      rw [← Array.getElem_toList hi, List.getElem_cons_drop, List.take_append_drop]
    rw [contents, hl, List.flatMap_append, List.flatMap_cons, ← hl]
    exact List.perm_append_comm_assoc ..
  · rw [Array.toList_setIfInBounds, List.set_eq_take_append_cons_drop, if_pos (by simpa using hi),
      List.flatMap_append, List.flatMap_cons]
    exact List.perm_append_comm_assoc ..

/-- A slot that is in use holds the content of its entry. -/
theorem held_eq {s : Slot α} (he : p.entry? h = some e) (hs : p.slots[h.index]? = some s) :
    held s = [e.content] := by
  obtain ⟨t, ht, -, hte⟩ := entry?_eq_some.1 he
  obtain rfl := Option.some.inj (hs.symm.trans ht)
  rw [held, hte]
  rfl

/-- To write an entry exchanges one thing that is held. -/
theorem contents_put (he : p.entry? h = some e) (e' : Entry α) :
    ∃ rest, p.contents.Perm (e.content :: rest) ∧
      (p.put h.index e').contents.Perm (e'.content :: rest) := by
  obtain ⟨s, hs, -, -⟩ := entry?_eq_some.1 he
  obtain ⟨rest, hr, hr'⟩ := contents_set hs
  rw [held_eq he hs] at hr
  exact ⟨rest, hr, hr' ⟨_, some e'⟩⟩

/-- To vacate a slot takes away one thing that is held. -/
theorem contents_vacate (he : p.entry? h = some e) :
    p.contents.Perm (e.content :: (p.vacate h.index).contents) := by
  obtain ⟨s, hs, -, -⟩ := entry?_eq_some.1 he
  obtain ⟨rest, hr, hr'⟩ := contents_set hs
  rw [held_eq he hs] at hr
  exact hr.trans (.cons _ (hr' ⟨_, none⟩).symm)

/-! ### Counting references -/

/-- One more reference is counted to what there is, if the count fits. Otherwise nothing changes. -/
theorem retain_cases (p : Pool α) (h : Handle) :
    (∃ e, p.entry? h = some e ∧ e.refs + 1 < UInt32.size ∧
      p.retain h = (.ok true, p.put h.index { e with refs := e.refs + 1 })) ∨
    (∃ e, p.entry? h = some e ∧ UInt32.size ≤ e.refs + 1 ∧
      p.retain h = (.error (.aborted .countFits), p)) ∨
    p.entry? h = none ∧ p.retain h = (.ok false, p) := by
  rw [retain]
  cases he : p.entry? h with
  | none => exact .inr (.inr ⟨rfl, rfl⟩)
  | some e =>
    by_cases hlt : e.refs + 1 < UInt32.size
    · exact .inl ⟨e, rfl, hlt, if_pos hlt⟩
    · exact .inr (.inl ⟨e, rfl, Nat.le_of_not_lt hlt, if_neg hlt⟩)

/-! ### Consistent and well-formed pools -/

/-- The list of vacant slots holds exactly these, once each, the counter has the number of the other
    ones, and no more slots are open than there may be. -/
structure Consistent (p : Pool α) : Prop where
  nodup : p.free.Nodup
  mem_free : ∀ i, i ∈ p.free ↔ ∃ s, p.slots[i]? = some s ∧ s.entry = none
  size_le : p.slots.size ≤ p.capacity
  live_eq : p.live = p.used

/-- The numbers of slots of a consistent pool fit into thirty-two bits. -/
structure WellFormed (p : Pool α) : Prop extends Consistent p where
  capacity_lt : p.capacity < UInt32.size

/-- The slots of a well-formed pool can be numbered. -/
theorem WellFormed.size_lt (hw : p.WellFormed) : p.slots.size < UInt32.size :=
  hw.size_le.trans_lt hw.capacity_lt

/-- A new pool is consistent, whatever its capacity. -/
theorem consistent_empty (name : String) (capacity : Nat) :
    (empty name capacity : Pool α).Consistent :=
  ⟨List.nodup_nil, by simp [empty], Nat.zero_le _, rfl⟩

theorem wellFormed_empty (name : String) {capacity : Nat} (hc : capacity < UInt32.size) :
    (empty name capacity : Pool α).WellFormed :=
  ⟨consistent_empty name capacity, hc⟩

/-- The counter is not above the number of open slots. -/
theorem Consistent.live_le (hw : p.Consistent) : p.live ≤ p.slots.size :=
  hw.live_eq.trans_le (Array.countP_le_size ..)

/-- If something is found, the counter is not zero. -/
theorem Consistent.live_pos (hw : p.Consistent) (he : p.entry? h = some e) : 0 < p.live := by
  have := used_vacate he
  have := hw.live_eq
  omega

/-- A consistent pool stays so when an entry is written. -/
theorem Consistent.put (hw : p.Consistent) (he : p.entry? h = some e) (e' : Entry α) :
    (p.put h.index e').Consistent := by
  obtain ⟨s, hs, -, hse⟩ := entry?_eq_some.1 he
  refine ⟨hw.nodup, fun i => (hw.mem_free i).trans ?_, by simpa [Pool.put] using hw.size_le,
    hw.live_eq.trans (used_put he e').symm⟩
  obtain ⟨hlt, rfl⟩ := Array.getElem?_eq_some_iff.1 hs
  by_cases hi : h.index = i
  · subst hi
    simp [Pool.put, hlt, hse]
  · simp [Pool.put, Array.getElem?_setIfInBounds_ne hi]

/-- A consistent pool stays so when a slot is vacated: its number joins the list and the counter
    goes down. -/
theorem Consistent.vacate (hw : p.Consistent) (he : p.entry? h = some e) :
    (p.vacate h.index).Consistent := by
  obtain ⟨s, hs, -, hse⟩ := entry?_eq_some.1 he
  have hn : h.index ∉ p.free := fun hm => by
    obtain ⟨t, ht, hte⟩ := (hw.mem_free _).1 hm
    obtain rfl := Option.some.inj (hs.symm.trans ht)
    cases hse.symm.trans hte
  have hlive : (p.vacate h.index).live = (p.vacate h.index).used := by
    have := used_vacate he
    have := hw.live_eq
    show p.live - 1 = _
    omega
  refine ⟨List.nodup_cons.2 ⟨hn, hw.nodup⟩, fun i => ?_, by simpa [Pool.vacate] using hw.size_le,
    hlive⟩
  by_cases hi : h.index = i
  · subst hi
    simp [Pool.vacate, index_lt he]
  · simp [Pool.vacate, Array.getElem?_setIfInBounds_ne hi, Ne.symm hi, hw.mem_free]

theorem WellFormed.put (hw : p.WellFormed) (he : p.entry? h = some e) (e' : Entry α) :
    (p.put h.index e').WellFormed :=
  ⟨hw.toConsistent.put he e', hw.capacity_lt⟩

theorem WellFormed.vacate (hw : p.WellFormed) (he : p.entry? h = some e) :
    (p.vacate h.index).WellFormed :=
  ⟨hw.toConsistent.vacate he, hw.capacity_lt⟩

/-! ### Allocation -/

/-- What a pool is after something was put into a vacant slot with the handle `h`. -/
structure Allocated (p : Pool α) (a : α) (h : Handle) (q : Pool α) : Prop where
  vacant : p.entry? h = none
  entry? : q.entry? = Function.update p.entry? h (some ⟨a, 1, false⟩)
  generation : h.generation = .ofNat (p.freesAt h.index)
  freesAt : q.freesAt = p.freesAt
  contents : q.contents.Perm (a :: p.contents)
  live : q.live = p.live + 1
  live_lt : p.live < p.capacity
  capacity : q.capacity = p.capacity
  consistent : q.Consistent

theorem Allocated.wellFormed (hal : p.Allocated a h q) (hw : p.WellFormed) : q.WellFormed :=
  ⟨hal.consistent, hal.capacity.trans_lt hw.capacity_lt⟩

namespace Consistent

variable (hw : p.Consistent)

include hw

/-- To take a slot from the list of vacant ones. -/
theorem reuse {i : Nat} {free : List Nat} (hf : p.free = i :: free) :
    p.Allocated a ⟨i, .ofNat (p.freesAt i)⟩
      { p.put i ⟨a, 1, false⟩ with free, live := p.live + 1 } := by
  obtain ⟨s, hs, hse⟩ := (hw.mem_free i).1 (hf ▸ List.mem_cons_self)
  obtain ⟨hi, rfl⟩ := Array.getElem?_eq_some_iff.1 hs
  have hg : (⟨i, .ofNat (p.freesAt i)⟩ : Handle) = ⟨i, p.slots[i].generation⟩ := by
    rw [freesAt_eq hs]; rfl
  have hnodup : (i :: free).Nodup := hf ▸ hw.nodup
  -- One slot more is in use.
  have hused : (p.put i ⟨a, 1, false⟩).used = p.used + 1 := by
    simp [used, Pool.put, Array.setIfInBounds, hi, Array.countP_set, inUse, hse]
  refine ⟨by simp [Pool.entry?, hs, hse], ?_, rfl, ?_, ?_, rfl, ?_, rfl, ?_⟩
  · rw [hg]
    exact entry?_put_slot hs _
  · funext j
    by_cases hj : i = j
    · subst hj; simp [Pool.freesAt, Pool.put, hi]
    · simp [Pool.freesAt, Pool.put, Array.getElem?_setIfInBounds_ne hj]
  · -- The slot held nothing, so what it holds now comes on top.
    obtain ⟨rest, hr, hr'⟩ := contents_set hs
    have : held p.slots[i] = [] := by simp [held, hse]
    exact (hr' ⟨_, some _⟩).trans (.cons _ (this ▸ hr).symm)
  · -- The vacant slot is one that is not in use.
    rw [hw.live_eq]
    refine Nat.lt_of_lt_of_le
      (Nat.lt_of_le_of_ne (Array.countP_le_size ..) fun hall => ?_) hw.size_le
    have := Array.countP_eq_size.1 hall _ (Array.getElem_mem hi)
    simp [inUse, hse] at this
  · -- The others on the list are the slots that are vacant still.
    refine ⟨(List.nodup_cons.1 hnodup).2, fun j => ?_, by simpa [Pool.put] using hw.size_le,
      (congrArg (· + 1) hw.live_eq).trans hused.symm⟩
    have hj := hw.mem_free j
    rw [hf, List.mem_cons] at hj
    by_cases hij : i = j
    · subst hij
      simp [Pool.put, hi, (List.nodup_cons.1 hnodup).1]
    · simp only [Pool.put, Array.getElem?_setIfInBounds_ne hij, ← hj, Ne.symm hij, false_or]

/-- To open another slot, when none is vacant. -/
theorem opening (hc : p.slots.size < p.capacity) :
    p.Allocated a ⟨p.slots.size, 0⟩
      { p with slots := p.slots.push ⟨0, some ⟨a, 1, false⟩⟩, live := p.live + 1 } := by
  refine ⟨by simp [Pool.entry?], ?_, by simp [Pool.freesAt], ?_, ?_, rfl, ?_, rfl, ?_⟩
  · -- The new slot has its first handle. No other handle of it leads anywhere, as the generation
    -- differs.
    funext k
    by_cases hk : k = ⟨p.slots.size, 0⟩
    · subst hk
      rw [Function.update_self]
      simp [Pool.entry?, Slot.generation]
    · rw [Function.update_of_ne hk]
      by_cases hi : k.index = p.slots.size
      · have hg : (0 : UInt32) ≠ k.generation := fun hg => hk <| by
          cases k
          exact Handle.mk.injEq .. ▸ ⟨hi, hg.symm⟩
        simp [Pool.entry?, hi, Slot.generation, hg]
      · simp [Pool.entry?, Array.getElem?_push, hi]
  · funext j
    by_cases hj : j = p.slots.size
    · subst hj; simp [Pool.freesAt]
    · simp [Pool.freesAt, Array.getElem?_push, hj]
  · simp only [Pool.contents, Array.toList_push, List.flatMap_append]
    exact List.perm_append_comm
  · exact Nat.lt_of_le_of_lt hw.live_le hc
  · refine ⟨hw.nodup, fun j => (hw.mem_free j).trans ?_, by rwa [Array.size_push], ?_⟩
    · by_cases hj : j = p.slots.size
      · subst hj; simp
      · simp [Array.getElem?_push, hj]
    · simp [used, Array.countP_push, inUse, hw.live_eq]

/-- In a pool without vacant slots all of the open ones are in use. -/
theorem live_eq_size (hf : p.free = []) : p.live = p.slots.size := by
  refine hw.live_eq.trans (Array.countP_eq_size.2 fun s hs => ?_)
  obtain ⟨i, hi, rfl⟩ := Array.getElem_of_mem hs
  by_contra hu
  have := (hw.mem_free i).2 ⟨_, Array.getElem?_eq_getElem hi, by simpa [inUse] using hu⟩
  simp [hf] at this

/-- Allocation fails only when as many slots are in use as there may be. -/
theorem alloc_cases (a : α) :
    (∃ h q, p.alloc a = (.ok h, q) ∧ p.Allocated a h q) ∨
      (p.alloc a = (.error (.poolExhausted p.name p.capacity), p) ∧ p.live = p.capacity) := by
  cases hf : p.free with
  | cons i free => exact .inl ⟨_, _, by simp only [alloc, hf], hw.reuse hf⟩
  | nil =>
    by_cases hc : p.slots.size < p.capacity
    · exact .inl ⟨_, _, by simp only [alloc, hf, if_pos hc], hw.opening hc⟩
    · refine .inr ⟨by simp only [alloc, hf, if_neg hc], ?_⟩
      have := hw.live_eq_size hf
      have := hw.size_le
      omega

end Consistent

end PoolScript.Pool
