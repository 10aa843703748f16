import PoolScript.Proofs.Pool.Entries

/-!
# How pools evolve

Whatever is done with a pool is a sequence of allocations, of changes to slots in use and of
vacations of such slots (`Pool.Evolves`). So its name and its capacity stay, slots are vacated
more and more often, and a well-formed pool stays well-formed.

A handle is *retired* when its slot has been vacated since it was handed out. As long as no
slot has been vacated so often that its generations begin anew (`Pool.Young`), a retired
handle leads nowhere, and no retired handle is handed out again. A handle that leads
somewhere does so until it is retired (`Evolves.live_or_retired`). The same is told of what has
happened since some point (`Pool.RetiredSince`, `Pool.Near`).
-/

namespace PoolScript.Pool

variable {α : Type} {p q r : Pool α} {h : Handle} {e : Entry α} {a : α}

/-- `q` comes about from `p` by operations on pools. -/
inductive Evolves (p : Pool α) : Pool α → Prop
  | refl : Evolves p p
  | alloc {q : Pool α} (a : α) : Evolves p q → Evolves p (q.alloc a).2
  | put {q : Pool α} {h : Handle} {e : Entry α} (e' : Entry α) :
      Evolves p q → q.entry? h = some e → Evolves p (q.put h.index e')
  | vacate {q : Pool α} {h : Handle} {e : Entry α} :
      Evolves p q → q.entry? h = some e → Evolves p (q.vacate h.index)

namespace Evolves

/-- What evolves in two steps evolves in one. -/
theorem trans (hpq : Evolves p q) (hqr : Evolves q r) : Evolves p r := by
  induction hqr with
  | refl => exact hpq
  | alloc a _ ih => exact ih.alloc a
  | put e' _ he ih => exact ih.put e' he
  | vacate _ he ih => exact ih.vacate he

/-! ### What does not change -/

theorem alloc_name (p : Pool α) (a : α) : (p.alloc a).2.name = p.name := by
  unfold Pool.alloc; split <;> [rfl; split <;> rfl]

theorem alloc_capacity (p : Pool α) (a : α) : (p.alloc a).2.capacity = p.capacity := by
  unfold Pool.alloc; split <;> [rfl; split <;> rfl]

/-- A pool keeps its name, which its errors give. -/
theorem name_eq (h : Evolves p q) : q.name = p.name := by
  induction h with
  | refl => rfl
  | alloc a _ ih => exact (alloc_name _ a).trans ih
  | put _ _ _ ih => exact ih
  | vacate _ _ ih => exact ih

/-- A pool keeps its capacity. -/
theorem capacity_eq (h : Evolves p q) : q.capacity = p.capacity := by
  induction h with
  | refl => rfl
  | alloc a _ ih => exact (alloc_capacity _ a).trans ih
  | put _ _ _ ih => exact ih
  | vacate _ _ ih => exact ih

/-! ### Well-formedness -/

theorem wellFormed (h : Evolves p q) (hw : p.WellFormed) : q.WellFormed := by
  induction h with
  | refl => exact hw
  | alloc a _ ih =>
    rcases ih.alloc_cases a with ⟨h, q', hq, hal⟩ | ⟨hq, -⟩
    · exact hq ▸ hal.wellFormed ih
    · exact hq ▸ ih
  | put e' _ he ih => exact ih.put he e'
  | vacate _ he ih => exact ih.vacate he

end Evolves

/-! ### Counting vacations -/

/-- To write an entry vacates nothing. -/
theorem freesAt_put (i j : Nat) (e : Entry α) : (p.put i e).freesAt j = p.freesAt j := by
  simp only [freesAt, put]
  by_cases hi : i = j
  · subst hi
    by_cases hlt : i < p.slots.size
    · simp [hlt]
    · simp [Array.setIfInBounds, hlt]
  · simp [Array.getElem?_setIfInBounds_ne hi]

/-- To vacate a slot is counted there, and nowhere else. -/
theorem freesAt_vacate (he : p.entry? h = some e) (j : Nat) :
    (p.vacate h.index).freesAt j = if j = h.index then p.freesAt j + 1 else p.freesAt j := by
  by_cases hi : h.index = j
  · subst hi
    simp [freesAt, vacate, index_lt he]
  · simp [freesAt, vacate, Array.getElem?_setIfInBounds_ne hi, Ne.symm hi]

/-- No slot has been vacated as often as there are generations. -/
def Young (p : Pool α) : Prop :=
  ∀ i, p.freesAt i < UInt32.size

/-- A pool is young if no slot of it was freed 2^32 times, which can be checked slot by slot. -/
theorem young_iff : p.Young ↔ ∀ s ∈ p.slots, s.frees < UInt32.size := by
  constructor
  · intro hy s hs
    obtain ⟨i, hi⟩ := Array.mem_iff_getElem?.1 hs
    exact freesAt_eq hi ▸ hy i
  · intro hy i
    rw [freesAt]
    split
    · next s hs => exact hy s (Array.mem_of_getElem? hs)
    · exact Nat.zero_lt_succ _

instance : Decidable p.Young :=
  decidable_of_iff' _ young_iff

/-- The slot of `h` has been vacated since `h` was handed out. -/
def Retired (p : Pool α) (h : Handle) : Prop :=
  ∃ n < p.freesAt h.index, h.generation = .ofNat n

/-- Numbers below the bound of generations are told apart by their generations. -/
theorem ofNat_inj {m n : Nat} (hm : m < UInt32.size) (hn : n < UInt32.size)
    (h : UInt32.ofNat m = .ofNat n) : m = n := by
  have := congrArg UInt32.toNat h
  rwa [UInt32.toNat_ofNat_of_lt' hm, UInt32.toNat_ofNat_of_lt' hn] at this

/-- The generation of a handle that leads somewhere counts the frees of its slot. -/
theorem generation_eq (he : p.entry? h = some e) : h.generation = .ofNat (p.freesAt h.index) := by
  obtain ⟨s, hs, hg, -⟩ := entry?_eq_some.1 he
  rw [freesAt_eq hs, ← hg]
  rfl

/-- A retired handle leads nowhere. -/
theorem Retired.entry?_eq_none (hr : p.Retired h) (hy : p.Young) : p.entry? h = none := by
  obtain ⟨n, hn, hg⟩ := hr
  cases he : p.entry? h with
  | none => rfl
  | some e =>
    have := ofNat_inj (hn.trans (hy _)) (hy _) (hg.symm.trans (generation_eq he))
    omega

/-- A handle that is handed out is not retired. -/
theorem Allocated.not_retired (hal : p.Allocated a h q) (hy : p.Young) : ¬p.Retired h := by
  rintro ⟨n, hn, hg⟩
  have := ofNat_inj (hn.trans (hy _)) (hy _) (hg.symm.trans hal.generation)
  omega

/-- The handle of a slot that is vacated is retired. -/
theorem retired_vacate (he : p.entry? h = some e) : (p.vacate h.index).Retired h := by
  refine ⟨p.freesAt h.index, ?_, generation_eq he⟩
  rw [freesAt_vacate he, if_pos rfl]
  exact Nat.lt_succ_self _

namespace Evolves

/-- To allocate frees nothing. -/
theorem freesAt_alloc (p : Pool α) (a : α) (i : Nat) : (p.alloc a).2.freesAt i = p.freesAt i := by
  rw [Pool.alloc]
  split
  · exact freesAt_put _ i _
  · split
    · by_cases hi : i = p.slots.size
      · subst hi; simp [Pool.freesAt]
      · simp [Pool.freesAt, Array.getElem?_push, hi]
    · rfl

/-- Slots are vacated more and more often. -/
theorem freesAt_le (hpq : Evolves p q) (i : Nat) : p.freesAt i ≤ q.freesAt i := by
  induction hpq with
  | refl => exact Nat.le_refl _
  | alloc a _ ih => exact ih.trans_eq (freesAt_alloc _ a i).symm
  | put e' _ _ ih => exact ih.trans_eq (freesAt_put _ _ _).symm
  | vacate _ he ih =>
    refine ih.trans ?_
    rw [freesAt_vacate he]
    split <;> omega

/-- A pool that will be young is young. -/
theorem young (hpq : Evolves p q) (hy : q.Young) : p.Young := fun i =>
  (hpq.freesAt_le i).trans_lt (hy i)

/-- What is retired stays so. -/
theorem retired (hpq : Evolves p q) (hr : p.Retired h) : q.Retired h :=
  let ⟨n, hn, hg⟩ := hr
  ⟨n, hn.trans_le (hpq.freesAt_le _), hg⟩

end Evolves

/-! ### Vacations since -/

/-- The slot of `h` has been vacated since `h` was handed out, and that since the pool was `p`. -/
def RetiredSince (p q : Pool α) (h : Handle) : Prop :=
  ∃ n, p.freesAt h.index ≤ n ∧ n < q.freesAt h.index ∧ h.generation = .ofNat n

/-- Since the pool was `p` no slot has been vacated as often as there are generations. -/
def Near (p q : Pool α) : Prop :=
  ∀ i, q.freesAt i < p.freesAt i + UInt32.size

/-- What retired since some time is retired. -/
theorem RetiredSince.retired (hr : p.RetiredSince q h) : q.Retired h :=
  let ⟨n, _, hn, hg⟩ := hr
  ⟨n, hn, hg⟩

/-- What retired since some time has retired later too. -/
theorem RetiredSince.mono (hr : p.RetiredSince q h) (hqr : q.Evolves r) : p.RetiredSince r h :=
  let ⟨n, hp, hn, hg⟩ := hr
  ⟨n, hp, hn.trans_le (hqr.freesAt_le _), hg⟩

/-- What retired since a later time retired since an earlier one. -/
theorem RetiredSince.of_evolves (hr : q.RetiredSince r h) (hpq : p.Evolves q) :
    p.RetiredSince r h :=
  let ⟨n, hq, hn, hg⟩ := hr
  ⟨n, (hpq.freesAt_le _).trans hq, hn, hg⟩

theorem Near.of_evolves (hn : p.Near r) (hqr : q.Evolves r) : p.Near q := fun i =>
  (hqr.freesAt_le i).trans_lt (hn i)

/-- Numbers of vacations that are near one another are told apart by their generations. -/
theorem ofNat_inj_of_near {k m n : Nat} (hm : k ≤ m) (hm' : m < k + UInt32.size) (hn : k ≤ n)
    (hn' : n < k + UInt32.size) (h : UInt32.ofNat m = .ofNat n) : m = n := by
  have hmod : m % UInt32.size = n % UInt32.size := congrArg UInt32.toNat h
  unfold UInt32.size at *
  omega

/-- A handle that is handed out was not retired since. -/
theorem Allocated.not_retiredSince (hal : q.Allocated a h r) (hn : p.Near q) :
    ¬p.RetiredSince q h := by
  rintro ⟨n, hpn, hnq, hg⟩
  have := ofNat_inj_of_near hpn (hnq.trans (hn _)) (hpn.trans hnq.le) (hn _)
    (hg.symm.trans hal.generation)
  omega

namespace Evolves

/-- A slot that is vacated retires its handle as of now. -/
theorem retiredSince_vacate (hpq : Evolves p q) (he : q.entry? h = some e) :
    p.RetiredSince (q.vacate h.index) h := by
  refine ⟨q.freesAt h.index, hpq.freesAt_le _, ?_, generation_eq he⟩
  rw [freesAt_vacate he, if_pos rfl]
  exact Nat.lt_succ_self _

/-- A handle that leads somewhere does so until it is retired. -/
theorem live_or_retiredSince (hpq : Evolves p q) (hw : p.WellFormed) (hl : p.isLive h) :
    q.isLive h ∨ p.RetiredSince q h := by
  induction hpq with
  | refl => exact .inl hl
  | alloc a hq ih =>
    refine ih.imp (fun hl => ?_) fun hr => hr.mono (alloc a .refl)
    rcases (hq.wellFormed hw).alloc_cases a with ⟨k, r, hr, hal⟩ | ⟨hr, -⟩
    · have hne : h ≠ k := fun hk => by simp [isLive, hk, hal.vacant] at hl
      simpa [hr, isLive, hal.entry?, Function.update_of_ne hne] using hl
    · rwa [hr]
  | @put q k _ e' _ he ih =>
    refine ih.imp (fun hl => ?_) fun hr => hr.mono (put e' .refl he)
    rw [isLive, entry?_put he]
    by_cases hk : h = k
    · rw [hk, Function.update_self]; rfl
    · rwa [Function.update_of_ne hk]
  | @vacate q k _ hq he ih =>
    refine ih.elim (fun hl => ?_) fun hr => .inr (hr.mono (vacate .refl he))
    by_cases hk : h = k
    · subst hk
      exact .inr (hq.retiredSince_vacate he)
    · rw [isLive, entry?_vacate he, Function.update_of_ne hk]
      exact .inl hl

/-- A handle that leads somewhere does so until it is retired. -/
theorem live_or_retired (hpq : Evolves p q) (hw : p.WellFormed) (hl : p.isLive h) :
    q.isLive h ∨ q.Retired h :=
  (hpq.live_or_retiredSince hw hl).imp_right RetiredSince.retired

/-- A handle leads where it led as long as its slot is not vacated. -/
theorem live_of_freesAt_eq (hpq : Evolves p q) (hw : p.WellFormed) (hl : p.isLive h)
    (hf : q.freesAt h.index = p.freesAt h.index) : q.isLive h := by
  refine (hpq.live_or_retiredSince hw hl).resolve_right ?_
  rintro ⟨n, hpn, hnq, -⟩
  omega

/-- A handle that leads somewhere before and after leads to the same slot use. -/
theorem freesAt_eq_of_live (hpq : Evolves p q) (hn : p.Near q) (hp : p.isLive h)
    (hq : q.isLive h) : q.freesAt h.index = p.freesAt h.index := by
  obtain ⟨d, hd⟩ := Option.isSome_iff_exists.1 hp
  obtain ⟨e, he⟩ := Option.isSome_iff_exists.1 hq
  have hle := hpq.freesAt_le h.index
  exact ofNat_inj_of_near hle (hn _) le_rfl (by have := hn h.index; omega)
    ((generation_eq he).symm.trans (generation_eq hd))

end Evolves

/-! ### Clearing -/

/-- A slot is vacant after it was cleared, and stays so when others are cleared. -/
theorem vacant_clearSlot {i j : Nat}
    (hj : j = i ∨ ∀ s, p.slots[j]? = some s → s.entry = none) :
    ∀ s, (p.clearSlot i).slots[j]? = some s → s.entry = none := by
  intro s hs
  rw [clearSlot] at hs
  split at hs
  · next t ht =>
    split at hs
    · by_cases hij : i = j
      · subst hij
        rw [vacate, Array.getElem?_setIfInBounds] at hs
        simp only [if_pos] at hs
        split at hs
        · cases hs; rfl
        · cases hs
      · rw [vacate, Array.getElem?_setIfInBounds_ne hij] at hs
        exact hj.elim (fun h => absurd h.symm hij) fun h => h s hs
    · next hu =>
      rcases hj with rfl | hj
      · obtain rfl := Option.some.inj (ht.symm.trans hs)
        simpa [inUse] using hu
      · exact hj s hs
  · next ht =>
    rcases hj with rfl | hj
    · cases ht.symm.trans hs
    · exact hj s hs

/-- A slot that was cleared or was vacant is vacant in the end, whatever other slots are cleared. -/
theorem vacant_foldl_clearSlot {j : Nat} (is : List Nat) (p : Pool α)
    (hj : j ∈ is ∨ ∀ s, p.slots[j]? = some s → s.entry = none) :
    ∀ s, (is.foldl clearSlot p).slots[j]? = some s → s.entry = none := by
  induction is generalizing p with
  | nil => exact hj.resolve_left List.not_mem_nil
  | cons i is ih =>
    refine ih _ ?_
    -- The slot is vacant already, or is cleared now, or will be.
    rcases hj with hj | hj
    · rcases List.mem_cons.1 hj with rfl | hj
      · exact .inr (vacant_clearSlot (.inl rfl))
      · exact .inl hj
    · exact .inr (vacant_clearSlot (.inr hj))

theorem Consistent.clearSlot (hw : p.Consistent) (i : Nat) : (p.clearSlot i).Consistent := by
  rw [Pool.clearSlot]
  split
  · next s hs =>
    split
    · next hu =>
      obtain ⟨e, he⟩ := Option.isSome_iff_exists.1 hu
      have hi : p.entry? ⟨i, s.generation⟩ = some e := entry?_eq_some.2 ⟨s, hs, rfl, he⟩
      exact hw.vacate hi
    · exact hw
  · exact hw

/-- A pool stays consistent when it is cleared, even if its loop is cut. -/
theorem Consistent.clear (hw : p.Consistent) : p.clear.Consistent := by
  rw [Pool.clear]
  generalize List.range _ = is
  induction is generalizing p with
  | nil => exact hw
  | cons i is ih => exact ih (hw.clearSlot i)

/-- A pool that is cleared keeps its name and its capacity. -/
theorem clear_bounds (p : Pool α) : p.clear.name = p.name ∧ p.clear.capacity = p.capacity := by
  rw [clear]
  generalize List.range _ = is
  induction is generalizing p with
  | nil => exact ⟨rfl, rfl⟩
  | cons i is ih =>
    obtain ⟨hname, hcapacity⟩ := ih (p.clearSlot i)
    rw [List.foldl_cons, hname, hcapacity, clearSlot]
    split
    · split <;> exact ⟨rfl, rfl⟩
    · exact ⟨rfl, rfl⟩

/-- A pool that is cleared keeps its slots open. -/
theorem size_clear (p : Pool α) : p.clear.slots.size = p.slots.size := by
  rw [clear]
  generalize List.range _ = is
  induction is generalizing p with
  | nil => rfl
  | cons i is ih =>
    rw [List.foldl_cons, ih, clearSlot]
    split
    · split <;> simp [vacate]
    · rfl

theorem WellFormed.clear (hw : p.WellFormed) : p.clear.WellFormed :=
  ⟨hw.toConsistent.clear, p.clear_bounds.2.trans_lt hw.capacity_lt⟩

section Clear

variable (hp : p.slots.size < UInt32.size)

include hp

/-- While the number of slots fits, clearing walks all of them. -/
theorem clear_eq : p.clear = (List.range p.slots.size).foldl clearSlot p := by
  rw [clear, Nat.mod_eq_of_lt hp]

/-- No slot holds anything after a pool was cleared. -/
theorem vacant_clear {j : Nat} {s : Slot α} (hs : p.clear.slots[j]? = some s) : s.entry = none := by
  rw [clear_eq hp] at hs
  refine vacant_foldl_clearSlot (List.range p.slots.size) p ?_ s hs
  by_cases hlt : j < p.slots.size
  · exact .inl (List.mem_range.2 hlt)
  · exact .inr fun s hs => absurd (Array.getElem?_eq_some_iff.1 hs).1 hlt

/-- Nothing is left in a pool that has been cleared. -/
theorem entry?_clear (h : Handle) : p.clear.entry? h = none := by
  cases he : p.clear.entry? h with
  | none => rfl
  | some e =>
    obtain ⟨s, hs, -, hse⟩ := entry?_eq_some.1 he
    cases hse.symm.trans (vacant_clear hp hs)

theorem used_clear : p.clear.used = 0 := by
  refine Array.countP_eq_zero.2 ?_
  intro s hs
  obtain ⟨j, hj⟩ := Array.mem_iff_getElem?.1 hs
  simp [inUse, vacant_clear hp hj]

/-- The counter of a pool that was cleared is zero. -/
theorem live_clear (hw : p.Consistent) : p.clear.live = 0 :=
  hw.clear.live_eq.trans (used_clear hp)

theorem contents_clear : p.clear.contents = [] := by
  refine List.flatMap_eq_nil_iff.2 ?_
  intro s hs
  obtain ⟨j, hj⟩ := List.mem_iff_getElem?.1 hs
  rw [Array.getElem?_toList] at hj
  rw [held, vacant_clear hp hj]
  rfl

end Clear

end PoolScript.Pool
