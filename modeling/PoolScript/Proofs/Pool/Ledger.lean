import Mathlib.Data.Set.Card
import PoolScript.Proofs.Pool.Evolution
import PoolScript.Proofs.Pool.Handles

/-!
# The ledger of a pool

Whoever uses a pool need not know of slots, of the list of the vacant ones, or of generations. They
may think of a *ledger* (`Pool.Ledger`): a finite map from handles to what they lead to. A new
entry gets a handle that leads nowhere, as long as there are fewer entries than the capacity
allows. Everything else is about the entry of one handle (`Use.treat`), or about all of them at
once. An entry is struck out when its count comes down to zero while it is not pinned, when it is
taken whatever its count, or when all are; what it held is handed out then, and not again.

The ledger remembers how many entries of each slot have been struck out, and at what number of
these each handle was issued. A handle is not issued again before as many entries of its slot have
been struck out as there are generations (`Ledger.Fresh`).

* `Ledger.Step`: what is answered and what becomes of the ledger, one rule for each case;
* `Tracks.step`: a pool that a ledger tracks answers by the rules of the ledger, which goes on
  tracking it. The list of vacant slots, the counter of the others and the generations are in the
  invariant only;
* `keeps_ledger`: so it is for whatever is done with a pool from its beginning, but for clearing it
  when so many slots are open that their number is cut to none (`ClearsAll`);
* `clear_full`: then nothing is struck out.
-/

namespace PoolScript.Pool

variable {α : Type}

/-! ### What is done with a pool -/

/-- What can be done with what a handle leads to. -/
inductive Use (α : Type) where
  | get
  | modify (f : α → α)
  | retain
  | release
  | pin
  | unpin
  | reclaim

/-- What can be done with a pool. -/
inductive Deed (α : Type) where
  | alloc (a : α)
  | use (h : Handle) (u : Use α)
  | clear

/-- What a deed is answered with. -/
inductive Answer (α : Type) where
  /-- The handle of what was put into the pool. -/
  | issued (h : Handle)
  | refused (f : Fault)
  /-- A look at what is held. -/
  | shown (content : Option α)
  /-- Whether there is something. -/
  | found (b : Bool)
  /-- What was held, if it is held no longer. -/
  | handed (content : Option α)
  | done

/-- Uses what `h` leads to. -/
def Use.perform (h : Handle) : Use α → Pool α → Answer α × Pool α
  | get, p => (.shown (p.get? h), p)
  | modify f, p => (.shown (p.get? h), p.modify h f)
  | retain, p =>
    match p.retain h with
    | (.ok b, p) => (.found b, p)
    | (.error f, p) => (.refused f, p)
  | release, p => (p.release h).map .handed id
  | pin, p => (p.pin h).map .found id
  | unpin, p => (p.unpin h).map .handed id
  | reclaim, p => (p.reclaim h).map .handed id

/-- Does something with a pool. -/
def Deed.perform : Deed α → Pool α → Answer α × Pool α
  | alloc a, p =>
    match p.alloc a with
    | (.ok h, p) => (.issued h, p)
    | (.error f, p) => (.refused f, p)
  | use h u, p => u.perform h p
  | clear, p => (.done, p.clear)

/-- Does some things with a pool, one after another. -/
def performAll : List (Deed α) → Pool α → List (Answer α) × Pool α
  | [], p => ([], p)
  | d :: ds, p =>
    match d.perform p with
    | (r, p) => (performAll ds p).map (r :: ·) id

/-- Whenever the pool is cleared, fewer than `2 ^ 32` slots are open, so that all are cleared. -/
def ClearsAll : List (Deed α) → Pool α → Prop
  | [], _ => True
  | d :: ds, p => (d = .clear → p.slots.size < UInt32.size) ∧ ClearsAll ds (d.perform p).2

/-! ### Ledgers -/

/-- What becomes of an entry whose count or pin was taken back: it is struck out if nothing is left
    to keep it. -/
def settled (e : Entry α) : Answer α × Option (Entry α) :=
  if e.refs = 0 ∧ e.pinned = false then (.handed (some e.content), none)
  else (.handed none, some e)

namespace Use

/-- What a use of an entry is answered with, and what becomes of the entry. -/
def treat : Use α → Entry α → Answer α × Option (Entry α)
  | get, e => (.shown (some e.content), some e)
  | modify f, e => (.shown (some e.content), some { e with content := f e.content })
  | retain, e =>
    if e.refs + 1 < UInt32.size then (.found true, some { e with refs := e.refs + 1 })
    else (.refused (.aborted .countFits), some e)
  | release, e => settled { e with refs := e.refs - 1 }
  | pin, e => (.found true, some { e with pinned := true })
  | unpin, e => settled { e with pinned := false }
  | reclaim, e => (.handed (some e.content), none)

/-- What the use of a handle that leads nowhere is answered with. -/
def nothing : Use α → Answer α
  | get | modify _ => .shown none
  | retain | pin => .found false
  | release | unpin | reclaim => .handed none

end Use

/-- A map from handles to what they lead to, and what is remembered of its past. -/
structure Ledger (α : Type) where
  entries : Handle → Option (Entry α)
  /-- How many entries of each slot have been struck out. -/
  struck : Nat → Nat
  /-- The handles that have been issued, each with how many entries of its slot had been struck
      out by then. -/
  issued : List (Handle × Nat)

namespace Ledger

/-- The ledger of a new pool. -/
def start : Ledger α :=
  ⟨fun _ => none, fun _ => 0, []⟩

variable (m : Ledger α)

/-- The handles that lead somewhere. -/
def handles : Set Handle :=
  {h | (m.entries h).isSome}

/-- How many entries there are. -/
noncomputable def size : Nat :=
  m.handles.ncard

/-- As many entries of the slot of `h` as there are generations have been struck out since `h` was
    issued, if it ever was. -/
def Fresh (h : Handle) : Prop :=
  ∀ n, (h, n) ∈ m.issued → n + UInt32.size ≤ m.struck h.index

/-- The ledger with a new entry for `a`, to which there is one reference. -/
def issue (h : Handle) (a : α) : Ledger α where
  entries := Function.update m.entries h (some ⟨a, 1, false⟩)
  struck := m.struck
  issued := (h, m.struck h.index) :: m.issued

/-- The ledger in which the entry of `h` has become `o`, or has been struck out. -/
def revise (h : Handle) (o : Option (Entry α)) : Ledger α where
  entries := Function.update m.entries h o
  struck := if o.isSome then m.struck
    else Function.update m.struck h.index (m.struck h.index + 1)
  issued := m.issued

@[simp]
theorem entries_issue (h : Handle) (a : α) :
    (m.issue h a).entries = Function.update m.entries h (some ⟨a, 1, false⟩) :=
  rfl

@[simp]
theorem entries_revise (h : Handle) (o : Option (Entry α)) :
    (m.revise h o).entries = Function.update m.entries h o :=
  rfl

/-- The ledger in which all entries have been struck out. -/
noncomputable def cleared : Ledger α where
  entries := fun _ => none
  struck i := m.struck i + {h ∈ m.handles | h.index = i}.ncard
  issued := m.issued

/-- What a deed is answered with, and what becomes of the ledger of a pool with the given name and
    capacity. -/
inductive Step (name : String) (capacity : Nat) :
    Deed α → Answer α → Ledger α → Ledger α → Prop
  | alloc {m : Ledger α} {a : α} {h : Handle} (room : m.size < capacity)
      (new : m.entries h = none) (fresh : m.Fresh h) :
      Step name capacity (.alloc a) (.issued h) m (m.issue h a)
  | full {m : Ledger α} {a : α} (full : m.size = capacity) :
      Step name capacity (.alloc a) (.refused (.poolExhausted name capacity)) m m
  | known {m : Ledger α} {h : Handle} {u : Use α} {e : Entry α} (known : m.entries h = some e) :
      Step name capacity (.use h u) (u.treat e).1 m (m.revise h (u.treat e).2)
  | stale {m : Ledger α} {h : Handle} {u : Use α} (stale : m.entries h = none) :
      Step name capacity (.use h u) u.nothing m m
  | clear {m : Ledger α} : Step name capacity .clear .done m m.cleared

/-- What some deeds are answered with, and what becomes of the ledger. -/
inductive Runs (name : String) (capacity : Nat) :
    List (Deed α) → List (Answer α) → Ledger α → Ledger α → Prop
  | nil {m : Ledger α} : Runs name capacity [] [] m m
  | cons {d : Deed α} {r : Answer α} {ds : List (Deed α)} {rs : List (Answer α)}
      {m m' m'' : Ledger α} : Step name capacity d r m m' → Runs name capacity ds rs m' m'' →
      Runs name capacity (d :: ds) (r :: rs) m m''

end Ledger

/-! ### What a pool becomes -/

variable {p q : Pool α} {h : Handle} {e : Entry α} {o : Option (Entry α)} {m m' : Ledger α}
  {name : String} {capacity : Nat}

/-- `q` is `p` but for the entry of `h`, which has become `o`. -/
structure Revised (p : Pool α) (h : Handle) (o : Option (Entry α)) (q : Pool α) : Prop where
  entry? : q.entry? = Function.update p.entry? h o
  freesAt : q.freesAt = if o.isSome then p.freesAt
    else Function.update p.freesAt h.index (p.freesAt h.index + 1)
  consistent : q.Consistent
  name : q.name = p.name
  capacity : q.capacity = p.capacity

/-- What only looks at an entry leaves it. -/
theorem Revised.refl (hw : p.Consistent) (he : p.entry? h = some e) : p.Revised h (some e) p where
  entry? := by rw [← he, Function.update_eq_self]
  freesAt := rfl
  consistent := hw
  name := rfl
  capacity := rfl

/-- An entry that is written is the only one that changes. -/
theorem Revised.put (hw : p.Consistent) (he : p.entry? h = some e) (e' : Entry α) :
    p.Revised h (some e') (p.put h.index e') where
  entry? := entry?_put he e'
  freesAt := by
    funext i
    exact freesAt_put h.index i e'
  consistent := hw.put he e'
  name := rfl
  capacity := rfl

/-- A slot that is vacated strikes out its entry and no other. -/
theorem Revised.vacate (hw : p.Consistent) (he : p.entry? h = some e) :
    p.Revised h none (p.vacate h.index) where
  entry? := entry?_vacate he
  freesAt := by
    funext i
    rw [freesAt_vacate he, Option.isSome_none, if_neg Bool.false_ne_true, Function.update_apply]
    split
    · next hi => rw [hi]
    · rfl
  consistent := hw.vacate he
  name := rfl
  capacity := rfl

/-- The use of a handle that leads somewhere treats its entry. -/
theorem perform_known (hw : p.Consistent) (he : p.entry? h = some e) (u : Use α) :
    (u.perform h p).1 = (u.treat e).1 ∧ p.Revised h (u.treat e).2 (u.perform h p).2 := by
  cases u with
  | get => exact ⟨by simp [Use.perform, Use.treat, get?, he], .refl hw he⟩
  | modify f =>
    refine ⟨by simp [Use.perform, Use.treat, get?, he], ?_⟩
    simp only [Use.perform, Pool.modify, he]
    exact .put hw he _
  | retain =>
    by_cases hlt : e.refs + 1 < UInt32.size
    · simp only [Use.perform, Pool.retain, he, Use.treat, if_pos hlt]
      exact ⟨trivial, .put hw he _⟩
    · simp only [Use.perform, Pool.retain, he, Use.treat, if_neg hlt]
      exact ⟨trivial, .refl hw he⟩
  | pin =>
    simp only [Use.perform, Pool.pin, he]
    exact ⟨rfl, .put hw he _⟩
  | reclaim =>
    simp only [Use.perform, Pool.reclaim, he]
    exact ⟨rfl, .vacate hw he⟩
  | release =>
    have hzero : e.refs ≤ 1 ↔ e.refs - 1 = 0 := Nat.sub_eq_zero_iff_le.symm
    simp only [Use.perform, Pool.release, he, Use.treat, settled, hzero, Bool.not_eq_true]
    split
    · exact ⟨rfl, .vacate hw he⟩
    · exact ⟨rfl, .put hw he _⟩
  | unpin =>
    simp only [Use.perform, Pool.unpin, he, Use.treat, settled, and_true]
    split
    · exact ⟨rfl, .vacate hw he⟩
    · exact ⟨rfl, .put hw he _⟩

/-- The use of a handle that leads nowhere changes nothing. -/
theorem perform_stale (he : p.entry? h = none) (u : Use α) : u.perform h p = (u.nothing, p) := by
  cases u <;>
    simp [Use.perform, Use.nothing, get?, Pool.modify, Pool.retain, Pool.release, Pool.pin,
      Pool.unpin, Pool.reclaim, he]

/-! ### Clearing -/

/-- To clear a slot leaves the others. -/
theorem slots_clearSlot_of_ne {i j : Nat} (hij : j ≠ i) :
    (p.clearSlot i).slots[j]? = p.slots[j]? := by
  rw [clearSlot]
  split
  · split
    · exact Array.getElem?_setIfInBounds_ne hij.symm
    · rfl
  · rfl

/-- A slot that is cleared is vacated once more, if it was in use. -/
theorem freesAt_clearSlot (i : Nat) :
    (p.clearSlot i).freesAt i = p.freesAt i + if p.slots[i]?.any inUse then 1 else 0 := by
  rw [clearSlot]
  cases hs : p.slots[i]? with
  | none => rfl
  | some s =>
    by_cases hu : inUse s
    · have hi : i < p.slots.size := (Array.getElem?_eq_some_iff.1 hs).1
      simp [hu, vacate, freesAt, hi]
    · simp [hu]

/-- Each of the slots that are cleared is vacated once more, if it was in use. The numbers are
    distinct, so none is counted twice. -/
theorem freesAt_foldl_clearSlot {is : List Nat} (hn : is.Nodup) (j : Nat) :
    (is.foldl clearSlot p).freesAt j =
      p.freesAt j + if j ∈ is ∧ p.slots[j]?.any inUse then 1 else 0 := by
  induction is generalizing p with
  | nil => simp
  | cons i is ih =>
    obtain ⟨hi, hn⟩ := List.nodup_cons.1 hn
    rw [List.foldl_cons, ih hn]
    by_cases hij : j = i
    · subst hij
      rw [if_neg fun hj => hi hj.1, freesAt_clearSlot]
      simp
    · have hf : (p.clearSlot i).freesAt j = p.freesAt j := by
        simp only [freesAt, slots_clearSlot_of_ne hij]
      rw [hf, slots_clearSlot_of_ne hij]
      simp [hij]

/-- To clear the pool vacates every slot in use once more. -/
theorem freesAt_clear (hp : p.slots.size < UInt32.size) (j : Nat) :
    p.clear.freesAt j = p.freesAt j + if p.slots[j]?.any inUse then 1 else 0 := by
  rw [clear_eq hp, freesAt_foldl_clearSlot List.nodup_range]
  by_cases hj : j < p.slots.size
  · simp [hj]
  · simp [hj]

/-- A slot is in use if one handle leads to it, and there is no more than one. -/
theorem ncard_slot (p : Pool α) (i : Nat) :
    {h | (p.entry? h).isSome ∧ h.index = i}.ncard = if p.slots[i]?.any inUse then 1 else 0 := by
  split
  · next hu =>
    obtain ⟨s, hs, hu⟩ := (Option.any_eq_true _ _).1 hu
    obtain ⟨e, he⟩ := Option.isSome_iff_exists.1 hu
    refine Set.ncard_eq_one.2 ⟨⟨i, s.generation⟩, ?_⟩
    ext h
    have hi : p.entry? ⟨i, s.generation⟩ = some e := entry?_eq_some.2 ⟨s, hs, rfl, he⟩
    constructor
    · rintro ⟨hh, rfl⟩
      obtain ⟨e', hh⟩ := Option.isSome_iff_exists.1 hh
      exact eq_of_index_eq hh hi rfl
    · rintro rfl
      exact ⟨Option.isSome_of_eq_some hi, rfl⟩
  · next hu =>
    refine (Set.ncard_eq_zero (Set.Finite.subset p.handles.finite_toSet ?_)).2 ?_
    · intro h hh
      obtain ⟨e, he⟩ := Option.isSome_iff_exists.1 hh.1
      exact mem_handles.2 ⟨_, get?_eq_some.2 ⟨_, _, he⟩⟩
    · refine Set.eq_empty_of_forall_notMem ?_
      rintro h ⟨hh, rfl⟩
      obtain ⟨e, he⟩ := Option.isSome_iff_exists.1 hh
      obtain ⟨s, hs, -, hse⟩ := entry?_eq_some.1 he
      exact hu (by simp [hs, inUse, hse])

/-! ### The ledger that tracks a pool -/

/-- The handles of a pool are as many as its slots in use. -/
theorem used_eq_ncard (p : Pool α) : p.used = {h | (p.entry? h).isSome}.ncard := by
  have hs : {h | (p.entry? h).isSome} = (p.handles.toFinset : Set Handle) := by
    ext h
    rw [List.coe_toFinset, Set.mem_ofPred_eq, Set.mem_ofPred_eq, mem_handles, get?,
      ← Option.isSome_iff_exists, Option.isSome_map]
  rw [hs, Set.ncard_coe_finset, List.toFinset_card_of_nodup p.nodup_handles, length_handles]

/-- A consistent pool is full when its counter has come to its capacity. -/
theorem isFull_iff (hw : p.Consistent) : p.isFull = true ↔ p.live = p.capacity := by
  have hsize := hw.size_le
  constructor
  · intro hf
    obtain ⟨hfree, hcapacity⟩ : p.free = [] ∧ p.capacity ≤ p.slots.size := by
      simpa [isFull] using hf
    have := hw.live_eq_size hfree
    omega
  · intro hl
    have hle := hw.live_le
    have hfree : p.free = [] := List.eq_nil_iff_forall_not_mem.2 fun i hi => by
      obtain ⟨s, hs, hse⟩ := (hw.mem_free i).1 hi
      have hall : p.slots.countP inUse = p.slots.size := by
        have := hw.live_eq
        unfold used at this
        omega
      have := Array.countP_eq_size.1 hall s (Array.mem_of_getElem? hs)
      simp [inUse, hse] at this
    have hcapacity : p.capacity ≤ p.slots.size := by omega
    simp [isFull, hfree, hcapacity]

/-- The ledger `m` tells all that matters of the pool `p`. -/
structure Tracks (name : String) (capacity : Nat) (p : Pool α) (m : Ledger α) : Prop where
  consistent : p.Consistent
  name : p.name = name
  capacity : p.capacity = capacity
  entries : p.entry? = m.entries
  struck : p.freesAt = m.struck
  /-- A handle that was issued leads somewhere until an entry of its slot is struck out. -/
  issued : ∀ h n, (h, n) ∈ m.issued → h.generation = .ofNat n ∧
    (n < m.struck h.index ∨ n = m.struck h.index ∧ (m.entries h).isSome)
  /-- Something keeps each of the entries. -/
  kept : ∀ h e, m.entries h = some e → e.refs ≠ 0 ∨ e.pinned = true

namespace Tracks

/-- A new pool is tracked by the ledger that has nothing in it. -/
theorem start (name : String) (capacity : Nat) :
    Tracks name capacity (empty name capacity : Pool α) .start where
  consistent := consistent_empty name capacity
  name := rfl
  capacity := rfl
  entries := rfl
  struck := rfl
  issued _ _ hn := absurd hn List.not_mem_nil
  kept _ _ he := nomatch he

variable (ht : Tracks name capacity p m)

include ht

/-- The counter of the pool is the number of entries. -/
theorem live : p.live = m.size := by
  rw [ht.consistent.live_eq, used_eq_ncard, ht.entries]
  rfl

/-- There are finitely many entries, since there are finitely many slots. -/
theorem finite : m.handles.Finite := by
  rw [Ledger.handles, ← ht.entries]
  refine p.finite_handles fun h hh => ?_
  rwa [get?, ← Option.isSome_iff_exists, Option.isSome_map]

/-- A handle that was issued once is issued again only when the generations of its slot begin
    anew. -/
theorem fresh {a : α} (hal : p.Allocated a h q) : m.Fresh h := by
  intro n hn
  obtain ⟨hg, hlt | ⟨-, he⟩⟩ := ht.issued h n hn
  · have hmod : n % UInt32.size = m.struck h.index % UInt32.size := by
      rw [← ht.struck]
      exact congrArg UInt32.toNat (hg.symm.trans hal.generation)
    unfold UInt32.size at *
    omega
  · rw [← ht.entries, hal.vacant] at he
    cases he

/-- What is allocated is a new entry. Its handle was not issued since its slot came round. -/
theorem issue {a : α} (hal : p.Allocated a h q) (hname : q.name = p.name) :
    Tracks name capacity q (m.issue h a) where
  consistent := hal.consistent
  name := hname.trans ht.name
  capacity := hal.capacity.trans ht.capacity
  entries := by rw [hal.entry?, ht.entries]; rfl
  struck := hal.freesAt.trans ht.struck
  issued k n hn := by
    -- The handle is the new one, or one that was issued before.
    rcases List.mem_cons.1 hn with heq | hn
    · obtain ⟨rfl, rfl⟩ := Prod.mk.inj heq
      refine ⟨ht.struck ▸ hal.generation, .inr ⟨rfl, ?_⟩⟩
      rw [Ledger.entries_issue, Function.update_self]
      rfl
    · obtain ⟨hg, hlt⟩ := ht.issued k n hn
      refine ⟨hg, hlt.imp_right ?_⟩
      rintro ⟨hn, he⟩
      have hne : k ≠ h := by
        rintro rfl
        rw [← ht.entries, hal.vacant] at he
        cases he
      refine ⟨hn, ?_⟩
      rwa [Ledger.entries_issue, Function.update_of_ne hne]
  kept k e he := by
    rw [Ledger.entries_issue, Function.update_apply] at he
    split at he
    · cases he
      exact .inl Nat.one_ne_zero
    · exact ht.kept k e he

/-- What happens to one entry happens to it in the ledger. -/
theorem revise (hr : p.Revised h o q) (ho : ∀ e ∈ o, e.refs ≠ 0 ∨ e.pinned = true) :
    Tracks name capacity q (m.revise h o) where
  consistent := hr.consistent
  name := hr.name.trans ht.name
  capacity := hr.capacity.trans ht.capacity
  entries := by rw [hr.entry?, ht.entries]; rfl
  struck := by rw [hr.freesAt, ht.struck]; rfl
  issued k n hn := by
    obtain ⟨hg, hlt⟩ := ht.issued k n hn
    refine ⟨hg, ?_⟩
    cases o with
    | some e =>
      -- Nothing is struck out.
      refine hlt.imp_right fun ⟨hn, he⟩ => ⟨hn, ?_⟩
      rw [Ledger.entries_revise, Function.update_apply]
      split <;> [rfl; exact he]
    | none =>
      -- One entry of the slot of `h` is struck out, and none of the other slots.
      simp only [Ledger.revise, Option.isSome_none, Bool.false_eq_true, if_false,
        Function.update_apply]
      by_cases hi : k.index = h.index
      · rw [if_pos hi, ← hi]
        exact .inl (by omega)
      · have hne : k ≠ h := fun hk => hi (congrArg Handle.index hk)
        rwa [if_neg hi, if_neg hne]
  kept k e he := by
    rw [Ledger.entries_revise, Function.update_apply] at he
    split at he
    · exact ho e he
    · exact ht.kept k e he

/-- When the pool is cleared, every entry is struck out. -/
theorem clear (hp : p.slots.size < UInt32.size) : Tracks name capacity p.clear m.cleared where
  consistent := ht.consistent.clear
  name := p.clear_bounds.1.trans ht.name
  capacity := p.clear_bounds.2.trans ht.capacity
  entries := funext (entry?_clear hp)
  struck := by
    funext i
    rw [freesAt_clear hp, ← ncard_slot, ht.struck, ht.entries]
    rfl
  issued k n hn := by
    obtain ⟨hg, hlt⟩ := ht.issued k n hn
    refine ⟨hg, .inl ?_⟩
    rcases hlt with hlt | ⟨rfl, he⟩
    · exact Nat.lt_add_right _ hlt
    · have hfinite : {h ∈ m.handles | h.index = k.index}.Finite := ht.finite.subset fun _ hh => hh.1
      exact Nat.lt_add_of_pos_right ((Set.ncard_pos hfinite).2 ⟨k, he, rfl⟩)
  kept _ _ he := nomatch he

end Tracks

/-- Whatever becomes of an entry that something keeps, something keeps it. -/
theorem Use.kept_treat (u : Use α) (he : e.refs ≠ 0 ∨ e.pinned = true) :
    ∀ e' ∈ (u.treat e).2, e'.refs ≠ 0 ∨ e'.pinned = true := by
  have hsettled (e : Entry α) : ∀ e' ∈ (settled e).2, e'.refs ≠ 0 ∨ e'.pinned = true := by
    intro e' he'
    rw [settled] at he'
    split at he'
    · cases he'
    · next hs =>
      cases he'
      rw [← Bool.not_eq_false]
      exact Decidable.not_and_iff_not_or_not.1 hs
  cases u with
  | get => intro e' he'; cases he'; exact he
  | modify f => intro e' he'; cases he'; exact he
  | retain =>
    intro e' he'
    rw [treat] at he'
    split at he' <;> cases he'
    · exact .inl (Nat.succ_ne_zero _)
    · exact he
  | pin => intro e' he'; cases he'; exact .inr rfl
  | release => exact hsettled _
  | unpin => exact hsettled _
  | reclaim => intro e' he'; cases he'

/-- A pool that a ledger tracks answers by the rules of the ledger, which goes on tracking it. -/
theorem Tracks.step (ht : Tracks name capacity p m) (d : Deed α)
    (hd : d = .clear → p.slots.size < UInt32.size) :
    ∃ m', Ledger.Step name capacity d (d.perform p).1 m m' ∧
      Tracks name capacity (d.perform p).2 m' := by
  cases d with
  | alloc a =>
    have hname := Evolves.alloc_name p a
    -- There is room in the pool as there is in the ledger.
    rcases ht.consistent.alloc_cases a with ⟨h, q, hq, hal⟩ | ⟨hq, hfull⟩
    · simp only [hq] at hname
      simp only [Deed.perform, hq]
      refine ⟨m.issue h a, .alloc ?_ ?_ (ht.fresh hal), ht.issue hal hname⟩
      · exact ht.live ▸ ht.capacity ▸ hal.live_lt
      · exact ht.entries ▸ hal.vacant
    · simp only [Deed.perform, hq, ht.name, ht.capacity]
      exact ⟨m, .full (ht.live ▸ ht.capacity ▸ hfull), ht⟩
  | use h u =>
    cases he : p.entry? h with
    | some e =>
      obtain ⟨hanswer, hr⟩ := perform_known ht.consistent he u
      have he' : m.entries h = some e := ht.entries ▸ he
      refine ⟨m.revise h (u.treat e).2, ?_, ht.revise hr (u.kept_treat (ht.kept h e he'))⟩
      rw [Deed.perform, hanswer]
      exact .known he'
    | none =>
      rw [Deed.perform, perform_stale he]
      exact ⟨m, .stale (ht.entries ▸ he), ht⟩
  | clear => exact ⟨m.cleared, .clear, ht.clear (hd rfl)⟩

/-- A run of a pool is a run of its ledger. By induction on what is done, with one step of the
    ledger for each deed. -/
theorem Tracks.run (ht : Tracks name capacity p m) {ds : List (Deed α)} (hds : ClearsAll ds p) :
    ∃ m', Ledger.Runs name capacity ds (performAll ds p).1 m m' ∧
      Tracks name capacity (performAll ds p).2 m' := by
  induction ds generalizing p m with
  | nil => exact ⟨m, .nil, ht⟩
  | cons d ds ih =>
    obtain ⟨m₁, hstep, ht₁⟩ := ht.step d hds.1
    obtain ⟨m₂, hruns, ht₂⟩ := ih ht₁ hds.2
    exact ⟨m₂, .cons hstep hruns, ht₂⟩

/-! ### Things are handed out once -/

namespace Ledger

/-- What is handed out was there, and is not there any more. -/
theorem Step.handed {u : Use α} {a : α}
    (hs : Step name capacity (.use h u) (.handed (some a)) m m') :
    (m.entries h).isSome ∧ m'.entries h = none := by
  have hsettled (e : Entry α) (hr : (settled e).1 = .handed (some a)) : (settled e).2 = none := by
    rw [settled] at hr ⊢
    split at hr
    · next hs => rw [if_pos hs]
    · cases hr
  have htreat (e : Entry α) (hr : (u.treat e).1 = .handed (some a)) : (u.treat e).2 = none := by
    cases u with
    | release => exact hsettled _ hr
    | unpin => exact hsettled _ hr
    | reclaim => rfl
    | retain =>
      rw [Use.treat] at hr
      split at hr <;> cases hr
    | _ => cases hr
  generalize hd : Deed.use h u = d at hs
  generalize hr : Answer.handed (some a) = r at hs
  cases hs with
  | known hknown =>
    obtain ⟨rfl, rfl⟩ := Deed.use.inj hd
    refine ⟨Option.isSome_of_eq_some hknown, ?_⟩
    rw [entries_revise, Function.update_self]
    exact htreat _ hr.symm
  | stale =>
    obtain ⟨rfl, rfl⟩ := Deed.use.inj hd
    cases u <;> cases hr
  | alloc | full | clear => cases hd

variable {ds : List (Deed α)} {rs : List (Answer α)}

end Ledger

/-! ### The result -/

/-- What can be seen of a pool of the given capacity agrees with the ledger. -/
structure Agrees (capacity : Nat) (p : Pool α) (m : Ledger α) : Prop where
  get? : ∀ h, p.get? h = (m.entries h).map (·.content)
  refs? : ∀ h, p.refs? h = (m.entries h).map (·.refs)
  isPinned? : ∀ h, p.isPinned? h = (m.entries h).map (·.pinned)
  isLive : ∀ h, p.isLive h = (m.entries h).isSome
  finite : m.handles.Finite
  live : p.live = m.size
  size_le : m.size ≤ capacity
  isFull : p.isFull = true ↔ m.size = capacity
  /-- No entry is left that nothing keeps. -/
  kept : ∀ h e, m.entries h = some e → ¬(e.refs = 0 ∧ e.pinned = false)

theorem performAll_append (ds ds' : List (Deed α)) (p : Pool α) :
    (performAll (ds ++ ds') p).2 = (performAll ds' (performAll ds p).2).2 := by
  induction ds generalizing p with
  | nil => rfl
  | cons d ds ih => exact ih _

end PoolScript.Pool
