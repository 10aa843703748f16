import Mathlib.Logic.Relator
import PoolScript.Proofs.Pool.Evolution

/-!
# Pools that are alike

Two pools are *alike* when they hold the same things under handles that go together
(`Pool.Alike`): the handles that go together lead to entries with the same counts and pins,
or both of them lead nowhere. How alike they are (`Likeness`) is said by two choices.

* The slots of both pools are *in step*, so a handle goes together with itself, or handles are
  *renamed*, and go together as they were handed out. Then a pair that leads nowhere any more is
  retired on both sides, so that no handle which is handed out can be one of it.
* The pools have the same room, or the second one is *wider*: it may have more room, and may go on
  where the first one is exhausted.

What one operation does to handles that go together keeps pools alike (`Alike.put`,
`Alike.vacate`). Allocation makes a new pair of handles (`Alike.alloc`).
-/

namespace Option.Rel

variable {α β γ δ : Type} {R : α → β → Prop} {S : γ → δ → Prop} {x : Option α} {y : Option β}

/-- What is made of related things is related. -/
theorem map {f : α → γ} {g : β → δ} (h : Rel R x y) (hfg : ∀ {a b}, R a b → S (f a) (g b)) :
    Rel S (x.map f) (y.map g) := by
  cases h with
  | some h => exact .some (hfg h)
  | none => exact .none

/-- What may be made of related things is related. -/
theorem bind {f : α → Option γ} {g : β → Option δ} (h : Rel R x y)
    (hfg : ∀ {a b}, R a b → Rel S (f a) (g b)) : Rel S (x.bind f) (y.bind g) := by
  cases h with
  | some h => exact hfg h
  | none => exact .none

/-- What is made of related things is the same, if no difference shows. -/
theorem bind_eq {f : α → Option γ} {g : β → Option γ} (h : Rel R x y)
    (hfg : ∀ {a b}, R a b → f a = g b) : x.bind f = y.bind g := by
  cases h with
  | some h => exact hfg h
  | none => rfl

theorem mono {S : α → β → Prop} (h : Rel R x y) (hRS : ∀ {a b}, R a b → S a b) : Rel S x y := by
  cases h with
  | some h => exact .some (hRS h)
  | none => exact .none

theorem eq {x y : Option α} (h : Rel (· = ·) x y) : x = y := by
  cases h with
  | some h => rw [h]
  | none => rfl

end Option.Rel

namespace PoolScript

/-- How two pools can be alike. -/
structure Likeness where
  /-- Handles are renamed. If not, slots are in step. -/
  renames : Bool
  /-- The second one may have more room. -/
  widens : Bool

namespace Likeness

variable {κ : Likeness} {n n' : Nat}

/-- How the limits of two sides may differ. -/
def Admits (κ : Likeness) (n n' : Nat) : Prop :=
  if κ.widens then n ≤ n' else n = n'

/-- The second side never has less room. -/
theorem Admits.le (h : κ.Admits n n') : n ≤ n' := by
  unfold Admits at h
  split at h
  · exact h
  · exact h.le

/-- Where nothing is widened, the room is the same. -/
theorem Admits.eq (h : κ.Admits n n') (hκ : κ.widens = false) : n = n' := by
  simpa [Admits, hκ] using h

theorem Admits.of_eq (h : n = n') : κ.Admits n n' := by
  unfold Admits
  split
  · exact h.le
  · exact h

end Likeness

/-- Entries with things that `R` relates and the same counts and pins. -/
structure Entry.Alike {α : Type} (R : α → α → Prop) (e e' : Entry α) : Prop where
  content : R e.content e'.content
  refs : e.refs = e'.refs
  pinned : e.pinned = e'.pinned

namespace Pool

variable {α : Type} {R : α → α → Prop} {σ : Handle → Handle → Prop} {p q p' q' : Pool α}
  {h k : Handle} {e e' : Entry α} {a b : α} {κ : Likeness}

/-- The slots of two pools are in step. -/
structure InStep (σ : Handle → Handle → Prop) (p q : Pool α) : Prop where
  same : ∀ {h k}, σ h k ↔ h = k
  free : p.free = q.free
  size : p.slots.size = q.slots.size
  freesAt : p.freesAt = q.freesAt

/-- Handles that go together and lead nowhere are retired. -/
structure Renamed (σ : Handle → Handle → Prop) (p q : Pool α) : Prop where
  stale : ∀ {h k}, σ h k → p.entry? h = none → p.Retired h ∧ q.Retired k

/-- How the handles of two pools go together. -/
def Paired : Likeness → (Handle → Handle → Prop) → Pool α → Pool α → Prop
  | ⟨false, _⟩ => InStep
  | ⟨true, _⟩ => Renamed

/-- Two pools hold the same things, up to `R`, under the handles that `σ` relates. -/
structure Alike (κ : Likeness) (R : α → α → Prop) (σ : Handle → Handle → Prop) (p q : Pool α) :
    Prop where
  unique : Relator.BiUnique σ
  entries : ∀ {h k}, σ h k → Option.Rel (Entry.Alike R) (p.entry? h) (q.entry? k)
  live : p.live = q.live
  left : p.WellFormed
  right : q.WellFormed
  name : p.name = q.name
  capacity : κ.Admits p.capacity q.capacity
  paired : Paired κ σ p q

namespace Alike

/-- What is held goes together under a coarser relation too. -/
theorem mono {S : α → α → Prop} (hpq : Alike κ R σ p q) (hRS : ∀ {x y}, R x y → S x y) :
    Alike κ S σ p q :=
  { hpq with
    entries := fun hσ => (hpq.entries hσ).mono fun he => ⟨hRS he.content, he.refs, he.pinned⟩ }

/-- Handles that go together lead to entries that are alike, or both lead nowhere. -/
theorem cases (hpq : Alike κ R σ p q) (hσ : σ h k) :
    (∃ e e', p.entry? h = some e ∧ q.entry? k = some e' ∧ e.Alike R e') ∨
      p.entry? h = none ∧ q.entry? k = none := by
  have he := hpq.entries hσ
  generalize p.entry? h = x at he ⊢
  generalize q.entry? k = y at he ⊢
  cases he with
  | some he => exact .inl ⟨_, _, rfl, rfl, he⟩
  | none => exact .inr ⟨rfl, rfl⟩

/-- Handles that go together are equal on both sides or on neither. -/
theorem eq_iff (hpq : Alike κ R σ p q) {h' k' : Handle} (hσ : σ h k) (hσ' : σ h' k') :
    h = h' ↔ k = k' :=
  ⟨fun he => hpq.unique.2 (he ▸ hσ) hσ', fun he => hpq.unique.1 (he ▸ hσ) hσ'⟩

/-! ### Changing an entry -/

/-- To write entries that go together, on both sides, keeps pools alike. -/
theorem put (hpq : Alike κ R σ p q) (hσ : σ h k) {d d' : Entry α} (hp : p.entry? h = some d)
    (hq : q.entry? k = some d') (he : e.Alike R e') :
    Alike κ R σ (p.put h.index e) (q.put k.index e') where
  unique := hpq.unique
  entries {i j} hij := by
    rw [entry?_put hp, entry?_put hq]
    by_cases hi : i = h
    · rw [hi, (hpq.eq_iff hij hσ).1 hi, Function.update_self, Function.update_self]
      exact .some he
    · rw [Function.update_of_ne hi, Function.update_of_ne fun hj => hi ((hpq.eq_iff hij hσ).2 hj)]
      exact hpq.entries hij
  live := hpq.live
  left := hpq.left.put hp e
  right := hpq.right.put hq e'
  name := hpq.name
  capacity := hpq.capacity
  paired := by
    have hr := hpq.paired
    -- In step, no slot is vacated. Renamed, the pairs that lead nowhere are the same.
    obtain ⟨_ | _, _⟩ := κ
    · exact ⟨hr.same, hr.free, by simpa [Pool.put] using hr.size,
        funext fun i => by rw [freesAt_put, freesAt_put, hr.freesAt]⟩
    · refine ⟨fun {i j} hij hn => ?_⟩
      have hi : i ≠ h := by
        rintro rfl
        rw [entry?_put hp, Function.update_self] at hn
        cases hn
      rw [entry?_put hp, Function.update_of_ne hi] at hn
      obtain ⟨h₁, h₂⟩ := hr.stale hij hn
      exact ⟨(Evolves.put e .refl hp).retired h₁, (Evolves.put e' .refl hq).retired h₂⟩

/-- To vacate slots that go together, on both sides, keeps pools alike. The pair leads nowhere then.
    -/
theorem vacate (hpq : Alike κ R σ p q) (hσ : σ h k) (hp : p.entry? h = some e)
    (hq : q.entry? k = some e') : Alike κ R σ (p.vacate h.index) (q.vacate k.index) where
  unique := hpq.unique
  entries {i j} hij := by
    rw [entry?_vacate hp, entry?_vacate hq]
    by_cases hi : i = h
    · rw [hi, (hpq.eq_iff hij hσ).1 hi, Function.update_self, Function.update_self]
      exact .none
    · rw [Function.update_of_ne hi, Function.update_of_ne fun hj => hi ((hpq.eq_iff hij hσ).2 hj)]
      exact hpq.entries hij
  live := congrArg (· - 1) hpq.live
  left := hpq.left.vacate hp
  right := hpq.right.vacate hq
  name := hpq.name
  capacity := hpq.capacity
  paired := by
    have hr := hpq.paired
    -- In step, the same slot goes on both lists. Renamed, the pair is retired on both sides.
    obtain ⟨_ | _, _⟩ := κ
    · obtain rfl := hr.same.1 hσ
      refine ⟨hr.same, by simp [Pool.vacate, hr.free], by simpa [Pool.vacate] using hr.size,
        funext fun i => ?_⟩
      rw [freesAt_vacate hp, freesAt_vacate hq, hr.freesAt]
    · refine ⟨fun {i j} hij hn => ?_⟩
      by_cases hi : i = h
      · rw [hi, (hpq.eq_iff hij hσ).1 hi]
        exact ⟨retired_vacate hp, retired_vacate hq⟩
      · rw [entry?_vacate hp, Function.update_of_ne hi] at hn
        obtain ⟨h₁, h₂⟩ := hr.stale hij hn
        exact ⟨(Evolves.vacate .refl hp).retired h₁, (Evolves.vacate .refl hq).retired h₂⟩

/-! ### Counting and pinning -/

/-- One more reference is counted on both sides or on neither. -/
theorem retain (hpq : Alike κ R σ p q) (hσ : σ h k) :
    (p.retain h).1 = (q.retain k).1 ∧ Alike κ R σ (p.retain h).2 (q.retain k).2 := by
  rcases hpq.cases hσ with ⟨e, e', he, he', ha⟩ | ⟨he, he'⟩
  · simp only [Pool.retain, he, he', ← ha.refs]
    split
    · exact ⟨rfl, hpq.put hσ he he' ⟨ha.content, rfl, ha.pinned⟩⟩
    · exact ⟨rfl, hpq⟩
  · simpa only [Pool.retain, he, he', true_and] using hpq

theorem pin (hpq : Alike κ R σ p q) (hσ : σ h k) : Alike κ R σ (p.pin h).2 (q.pin k).2 := by
  rcases hpq.cases hσ with ⟨e, e', he, he', ha⟩ | ⟨he, he'⟩
  · simp only [Pool.pin, he, he']
    exact hpq.put hσ he he' ⟨ha.content, ha.refs, rfl⟩
  · simpa only [Pool.pin, he, he'] using hpq

theorem modify (hpq : Alike κ R σ p q) (hσ : σ h k) {f g : α → α}
    (hfg : ∀ {x y}, R x y → R (f x) (g y)) : Alike κ R σ (p.modify h f) (q.modify k g) := by
  rcases hpq.cases hσ with ⟨e, e', he, he', ha⟩ | ⟨he, he'⟩
  · simp only [Pool.modify, he, he']
    exact hpq.put hσ he he' ⟨hfg ha.content, ha.refs, ha.pinned⟩
  · simpa only [Pool.modify, he, he'] using hpq

/-- A reference that is given back empties both slots or none, and hands out what goes together. -/
theorem release (hpq : Alike κ R σ p q) (hσ : σ h k) :
    Option.Rel R (p.release h).1 (q.release k).1 ∧
      Alike κ R σ (p.release h).2 (q.release k).2 := by
  rcases hpq.cases hσ with ⟨e, e', he, he', ha⟩ | ⟨he, he'⟩
  · simp only [Pool.release, he, he', ← ha.refs, ← ha.pinned]
    split
    · exact ⟨.some ha.content, hpq.vacate hσ he he'⟩
    · exact ⟨.none, hpq.put hσ he he' ⟨ha.content, rfl, rfl⟩⟩
  · simpa only [Pool.release, he, he'] using ⟨.none, hpq⟩

/-- A pin that is taken away empties both slots or none. -/
theorem unpin (hpq : Alike κ R σ p q) (hσ : σ h k) :
    Option.Rel R (p.unpin h).1 (q.unpin k).1 ∧ Alike κ R σ (p.unpin h).2 (q.unpin k).2 := by
  rcases hpq.cases hσ with ⟨e, e', he, he', ha⟩ | ⟨he, he'⟩
  · simp only [Pool.unpin, he, he', ← ha.refs]
    split
    · exact ⟨.some ha.content, hpq.vacate hσ he he'⟩
    · exact ⟨.none, hpq.put hσ he he' ⟨ha.content, rfl, rfl⟩⟩
  · simpa only [Pool.unpin, he, he'] using ⟨.none, hpq⟩

/-- What is taken whatever its count is handed out on both sides. -/
theorem reclaim (hpq : Alike κ R σ p q) (hσ : σ h k) :
    Option.Rel R (p.reclaim h).1 (q.reclaim k).1 ∧
      Alike κ R σ (p.reclaim h).2 (q.reclaim k).2 := by
  rcases hpq.cases hσ with ⟨e, e', he, he', ha⟩ | ⟨he, he'⟩
  · simp only [Pool.reclaim, he, he']
    exact ⟨.some ha.content, hpq.vacate hσ he he'⟩
  · simpa only [Pool.reclaim, he, he'] using ⟨.none, hpq⟩

/-! ### Reading -/

/-- What is looked at goes together. -/
theorem get? (hpq : Alike κ R σ p q) (hσ : σ h k) : Option.Rel R (p.get? h) (q.get? k) := by
  rcases hpq.cases hσ with ⟨e, e', he, he', ha⟩ | ⟨he, he'⟩
  · simp only [Pool.get?, he, he', Option.map_some]
    exact .some ha.content
  · simp only [Pool.get?, he, he', Option.map_none]
    exact .none

theorem refs? (hpq : Alike κ R σ p q) (hσ : σ h k) : p.refs? h = q.refs? k := by
  rcases hpq.cases hσ with ⟨e, e', he, he', ha⟩ | ⟨he, he'⟩
  · simp only [Pool.refs?, he, he', Option.map_some, ha.refs]
  · simp only [Pool.refs?, he, he', Option.map_none]

theorem isPinned? (hpq : Alike κ R σ p q) (hσ : σ h k) : p.isPinned? h = q.isPinned? k := by
  rcases hpq.cases hσ with ⟨e, e', he, he', ha⟩ | ⟨he, he'⟩
  · simp only [Pool.isPinned?, he, he', Option.map_some, ha.pinned]
  · simp only [Pool.isPinned?, he, he', Option.map_none]

/-! ### Allocation -/

/-- A new pair of handles, whose handles are in no other pair, keeps pools alike. -/
theorem allocated (hpq : Alike κ R σ p q) (hp : p.Allocated a h p') (hq : q.Allocated b k q')
    (hR : R a b) (hσ : ∀ {i j}, σ i j → (i = h ↔ j = k)) (hname : p'.name = q'.name)
    (hpaired : Paired κ (fun i j => σ i j ∨ i = h ∧ j = k) p' q') :
    Alike κ R (fun i j => σ i j ∨ i = h ∧ j = k) p' q' where
  unique := by
    constructor
    · rintro i j i' (hi | ⟨hi, hj⟩) (hi' | ⟨hi', hj'⟩)
      · exact hpq.unique.1 hi hi'
      · exact ((hσ hi).2 hj').trans hi'.symm
      · exact hi.trans ((hσ hi').2 hj).symm
      · exact hi.trans hi'.symm
    · rintro i j j' (hj | ⟨hi, hj⟩) (hj' | ⟨hi', hj'⟩)
      · exact hpq.unique.2 hj hj'
      · exact ((hσ hj).1 hi').trans hj'.symm
      · exact hj.trans ((hσ hj').1 hi).symm
      · exact hj.trans hj'.symm
  entries {i j} hij := by
    rw [hp.entry?, hq.entry?]
    -- A handle is in the new pair, or in an old one with neither new handle in it.
    by_cases hi : i = h
    · have hj : j = k := hij.elim (fun hij => (hσ hij).1 hi) And.right
      rw [hi, hj, Function.update_self, Function.update_self]
      exact .some ⟨hR, rfl, rfl⟩
    · have hij : σ i j := hij.resolve_right fun hij => hi hij.1
      rw [Function.update_of_ne hi, Function.update_of_ne fun hj => hi ((hσ hij).2 hj)]
      exact hpq.entries hij
  live := by rw [hp.live, hq.live, hpq.live]
  left := hp.wellFormed hpq.left
  right := hq.wellFormed hpq.right
  name := hname
  capacity := by
    rw [hp.capacity, hq.capacity]
    exact hpq.capacity
  paired := hpaired

end Alike

/-- Pools whose slots are in step hand out the same handle, if the first one hands out any. -/
theorem InStep.alloc (hpq : InStep σ p q) (hcap : p.capacity ≤ q.capacity)
    (hp : p.alloc a = (.ok h, p')) (b : α) :
    ∃ q', q.alloc b = (.ok h, q') ∧ p'.free = q'.free ∧ p'.slots.size = q'.slots.size := by
  rw [Pool.alloc] at hp ⊢
  rw [← hpq.free, ← hpq.freesAt, ← hpq.size]
  split at hp
  · cases hp
    exact ⟨_, rfl, rfl, by simpa [Pool.put] using hpq.size⟩
  · split at hp
    · next hlt =>
      cases hp
      rw [if_pos (hlt.trans_le hcap)]
      exact ⟨_, rfl, by simp [hpq.free], by simp [hpq.size]⟩
    · cases hp

/-- Handles that two young pools hand out are in no pair yet: such a pair would be stale, hence
    retired. -/
theorem Alike.fresh (hpq : Alike κ R σ p q) (hr : Renamed σ p q) (hyp : p.Young) (hyq : q.Young)
    (hp : p.Allocated a h p') (hq : q.Allocated b k q') {i j : Handle} (hij : σ i j) :
    i = h ↔ j = k := by
  constructor
  · rintro rfl
    exact absurd (hr.stale hij hp.vacant).1 (hp.not_retired hyp)
  · rintro rfl
    rcases hpq.cases hij with ⟨e, e', -, he', -⟩ | ⟨hn, -⟩
    · cases hq.vacant.symm.trans he'
    · exact absurd (hr.stale hij hn).2 (hq.not_retired hyq)

/-- A new pair of handles is one of handles that are renamed. -/
theorem Renamed.allocated (hr : Renamed σ p q) (hp : p.Allocated a h p') (hep : p.Evolves p')
    (heq : q.Evolves q') : Renamed (fun i j => σ i j ∨ i = h ∧ j = k) p' q' where
  stale {i j} hij hn := by
    have hi : i ≠ h := by
      rintro rfl
      rw [hp.entry?, Function.update_self] at hn
      cases hn
    rw [hp.entry?, Function.update_of_ne hi] at hn
    obtain ⟨h₁, h₂⟩ := hr.stale (hij.resolve_right fun hij => hi hij.1) hn
    exact ⟨hep.retired h₁, heq.retired h₂⟩

/-- Pools that are alike both have a handle to give out, or the first one has none. -/
theorem Alike.alloc_cases (hpq : Alike κ R σ p q) (a b : α) :
    (∃ h k p' q', p.alloc a = (.ok h, p') ∧ q.alloc b = (.ok k, q') ∧
      p.Allocated a h p' ∧ q.Allocated b k q') ∨
    ∃ f, p.alloc a = (.error f, p) ∧ f.kind = .poolExhausted ∧
      (κ.widens = true ∨ q.alloc b = (.error f, q)) := by
  have hlive := hpq.live
  have hcap := hpq.capacity.le
  rcases hpq.left.alloc_cases a with ⟨h, p', hp, hpa⟩ | ⟨hp, hpc⟩
  · rcases hpq.right.alloc_cases b with ⟨k, q', hq, hqa⟩ | ⟨hq, hqc⟩
    · exact .inl ⟨h, k, p', q', hp, hq, hpa, hqa⟩
    · -- As many slots are taken in both pools, so that the second one cannot be exhausted alone.
      have := hpa.live_lt
      omega
  · refine .inr ⟨_, hp, rfl, ?_⟩
    cases hκ : κ.widens with
    | true => exact .inl rfl
    | false =>
      have hcap := hpq.capacity.eq hκ
      rcases hpq.right.alloc_cases b with ⟨k, q', hq, hqa⟩ | ⟨hq, hqc⟩
      · have := hqa.live_lt
        omega
      · exact .inr (by rw [hq, hpq.name, hcap])

/-- Both pools put a thing into a slot, or both are exhausted, or only the first one is and has
    less room. -/
theorem Alike.alloc (hpq : Alike κ R σ p q) (hy : κ.renames = true → p.Young ∧ q.Young)
    (hR : R a b) :
    (∃ h k p' q', p.alloc a = (.ok h, p') ∧ q.alloc b = (.ok k, q') ∧
      Alike κ R (fun i j => σ i j ∨ i = h ∧ j = k) p' q') ∨
    ∃ f, p.alloc a = (.error f, p) ∧ f.kind = .poolExhausted ∧
      (κ.widens = true ∨ q.alloc b = (.error f, q)) := by
  refine (hpq.alloc_cases a b).imp_left ?_
  rintro ⟨h, k, p', q', hp, hq, hpa, hqa⟩
  have hep : Evolves p p' := by simpa [hp] using Evolves.alloc a (.refl (p := p))
  have heq : Evolves q q' := by simpa [hq] using Evolves.alloc b (.refl (p := q))
  have hname : p'.name = q'.name := hep.name_eq.trans (hpq.name.trans heq.name_eq.symm)
  refine ⟨h, k, p', q', hp, hq, ?_⟩
  have hr := hpq.paired
  obtain ⟨_ | _, widens⟩ := κ
  · obtain ⟨q'', hq', hfree, hsize⟩ := hr.alloc hpq.capacity.le hp b
    obtain ⟨hk, rfl⟩ := Prod.mk.inj (hq.symm.trans hq')
    obtain rfl := Except.ok.inj hk
    refine hpq.allocated hpa hqa hR (fun hij => by rw [hr.same.1 hij]) hname ?_
    refine ⟨fun {i j} => ⟨fun hij => ?_, fun hij => .inl (hr.same.2 hij)⟩, hfree, hsize,
      by rw [hpa.freesAt, hqa.freesAt, hr.freesAt]⟩
    exact hij.elim hr.same.1 fun hij => hij.1.trans hij.2.symm
  · obtain ⟨hyp, hyq⟩ := hy rfl
    exact hpq.allocated hpa hqa hR (hpq.fresh hr hyp hyq hpa hqa) hname (hr.allocated hpa hep heq)

/-! ### Pools with nothing in them -/

/-- Allocation vacates no slot. -/
theorem Young.alloc (hy : p.Young) (a : α) : (p.alloc a).2.Young := fun i =>
  (Evolves.freesAt_alloc p a i).trans_lt (hy i)

end Pool

end PoolScript
