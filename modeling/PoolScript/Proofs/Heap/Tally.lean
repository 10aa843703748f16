import Mathlib.Algebra.Order.Group.Multiset
import Mathlib.Data.Set.Insert
import Mathlib.Logic.Function.Basic
import PoolScript.Value

/-!
# Tallies

A *tally* says how often each string and each array is counted and whether it is pinned; it
says nothing about what is not there, and nothing about numbers. It is right for the owned
values `m` if it has everything in `m`, with the number of times that it is in `m`, and if
what is owned by nobody is pinned. Values in `pins` are those that may be pinned.

It is *exact* (`Tally.Exact`) if the values in `pins` are those that are pinned. Then it may
lack what is owned, as long as that is among the values `gone`, which are known to be stale.
A tally is right if it is exact for some of the pins and lacks nothing (`Tally.right_iff`).

Counting a reference up or down, pinning and unpinning change a tally at one value, and keep
it exact when `m` and `pins` change with them.
-/

namespace PoolScript

/-- How often a string or an array is counted, and whether it is pinned. -/
abbrev Tally := Value → Option (Nat × Bool)

namespace Tally

/-- The tally has everything in `m`, and counts right. -/
structure Right (t : Tally) (m : Multiset Value) (pins : Set Value) : Prop where
  live : ∀ {v}, v ∈ m → v.isCounted → ∃ n pinned, t v = some (n, pinned)
  count : ∀ {v n pinned}, t v = some (n, pinned) → n = m.count v
  zero : ∀ {v pinned}, t v = some (0, pinned) → pinned = true
  pinned : ∀ {v n}, t v = some (n, true) → v ∈ pins

/-- The tally has `v`, if `v` is counted at all. -/
def Has (t : Tally) (v : Value) : Prop :=
  v.isCounted → ∃ n pinned, t v = some (n, pinned)

/-- The tally counts right what it has, has exactly the `pins` pinned, and lacks nothing that
    is owned or pinned but what is `gone`. -/
structure Exact (t : Tally) (m : Multiset Value) (pins gone : Set Value) : Prop where
  owned : ∀ {v}, v ∈ m → t.Has v ∨ v ∈ gone
  pinned : ∀ {v}, v ∈ pins → t.Has v ∨ v ∈ gone
  count : ∀ {v n p}, t v = some (n, p) → n = m.count v
  zero : ∀ {v p}, t v = some (0, p) → p = true
  pin : ∀ {v n p}, t v = some (n, p) → (p = true ↔ v ∈ pins)

variable {t : Tally} {m m' : Multiset Value} {pins pins' gone : Set Value} {v w : Value}
  {n n' : Nat} {p p' : Bool}

theorem Has.update (h : t.Has w) (hne : w ≠ v) (x : Option (Nat × Bool)) :
    Has (Function.update t v x) w := by
  intro hc
  rw [Function.update_of_ne hne]
  exact h hc

theorem has_update_some (t : Tally) (v : Value) (x : Nat × Bool) :
    Has (Function.update t v (some x)) v :=
  fun _ => ⟨x.1, x.2, Function.update_self ..⟩

theorem right_iff : t.Right m pins ↔ ∃ p ⊆ pins, t.Exact m p ∅ := by
  constructor
  · intro h
    refine ⟨{v | ∃ n, t v = some (n, true)}, fun v ⟨_, hv⟩ => h.pinned hv, fun hv => ?_,
      fun ⟨n, hv⟩ => .inl fun _ => ⟨n, true, hv⟩, h.count, h.zero, fun {v n p} hv => ?_⟩
    · exact .inl (h.live hv)
    · refine ⟨fun hp => ⟨n, hp ▸ hv⟩, ?_⟩
      rintro ⟨_, hv'⟩
      cases hv.symm.trans hv'
      rfl
  · rintro ⟨p, hp, h⟩
    exact ⟨fun hv => (h.owned hv).resolve_right (Set.notMem_empty _), h.count, h.zero,
      fun hv => hp ((h.pin hv).1 rfl)⟩

namespace Exact

/-- Where nothing is counted, nothing is owned but what is gone. -/
protected theorem none (hm : ∀ v ∈ m, v.isCounted → v ∈ gone) :
    Exact (fun _ => none) m ∅ gone where
  owned {v} hv := by
    by_cases hc : v.isCounted
    · exact .inr (hm v hv hc)
    · exact .inl fun h => absurd h hc
  pinned hv := absurd hv (Set.notMem_empty _)
  count hv := by cases hv
  zero hv := by cases hv
  pin hv := by cases hv

theorem not_mem (h : t.Exact m pins gone) (hc : v.isCounted) (hv : t v = none) (hg : v ∉ gone) :
    v ∉ m ∧ v ∉ pins := by
  have absent : ¬t.Has v := fun hh => by
    obtain ⟨n, p, hv'⟩ := hh hc
    cases hv.symm.trans hv'
  exact ⟨fun hm => (h.owned hm).elim absent hg, fun hp => (h.pinned hp).elim absent hg⟩

/-- Numbers are not counted, and what is gone is not either. -/
theorem add_absent (h : t.Exact m pins gone) (hv : t v = none) (hg : v.isCounted → v ∈ gone) :
    t.Exact ({v} + m) pins gone where
  owned {w} hw := by
    rcases Multiset.mem_add.1 hw with hw | hw
    · rw [Multiset.mem_singleton.1 hw]
      by_cases hc : v.isCounted
      · exact .inr (hg hc)
      · exact .inl fun h => absurd h hc
    · exact h.owned hw
  pinned hw := h.pinned hw
  count {w n p} hw := by
    have hne : w ≠ v := by rintro rfl; simp [hv] at hw
    rw [h.count hw, Multiset.count_add, Multiset.count_singleton, if_neg hne, Nat.zero_add]
  zero hw := h.zero hw
  pin hw := h.pin hw

/-- Fewer values are owned, and none of them was counted. -/
theorem of_absent (h : t.Exact ({v} + m) pins gone) (hv : t v = none) :
    t.Exact m pins gone where
  owned hw := h.owned (Multiset.mem_add.2 (.inr hw))
  pinned hw := h.pinned hw
  count {w n p} hw := by
    have hne : w ≠ v := by rintro rfl; simp [hv] at hw
    rw [h.count hw, Multiset.count_add, Multiset.count_singleton, if_neg hne, Nat.zero_add]
  zero hw := h.zero hw
  pin hw := h.pin hw

/-- What is not there can be pinned and unpinned. -/
theorem repin_absent (h : t.Exact m pins gone) (hv : t v = none)
    (hpins : ∀ w ≠ v, w ∈ pins' ↔ w ∈ pins) (hg : v.isCounted → v ∈ gone) :
    t.Exact m pins' gone where
  owned hw := h.owned hw
  pinned {w} hw := by
    by_cases hwv : w = v
    · subst hwv
      by_cases hc : w.isCounted
      · exact .inr (hg hc)
      · exact .inl fun h => absurd h hc
    · exact h.pinned ((hpins w hwv).1 hw)
  count hw := h.count hw
  zero hw := h.zero hw
  pin {w n p} hw := by
    have hne : w ≠ v := by rintro rfl; simp [hv] at hw
    rw [hpins w hne]
    exact h.pin hw

/-- The tally changes at `v`, and so do the owned values and the pins. -/
theorem change (h : t.Exact m pins gone) {x : Option (Nat × Bool)}
    (hm : ∀ w ≠ v, m'.count w = m.count w) (hpins : ∀ w ≠ v, w ∈ pins' ↔ w ∈ pins)
    (hx : ∀ {n p}, x = some (n, p) → n = m'.count v ∧ (n = 0 → p = true) ∧ (p = true ↔ v ∈ pins'))
    (hnone : x = none → v ∉ m' ∧ v ∉ pins') :
    Exact (Function.update t v x) m' pins' gone := by
  -- Where nothing is said about `v`, the value in question is another one.
  have other {w : Value} (hw : w ∈ m' ∨ w ∈ pins') (ho : w ≠ v → t.Has w ∨ w ∈ gone) :
      Has (Function.update t v x) w ∨ w ∈ gone := by
    by_cases hwv : w = v
    · subst hwv
      cases x with
      | none => exact absurd hw (not_or.2 (hnone rfl))
      | some x => exact .inl (has_update_some t w x)
    · exact (ho hwv).imp_left fun hh => hh.update hwv _
  have told {w : Value} {n : Nat} {p : Bool} (hw : Function.update t v x w = some (n, p)) :
      w = v ∧ x = some (n, p) ∨ w ≠ v ∧ t w = some (n, p) := by
    by_cases hwv : w = v
    · exact .inl ⟨hwv, by rwa [hwv, Function.update_self] at hw⟩
    · exact .inr ⟨hwv, by rwa [Function.update_of_ne hwv] at hw⟩
  refine ⟨fun hw => other (.inl hw) fun hwv => ?_, fun hw => other (.inr hw) fun hwv => ?_,
    fun hw => ?_, fun hw => ?_, fun hw => ?_⟩
  · exact h.owned (Multiset.count_pos.1 (hm _ hwv ▸ Multiset.count_pos.2 hw))
  · exact h.pinned ((hpins _ hwv).1 hw)
  · rcases told hw with ⟨rfl, hv⟩ | ⟨hwv, hw⟩
    · exact (hx hv).1
    · exact (h.count hw).trans (hm _ hwv).symm
  · rcases told hw with ⟨rfl, hv⟩ | ⟨hwv, hw⟩
    · exact (hx hv).2.1 rfl
    · exact h.zero hw
  · rcases told hw with ⟨rfl, hv⟩ | ⟨hwv, hw⟩
    · exact (hx hv).2.2
    · exact (h.pin hw).trans (hpins _ hwv).symm

/-- Something is counted anew. -/
theorem recount (h : t.Exact m pins gone) (hm : ∀ w ≠ v, m'.count w = m.count w)
    (hn : n' = m'.count v) (hz : n' = 0 → p' = true) (hp : p' = true ↔ v ∈ pins')
    (hpins : ∀ w ≠ v, w ∈ pins' ↔ w ∈ pins) :
    Exact (Function.update t v (some (n', p'))) m' pins' gone := by
  refine h.change hm hpins (fun hx => ?_) nofun
  cases hx
  exact ⟨hn, hz, hp⟩

/-- What is owned by nobody any more is given up. -/
theorem forget (h : t.Exact m pins gone) (hv : m'.count v = 0)
    (hm : ∀ w ≠ v, m'.count w = m.count w) (hp : v ∉ pins')
    (hpins : ∀ w ≠ v, w ∈ pins' ↔ w ∈ pins) :
    Exact (Function.update t v none) m' pins' gone :=
  h.change hm hpins nofun fun _ => ⟨Multiset.count_eq_zero.1 hv, hp⟩

/-- Something new is owned once. -/
theorem alloc (h : t.Exact m pins gone) (hc : v.isCounted) (hv : t v = none) (hg : v ∉ gone) :
    Exact (Function.update t v (some (1, false))) ({v} + m) pins gone := by
  obtain ⟨hm, hp⟩ := h.not_mem hc hv hg
  refine h.recount (fun w hw => by simp [hw]) ?_ (by rintro ⟨⟩) (by simpa using hp) fun _ _ => .rfl
  simp [Multiset.count_eq_zero_of_notMem hm]

theorem retain (h : t.Exact m pins gone) (hv : t v = some (n, p)) :
    Exact (Function.update t v (some (n + 1, p))) ({v} + m) pins gone := by
  refine h.recount (fun w hw => by simp [hw]) ?_ (by rintro ⟨⟩) (h.pin hv) fun _ _ => .rfl
  simp [h.count hv]

/-- A reference is given back, and what it led to stays. -/
theorem release (h : t.Exact ({v} + m) pins gone) (hv : t v = some (n, p))
    (hz : n ≤ 1 → p = true) :
    Exact (Function.update t v (some (n - 1, p))) m pins gone := by
  refine h.recount (fun w hw => by simp [hw]) ?_ (fun hn => hz (by omega)) (h.pin hv)
    fun _ _ => .rfl
  have := h.count hv
  simp at this
  omega

/-- The last reference is given back. -/
theorem release_last (h : t.Exact ({v} + m) pins gone) (hv : t v = some (n, p)) (hn : n ≤ 1)
    (hp : ¬p = true) : Exact (Function.update t v none) m pins gone := by
  have hc := h.count hv
  simp only [Multiset.count_add, Multiset.count_singleton_self] at hc
  exact h.forget (by omega) (fun w hw => by simp [hw]) (fun hm => hp ((h.pin hv).2 hm))
    fun _ _ => .rfl

theorem set_pin (h : t.Exact m pins gone) (hv : t v = some (n, p)) :
    Exact (Function.update t v (some (n, true))) m (insert v pins) gone :=
  h.recount (fun _ _ => rfl) (h.count hv) (fun _ => rfl) (by simp) fun w hw => by simp [hw]

theorem unpin (h : t.Exact m pins gone) (hv : t v = some (n, p)) (hn : n ≠ 0) :
    Exact (Function.update t v (some (n, false))) m (pins \ {v}) gone :=
  h.recount (fun _ _ => rfl) (h.count hv) (fun h0 => absurd h0 hn) (by simp)
    fun w hw => by simp [hw]

/-- The pin is lifted from what is owned by nobody. -/
theorem unpin_last (h : t.Exact m pins gone) (hv : t v = some (0, p)) :
    Exact (Function.update t v none) m (pins \ {v}) gone :=
  h.forget (h.count hv).symm (fun _ _ => rfl) (by simp) fun w hw => by simp [hw]

end Exact

end Tally

end PoolScript
