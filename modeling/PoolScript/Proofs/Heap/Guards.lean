import PoolScript.Proofs.Heap.Counting

/-!
# Guards and pins

A value on its way out of a call is held in a guard, and what it refers to is pinned. There is one
pin for a string or an array, however many guards there are for it.

* A guard that is held keeps what it holds there.
* What it holds stays pinned until a guard for the same string or array is adopted, be it another
  one (`twoGuards_adopt`), or the pin is lifted without a guard.
* What is neither in a guard nor pinned without one is not pinned.

This is so after all that can be done with a heap but clearing it (`Course.guarded`): the values
that are pinned are those whose pin nothing has lifted since (`Deed.LeavePinned`).
-/

namespace PoolScript.Heap

namespace Deed

variable {d : Deed} {ds : List Deed} {v : Value} {pins : Set Value}

/-- What `v` refers to is pinned by `d`. -/
def Pins (d : Deed) (v : Value) : Prop :=
  d = act (.pin v) ∨ d = pinReturn v

/-- The pin of what `v` refers to is lifted by `d`. -/
def Lifts (d : Deed) (v : Value) : Prop :=
  d = act (.unpin v) ∨ d = adopt ⟨v⟩

/-- One of the deeds `ds` pins what `v` refers to, and none after that lifts the pin. -/
def LeavePinned (ds : List Deed) (v : Value) : Prop :=
  ∃ before d after, ds = before ++ d :: after ∧ d.Pins v ∧ ∀ e ∈ after, ¬e.Lifts v

theorem mem_repin (hd : d ≠ clear) : v ∈ d.repin pins ↔ d.Pins v ∨ v ∈ pins ∧ ¬d.Lifts v := by
  cases d with
  | act a =>
    cases a with
    | pin w => simp [repin, HeapAction.repin, Pins, Lifts, eq_comm]
    | unpin w => simp [repin, HeapAction.repin, Pins, Lifts, eq_comm]
    | _ => simp [repin, HeapAction.repin, Pins, Lifts]
  | number => simp [repin, Pins, Lifts]
  | pinReturn w => simp [repin, Pins, Lifts, eq_comm]
  | adopt p =>
    obtain ⟨w⟩ := p
    simp [repin, Pins, Lifts, eq_comm]
  | clear => exact absurd rfl hd

theorem leavePinned_cons :
    LeavePinned (d :: ds) v ↔ d.Pins v ∧ (∀ e ∈ ds, ¬e.Lifts v) ∨ LeavePinned ds v := by
  constructor
  · rintro ⟨before, e, after, hs, he, ha⟩
    cases before with
    | nil =>
      cases hs
      exact .inl ⟨he, ha⟩
    | cons d' before =>
      cases hs
      exact .inr ⟨before, e, after, rfl, he, ha⟩
  · rintro (⟨hd, hl⟩ | ⟨before, e, after, rfl, he, ha⟩)
    · exact ⟨[], d, ds, rfl, hd, hl⟩
    · exact ⟨d :: before, e, after, rfl, he, ha⟩

end Deed

namespace Holding

variable {d : Deed} {ds : List Deed} {s s' : Holding} {strings cells : Nat} {v : Value} {p : Pinned}
  {φ : Handle → List (Handle × Element)} {pins : Set Value}

/-- The deeds `ds` lead from one state to another. -/
inductive Course : List Deed → Holding → Holding → Prop
  | nil (s : Holding) : Course [] s s
  | cons {d : Deed} {ds : List Deed} {s t u : Holding} :
      Step d s t → Course ds t u → Course (d :: ds) s u

theorem Course.append {t : Holding} {es : List Deed} (h : Course ds s t) (h' : Course es t s') :
    Course (ds ++ es) s s' := by
  induction h with
  | nil => exact h'
  | cons hs _ ih => exact .cons hs (ih h')

/-- What is in guards, and what is pinned, when `ds` has been done. -/
structure Guarded (ds : List Deed) (s : Holding) : Prop where
  /-- What is in a guard is there. -/
  present : ∀ p ∈ s.guards, p.value.isCounted → s.heap.Present p.value
  /-- As long as the pin of what is in a guard is not lifted, the guard is held, and what is in it
      is pinned. -/
  held : ∀ before v after, ds = before ++ .pinReturn v :: after → v.isCounted →
    (∀ d ∈ after, ¬d.Lifts v) →
    ⟨v⟩ ∈ s.guards ∧ s.heap.Present v ∧ s.heap.isPinned? v = some true
  /-- What is there is pinned if and only if its pin is not lifted. -/
  pinned_iff : ∀ v, s.heap.Present v → (s.heap.isPinned? v = some true ↔ Deed.LeavePinned ds v)
  /-- What is in no guard, and has no pin without a guard that was not lifted without one, is not
      pinned. -/
  free : ∀ v, s.heap.Present v → ⟨v⟩ ∉ s.guards →
    (∀ before after, ds = before ++ .act (.pin v) :: after → .act (.unpin v) ∈ after) →
    s.heap.isPinned? v = some false

/-! ### Guards are held until they are adopted -/

theorem Step.mem_guards (h : Step d s s') (hp : p ∈ s.guards) (hd : d ≠ .adopt p) :
    p ∈ s'.guards := by
  cases h with
  | act => exact hp
  | number => exact hp
  | pinReturn => exact Multiset.mem_add.2 (.inr hp)
  | @adopt q heap values rest lost =>
    refine (Multiset.mem_add.1 hp).resolve_left fun hq => hd ?_
    rw [Multiset.mem_singleton.1 hq]
  | clear => exact hp

theorem Course.mem_guards (h : Course ds s s') (hp : p ∈ s.guards) (hd : .adopt p ∉ ds) :
    p ∈ s'.guards := by
  induction h with
  | nil => exact hp
  | cons h _ ih =>
    rw [List.mem_cons, not_or] at hd
    exact ih (h.mem_guards hp (Ne.symm hd.1)) hd.2

theorem Course.mem_guards_of_pinReturn {before after : List Deed}
    (h : Course (before ++ .pinReturn v :: after) s s') (hd : .adopt ⟨v⟩ ∉ after) :
    ⟨v⟩ ∈ s'.guards := by
  induction before generalizing s with
  | nil =>
    obtain _ | ⟨hs, h⟩ := h
    refine h.mem_guards ?_ hd
    cases hs
    exact Multiset.mem_add.2 (.inl (Multiset.mem_singleton_self _))
  | cons d before ih =>
    obtain _ | ⟨-, h⟩ := h
    exact ih h

/-! ### Pins are there until they are lifted -/

theorem Course.lost_eq (h : Course ds s s') (hd : .clear ∉ ds) : s'.lost = s.lost := by
  induction h with
  | nil => rfl
  | cons h _ ih =>
    rw [List.mem_cons, not_or] at hd
    exact (ih hd.2).trans (h.lost_eq (Ne.symm hd.1))

/-- The books are kept along the way, with the values as pinned whose pin nothing lifts. -/
theorem Course.kept (h : Course ds s s') (hk : s.Kept φ pins) (hl : s.lost = ∅)
    (hd : .clear ∉ ds) :
    ∃ φ' pins', s'.Kept φ' pins' ∧
      ∀ v, v ∈ pins' ↔ Deed.LeavePinned ds v ∨ v ∈ pins ∧ ∀ d ∈ ds, ¬d.Lifts v := by
  induction h generalizing φ pins with
  | nil => exact ⟨φ, pins, hk, fun v => by simp [Deed.LeavePinned]⟩
  | @cons d ds s t u h _ ih =>
    rw [List.mem_cons, not_or] at hd
    have hd' : d ≠ .clear := Ne.symm hd.1
    obtain ⟨φ', hk', -⟩ := h.kept hk (.inl hl)
    obtain ⟨φ'', pins'', hk'', hp⟩ := ih hk' ((h.lost_eq hd').trans hl) hd.2
    refine ⟨φ'', pins'', hk'', fun v => ?_⟩
    rw [hp, Deed.mem_repin hd', Deed.leavePinned_cons, List.forall_mem_cons]
    tauto

/-- Of what is in guards and of what is pinned, whatever was done but clearing the heap. -/
theorem Course.guarded (h : Course ds (start strings cells) s) (hd : .clear ∉ ds) :
    Guarded ds s := by
  obtain ⟨φ, pins, hk, hpins⟩ := h.kept (.start strings cells) rfl hd
  have hl : s.lost = ∅ := h.lost_eq hd
  have present (p) (hp : p ∈ s.guards) (hc : p.value.isCounted) : s.heap.Present p.value := by
    have ho : p.value ∈ s.owned :=
      Multiset.mem_add.2 (.inr (Multiset.mem_map_of_mem Pinned.value hp))
    refine present_iff.2 ⟨hc, (hk.known (.inl ho)).resolve_right ?_⟩
    exact hl ▸ Set.notMem_empty _
  have pinned_iff (v) (hv : s.heap.Present v) :
      s.heap.isPinned? v = some true ↔ Deed.LeavePinned ds v := by
    refine (hk.mem_pins hv).symm.trans ((hpins v).trans ?_)
    simp
  refine ⟨present, fun before v after hds hc ha => ?_, pinned_iff, fun v hv hg hp => ?_⟩
  · have hg : ⟨v⟩ ∈ s.guards :=
      Course.mem_guards_of_pinReturn (hds ▸ h) fun hm => ha _ hm (.inr rfl)
    have hv := present _ hg hc
    exact ⟨hg, hv, (pinned_iff v hv).2 ⟨before, _, after, hds, .inr rfl, ha⟩⟩
  · obtain ⟨n, pinned, ht⟩ := hv.tally?
    cases pinned with
    | false => exact (counts_of_tally? ht).2
    | true =>
      -- The deed that pinned it last was one without a guard, or its guard would be held.
      obtain ⟨before, d, after, rfl, rfl | rfl, ha⟩ :=
        (pinned_iff v hv).1 (counts_of_tally? ht).2
      · exact absurd (.inl rfl) (ha _ (hp before after rfl))
      · exact absurd (h.mem_guards_of_pinReturn fun hm => ha _ hm (.inr rfl)) hg

/-! ### Two guards for one string -/

/-- What is there when `v` was put into a guard, and `rest` is held besides. -/
def guard (v : Value) (rest : Multiset Value) (s : Holding) : Holding :=
  { s with
    heap := (s.heap.pinReturn v).2
    values := rest
    guards := {(s.heap.pinReturn v).1} + s.guards }

theorem Step.guard {rest : Multiset Value} (hv : s.values = {v} + rest) :
    Step (.pinReturn v) s (s.guard v rest) := by
  obtain ⟨heap, values, guards, lost⟩ := s
  obtain rfl : values = {v} + rest := hv
  exact .pinReturn

/-- A string that is in two guards. -/
def twoGuards : Holding :=
  let text : Value := .str ⟨0, 0⟩
  (start 2 2).does (.allocScalar (.str "glass")) 0
    |>.does (.retain text) {text}
    |>.guard text {text}
    |>.guard text 0

/-- How a string comes to be in two guards. -/
def twoGuardsDeeds : List Deed :=
  let text : Value := .str ⟨0, 0⟩
  [.act (.allocScalar (.str "glass")), .act (.retain text), .pinReturn text, .pinReturn text]

theorem twoGuards_course : Course twoGuardsDeeds (start 2 2) twoGuards := by
  refine .cons (.does ?_ ?_) (.cons (.does ?_ ?_) (.cons (.guard ?_) (.cons (.guard ?_) (.nil _))))
  all_goals decide +kernel

/-- While both guards are held the string is pinned. -/
theorem twoGuards_guarded :
    ⟨.str ⟨0, 0⟩⟩ ∈ twoGuards.guards ∧
      twoGuards.heap.isPinned? (.str ⟨0, 0⟩) = some true := by
  have hg := twoGuards_course.guarded (by simp [twoGuardsDeeds])
  obtain ⟨hm, -, hp⟩ := hg.held (twoGuardsDeeds.take 3) _ [] rfl rfl nofun
  exact ⟨hm, hp⟩

/-- When one of the guards is adopted the string is not pinned, though the other one is held. -/
theorem twoGuards_adopt :
    ∃ s, Course (twoGuardsDeeds ++ [.adopt ⟨.str ⟨0, 0⟩⟩]) (start 2 2) s ∧
      ⟨.str ⟨0, 0⟩⟩ ∈ s.guards ∧ s.heap.isPinned? (.str ⟨0, 0⟩) = some false :=
  ⟨_, twoGuards_course.append (.cons .adopt (.nil _)),
    Multiset.mem_add.2 (.inl (Multiset.mem_singleton_self _)), by decide +kernel⟩

end Holding

end PoolScript.Heap
