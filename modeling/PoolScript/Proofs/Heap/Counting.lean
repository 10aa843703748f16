import PoolScript.Proofs.Heap.Holding

/-!
# Counting references

In every state that is reached from an empty heap a string and an array is counted as often as it
is held or stored, and is pinned if it is neither. It goes with the step after which nobody refers
to it and it is not pinned, or when the heap is cleared; all of its elements go with it, and it does
not come back (`Reached.counted`).
-/

namespace PoolScript.Heap

variable {heap : Heap} {v : Value}

theorem counts_of_tally? {n : Nat} {pinned : Bool} (ht : heap.tally? v = some (n, pinned)) :
    heap.refs? v = some n ∧ heap.isPinned? v = some pinned := by
  cases v with
  | int => cases ht
  | float => cases ht
  | str h =>
    obtain ⟨text, he⟩ := tally?_str ht
    simp [refs?, isPinned?, Pool.refs?, Pool.isPinned?, he]
  | array h =>
    obtain ⟨link, he⟩ := tally?_head ht
    simp [refs?, isPinned?, Pool.refs?, Pool.isPinned?, he]

theorem tally?_of_not_present (hv : ¬heap.Present v) : heap.tally? v = none := by
  cases ht : heap.tally? v with
  | none => rfl
  | some x =>
    refine absurd (present_iff.2 ⟨?_, fun _ => ⟨_, _, ht⟩⟩) hv
    cases v with
    | int => cases ht
    | float => cases ht
    | str => rfl
    | array => rfl

namespace Deed

/-- Whether something is pinned after a deed depends on whether it was pinned before. -/
theorem mem_repin_congr {p q : Set Value} (h : v ∈ p ↔ v ∈ q) (d : Deed) :
    v ∈ d.repin p ↔ v ∈ d.repin q := by
  cases d with
  | act a => cases a <;> simp [repin, HeapAction.repin, h]
  | number => exact h
  | pinReturn => simp [repin, h]
  | adopt => simp [repin, h]
  | clear => exact .rfl

end Deed

namespace Holding

variable {d : Deed} {s s' : Holding} {strings cells : Nat}
  {φ : Handle → List (Handle × Element)} {pins : Set Value}

/-- How often something is held, guards included, or stored as the key or the value of an
    element. -/
def references (s : Holding) (v : Value) : Nat :=
  s.owned.count v + s.heap.stored.count v

/-- What is pinned. -/
def pinned (s : Holding) : Set Value :=
  {v | s.heap.isPinned? v = some true}

/-- What a step does to what is there. -/
structure Counts (d : Deed) (s s' : Holding) : Prop where
  /-- It goes when nobody refers to it any more and it is not pinned, and only then. -/
  goes : d ≠ .clear → ∀ v, s.heap.Present v →
    (¬s'.heap.Present v ↔ s'.references v = 0 ∧ v ∉ d.repin s.pinned)
  /-- When the heap is cleared, everything goes. -/
  clears : d = .clear → ∀ v, ¬s'.heap.Present v
  /-- With an array all of its elements go. -/
  elements : ∀ a link xs, s.heap.cells.get? a = some (.head link) →
    Layout.Chain s.heap.cells.get? link xs → ¬s'.heap.Present (.array a) →
    ∀ p ∈ xs, s'.heap.cells.get? p.1 = none
  /-- What went does not come back. -/
  once : ∀ v t, s.heap.Present v → ¬s'.heap.Present v → s'.Leads t → t.heap.Young →
    ¬t.heap.Present v

theorem Kept.mem_pins (hk : s.Kept φ pins) (hv : s.heap.Present v) : v ∈ pins ↔ v ∈ s.pinned := by
  obtain ⟨n, p, ht⟩ := hv.tally?
  rw [← hk.booked.tally.pin ht, pinned, Set.mem_ofPred_eq, (counts_of_tally? ht).2,
    Option.some.injEq]

/-- What is there is counted right, and pinned if nobody refers to it. -/
theorem Kept.count_eq (hk : s.Kept φ pins) (hv : s.heap.Present v) :
    s.heap.refs? v = some (s.references v) ∧
      (s.references v = 0 → s.heap.isPinned? v = some true) := by
  obtain ⟨n, p, ht⟩ := hv.tally?
  obtain ⟨hrefs, hpin⟩ := counts_of_tally? ht
  have hn : n = s.references v := (hk.booked.tally.count ht).trans (Multiset.count_add ..)
  refine ⟨hn ▸ hrefs, fun h0 => ?_⟩
  obtain rfl : n = 0 := hn.trans h0
  exact hpin.trans (congrArg some (hk.booked.tally.zero ht))

/-- What is not there, and not lost, is referred to by nobody and is not pinned. -/
theorem Kept.not_present (hk : s.Kept φ pins) (hc : v.isCounted) (hv : ¬s.heap.Present v)
    (hl : v ∉ s.lost) : s.references v = 0 ∧ v ∉ pins := by
  obtain ⟨hm, hp⟩ := hk.booked.tally.not_mem hc (tally?_of_not_present hv) hl
  exact ⟨(Multiset.count_add ..).symm.trans (Multiset.count_eq_zero_of_notMem hm), hp⟩

theorem Step.goes_iff (h : Step d s s') (hk : s.Kept φ pins) {φ' : Handle → List (Handle × Element)}
    (hk' : s'.Kept φ' (d.repin pins)) (hd : d ≠ .clear) (hv : s.heap.Present v) :
    ¬s'.heap.Present v ↔ s'.references v = 0 ∧ v ∉ d.repin s.pinned := by
  rw [← d.mem_repin_congr (hk.mem_pins hv)]
  constructor
  · intro hv'
    -- What was there was not lost before, and nothing is lost now.
    refine hk'.not_present hv.isCounted hv' ?_
    rw [h.lost_eq hd]
    intro hl
    exact absurd hv.isLive (by simp [hk.booked.stale v hl])
  · rintro ⟨h0, hp⟩ hv'
    exact hp ((hk'.mem_pins hv').2 ((hk'.count_eq hv').2 h0))

/-- What went is retired. -/
theorem retired_of_gone (hk : s.Kept φ pins) {φ' : Handle → List (Handle × Element)}
    {pins' : Set Value} (hk' : s'.Kept φ' pins') (he : s.heap.Evolves s'.heap)
    (hi : Layout.Inherits s.heap.cells.get? φ s'.heap.cells.get? φ') (hv : s.heap.Present v)
    (hv' : ¬s'.heap.Present v) : s'.heap.Retired v := by
  cases v with
  | int => exact hv.elim
  | float => exact hv.elim
  | str h =>
    refine (he.strings.live_or_retired hk.booked.strings hv.isLive).resolve_left fun hl => hv' ?_
    obtain ⟨e, hs⟩ := Option.isSome_iff_exists.1 hl
    exact ⟨e.content, Pool.get?_eq_some.2 ⟨_, _, hs⟩⟩
  | array a =>
    refine (he.cells.live_or_retired hk.booked.cells hv.isLive).resolve_left fun hl => ?_
    obtain ⟨e, hs⟩ := Option.isSome_iff_exists.1 hl
    obtain ⟨link, ha⟩ := hv
    have hn := hi.head_dropped hk.booked.laid hk'.booked.laid ha fun l hl => hv' ⟨l, hl⟩
    rw [Pool.get?, hs] at hn
    cases hn

/-- In every state what is there is counted right, and it goes when nobody refers to it. -/
theorem Reached.counted (h : Reached strings cells s) (hy : s.heap.Young) :
    (∀ v, s.heap.Present v → s.heap.refs? v = some (s.references v) ∧
      (s.references v = 0 → s.heap.isPinned? v = some true)) ∧
    ∀ d s', Step d s s' → s'.heap.Young → Counts d s s' := by
  obtain ⟨φ, pins, hk⟩ := h.kept (.inr hy)
  refine ⟨fun v hv => hk.count_eq hv, fun d s' hs hy' => ?_⟩
  obtain ⟨φ', hk', hi⟩ := hs.kept hk (.inr hy)
  refine ⟨fun hd v hv => hs.goes_iff hk hk' hd hv, ?_, fun a link xs ha hx hv' p hp => ?_,
    fun v t hv hv' ht hyt => ?_⟩
  · rintro rfl v
    cases hs
    exact not_present_clear hk.booked.strings hk.booked.cells v
  · obtain rfl := (hk.booked.laid.chain ha).unique hx
    exact hi.dropped hk.booked.laid hk'.booked.laid ha (fun l hl => hv' ⟨l, hl⟩) hp
  · have hr := ht.evolves.retired (retired_of_gone hk hk' hs.evolves hi hv hv')
    exact fun hvt => absurd hvt.isLive (by simp [hr.isLive_eq_false hyt])

/-- The text in `mirror` is counted twice, since it is a key and a value. When the array is
    released, both go. -/
theorem mirror_counted :
    mirror.references (.str ⟨0, 0⟩) = 2 ∧
      ∃ s', Step (.act (.releaseAll [.array ⟨0, 0⟩])) mirror s' ∧
        ¬s'.heap.Present (.str ⟨0, 0⟩) ∧ s'.references (.str ⟨0, 0⟩) = 0 := by
  have hy : mirror.heap.Young := by decide +kernel
  have htext : mirror.heap.Present (.str ⟨0, 0⟩) := ⟨"glass", by decide +kernel⟩
  have hrefs : mirror.heap.refs? (.str ⟨0, 0⟩) = some 2 := by decide +kernel
  obtain ⟨hc, hs⟩ := Reached.counted mirror_reached hy
  let after := mirror.does (.releaseAll [.array ⟨0, 0⟩]) 0
  have h : Step (.act (.releaseAll [.array ⟨0, 0⟩])) mirror after :=
    .does (by decide +kernel) nofun
  have hgone : after.heap.strings.get? ⟨0, 0⟩ = none := by decide +kernel
  have hnot : ¬after.heap.Present (.str ⟨0, 0⟩) := fun ⟨t, ht⟩ => by cases hgone.symm.trans ht
  refine ⟨(Option.some.inj (hrefs.symm.trans (hc _ htext).1)).symm, after, h, hnot, ?_⟩
  exact (((hs _ _ h (by decide +kernel)).goes (by rintro ⟨⟩) _ htext).1 hnot).1

end Holding

end PoolScript.Heap
