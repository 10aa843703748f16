import PoolScript.Proofs.Heap.Thinning
import PoolScript.Proofs.Heap.Walk
import PoolScript.Proofs.Heap.Wrapping
import PoolScript.Proofs.Pool.Handles

/-!
# The order of tearing down

When several references are given back, which of them frees an array depends on their order, and so
does what is given back in turn. What is left does not (`Holding.Reached.releaseAll_perm`).

The reason is that what is left is known without an order. Suppose that the books of two heaps tell
the same chains, and that all that lives in the first one lives in the second one
(`Heap.LivesIn`), which has some references more to give back. What lives in the first one is
counted there because it is owned or stored. That it is in the second one as well, so giving one
reference back does not free it there (`Booked.livesIn_giveBack`). So, of two heaps that are left
when the same references are given back in different orders, all that lives in either lives in the
other, and the books say how often it is counted (`Booked.sameSlots`).
-/

namespace PoolScript

/-! ### Slots -/

namespace Pool

variable {α β : Type} {p q r : Pool α} {s t : Slot α} {i : Nat}

/-- Two pools have the same slots: the same is in use, with the same counts and pins, and each slot
    is in the same generation. The vacant ones may be listed in another order. -/
structure SameSlots (p q : Pool α) : Prop where
  name : p.name = q.name
  capacity : p.capacity = q.capacity
  slots : p.slots = q.slots
  live : p.live = q.live
  free : p.free.Perm q.free

theorem entry_map_eq_some {g : Entry α → β} {b : β}
    (h : ∀ k, (p.entry? k).map g = (q.entry? k).map g) (hs : p.slots[i]? = some s)
    (ht : q.slots[i]? = some t) (hb : s.entry.map g = some b) : t.entry.map g = some b := by
  obtain ⟨e, he, rfl⟩ := Option.map_eq_some_iff.1 hb
  have hp : p.entry? ⟨i, s.generation⟩ = some e := entry?_eq_some.2 ⟨s, hs, rfl, he⟩
  have hq := h ⟨i, s.generation⟩
  rw [hp] at hq
  obtain ⟨e', he', hg⟩ := Option.map_eq_some_iff.1 hq.symm
  obtain ⟨t', ht', -, hte⟩ := entry?_eq_some.1 he'
  obtain rfl := Option.some.inj (ht.symm.trans ht')
  rw [hte, Option.map_some, hg]

/-- What the handles lead to tells what the slots hold. -/
theorem entry_map_eq {g : Entry α → β} (h : ∀ k, (p.entry? k).map g = (q.entry? k).map g)
    (hs : p.slots[i]? = some s) (ht : q.slots[i]? = some t) : s.entry.map g = t.entry.map g :=
  Option.ext fun _ =>
    ⟨entry_map_eq_some h hs ht, entry_map_eq_some (fun k => (h k).symm) ht hs⟩

theorem contents_eq_of_get? (hsize : p.slots.size = q.slots.size) (h : p.get? = q.get?) :
    p.contents = q.contents := by
  have hl : p.slots.toList.map held = q.slots.toList.map held := by
    refine List.ext_getElem? fun i => ?_
    rw [List.getElem?_map, List.getElem?_map, Array.getElem?_toList, Array.getElem?_toList]
    by_cases hi : i < p.slots.size
    · have hs := Array.getElem?_eq_getElem hi
      have ht := Array.getElem?_eq_getElem (hsize ▸ hi : i < q.slots.size)
      rw [hs, ht, Option.map_some, Option.map_some, held, held,
        entry_map_eq (fun k => congrFun h k) hs ht]
    · rw [Array.getElem?_eq_none (Nat.le_of_not_lt hi),
        Array.getElem?_eq_none (hsize ▸ Nat.le_of_not_lt hi)]
  rw [contents, contents, List.flatMap_def, List.flatMap_def, hl]

/-- How often a slot was taken into use: as often as it was vacated, and once more if it is in
    use. -/
def uses (p : Pool α) (i : Nat) : Nat :=
  match p.slots[i]? with
  | some s => s.frees + (held s).length
  | none => 0

theorem uses_eq (hs : p.slots[i]? = some s) : p.uses i = s.frees + (held s).length := by
  rw [uses, hs]

theorem uses_put {h : Handle} {e : Entry α} (he : p.entry? h = some e) (e' : Entry α) (i : Nat) :
    (p.put h.index e').uses i = p.uses i := by
  obtain ⟨s, hs, -, -⟩ := entry?_eq_some.1 he
  by_cases hi : h.index = i
  · subst hi
    rw [uses_eq hs, held_eq he hs, ← freesAt_eq hs]
    simp [uses, put, index_lt he, held]
  · simp [uses, put, Array.getElem?_setIfInBounds_ne hi]

theorem uses_vacate {h : Handle} {e : Entry α} (he : p.entry? h = some e) (i : Nat) :
    (p.vacate h.index).uses i = p.uses i := by
  obtain ⟨s, hs, -, -⟩ := entry?_eq_some.1 he
  by_cases hi : h.index = i
  · subst hi
    rw [uses_eq hs, held_eq he hs, ← freesAt_eq hs]
    simp [uses, vacate, index_lt he, held]
  · simp [uses, vacate, Array.getElem?_setIfInBounds_ne hi]

namespace Thins

theorem size_eq (h : p.Thins q) : q.slots.size = p.slots.size := by
  induction h with
  | refl => rfl
  | recount n pinned _ _ ih => exact (Array.size_setIfInBounds ..).trans ih
  | vacate _ _ ih => exact (Array.size_setIfInBounds ..).trans ih

/-- No slot is taken into use when a pool is thinned. -/
theorem uses_eq (h : p.Thins q) (i : Nat) : q.uses i = p.uses i := by
  induction h with
  | refl => rfl
  | recount n pinned _ he ih => exact (uses_put he _ i).trans ih
  | vacate _ he ih => exact (uses_vacate he i).trans ih

/-- If the same is left of a pool, then the slots are the same: what is vacant was vacated equally
    often. -/
theorem slots_eq (hq : p.Thins q) (hr : p.Thins r) (h : q.entry? = r.entry?) :
    q.slots = r.slots := by
  have hsize := hq.size_eq.trans hr.size_eq.symm
  refine Array.ext hsize fun i hi hj => ?_
  have hs := Array.getElem?_eq_getElem hi
  have ht := Array.getElem?_eq_getElem hj
  have he : q.slots[i].entry = r.slots[i].entry := by
    simpa using entry_map_eq (g := id) (fun k => by rw [h]) hs ht
  have hu := (hq.uses_eq i).trans (hr.uses_eq i).symm
  rw [Pool.uses_eq hs, Pool.uses_eq ht, held, held, he, Nat.add_right_cancel_iff] at hu
  exact Slot.mk.injEq .. ▸ ⟨hu, he⟩

theorem sameSlots (hw : p.WellFormed) (hq : p.Thins q) (hr : p.Thins r)
    (h : q.entry? = r.entry?) : q.SameSlots r where
  name := hq.evolves.name_eq.trans hr.evolves.name_eq.symm
  capacity := hq.evolves.capacity_eq.trans hr.evolves.capacity_eq.symm
  slots := hq.slots_eq hr h
  live := by
    rw [(hq.evolves.wellFormed hw).live_eq, (hr.evolves.wellFormed hw).live_eq, used, used,
      hq.slots_eq hr h]
  free := by
    have hwq := hq.evolves.wellFormed hw
    have hwr := hr.evolves.wellFormed hw
    refine (List.perm_ext_iff_of_nodup hwq.nodup hwr.nodup).2 fun i => ?_
    rw [hwq.mem_free, hwr.mem_free, hq.slots_eq hr h]

end Thins

end Pool

/-! ### What lives on -/

namespace Heap

variable {base heap left a b : Heap} {φ : Handle → List (Handle × Element)}
  {m : Multiset Value} {pins gone : Set Value} {v : Value} {h : Handle}

/-- The same slots in both pools. -/
structure SameSlots (a b : Heap) : Prop where
  strings : a.strings.SameSlots b.strings
  cells : a.cells.SameSlots b.cells

/-- All that lives in `left` lives in `heap`. -/
def LivesIn (left heap : Heap) : Prop :=
  ∀ v, left.Live v → heap.Live v

theorem Thins.livesIn (h : base.Thins left) : left.LivesIn base := by
  intro v hv
  cases v with
  | int | float => exact nofun
  | str k =>
    obtain ⟨text, ht⟩ := live_str.1 hv
    exact live_str.2 ⟨text, h.strings_get? ht⟩
  | array k =>
    obtain ⟨link, ha⟩ := live_array.1 hv
    exact live_array.2 ⟨link, h.cells_get? ha⟩

theorem Thins.strings_get?_of_livesIn (ha : base.Thins a) (hb : base.Thins b) (hr : a.LivesIn b)
    {text : String} (ht : a.strings.get? h = some text) : b.strings.get? h = some text := by
  obtain ⟨text', ht'⟩ := live_str.1 (hr _ (live_str.2 ⟨text, ht⟩))
  rw [ht']
  exact (hb.strings_get? ht').symm.trans (ha.strings_get? ht)

theorem strings_entry?_of_tally? (hs : a.strings.get? = b.strings.get?)
    (ht : a.tally? = b.tally?) {e : Entry String} (he : a.strings.entry? h = some e) :
    b.strings.entry? h = some e := by
  obtain ⟨text, n, p⟩ := e
  have hv : a.tally? (.str h) = some (n, p) := by simp [tally?, he]
  obtain ⟨text', he'⟩ := tally?_str (ht ▸ hv)
  have hg := congrFun hs h
  rw [Pool.get?, Pool.get?, he, he'] at hg
  cases hg
  exact he'

/-- What is stored is the key or the value of an element. -/
theorem exists_element_of_stored (hv : v ∈ heap.stored) :
    ∃ h e, heap.cells.get? h = some (.element e) ∧ v ∈ (Cell.element e).values := by
  obtain ⟨c, hc, hv⟩ := List.mem_flatMap.1 (Multiset.mem_coe.1 hv)
  obtain ⟨h, hh⟩ := Pool.exists_of_mem_contents hc
  cases c with
  | head => cases hv
  | element e => exact ⟨h, e, hh, hv⟩

namespace Booked

/-- An array that lives in both heaps has the same elements in both. -/
theorem element_of_livesIn (hl : left.Booked φ m pins gone) {m' : Multiset Value}
    (hk : heap.Booked φ m' pins gone) (hr : left.LivesIn heap) {e : Element}
    (he : left.cells.get? h = some (.element e)) : heap.cells.get? h = some (.element e) := by
  obtain ⟨a, link, ha, hm⟩ := hl.laid.reached he
  obtain ⟨link', ha'⟩ := live_array.1 (hr _ (live_array.2 ⟨link, ha⟩))
  exact hk.laid.element ha' hm

/-- Giving a reference back takes nothing out of an array, except for what remains to be given
    back. -/
theorem stored_giveBack (hk : heap.Booked φ ({v} + m) pins gone) :
    (heap.giveBack v).1 + (heap.giveBack v).2.stored = heap.stored := by
  obtain ⟨strings, cells⟩ := heap
  cases v with
  | int | float | str => exact zero_add _
  | array a =>
    simp only [Heap.giveBack, Pool.release]
    cases he : cells.entry? a with
    | none => exact zero_add _
    | some e =>
      obtain ⟨link, hlink⟩ := hk.head_of_entry he
      obtain ⟨_, n, pinned⟩ := e
      obtain rfl := hlink
      by_cases hn : n ≤ 1 ∧ ¬pinned = true
      · simp only [if_pos hn]
        exact stored_collect_head he
      · simp only [if_neg hn]
        exact (zero_add _).trans (stored_recount he)

/-- What is there when all references are given back is not freed by the first of them. -/
theorem livesIn_giveBack {pending : Multiset Value} (hl : left.Booked φ m pins gone)
    (hk : heap.Booked φ ({v} + (pending + m)) pins gone) (hr : left.LivesIn heap) :
    left.LivesIn (heap.giveBack v).2 := by
  intro w hw hc
  by_contra hn
  have hk' := hk.giveBack
  have ht : (heap.giveBack v).2.tally? w = none := by
    rw [Option.eq_none_iff_forall_ne_some]
    exact fun ⟨n, p⟩ hx => hn ⟨n, p, hx⟩
  obtain ⟨n, p, hw⟩ := hw hc
  have hg : w ∉ gone := fun hg => by simpa [hl.stale w hg] using isLive_of_tally? hw
  -- What is not there any more is neither owned nor stored.
  obtain ⟨howned, hpins⟩ := hk'.tally.not_mem hc ht hg
  rw [add_right_comm, hk.stored_giveBack] at howned
  have hm : w ∈ m + left.stored := by
    refine Multiset.count_pos.1 (Nat.pos_of_ne_zero fun hz => ?_)
    have hn := (hl.tally.count hw).trans hz
    subst hn
    exact hpins ((hl.tally.pin hw).1 (hl.tally.zero hw))
  refine howned ?_
  rcases Multiset.mem_add.1 hm with hm | hm
  · simp [hm]
  · obtain ⟨k, e, he, hv⟩ := exists_element_of_stored hm
    exact Multiset.mem_add.2 (.inl (mem_stored (hl.element_of_livesIn hk hr he) hv))

theorem livesIn_drain (hl : left.Booked φ m pins gone) (pending : List Value) (heap : Heap)
    (hk : heap.Booked φ (pending + m) pins gone) (hr : left.LivesIn heap) :
    left.LivesIn (heap.drain pending) := by
  induction pending, heap using drain_induction with
  | nil heap => rwa [drain_nil]
  | cons v pending heap ih =>
    rw [coe_cons_add] at hk
    have hg := hk.giveBack
    rw [← add_assoc, Multiset.coe_add] at hg
    rw [drain_cons]
    exact ih hg (hl.livesIn_giveBack hk hr)

/-! ### What is left -/

section

variable (hka : a.Booked φ m pins gone) (hkb : b.Booked φ m pins gone)

include hka hkb

theorem cells_get?_of_livesIn (ha : base.Thins a) (hb : base.Thins b) (hr : a.LivesIn b)
    {c : Cell} (hc : a.cells.get? h = some c) : b.cells.get? h = some c := by
  cases c with
  | element e => exact hka.element_of_livesIn hkb hr hc
  | head link =>
    obtain ⟨link', hc'⟩ := live_array.1 (hr _ (live_array.2 ⟨link, hc⟩))
    rw [hc']
    exact (hb.cells_get? hc').symm.trans (ha.cells_get? hc)

theorem tally?_of_livesIn (hs : a.stored = b.stored) (hr : a.LivesIn b)
    {n : Nat} {p : Bool} (hv : a.tally? v = some (n, p)) : b.tally? v = some (n, p) := by
  have hc : v.isCounted := by cases v <;> first | rfl | cases hv
  obtain ⟨n', p', hv'⟩ := hr v (fun _ => ⟨n, p, hv⟩) hc
  have hn : n' = n := by rw [hkb.tally.count hv', hka.tally.count hv, hs]
  have hp : p' = p := Bool.eq_iff_iff.2 ((hkb.tally.pin hv').trans (hka.tally.pin hv).symm)
  rw [hv', hn, hp]

theorem cells_entry?_of_tally? (hc : a.cells.get? = b.cells.get?) (ht : a.tally? = b.tally?)
    {e : Entry Cell} (he : a.cells.entry? h = some e) : b.cells.entry? h = some e := by
  obtain ⟨c, n, p⟩ := e
  have hg : b.cells.get? h = some c := hc ▸ Pool.get?_eq_some.2 ⟨n, p, he⟩
  obtain ⟨n', p', he'⟩ := Pool.get?_eq_some.1 hg
  rw [he']
  cases c with
  | element e =>
    obtain ⟨rfl, rfl⟩ := hka.element he
    obtain ⟨rfl, rfl⟩ := hkb.element he'
    rfl
  | head link =>
    have hv := congrFun ht (.array h)
    simp only [tally?, he, he'] at hv
    cases hv
    rfl

/-- The books of two heaps that are left of one, and in which the same lives, say the same. -/
theorem sameSlots (hw : base.strings.WellFormed ∧ base.cells.WellFormed) (ha : base.Thins a)
    (hb : base.Thins b) (hab : a.LivesIn b) (hba : b.LivesIn a) : a.SameSlots b := by
  have hs : a.strings.get? = b.strings.get? := funext fun h => Option.ext fun _ =>
    ⟨ha.strings_get?_of_livesIn hb hab, hb.strings_get?_of_livesIn ha hba⟩
  have hc : a.cells.get? = b.cells.get? := funext fun h => Option.ext fun _ =>
    ⟨hka.cells_get?_of_livesIn hkb ha hb hab, hkb.cells_get?_of_livesIn hka hb ha hba⟩
  have hstored : a.stored = b.stored := by
    rw [stored, stored, Pool.stored, Pool.stored,
      Pool.contents_eq_of_get? (ha.cells.size_eq.trans hb.cells.size_eq.symm) hc]
  have ht : a.tally? = b.tally? := funext fun v => Option.ext fun _ =>
    ⟨hka.tally?_of_livesIn hkb hstored hab, hkb.tally?_of_livesIn hka hstored.symm hba⟩
  refine ⟨ha.strings.sameSlots hw.1 hb.strings ?_, ha.cells.sameSlots hw.2 hb.cells ?_⟩
  · exact funext fun h => Option.ext fun _ =>
      ⟨strings_entry?_of_tally? hs ht, strings_entry?_of_tally? hs.symm ht.symm⟩
  · exact funext fun h => Option.ext fun _ =>
      ⟨hka.cells_entry?_of_tally? hkb hc ht, hkb.cells_entry?_of_tally? hka hc.symm ht.symm⟩

end

/-- What is left when values are given back does not depend on their order. -/
theorem releaseAll_sameSlots {vs ws : List Value} (hk : heap.Booked φ (vs + m) pins gone)
    (hvs : vs.Perm ws) : (heap.releaseAll vs).SameSlots (heap.releaseAll ws) := by
  have hk' : heap.Booked φ (ws + m) pins gone := Multiset.coe_eq_coe.2 hvs ▸ hk
  have hv : heap.Thins (heap.releaseAll vs) := .releaseAll heap vs
  have hw : heap.Thins (heap.releaseAll ws) := .releaseAll heap ws
  exact hk.releaseAll.sameSlots hk'.releaseAll ⟨hk.strings, hk.cells⟩ hv hw
    (hk.releaseAll.livesIn_drain ws heap hk' hv.livesIn)
    (hk'.releaseAll.livesIn_drain vs heap hk hw.livesIn)

end Booked

namespace Holding

variable {strings cells : Nat} {s : Holding}

/-- In every heap that is reached, values that are held can be given back in any order: the same
    slots are left, with the same contents, counts, pins and generations. -/
theorem Reached.releaseAll_perm (hr : Reached strings cells s) (hc : s.Certain)
    {vs ws : List Value} (howned : (vs : Multiset Value) ≤ s.owned) (hvs : vs.Perm ws) :
    (s.heap.releaseAll vs).SameSlots (s.heap.releaseAll ws) := by
  obtain ⟨φ, pins, hk⟩ := hr.kept hc
  obtain ⟨m, hm⟩ := Multiset.le_iff_exists_add.1 howned
  have hb := hk.booked
  rw [hm] at hb
  exact hb.releaseAll_sameSlots hvs

/-- Three arrays that are held. The first one is also stored in the second one, under a text. -/
def shelf : Holding :=
  let first : Value := .array ⟨0, 0⟩
  let second : Value := .array ⟨1, 0⟩
  let third : Value := .array ⟨2, 0⟩
  let text : Value := .str ⟨0, 0⟩
  (start 1 5).does .allocArray 0
    |>.does .allocArray {first}
    |>.does .allocArray {second, first}
    |>.does (.allocScalar (.str "book")) {third, second, first}
    |>.does (.retain first) {text, third, second, first}
    |>.does (.set ⟨1, 0⟩ text first) {third, second, first}

/-- The second and the third array of `shelf` are given back in both orders. The vacant slots are
    listed differently then, and the first array is left in the same slot, owned once. -/
theorem shelf_cleared :
    (shelf.heap.releaseAll [.array ⟨1, 0⟩, .array ⟨2, 0⟩]).SameSlots
        (shelf.heap.releaseAll [.array ⟨2, 0⟩, .array ⟨1, 0⟩]) ∧
      (shelf.heap.releaseAll [.array ⟨1, 0⟩, .array ⟨2, 0⟩]).cells.free ≠
        (shelf.heap.releaseAll [.array ⟨2, 0⟩, .array ⟨1, 0⟩]).cells.free ∧
      shelf.heap.refs? (.array ⟨0, 0⟩) = some 2 ∧
      (shelf.heap.releaseAll [.array ⟨1, 0⟩, .array ⟨2, 0⟩]).refs? (.array ⟨0, 0⟩) = some 1 := by
  have hr : Reached 1 5 shelf := by
    have h : Reached 1 5 (start 1 5) := .refl
    refine (((((h.does ?_ ?_).does ?_ ?_).does ?_ ?_).does ?_ ?_).does ?_ ?_).does ?_ ?_
    all_goals decide +kernel
  refine ⟨hr.releaseAll_perm (.inl rfl) (by decide +kernel) (.swap ..), ?_⟩
  decide +kernel

/-- In `wrapped` the order decides. The element has to be found in its array for its text to be
    given back with it. -/
theorem wrapped_cleared :
    Reached 1 2 wrapped ∧ ([.array ⟨0, 0⟩, .array ⟨1, 0⟩] : List Value) ≤ wrapped.owned ∧
      ¬(wrapped.heap.releaseAll [.array ⟨0, 0⟩, .array ⟨1, 0⟩]).SameSlots
        (wrapped.heap.releaseAll [.array ⟨1, 0⟩, .array ⟨0, 0⟩]) := by
  refine ⟨wrapped_reached, by decide +kernel, fun h => ?_⟩
  have hlive : (wrapped.heap.releaseAll [.array ⟨0, 0⟩, .array ⟨1, 0⟩]).liveStrings =
      (wrapped.heap.releaseAll [.array ⟨1, 0⟩, .array ⟨0, 0⟩]).liveStrings := h.strings.live
  revert hlive
  decide +kernel

end Holding

end Heap

end PoolScript
