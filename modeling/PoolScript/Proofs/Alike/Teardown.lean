import Mathlib.Data.List.Perm.Basic
import PoolScript.Platform
import PoolScript.Proofs.Alike.Host
import PoolScript.Proofs.Heap.Teardown

/-!
# Heaps that are alike, torn down

The variables of a call are given up in the order that the platform lists them in, which need not be
the same on both sides. Heaps that are alike stay alike all the same (`Heap.Alike.giveUp`).

* Where handles are renamed, what is left does not depend on the order, except for the order in
  which vacant slots are listed (`Heap.Booked.releaseAll_sameSlots`). That is no part of being alike
  then: the pairing says which handle goes together with the next one that is handed out.
* Where slots are in step, the next handle matters. There the order has to be the same on both
  sides, and it is asked for the same list then, because heaps that are in step have the same slots
  (`Heap.Alike.slots_eq`).
-/

namespace PoolScript

variable {κ : Likeness} {ρ : Pairing}

theorem Entry.Alike.eq {α : Type} {R : α → α → Prop} {e e' : Entry α} (he : e.Alike R e')
    (hR : ∀ {x y}, R x y → x = y) : e = e' := by
  obtain ⟨_, _, _⟩ := e
  obtain ⟨_, _, _⟩ := e'
  rw [Entry.mk.injEq]
  exact ⟨hR he.content, he.refs, he.pinned⟩

namespace Pool

variable {α : Type} {R : α → α → Prop} {σ : Handle → Handle → Prop} {p q r : Pool α} {h : Handle}

theorem SameSlots.entry?_eq (hpr : p.SameSlots r) : p.entry? = r.entry? := by
  funext h
  rw [Pool.entry?, Pool.entry?, hpr.slots]

theorem SameSlots.freesAt_eq (hpr : p.SameSlots r) : p.freesAt = r.freesAt := by
  funext i
  rw [freesAt, freesAt, hpr.slots]

/-- Where handles are renamed, pools stay alike when vacant slots are listed in another order. -/
theorem Alike.of_sameSlots (hpq : Alike κ R σ p q) (hκ : κ.renames = true) (hpr : p.SameSlots r)
    (hr : r.WellFormed) : Alike κ R σ r q where
  unique := hpq.unique
  entries hσ := hpr.entry?_eq ▸ hpq.entries hσ
  live := by rw [hr.live_eq, used, ← hpr.slots, ← used, ← hpq.left.live_eq, hpq.live]
  left := hr
  right := hpq.right
  name := hpr.name ▸ hpq.name
  capacity := hpr.capacity ▸ hpq.capacity
  paired := by
    have hstale := hpq.paired
    obtain ⟨_ | _, _⟩ := κ
    · cases hκ
    · refine ⟨fun hσ hn => ?_⟩
      rw [← hpr.entry?_eq] at hn
      simpa only [Retired, hpr.freesAt_eq] using hstale.stale hσ hn

/-- Pools in step that hold the same have the same slots. -/
theorem Alike.slots_eq (hpq : Alike κ R σ p q) (hκ : κ.renames = false)
    (hR : ∀ {x y}, R x y → x = y) : p.slots = q.slots := by
  obtain ⟨_ | _, _⟩ := κ
  · obtain hstep : InStep σ p q := hpq.paired
    have hentry : p.entry? = q.entry? := funext fun h =>
      ((hpq.entries (hstep.same.2 rfl)).mono fun he => he.eq hR).eq
    refine Array.ext hstep.size fun i hi hj => ?_
    have hs := Array.getElem?_eq_getElem hi
    have ht := Array.getElem?_eq_getElem hj
    have he : p.slots[i].entry = q.slots[i].entry := by
      simpa using entry_map_eq (g := id) (fun k => by rw [hentry]) hs ht
    have hfrees : p.slots[i].frees = q.slots[i].frees := by
      rw [← Pool.freesAt_eq hs, ← Pool.freesAt_eq ht, hstep.freesAt]
    exact Slot.mk.injEq .. ▸ ⟨hfrees, he⟩
  · cases hκ

end Pool

/-! ### What goes together in step -/

namespace Heap.Alike

variable {a b : Heap} {v w : Value} {f g : Frame} {vs : List Value} {m : Multiset Value}
  {pins : Set Value}

/-- In step, strings go together with themselves only. -/
theorem strings_iff (hab : a.Alike κ ρ b) (hκ : κ.renames = false) {h k : Handle} :
    ρ.strings h k ↔ h = k := by
  have hstep := hab.strings.paired
  obtain ⟨_ | _, _⟩ := κ
  · exact hstep.same
  · cases hκ

/-- In step, cells go together with themselves only. -/
theorem cells_iff (hab : a.Alike κ ρ b) (hκ : κ.renames = false) {h k : Handle} :
    ρ.cells h k ↔ h = k := by
  have hstep := hab.cells.paired
  obtain ⟨_ | _, _⟩ := κ
  · exact hstep.same
  · cases hκ

/-- In step, values go together with themselves only. -/
theorem value_iff (hab : a.Alike κ ρ b) (hκ : κ.renames = false) : v.Alike ρ w ↔ v = w := by
  constructor
  · intro hv
    cases hv with
    | int | float => rfl
    | str hh => rw [(hab.strings_iff hκ).1 hh]
    | array hh => rw [(hab.cells_iff hκ).1 hh]
  · rintro rfl
    cases v with
    | int n => exact .int n
    | float x => exact .float x
    | str h => exact .str ((hab.strings_iff hκ).2 rfl)
    | array h => exact .array ((hab.cells_iff hκ).2 rfl)

theorem link_eq (hab : a.Alike κ ρ b) (hκ : κ.renames = false) {l l' : Option Handle}
    (hl : Option.Rel ρ.cells l l') : l = l' :=
  (hl.mono (hab.cells_iff hκ).1).eq

theorem cell_eq (hab : a.Alike κ ρ b) (hκ : κ.renames = false) {c d : Cell} (hc : c.Alike ρ d) :
    c = d := by
  cases hc with
  | head hl => rw [hab.link_eq hκ hl]
  | element he =>
    obtain ⟨key, value, next⟩ := he
    rw [Cell.element.injEq, Element.mk.injEq]
    exact ⟨(hab.value_iff hκ).1 key, (hab.value_iff hκ).1 value, hab.link_eq hκ next⟩

/-- Heaps that are in step have the same slots. -/
theorem slots_eq (hab : a.Alike κ ρ b) (hκ : κ.renames = false) : a.slots = b.slots := by
  rw [Heap.slots, Heap.slots, hab.strings.slots_eq hκ id, hab.cells.slots_eq hκ (hab.cell_eq hκ)]

/-- In heaps that are in step, variables that go together are the same. -/
theorem frame_eq (hab : a.Alike κ ρ b) (hκ : κ.renames = false) (hf : f.Alike ρ g) : f = g := by
  have hentries : f.locals.entries = g.locals.entries :=
    List.forall₂_eq_eq_eq ▸ hf.locals.imp fun _ _ he => Prod.ext he.1 ((hab.value_iff hκ).1 he.2)
  obtain ⟨_, ⟨_⟩⟩ := f
  obtain ⟨_, ⟨_⟩⟩ := g
  rw [Frame.mk.injEq, Table.mk.injEq]
  exact ⟨hf.function, hentries⟩

/-! ### Giving variables up -/

theorem of_sameSlots {c : Heap} (hab : a.Alike κ ρ b) (hκ : κ.renames = true)
    (hac : a.SameSlots c) (hw : c.strings.WellFormed ∧ c.cells.WellFormed) : c.Alike κ ρ b :=
  ⟨hab.strings.of_sameSlots hκ hac.strings hw.1, hab.cells.of_sameSlots hκ hac.cells hw.2⟩

/-- The variables of a call are given up on both sides, in orders that need to be the same only
    where slots are in step. -/
theorem giveUp (hab : a.Alike κ ρ b) (hf : f.Alike ρ g) (hb : a.Balanced (f.values + m) pins)
    {order order' : TearDown} (ho : κ.renames = false → order = order') :
    (a.releaseAll (order.list a.slots f)).Alike κ ρ (b.releaseAll (order'.list b.slots g)) := by
  cases hκ : κ.renames with
  | false =>
    obtain rfl := ho hκ
    rw [← hab.slots_eq hκ, ← hab.frame_eq hκ hf]
    exact hab.releaseAll (List.forall₂_same.2 fun v _ => (hab.value_iff hκ).2 rfl)
  | true =>
    -- The second side gives values up in the order of `order'`. Those that go together with them
    -- are given up in that order, too, and are those of `order` in another order.
    have hlist : Relation.Comp (List.Forall₂ (Value.Alike ρ)) List.Perm f.values
        (order'.list b.slots g) := ⟨g.values, hf.values, (order'.perm ..).symm⟩
    rw [List.forall₂_comp_perm_eq_perm_comp_forall₂] at hlist
    obtain ⟨vs, hperm, hvs⟩ := hlist
    obtain ⟨φ, p, -, hk⟩ := hb.booked
    rw [Multiset.coe_eq_coe.2 hperm] at hk
    have hsame := hk.releaseAll_sameSlots (hperm.symm.trans (order.perm a.slots f).symm)
    have hthin : a.Thins (a.releaseAll (order.list a.slots f)) := .releaseAll ..
    exact (hab.releaseAll hvs).of_sameSlots hκ hsame
      ⟨hthin.strings.evolves.wellFormed hab.strings.left,
        hthin.cells.evolves.wellFormed hab.cells.left⟩

end Heap.Alike

end PoolScript
