import PoolScript.Proofs.Heap.Keys

/-!
# How a heap changes

Whatever is done with a heap other than clearing it either thins it, makes a string or an array,
or is what came of setting or removing an element (`Heap.Change`). So the text of a string does
not change while the string is there, an array keeps its elements while it is there, or gets a new
one (`Change.inherits`), and its keys remain distinct (`Change.keyed`).
-/

namespace PoolScript

namespace Layout

/-- The keys of the elements `xs`. -/
def keys (xs : List (Handle × Element)) : List Value :=
  xs.map (·.2.key)

variable {f g g' : Layout} {φ φ' : Handle → List (Handle × Element)} {a h : Handle} {v : Value}
  {link : Option Handle} {xs : List (Handle × Element)} {e : Element}

theorem keys_revalue (h : Handle) (v : Value) (xs : List (Handle × Element)) :
    keys (Chain.revalue h v xs) = keys xs := by
  rw [keys, Chain.revalue, List.map_map]
  refine List.map_congr_left fun p _ => ?_
  by_cases hp : p.1 = h <;> simp [hp]

theorem keys_relink (h : Handle) (next : Option Handle) (xs : List (Handle × Element)) :
    keys (Chain.relink h next xs) = keys xs := by
  rw [keys, Chain.relink, List.map_map]
  refine List.map_congr_left fun p _ => ?_
  by_cases hp : p.1 = h <;> simp [hp]

/-- The arrays of `g` and their elements are those of `f`, but for new cells. -/
structure Inherits (f : Layout) (φ : Handle → List (Handle × Element)) (g : Layout)
    (φ' : Handle → List (Handle × Element)) : Prop where
  head : ∀ {a link}, g a = some (.head link) →
    f a = none ∧ φ' a = [] ∨ ∃ l, f a = some (.head l)
  element : ∀ {a link h e}, g a = some (.head link) → (h, e) ∈ φ' a →
    f h = none ∨ ∃ l d, f a = some (.head l) ∧ (h, d) ∈ φ a

namespace Inherits

theorem refl (f : Layout) (φ : Handle → List (Handle × Element)) : f.Inherits φ f φ :=
  ⟨fun ha => .inr ⟨_, ha⟩, fun ha hm => .inr ⟨_, _, ha, hm⟩⟩

/-- Less is inherited when cells are taken away. -/
theorem thinned (hi : f.Inherits φ g φ') (hg : ∀ h c, g' h = some c → g h = some c) :
    f.Inherits φ g' φ' :=
  ⟨fun ha => hi.head (hg _ _ ha), fun ha hm => hi.element (hg _ _ ha) hm⟩

theorem add_head (hh : f h = none) :
    f.Inherits φ (Function.update f h (some (.head none))) (Function.update φ h []) := by
  refine ⟨fun {a link} ha => ?_, fun {a link k e} ha hm => ?_⟩ <;> by_cases hah : a = h
  · exact .inl ⟨hah ▸ hh, hah ▸ Function.update_self ..⟩
  · rw [Function.update_of_ne hah] at ha
    exact .inr ⟨_, ha⟩
  · subst hah; simp at hm
  · rw [Function.update_of_ne hah] at ha hm
    exact .inr ⟨_, _, ha, hm⟩

theorem set_value (h : Handle) (v : Value) (e : Element) :
    f.Inherits φ (Function.update f h (some (.element e))) fun a => Chain.revalue h v (φ a) := by
  have head {a link} (ha : Function.update f h (some (.element e)) a = some (.head link)) :
      f a = some (.head link) := by
    have hah : a ≠ h := by rintro rfl; simp at ha
    rwa [Function.update_of_ne hah] at ha
  refine ⟨fun ha => .inr ⟨_, head ha⟩, fun {a link k d} ha hm => ?_⟩
  obtain ⟨p, hp, hpk⟩ := List.mem_map.1 hm
  cases hpk
  exact .inr ⟨_, _, head ha, hp⟩

theorem insert (ha : f a = some (.head link)) (hh : f h = none) (e : Element) :
    f.Inherits φ (Function.update (Function.update f h (some (.element e))) a
      (some (.head (some h)))) (Function.update φ a ((h, e) :: φ a)) := by
  have head {b l} (hb : Function.update (Function.update f h (some (.element e))) a
      (some (.head (some h))) b = some (.head l)) : ∃ l, f b = some (.head l) := by
    by_cases hba : b = a
    · exact ⟨link, hba ▸ ha⟩
    · have hbh : b ≠ h := by rintro rfl; simp [hba] at hb
      rw [Function.update_of_ne hba, Function.update_of_ne hbh] at hb
      exact ⟨l, hb⟩
  refine ⟨fun hb => .inr (head hb), fun {b l k d} hb hm => ?_⟩
  obtain ⟨l', hb'⟩ := head hb
  by_cases hba : b = a
  · subst hba
    rw [Function.update_self, List.mem_cons] at hm
    rcases hm with hm | hm
    · exact .inl ((Prod.mk.inj hm).1 ▸ hh)
    · exact .inr ⟨_, _, hb', hm⟩
  · rw [Function.update_of_ne hba] at hm
    exact .inr ⟨_, _, hb', hm⟩

theorem unlink {b : Handle} {c : Cell} {ys : List (Handle × Element)}
    (u : Unlinked f g φ a b h link c e xs ys) :
    f.Inherits φ g (Function.update φ a (Chain.relink b e.next (xs ++ ys))) := by
  refine ⟨fun {i li} hi => .inr ?_, fun hi hm => .inr ?_⟩
  · by_cases hia : i = a
    · exact ⟨link, hia ▸ u.head⟩
    · exact ⟨li, u.head_of_ne hi hia⟩
  · obtain ⟨l, d, hl, hd⟩ := u.mem_before hi hm
    exact ⟨l, d, hl, hd⟩

/-- When an array goes, its cell is given to nothing else. -/
theorem head_dropped (hi : f.Inherits φ g φ') (hl : f.Laid φ) (hl' : g.Laid φ')
    (ha : f a = some (.head link)) (hga : ∀ l, g a ≠ some (.head l)) : g a = none := by
  cases hc : g a with
  | none => rfl
  | some c =>
    cases c with
    | head l => exact absurd hc (hga l)
    | element d =>
      obtain ⟨b, lb, hb, hd⟩ := hl'.reached hc
      rcases hi.element hb hd with hn | ⟨l', d', hb', hd'⟩
      · cases ha.symm.trans hn
      · cases ha.symm.trans (hl.element hb' hd')

/-- When an array goes, all of its elements go. -/
theorem dropped (hi : f.Inherits φ g φ') (hl : f.Laid φ) (hl' : g.Laid φ')
    (ha : f a = some (.head link)) (hga : ∀ l, g a ≠ some (.head l)) (hm : (h, e) ∈ φ a) :
    g h = none := by
  have hh := hl.element ha hm
  cases hc : g h with
  | none => rfl
  | some c =>
    cases c with
    | head l => rcases hi.head hc with ⟨hn, -⟩ | ⟨l', hn⟩ <;> cases hh.symm.trans hn
    | element d =>
      -- It would be in some other array now, where it was before.
      obtain ⟨b, lb, hb, hd⟩ := hl'.reached hc
      rcases hi.element hb hd with hn | ⟨l', d', hb', hd'⟩
      · cases hh.symm.trans hn
      · obtain rfl := hl.disjoint ha hb' hm hd'
        exact absurd hb (hga lb)

end Inherits

end Layout

namespace Heap

open Layout (keys)

/-- What can become of a heap whose arrays have the elements `φ`, and the elements that they have
    then, where no array is written but the array `w`. -/
inductive Change (heap : Heap) (φ : Handle → List (Handle × Element)) (w : Option Handle) :
    Heap → (Handle → List (Handle × Element)) → Prop
  | thinned {heap' : Heap} : heap.Thins heap' → Change heap φ w heap' φ
  | string {text : String} {h : Handle} {strings : Pool String} :
      heap.strings.Allocated text h strings → Change heap φ w ⟨strings, heap.cells⟩ φ
  | array {h : Handle} {cells : Pool Cell} : heap.cells.Allocated (.head none) h cells →
      Change heap φ w ⟨heap.strings, cells⟩ (Function.update φ h [])
  | set {a : Handle} {key v : Value} {r : Except Fault Unit × Heap}
      {φ' : Handle → List (Handle × Element)} (array : w = some a) :
      SetOutcome heap φ a key v r φ' → Change heap φ w r.2 φ'
  | remove {a : Handle} {key : Scalar} {r : Except Fault Bool × Heap}
      {φ' : Handle → List (Handle × Element)} (array : w = some a) :
      RemoveOutcome heap φ a key r φ' → Change heap φ w r.2 φ'

variable {heap heap' : Heap} {φ φ' : Handle → List (Handle × Element)} {a h : Handle}
  {key v : Value} {s : Scalar} {link w : Option Handle} {m m' : Multiset Value}
  {pins pins' gone : Set Value}

/-! ### Strings -/

theorem SetOutcome.sameTexts {r : Except Fault Unit × Heap} (ho : SetOutcome heap φ a key v r φ') :
    heap.SameTexts r.2 := by
  cases ho with
  | rejected => exact (Thins.releaseAll ..).sameTexts (.of_strings rfl)
  | replaced => exact (Thins.releaseAll ..).sameTexts (.of_strings rfl)
  | inserted => exact .of_strings rfl

theorem RemoveOutcome.sameTexts {r : Except Fault Bool × Heap}
    (ho : RemoveOutcome heap φ a s r φ') : heap.SameTexts r.2 := by
  cases ho with
  | rejected => exact .of_strings rfl
  | absent => exact .of_strings rfl
  | taken => exact (Thins.releaseAll ..).sameTexts (.of_strings rfl)

theorem Change.sameTexts (hc : Change heap φ w heap' φ') : heap.SameTexts heap' := by
  cases hc with
  | thinned ht => exact ht.sameTexts (.of_strings rfl)
  | @string text k strings hal =>
    intro h t t' ht ht'
    change strings.get? h = _ at ht'
    have hh : h ≠ k := by
      rintro rfl
      simp [Pool.get?, hal.vacant] at ht
    rw [Pool.get?_update hal.entry?, Function.update_of_ne hh] at ht'
    exact Option.some.inj (ht'.symm.trans ht)
  | array => exact .of_strings rfl
  | set _ ho => exact ho.sameTexts
  | remove _ ho => exact ho.sameTexts

/-! ### Elements -/

theorem Change.inherits (hl : Layout.Laid heap.cells.get? φ) (hc : Change heap φ w heap' φ') :
    Layout.Inherits heap.cells.get? φ heap'.cells.get? φ' := by
  -- What is given back in the end takes elements away, and links no other ones.
  have thins {f : Layout} {a b : Heap} (h : a.Thins b) :
      f.Inherits φ a.cells.get? φ' → f.Inherits φ b.cells.get? φ' :=
    fun hi => hi.thinned fun _ _ => h.cells_get?
  cases hc with
  | thinned ht => exact thins ht (.refl ..)
  | string => exact .refl ..
  | @array h cells hal =>
    change Layout.Inherits _ φ cells.get? _
    rw [Pool.get?_update hal.entry?]
    exact .add_head (by simp [Pool.get?, hal.vacant])
  | set _ ho =>
    cases ho with
    | rejected => exact thins (.releaseAll ..) (.refl ..)
    | replaced _ _ _ cell =>
      refine thins (.releaseAll ..) ?_
      change Layout.Inherits _ φ (Pool.get? (heap.cells.put _ _)) _
      rw [Pool.get?_put cell]
      exact .set_value ..
    | inserted head _ _ cell =>
      change Layout.Inherits _ φ (Pool.get? (Pool.put _ _ _)) _
      rw [get?_inserted head cell]
      exact .insert (Pool.get?_eq_some.2 ⟨_, _, head⟩) (by simp [Pool.get?, cell.vacant]) _
  | remove _ ho =>
    cases ho with
    | rejected => exact .refl ..
    | absent => exact .refl ..
    | taken head _ split _ last cell =>
      refine thins (.releaseAll ..) ?_
      change Layout.Inherits _ φ (Pool.get? (Pool.vacate _ _)) _
      rw [get?_unlinked hl head split last cell]
      exact .unlink (hl.unlinked head split last (Pool.get?_eq_some.2 ⟨_, _, cell⟩))

/-! ### Keys -/

/-- The keys of every array are distinct. -/
def Keyed (heap : Heap) (φ : Handle → List (Handle × Element)) : Prop :=
  ∀ {a link}, heap.cells.get? a = some (.head link) → heap.Distinct (keys (φ a))

theorem findIn_eq_none {xs : List (Handle × Element)} (hf : heap.findIn s xs = none) :
    ∀ k ∈ keys xs, heap.keyMatches k s = false := by
  intro k hk
  obtain ⟨p, hp, rfl⟩ := List.mem_map.1 hk
  simpa using List.find?_eq_none.1 hf p hp

/-- The keys that arrays have afterwards were distinct before. -/
theorem Change.distinct_before (hl : Layout.Laid heap.cells.get? φ) (hd : heap.Keyed φ)
    (hc : Change heap φ w heap' φ') (ha : heap'.cells.get? a = some (.head link)) :
    heap.Distinct (keys (φ' a)) := by
  -- An array is new, and then it has no elements, or it was there before.
  rcases (hc.inherits hl).head ha with ⟨-, hnil⟩ | ⟨l, hla⟩
  · exact hnil ▸ .nil heap
  · have hda := hd hla
    cases hc with
    | thinned => exact hda
    | string => exact hda
    | @array h cells hal =>
      have hah : a ≠ h := by rintro rfl; simp [Pool.get?, hal.vacant] at hla
      rwa [Function.update_of_ne hah]
    | @set b _ _ _ _ _ ho =>
      cases ho with
      | rejected => exact hda
      | replaced => exact (Layout.keys_revalue ..).symm ▸ hda
      | inserted head scalar find =>
        by_cases hab : a = b
        · subst hab
          rw [Function.update_self]
          exact hda.cons scalar (findIn_eq_none find)
        · rwa [Function.update_of_ne hab]
    | @remove b _ _ _ _ ho =>
      cases ho with
      | rejected => exact hda
      | absent => exact hda
      | taken head _ split =>
        by_cases hab : a = b
        · subst hab
          rw [Function.update_self, Layout.keys_relink]
          refine hda.sublist ?_
          rw [split]
          exact ((List.sublist_cons_self ..).append_left _).map _
        · rwa [Function.update_of_ne hab]

/-- The keys of every array remain distinct. -/
theorem Change.keyed (hk : heap.Booked φ m pins gone) (hd : heap.Keyed φ)
    (hc : Change heap φ w heap' φ') (hk' : heap'.Booked φ' m' pins' gone) : heap'.Keyed φ' := by
  intro a link ha
  refine (hc.distinct_before hk.laid hd ha).congr fun k hkm s hs => ?_
  obtain ⟨p, hp, rfl⟩ := List.mem_map.1 hkm
  have hm : p.2.key ∈ heap'.stored :=
    mem_stored (hk'.laid.element ha hp) (by simp [Cell.values])
  exact hk'.scalar_kept hc.sameTexts hk.stale hm hs

end Heap

end PoolScript
