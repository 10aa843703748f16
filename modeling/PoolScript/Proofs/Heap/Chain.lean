import Mathlib.Data.List.Nodup
import Mathlib.Logic.Function.Basic
import PoolScript.Heap

/-!
# Chains of cells

A *layout* says which cell each handle leads to. The elements of an array are those that the
links lead to, one after another, from its head on: a *chain*. A layout is *laid out* as `φ`
if `φ a` are the elements of the array `a`, with their cells, and every element belongs to
exactly one array.

Every operation on arrays changes a layout in one of five ways, and keeps it laid out: a new
head (`Laid.add_head`), another value for an element (`Laid.set_value`), a new first element
(`Laid.insert`), an element taken out of its chain (`Laid.unlink`), and a head taken away
with all of its elements (`Laid.drop`).
-/

namespace PoolScript

/-- The cell that each handle leads to. -/
abbrev Layout := Handle → Option Cell

namespace Layout

variable {f g : Layout} {a b h k : Handle} {e : Element} {link : Option Handle}
  {xs ys : List (Handle × Element)}

/-! ### Chains -/

/-- The elements `xs`, with their cells, are those from `link` on. -/
inductive Chain (f : Layout) : Option Handle → List (Handle × Element) → Prop
  | nil : Chain f none []
  | cons {h : Handle} {e : Element} {xs : List (Handle × Element)} :
      f h = some (.element e) → Chain f e.next xs → Chain f (some h) ((h, e) :: xs)

namespace Chain

theorem unique (hx : f.Chain link xs) (hy : f.Chain link ys) : xs = ys := by
  induction hx generalizing ys with
  | nil => cases hy; rfl
  | cons he _ ih =>
    cases hy with
    | cons he' hy =>
      obtain rfl := Cell.element.inj (Option.some.inj (he.symm.trans he'))
      rw [ih hy]

theorem element (hx : f.Chain link xs) (hm : (h, e) ∈ xs) : f h = some (.element e) := by
  induction hx with
  | nil => cases hm
  | cons he _ ih =>
    rcases List.mem_cons.1 hm with hm | hm
    · cases hm; exact he
    · exact ih hm

/-- What comes after the beginning of a chain is a chain. -/
theorem of_append (hx : f.Chain link (xs ++ (h, e) :: ys)) : f.Chain (some h) ((h, e) :: ys) := by
  induction xs generalizing link with
  | nil => cases hx with | cons he hx => exact .cons he hx
  | cons p xs ih => cases hx with | cons _ hx => exact ih hx

theorem nodup (hx : f.Chain link xs) : (xs.map (·.1)).Nodup := by
  induction hx with
  | nil => exact List.nodup_nil
  | @cons h e xs he hx ih =>
    refine List.nodup_cons.2 ⟨fun hm => ?_, ih⟩
    -- A cell that came again would begin the same chain at two places.
    obtain ⟨⟨k, d⟩, hk, hkh⟩ := List.mem_map.1 hm
    obtain rfl : k = h := hkh
    obtain ⟨us, vs, rfl⟩ := List.append_of_mem hk
    have := congrArg List.length ((cons he hx).unique hx.of_append)
    simp at this
    omega

/-- A chain stays one when its elements change, but for their links. -/
theorem map {u : Handle × Element → Element} (hx : f.Chain link xs)
    (hu : ∀ p ∈ xs, g p.1 = some (.element (u p)) ∧ (u p).next = p.2.next) :
    g.Chain link (xs.map fun p => (p.1, u p)) := by
  induction hx with
  | nil => exact .nil
  | cons he _ ih =>
    obtain ⟨hg, hn⟩ := hu _ List.mem_cons_self
    refine .cons hg ?_
    rw [hn]
    exact ih fun p hp => hu p (List.mem_cons_of_mem _ hp)

theorem congr (hx : f.Chain link xs) (hg : ∀ p ∈ xs, g p.1 = f p.1) : g.Chain link xs := by
  have := hx.map (g := g) (u := Prod.snd) fun p hp => ⟨(hg p hp).trans (hx.element hp), rfl⟩
  simpa using this

/-- A link leads to an element. -/
theorem exists_element (hx : f.Chain (some h) xs) : ∃ e, f h = some (.element e) := by
  cases hx with | cons he _ => exact ⟨_, he⟩

theorem next_element (hx : f.Chain link xs) (hm : (h, e) ∈ xs) (hk : e.next = some k) :
    ∃ e', f k = some (.element e') := by
  induction hx with
  | nil => cases hm
  | cons he hx ih =>
    rcases List.mem_cons.1 hm with hm | hm
    · cases hm
      exact exists_element (hk ▸ hx)
    · exact ih hm

/-- Changing the element of a cell changes nothing where that cell is not. -/
theorem map_of_not_mem (u : Element → Element) (hh : h ∉ xs.map (·.1)) :
    (xs.map fun p => (p.1, if p.1 = h then u p.2 else p.2)) = xs := by
  refine (List.map_congr_left fun p hp => ?_).trans (List.map_id xs)
  rw [if_neg fun he => hh (List.mem_map.2 ⟨p, hp, he⟩)]
  rfl

/-- The elements `xs`, with the one in the cell `b` leading to `next`. -/
def relink (b : Handle) (next : Option Handle) (xs : List (Handle × Element)) :
    List (Handle × Element) :=
  xs.map fun p => (p.1, if p.1 = b then { p.2 with next } else p.2)

theorem relink_of_not_mem {next : Option Handle} (hb : b ∉ xs.map (·.1)) :
    relink b next xs = xs :=
  map_of_not_mem (fun e => { e with next }) hb

/-- The elements `xs`, with the one in the cell `h` given the value `v`. -/
def revalue (h : Handle) (v : Value) (xs : List (Handle × Element)) : List (Handle × Element) :=
  xs.map fun p => (p.1, if p.1 = h then { p.2 with value := v } else p.2)

theorem revalue_of_not_mem {v : Value} (hh : h ∉ xs.map (·.1)) : revalue h v xs = xs :=
  map_of_not_mem (fun e => { e with value := v }) hh

/-- An element is taken out of a chain when the cell before it, the one that holds `c`, is
    made to lead to the element after it. -/
theorem unlink {c : Cell} (hx : f.Chain c.next (xs ++ (h, e) :: ys)) (hc : f a = some c)
    (hn : (a :: (xs ++ (h, e) :: ys).map (·.1)).Nodup) (hb : (xs.map (·.1)).getLastD a = b)
    (hgb : ∀ d, f b = some d → g b = some (d.withNext e.next))
    (hg : ∀ k, k ≠ b → k ≠ h → g k = f k) :
    g a = some (if a = b then c.withNext e.next else c) ∧
      g.Chain (if a = b then c.withNext e.next else c).next (relink b e.next (xs ++ ys)) := by
  -- By induction on what comes before the element. The cell that is relinked is the one at the
  -- beginning if nothing does, and one further on otherwise.
  induction xs generalizing a c with
  | nil =>
    obtain rfl : a = b := hb
    rw [if_pos rfl]
    simp only [List.nil_append, List.map_cons, List.nodup_cons, List.mem_cons, not_or] at hn
    refine ⟨hgb c hc, ?_⟩
    have hnext : (c.withNext e.next).next = e.next := by cases c <;> rfl
    rw [List.nil_append, relink_of_not_mem hn.1.2, hnext]
    generalize c.next = link at hx
    cases hx with
    | cons _ hx =>
      exact hx.congr fun p hp => hg _ (fun hpa => hn.1.2 (List.mem_map.2 ⟨p, hp, hpa⟩))
        fun hph => hn.2.1 (List.mem_map.2 ⟨p, hp, hph⟩)
  | cons q xs ih =>
    obtain ⟨k, d⟩ := q
    rw [List.map_cons, List.getLastD_cons] at hb
    simp only [List.cons_append, List.map_cons] at hn
    obtain ⟨hna, hn⟩ := List.nodup_cons.1 hn
    generalize hcn : c.next = link at hx
    cases hx with
    | cons hk hx =>
      obtain ⟨hgk, hgx⟩ := ih (c := .element d) hx hk hn hb
      have hab : a ≠ b := by
        rintro rfl
        have hm : (xs.map (·.1)).getLastD k ∈ k :: xs.map (·.1) := List.getLastD_mem_cons
        rw [hb, List.mem_cons] at hm
        rw [List.map_append, ← List.cons_append] at hna
        exact hna (List.mem_append_left _ (List.mem_cons.2 hm))
      have hah : a ≠ h := by rintro rfl; simp at hna
      rw [if_neg hab, hg a hab hah]
      refine ⟨hc, ?_⟩
      rw [hcn, List.cons_append, relink, List.map_cons]
      by_cases hkb : k = b
      · rw [if_pos hkb] at hgk hgx ⊢
        exact .cons hgk hgx
      · rw [if_neg hkb] at hgk hgx ⊢
        exact .cons hgk hgx

end Chain

/-! ### Layouts -/

/-- `φ a` are the elements of each array `a`, and every element is in one of them. -/
structure Laid (f : Layout) (φ : Handle → List (Handle × Element)) : Prop where
  chain : ∀ {a link}, f a = some (.head link) → f.Chain link (φ a)
  reached : ∀ {h e}, f h = some (.element e) → ∃ a link, f a = some (.head link) ∧ (h, e) ∈ φ a
  disjoint : ∀ {a b la lb h d e}, f a = some (.head la) → f b = some (.head lb) →
    (h, d) ∈ φ a → (h, e) ∈ φ b → a = b

namespace Laid

variable {φ : Handle → List (Handle × Element)}

theorem element (hl : f.Laid φ) (ha : f a = some (.head link)) (hm : (h, e) ∈ φ a) :
    f h = some (.element e) :=
  (hl.chain ha).element hm

theorem ne_of_mem (hl : f.Laid φ) (ha : f a = some (.head link)) (hm : (h, e) ∈ φ a)
    {c : Option Cell} (hc : f k = c) (hne : c ≠ some (.element e)) : h ≠ k := by
  rintro rfl
  exact hne (hc.symm.trans (hl.element ha hm))

/-- Every link leads to an element. -/
theorem next_element (hl : f.Laid φ) {c : Cell} (hc : f h = some c) (hk : c.next = some k) :
    ∃ e, f k = some (.element e) := by
  cases c with
  | head link =>
    obtain rfl : link = some k := hk
    exact (hl.chain hc).exists_element
  | element e =>
    obtain ⟨a, link, ha, hm⟩ := hl.reached hc
    exact (hl.chain ha).next_element hm hk

theorem none : Laid (fun _ => none) φ :=
  ⟨nofun, nofun, nofun⟩

/-- A new head has no elements. -/
theorem add_head (hl : f.Laid φ) (ha : f a = .none) :
    Laid (Function.update f a (some (.head .none))) (Function.update φ a []) := by
  have head {b link} (hb : b ≠ a)
      (h : Function.update f a (some (.head .none)) b = some (.head link)) :
      f b = some (.head link) := by rwa [Function.update_of_ne hb] at h
  refine ⟨fun {b link} hb => ?_, fun {h e} he => ?_, fun {b c lb lc h d e} hb hc hd he => ?_⟩
  · by_cases hba : b = a
    · subst hba
      simp only [Function.update_self, Option.some.injEq, Cell.head.injEq] at hb ⊢
      exact hb ▸ .nil
    · rw [Function.update_of_ne hba]
      refine (hl.chain (head hba hb)).congr fun p hp => Function.update_of_ne ?_ _ _
      exact hl.ne_of_mem (head hba hb) hp ha (by rintro ⟨⟩)
  · have hha : h ≠ a := by rintro rfl; simp at he
    rw [Function.update_of_ne hha] at he
    obtain ⟨b, link, hb, hm⟩ := hl.reached he
    have hba : b ≠ a := by rintro rfl; simp [ha] at hb
    exact ⟨b, link, by rwa [Function.update_of_ne hba], by rwa [Function.update_of_ne hba]⟩
  · by_cases hba : b = a
    · subst hba; simp at hd
    · by_cases hca : c = a
      · subst hca; simp at he
      · rw [Function.update_of_ne hba] at hd
        rw [Function.update_of_ne hca] at he
        exact hl.disjoint (head hba hb) (head hca hc) hd he

/-- Elements may change, but for their links. -/
theorem map (hl : f.Laid φ) {u : Handle × Element → Element}
    (hhead : ∀ a link, g a = some (.head link) ↔ f a = some (.head link))
    (helement : ∀ h e, f h = some (.element e) →
      g h = some (.element (u (h, e))) ∧ (u (h, e)).next = e.next)
    (hback : ∀ h e, g h = some (.element e) → ∃ d, f h = some (.element d)) :
    g.Laid fun a => (φ a).map fun p => (p.1, u p) := by
  refine ⟨fun {a link} ha => ?_, fun {h e} he => ?_, fun {a b la lb h d e} ha hb hd he => ?_⟩
  · rw [hhead] at ha
    exact (hl.chain ha).map fun p hp => helement p.1 p.2 (hl.element ha hp)
  · -- An element that is there was there before, in the same array.
    obtain ⟨d, hd⟩ := hback h e he
    obtain ⟨a, link, ha, hm⟩ := hl.reached hd
    refine ⟨a, link, (hhead a link).2 ha, List.mem_map.2 ⟨(h, d), hm, ?_⟩⟩
    rw [← Cell.element.inj (Option.some.inj (he.symm.trans (helement h d hd).1))]
  · obtain ⟨p, hp, rfl, -⟩ := List.mem_map.1 hd
    obtain ⟨q, hq, hpq⟩ := List.mem_map.1 he
    obtain ⟨hpq, -⟩ := Prod.mk.inj hpq
    exact hl.disjoint ((hhead a la).1 ha) ((hhead b lb).1 hb) (e := q.2) hp (hpq ▸ hq)

/-- An element gets another value. -/
theorem set_value (hl : f.Laid φ) (hh : f h = some (.element e)) (v : Value) :
    Laid (Function.update f h (some (.element { e with value := v })))
      fun a => Chain.revalue h v (φ a) := by
  let u (p : Handle × Element) : Element := if p.1 = h then { p.2 with value := v } else p.2
  refine hl.map (u := u) (fun a link => ?_) (fun k d hk => ?_) fun k d hk => ?_
  · by_cases ha : a = h
    · subst ha; simp [hh]
    · rw [Function.update_of_ne ha]
  · by_cases hkh : k = h
    · subst hkh
      obtain rfl := Cell.element.inj (Option.some.inj (hh.symm.trans hk))
      simp [u]
    · simp only [u, if_neg hkh, Function.update_of_ne hkh, hk, and_self]
  · by_cases hkh : k = h
    · exact ⟨e, hkh ▸ hh⟩
    · exact ⟨d, by rwa [Function.update_of_ne hkh] at hk⟩

/-- A new element comes first. -/
theorem insert (hl : f.Laid φ) (ha : f a = some (.head link)) (hh : f h = .none)
    (key value : Value) :
    Laid (Function.update (Function.update f h (some (.element ⟨key, value, link⟩))) a
      (some (.head (some h)))) (Function.update φ a ((h, ⟨key, value, link⟩) :: φ a)) := by
  set g := Function.update (Function.update f h (some (.element ⟨key, value, link⟩))) a
    (some (.head (some h))) with hg
  have hne : h ≠ a := by rintro rfl; simp [ha] at hh
  have ga : g a = some (.head (some h)) := Function.update_self ..
  have gh : g h = some (.element ⟨key, value, link⟩) := by
    rw [hg, Function.update_of_ne hne, Function.update_self]
  have gk {k} (hka : k ≠ a) (hkh : k ≠ h) : g k = f k := by
    rw [hg, Function.update_of_ne hka, Function.update_of_ne hkh]
  have head {b l} (hb : g b = some (.head l)) : ∃ l, f b = some (.head l) := by
    by_cases hba : b = a
    · exact ⟨link, hba ▸ ha⟩
    · have hbh : b ≠ h := by rintro rfl; simp [gh] at hb
      exact ⟨l, by rwa [gk hba hbh] at hb⟩
  -- The new cell is in no chain, since nothing was there.
  have keep {b l} (hb : f b = some (.head l)) : ∀ p ∈ φ b, g p.1 = f p.1 := fun p hp =>
    gk (hl.ne_of_mem hb hp ha (by rintro ⟨⟩)) (hl.ne_of_mem hb hp hh (by rintro ⟨⟩))
  refine ⟨fun {b l} hb => ?_, fun {k e} he => ?_, fun {b c lb lc k d e} hb hc hd he => ?_⟩
  · by_cases hba : b = a
    · subst hba
      obtain rfl := Cell.head.inj (Option.some.inj (ga.symm.trans hb))
      rw [Function.update_self]
      exact .cons gh ((hl.chain ha).congr (keep ha))
    · have hbh : b ≠ h := by rintro rfl; simp [gh] at hb
      rw [gk hba hbh] at hb
      rw [Function.update_of_ne hba]
      exact (hl.chain hb).congr (keep hb)
  · by_cases hkh : k = h
    · subst hkh
      obtain rfl := Cell.element.inj (Option.some.inj (gh.symm.trans he))
      exact ⟨a, _, ga, by simp⟩
    · have hka : k ≠ a := by rintro rfl; simp [ga] at he
      rw [gk hka hkh] at he
      obtain ⟨b, l, hb, hm⟩ := hl.reached he
      by_cases hba : b = a
      · subst hba
        exact ⟨b, _, ga, by rw [Function.update_self]; exact List.mem_cons_of_mem _ hm⟩
      · have hbh : b ≠ h := by rintro rfl; simp [hh] at hb
        exact ⟨b, l, by rwa [gk hba hbh], by rwa [Function.update_of_ne hba]⟩
  · -- In the chain of `b` is either the new cell, if `b` is `a`, or a cell that was there.
    have old {b l k d} (hb : g b = some (.head l))
        (hd : (k, d) ∈ Function.update φ a ((h, ⟨key, value, link⟩) :: φ a) b) :
        k = h ∧ b = a ∨ (k, d) ∈ φ b := by
      by_cases hba : b = a
      · subst hba
        rw [Function.update_self, List.mem_cons] at hd
        exact hd.imp_left fun hd => ⟨(Prod.mk.inj hd).1, rfl⟩
      · rw [Function.update_of_ne hba] at hd
        exact .inr hd
    obtain ⟨lb', hb'⟩ := head hb
    obtain ⟨lc', hc'⟩ := head hc
    rcases old hb hd with ⟨rfl, rfl⟩ | hd <;> rcases old hc he with ⟨hkh, hca⟩ | he
    · exact hca.symm
    · exact absurd rfl (hl.ne_of_mem hc' he hh (by rintro ⟨⟩))
    · exact absurd hkh (hl.ne_of_mem hb' hd hh (by rintro ⟨⟩))
    · exact hl.disjoint hb' hc' hd he

/-- The handles of an array and of its elements are all different. -/
theorem nodup (hl : f.Laid φ) (ha : f a = some (.head link)) :
    (a :: (φ a).map (·.1)).Nodup := by
  refine List.nodup_cons.2 ⟨fun hm => ?_, (hl.chain ha).nodup⟩
  obtain ⟨p, hp, rfl⟩ := List.mem_map.1 hm
  simp [hl.element ha hp] at ha

/-- What leads to an element of an array is not the element itself. -/
theorem before_ne (hl : f.Laid φ) (ha : f a = some (.head link)) (hx : φ a = xs ++ (h, e) :: ys)
    (hb : (xs.map (·.1)).getLastD a = b) : b ≠ h := by
  have hn := hl.nodup ha
  have hbm : b ∈ a :: xs.map (·.1) := hb ▸ List.getLastD_mem_cons
  rw [hx, List.map_append, List.map_cons, ← List.cons_append, List.nodup_append] at hn
  exact hn.2.2 _ hbm _ List.mem_cons_self

end Laid

/-- The layout `g` is `f` after the element of `h` was taken out of the array `a`. The cell of
    `b` is the one before it, and leads on to the element after it. -/
structure Unlinked (f g : Layout) (φ : Handle → List (Handle × Element)) (a b h : Handle)
    (link : Option Handle) (c : Cell) (e : Element) (xs ys : List (Handle × Element)) : Prop where
  laid : f.Laid φ
  head : f a = some (.head link)
  elements : φ a = xs ++ (h, e) :: ys
  last : (xs.map (·.1)).getLastD a = b
  before : f b = some c
  relinked : g b = some (c.withNext e.next)
  gone : g h = .none
  rest : ∀ {k}, k ≠ b → k ≠ h → g k = f k

namespace Unlinked

variable {φ : Handle → List (Handle × Element)} {c : Cell} {d d' : Element} {i j : Handle}
  {li lj : Option Handle}

theorem mem (u : Unlinked f g φ a b h link c e xs ys) : (h, e) ∈ φ a := by
  simp [u.elements]

theorem before_mem (u : Unlinked f g φ a b h link c e xs ys) : b = a ∨ ∃ d, (b, d) ∈ φ a := by
  have hbm : b ∈ a :: xs.map (·.1) := u.last ▸ List.getLastD_mem_cons
  refine (List.mem_cons.1 hbm).imp_right ?_
  intro hm
  obtain ⟨p, hp, rfl⟩ := List.mem_map.1 hm
  exact ⟨p.2, u.elements ▸ List.mem_append_left _ hp⟩

theorem ne_of_cell (u : Unlinked f g φ a b h link c e xs ys) {c' : Cell} (hk : g k = some c') :
    k ≠ h := by
  rintro rfl
  cases u.gone.symm.trans hk

theorem mem_of_ne (u : Unlinked f g φ a b h link c e xs ys) (hm : (k, d) ∈ φ a) (hkh : k ≠ h) :
    (k, d) ∈ xs ++ ys := by
  rw [u.elements, List.mem_append, List.mem_cons] at hm
  refine List.mem_append.2 (hm.imp_right fun hm => hm.resolve_left ?_)
  exact fun hkd => hkh (Prod.mk.inj hkd).1

/-- Nothing changes in other arrays. -/
theorem away (u : Unlinked f g φ a b h link c e xs ys) (hi : f i = some (.head li)) (hia : i ≠ a)
    (hm : (k, d) ∈ φ i) : k ≠ b ∧ k ≠ h := by
  constructor
  · rintro rfl
    rcases u.before_mem with rfl | ⟨d', hd'⟩
    · cases (u.laid.element hi hm).symm.trans u.head
    · exact hia (u.laid.disjoint hi u.head hm hd')
  · rintro rfl
    exact hia (u.laid.disjoint hi u.head hm u.mem)

/-- The other heads were there before. -/
theorem head_of_ne (u : Unlinked f g φ a b h link c e xs ys) (hi : g i = some (.head li))
    (hia : i ≠ a) : f i = some (.head li) := by
  by_cases hib : i = b
  · subst hib
    rcases u.before_mem with rfl | ⟨d, hd⟩
    · exact absurd rfl hia
    · obtain rfl := Option.some.inj (u.before.symm.trans (u.laid.element u.head hd))
      cases u.relinked.symm.trans hi
  · rwa [u.rest hib (u.ne_of_cell hi)] at hi

/-- What is left of the array is its chain without the element. -/
theorem array (u : Unlinked f g φ a b h link c e xs ys) :
    ∃ l, g a = some (.head l) ∧ g.Chain l (Chain.relink b e.next (xs ++ ys)) := by
  obtain ⟨ga, hga⟩ := Chain.unlink (c := .head link) (u.elements ▸ u.laid.chain u.head) u.head
    (u.elements ▸ u.laid.nodup u.head) u.last
    (fun d hd => Option.some.inj (u.before.symm.trans hd) ▸ u.relinked)
    fun k hkb hkh => u.rest hkb hkh
  split at ga
  · next hab =>
    rw [if_pos hab] at hga
    exact ⟨_, ga, hga⟩
  · next hab =>
    rw [if_neg hab] at hga
    exact ⟨_, ga, hga⟩

theorem chain (u : Unlinked f g φ a b h link c e xs ys) (hi : g i = some (.head li)) :
    g.Chain li (Function.update φ a (Chain.relink b e.next (xs ++ ys)) i) := by
  by_cases hia : i = a
  · subst hia
    obtain ⟨l, gi, hx⟩ := u.array
    obtain rfl := Cell.head.inj (Option.some.inj (gi.symm.trans hi))
    rwa [Function.update_self]
  · rw [Function.update_of_ne hia]
    have hi' := u.head_of_ne hi hia
    refine (u.laid.chain hi').congr ?_
    intro p hp
    obtain ⟨hpb, hph⟩ := u.away hi' hia hp
    exact u.rest hpb hph

theorem reached (u : Unlinked f g φ a b h link c e xs ys) (hk : g k = some (.element d)) :
    ∃ i li, g i = some (.head li) ∧
      (k, d) ∈ Function.update φ a (Chain.relink b e.next (xs ++ ys)) i := by
  obtain ⟨l, ga, -⟩ := u.array
  have hkh := u.ne_of_cell hk
  by_cases hkb : k = b
  · subst hkb
    -- The cell before is an element of the array, since it is not the head.
    rcases u.before_mem with rfl | ⟨d', hd'⟩
    · cases ga.symm.trans hk
    · refine ⟨a, l, ga, ?_⟩
      obtain rfl := Option.some.inj (u.before.symm.trans (u.laid.element u.head hd'))
      obtain rfl := Cell.element.inj (Option.some.inj (u.relinked.symm.trans hk))
      rw [Function.update_self]
      exact List.mem_map.2 ⟨_, u.mem_of_ne hd' hkh, by simp⟩
  · rw [u.rest hkb hkh] at hk
    obtain ⟨i, li, hi, hm⟩ := u.laid.reached hk
    by_cases hia : i = a
    · subst hia
      refine ⟨i, l, ga, ?_⟩
      rw [Function.update_self]
      exact List.mem_map.2 ⟨_, u.mem_of_ne hm hkh, by simp [hkb]⟩
    · refine ⟨i, li, ?_, by rwa [Function.update_of_ne hia]⟩
      refine (u.rest ?_ ?_).trans hi
      · rintro rfl
        rcases u.before_mem with rfl | ⟨d', hd'⟩
        · exact hia rfl
        · cases hi.symm.trans (u.laid.element u.head hd')
      · rintro rfl
        cases hi.symm.trans (u.laid.element u.head u.mem)

/-- An element that is left was in the same array before. -/
theorem mem_before (u : Unlinked f g φ a b h link c e xs ys) (hi : g i = some (.head li))
    (hd : (k, d) ∈ Function.update φ a (Chain.relink b e.next (xs ++ ys)) i) :
    ∃ l d', f i = some (.head l) ∧ (k, d') ∈ φ i := by
  by_cases hia : i = a
  · subst hia
    rw [Function.update_self] at hd
    obtain ⟨p, hp, hpk⟩ := List.mem_map.1 hd
    refine ⟨link, p.2, u.head, ?_⟩
    rw [u.elements, List.mem_append, List.mem_cons, ← (Prod.mk.inj hpk).1]
    exact (List.mem_append.1 hp).imp_right .inr
  · rw [Function.update_of_ne hia] at hd
    exact ⟨li, d, u.head_of_ne hi hia, hd⟩

theorem disjoint (u : Unlinked f g φ a b h link c e xs ys) (hi : g i = some (.head li))
    (hj : g j = some (.head lj))
    (hd : (k, d) ∈ Function.update φ a (Chain.relink b e.next (xs ++ ys)) i)
    (hd' : (k, d') ∈ Function.update φ a (Chain.relink b e.next (xs ++ ys)) j) : i = j := by
  obtain ⟨_, _, hi, hd⟩ := u.mem_before hi hd
  obtain ⟨_, _, hj, hd'⟩ := u.mem_before hj hd'
  exact u.laid.disjoint hi hj hd hd'

end Unlinked

namespace Laid

variable {φ : Handle → List (Handle × Element)}

theorem unlinked (hl : f.Laid φ) (ha : f a = some (.head link)) (hx : φ a = xs ++ (h, e) :: ys)
    (hb : (xs.map (·.1)).getLastD a = b) {c : Cell} (hc : f b = some c) :
    Unlinked f (Function.update (Function.update f b (some (c.withNext e.next))) h .none)
      φ a b h link c e xs ys where
  laid := hl
  head := ha
  elements := hx
  last := hb
  before := hc
  relinked := by rw [Function.update_of_ne (hl.before_ne ha hx hb), Function.update_self]
  gone := Function.update_self ..
  rest hkb hkh := by rw [Function.update_of_ne hkh, Function.update_of_ne hkb]

/-- An element is taken out of its array. -/
theorem unlink (hl : f.Laid φ) (ha : f a = some (.head link)) (hx : φ a = xs ++ (h, e) :: ys)
    (hb : (xs.map (·.1)).getLastD a = b) {c : Cell} (hc : f b = some c) :
    Laid (Function.update (Function.update f b (some (c.withNext e.next))) h .none)
      (Function.update φ a (Chain.relink b e.next (xs ++ ys))) :=
  let u := hl.unlinked ha hx hb hc
  ⟨u.chain, u.reached, u.disjoint⟩

/-- A head is taken away with all of its elements. -/
theorem drop (hl : f.Laid φ) (ha : f a = some (.head link))
    (hg : ∀ k, g k = if k = a ∨ k ∈ (φ a).map (·.1) then .none else f k) : g.Laid φ := by
  have sub {k c} (hk : g k = some c) : f k = some c ∧ k ≠ a := by
    rw [hg] at hk
    split at hk
    · cases hk
    · next hn => exact ⟨hk, fun h => hn (.inl h)⟩
  have keep {b l} (hb : f b = some (.head l)) (hba : b ≠ a) : ∀ p ∈ φ b, g p.1 = f p.1 := by
    intro p hp
    rw [hg, if_neg]
    rintro (hpa | hm)
    · exact hl.ne_of_mem hb hp ha (by rintro ⟨⟩) hpa
    · obtain ⟨q, hq, hqp⟩ := List.mem_map.1 hm
      exact hba (hl.disjoint hb ha hp (e := q.2) (hqp ▸ hq))
  refine ⟨fun hb => ?_, fun he => ?_, fun hb hc hd he => ?_⟩
  · obtain ⟨hb, hba⟩ := sub hb
    exact (hl.chain hb).congr (keep hb hba)
  · obtain ⟨hf, -⟩ := sub he
    obtain ⟨b, l, hb, hm⟩ := hl.reached hf
    refine ⟨b, l, ?_, hm⟩
    by_cases hba : b = a
    · subst hba
      rw [hg, if_pos (.inr (List.mem_map.2 ⟨_, hm, rfl⟩))] at he
      cases he
    · rw [hg, if_neg, hb]
      rintro (h | hm')
      · exact hba h
      · obtain ⟨q, hq, rfl⟩ := List.mem_map.1 hm'
        simp [hl.element ha hq] at hb
  · exact hl.disjoint (sub hb).1 (sub hc).1 hd he

end Laid

end Layout

end PoolScript
