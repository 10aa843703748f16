import PoolScript.Proofs.Heap.Evolution
import PoolScript.Proofs.Heap.Outcome

/-!
# The order of elements

New elements come to the front of an array, and no element ever changes its place among the
others. So whatever is done with a heap, the elements of an array that is still there afterwards
are those that were there before and have not been taken away, in the order that they had, behind
new ones (`Heap.Becomes.elements_eq`).

While something is done with a heap it need not be laid out. What is kept all the time is weaker:
the elements that an array ever had are lined up in a list, where links lead only backward, and no
link leads into the list from elsewhere (`Layout.Ordered`). A link that leads nowhere does so until
its slot has been vacated as often as there are generations.
-/

namespace PoolScript

namespace Layout

variable {f g : Layout} {gone gone' : Handle → Prop} {a b h k : Handle} {c d : Cell} {e : Element}
  {link : Option Handle} {hs : List Handle} {xs : List (Handle × Element)}
  {φ : Handle → List (Handle × Element)}

/-! ### Links of a chain -/

/-- A chain begins with its first element. -/
theorem Chain.link_eq {ys : List (Handle × Element)} (hx : f.Chain link xs)
    (hxs : xs = ys) : link = (ys.map (·.1)).head? := by
  subst hxs
  cases hx <;> rfl

/-- An element of a chain leads to the one after it. -/
theorem Chain.next_eq {ys zs : List (Handle × Element)} (hx : f.Chain link (ys ++ (h, e) :: zs)) :
    e.next = (zs.map (·.1)).head? := by
  cases hx.of_append with
  | cons _ hz => exact hz.link_eq rfl

/-! ### Cells in order -/

/-- The cells `hs` are lined up behind the head `a`: a link from one of them to a live cell leads
    to one further behind, and no link leads to them from elsewhere. Links that lead nowhere, and
    those of the cells that are no longer there, are `gone`. -/
structure Ordered (gone : Handle → Prop) (f : Layout) (a : Handle) (hs : List Handle) : Prop where
  nodup : (a :: hs).Nodup
  known : ∀ h ∈ a :: hs, (f h).isSome ∨ gone h
  links : ∀ {b c k}, f b = some c → c.next = some k → (f k).isSome ∨ gone k
  behind : ∀ {b c k}, f b = some c → c.next = some k → (f k).isSome →
    ∀ us vs, a :: hs = us ++ b :: vs → k ∈ vs
  apart : ∀ {b c k}, f b = some c → c.next = some k → (f k).isSome → b ∉ a :: hs → k ∉ a :: hs
  heads : ∀ {b link}, f b = some (.head link) → b ∉ hs

namespace Ordered

/-- The cells of an array that is laid out are in order. -/
theorem of_laid (hl : f.Laid φ) (ha : f a = some (.head link)) :
    Ordered (fun _ => False) f a ((φ a).map (·.1)) := by
  have head {b l} (hb : f b = some (.head l)) : b ∉ (φ a).map (·.1) := by
    intro hm
    obtain ⟨⟨k, e⟩, hke, rfl⟩ := List.mem_map.1 hm
    cases hb.symm.trans (hl.element ha hke)
  have live {b} (hb : b ∈ (φ a).map (·.1)) : ∃ e, f b = some (.element e) ∧ (b, e) ∈ φ a := by
    obtain ⟨⟨k, e⟩, hke, rfl⟩ := List.mem_map.1 hb
    exact ⟨e, hl.element ha hke, hke⟩
  refine ⟨List.nodup_cons.2 ⟨head ha, (hl.chain ha).nodup⟩, ?_, ?_, ?_, ?_, head⟩
  · intro h hm
    rcases List.mem_cons.1 hm with rfl | hm
    · exact .inl (ha ▸ rfl)
    · obtain ⟨e, he, -⟩ := live hm
      exact .inl (he ▸ rfl)
  · intro b c k hb hk
    obtain ⟨e, he⟩ := hl.next_element hb hk
    exact .inl (he ▸ rfl)
  · intro b c k hb hk _ us vs hsplit
    rcases us with _ | ⟨u, us⟩
    · obtain ⟨rfl, rfl⟩ := List.cons.inj hsplit
      obtain rfl := Option.some.inj (hb.symm.trans ha)
      have hlink : link = ((φ a).map (·.1)).head? := (hl.chain ha).link_eq rfl
      exact List.mem_of_mem_head? (hlink.symm.trans hk)
    · -- The link leads to the element that comes next in the chain.
      obtain ⟨-, hsplit⟩ := List.cons.inj hsplit
      obtain ⟨ys, zs, hyz, -, hzs⟩ := List.map_eq_append_iff.1 hsplit
      obtain ⟨⟨h, e⟩, zs, rfl, rfl, rfl⟩ := List.map_eq_cons_iff.1 hzs
      have hx := hl.chain ha
      rw [hyz] at hx
      have he : f h = some (.element e) := hx.element (List.mem_append_right _ List.mem_cons_self)
      obtain rfl := Option.some.inj (hb.symm.trans he)
      exact List.mem_of_mem_head? (hx.next_eq.symm.trans hk)
  · intro b c k hb hk _ hnot hm
    -- The link leads to an element of the array that the cell belongs to.
    obtain ⟨d, hd⟩ := hl.next_element hb hk
    have hka : ∃ d, (k, d) ∈ φ a := by
      rcases List.mem_cons.1 hm with rfl | hm
      · cases ha.symm.trans hd
      · obtain ⟨e, -, hm⟩ := live hm
        exact ⟨e, hm⟩
    obtain ⟨d', hka⟩ := hka
    cases c with
    | head l =>
      have hx := hl.chain hb
      obtain rfl : l = some k := hk
      generalize hφ : φ b = ys at hx
      cases hx with
      | @cons _ e zs he _ =>
        obtain rfl := hl.disjoint hb ha (hφ ▸ List.mem_cons_self) hka
        exact hnot List.mem_cons_self
    | element e =>
      obtain ⟨b', l, hb', hm'⟩ := hl.reached hb
      obtain ⟨ys, zs, hyz⟩ := List.append_of_mem hm'
      have hx := hl.chain hb'
      rw [hyz] at hx
      have hkz : k ∈ zs.map (·.1) := List.mem_of_mem_head? (hx.next_eq.symm.trans hk)
      obtain ⟨⟨k, d''⟩, hkd, rfl⟩ := List.mem_map.1 hkz
      have hkb : (k, d'') ∈ φ b' := by
        rw [hyz]
        exact List.mem_append_right _ (List.mem_cons_of_mem _ hkd)
      obtain rfl := hl.disjoint hb' ha hkb hka
      exact hnot (List.mem_cons_of_mem _ (List.mem_map.2 ⟨_, hm', rfl⟩))

/-- Order is kept when cells are taken away. -/
theorem thinned (ho : Ordered gone f a hs) (hg : ∀ h c, g h = some c → f h = some c)
    (hgone : ∀ h, (f h).isSome → (g h).isSome ∨ gone' h) (hmono : ∀ h, gone h → gone' h) :
    Ordered gone' g a hs := by
  have live {h} (hl : (g h).isSome) : (f h).isSome := by
    obtain ⟨c, hc⟩ := Option.isSome_iff_exists.1 hl
    rw [hg h c hc]
    rfl
  refine ⟨ho.nodup, ?_, ?_, ?_, ?_, fun hb => ho.heads (hg _ _ hb)⟩
  · exact fun h hm => (ho.known h hm).elim (hgone h) fun h' => .inr (hmono h h')
  · exact fun hb hk => (ho.links (hg _ _ hb) hk).elim (hgone _) fun h' => .inr (hmono _ h')
  · exact fun hb hk hl => ho.behind (hg _ _ hb) hk (live hl)
  · exact fun hb hk hl => ho.apart (hg _ _ hb) hk (live hl)

/-! ### Writing cells -/

/-- What leads somewhere still does when one cell is changed. -/
theorem live_update (hj : (f k).isSome) : (Function.update f h (some c) k).isSome := by
  by_cases hkh : k = h
  · rw [hkh, Function.update_self]
    rfl
  · rwa [Function.update_of_ne hkh]

/-- What is found after a change is what was written, or what was there. -/
theorem update_cases (hb : Function.update f h (some c) b = some d) :
    b = h ∧ d = c ∨ f b = some d := by
  by_cases hbh : b = h
  · subst hbh
    rw [Function.update_self] at hb
    exact .inl ⟨rfl, (Option.some.inj hb).symm⟩
  · rw [Function.update_of_ne hbh] at hb
    exact .inr hb

/-- What a link leads to was there before, since it does not lead to a cell that is used anew. -/
theorem live_of_update (hnew : f h = none → ¬gone h) (hk : (f k).isSome ∨ gone k)
    (hl : (Function.update f h (some c) k).isSome) : (f k).isSome := by
  by_cases hkh : k = h
  · subst hkh
    cases hf : f k with
    | some => rfl
    | none =>
      rw [hf] at hk
      exact absurd (hk.resolve_left Bool.noConfusion) (hnew hf)
  · rwa [Function.update_of_ne hkh] at hl

/-- Order is kept when the cell `k` is written or used anew, if its link leads backward. -/
theorem update (ho : Ordered gone f a hs) (hnew : f k = none → ¬gone k)
    (hhead : ∀ l, c = .head l → k ∉ hs)
    (hlink : ∀ j, c.next = some j → (f j).isSome ∨ gone j)
    (hbehind : ∀ j, c.next = some j → (f j).isSome → ∀ us vs, a :: hs = us ++ k :: vs → j ∈ vs)
    (hapart : ∀ j, c.next = some j → (f j).isSome → k ∉ a :: hs → j ∉ a :: hs) :
    Ordered gone (Function.update f k (some c)) a hs := by
  refine ⟨ho.nodup, fun j hm => (ho.known j hm).imp_left live_update, ?_, ?_, ?_, ?_⟩
  · intro b d j hb hj
    rcases update_cases hb with ⟨rfl, rfl⟩ | hb
    · exact (hlink j hj).imp_left live_update
    · exact (ho.links hb hj).imp_left live_update
  · intro b d j hb hj hl
    rcases update_cases hb with ⟨rfl, rfl⟩ | hb
    · exact hbehind j hj (live_of_update hnew (hlink j hj) hl)
    · exact ho.behind hb hj (live_of_update hnew (ho.links hb hj) hl)
  · intro b d j hb hj hl
    rcases update_cases hb with ⟨rfl, rfl⟩ | hb
    · exact hapart j hj (live_of_update hnew (hlink j hj) hl)
    · exact ho.apart hb hj (live_of_update hnew (ho.links hb hj) hl)
  · intro b l hb
    rcases update_cases hb with ⟨rfl, hc⟩ | hb
    · exact hhead l hc.symm
    · exact ho.heads hb

/-- A cell keeps the order when its link is left alone. -/
theorem keep_link (ho : Ordered gone f a hs) (hk : f k = some d)
    (hhead : ∀ l, c = .head l → ∃ l, d = .head l)
    (hnext : c.next = d.next) : Ordered gone (Function.update f k (some c)) a hs := by
  refine ho.update (fun hn => ?_) ?_ ?_ ?_ ?_
  · cases hn.symm.trans hk
  · intro l hc
    obtain ⟨l, rfl⟩ := hhead l hc
    exact ho.heads hk
  · exact fun j hj => ho.links hk (hnext.symm.trans hj)
  · exact fun j hj => ho.behind hk (hnext.symm.trans hj)
  · exact fun j hj => ho.apart hk (hnext.symm.trans hj)

/-- Order is kept when the link of a cell skips the one that it led to. -/
theorem skip_link (ho : Ordered gone f a hs) (hk : f k = some d) (hh : d.next = some h)
    (he : f h = some (.element e)) :
    Ordered gone (Function.update f k (some (d.withNext e.next))) a hs := by
  have hnext : (d.withNext e.next).next = e.next := by cases d <;> rfl
  refine ho.update (fun hn => ?_) ?_ ?_ ?_ ?_
  · cases hn.symm.trans hk
  · intro l hc
    cases d with
    | head => exact ho.heads hk
    | element => cases hc
  · exact fun j hj => ho.links he (hnext.symm.trans hj)
  · intro j hj hl us vs hsplit
    have hm : h ∈ vs := ho.behind hk hh (he ▸ rfl) us vs hsplit
    obtain ⟨ps, qs, rfl⟩ := List.append_of_mem hm
    have hjq : j ∈ qs :=
      ho.behind he (hnext.symm.trans hj) hl (us ++ k :: ps) qs (by simp [hsplit])
    exact List.mem_append_right _ (List.mem_cons_of_mem _ hjq)
  · intro j hj hl hnot
    exact ho.apart he (hnext.symm.trans hj) hl (ho.apart hk hh (he ▸ rfl) hnot)

/-! ### New cells -/

/-- A new handle is in no order yet. -/
theorem not_mem_of_fresh (ho : Ordered gone f a hs) (hh : f h = none) (hnew : ¬gone h) :
    h ∉ a :: hs := by
  intro hm
  rcases ho.known h hm with hl | hg
  · rw [hh] at hl
    cases hl
  · exact hnew hg

/-- A new array leaves the order of another one. -/
theorem add_head (ho : Ordered gone f a hs) (hh : f h = none) (hnew : ¬gone h) :
    Ordered gone (Function.update f h (some (.head none))) a hs := by
  refine ho.update (fun _ => hnew) ?_ ?_ ?_ ?_
  · exact fun _ _ hm => ho.not_mem_of_fresh hh hnew (List.mem_cons_of_mem _ hm)
  all_goals rintro j ⟨⟩

/-- A new cell that leads to where the head of another array leads to. -/
theorem add_apart (ho : Ordered gone f a hs) (hb : f b = some (.head e.next)) (hba : b ≠ a)
    (hh : f h = none) (hnew : ¬gone h) :
    Ordered gone (Function.update f h (some (.element e))) a hs := by
  have hfresh := ho.not_mem_of_fresh hh hnew
  refine ho.update (fun _ => hnew) ?_ ?_ ?_ ?_
  · rintro l ⟨⟩
  · exact fun j hj => ho.links hb hj
  · intro j hj hl us vs hsplit
    exact absurd (hsplit ▸ List.mem_append_right _ List.mem_cons_self) hfresh
  · intro j hj hl _
    exact ho.apart hb hj hl fun hm => (List.mem_cons.1 hm).elim hba (ho.heads hb)

/-- A new cell that leads to where the head `a` leads to comes before the others. -/
theorem add_first (ho : Ordered gone f a hs) (ha : f a = some (.head e.next)) (hh : f h = none)
    (hnew : ¬gone h) : Ordered gone (Function.update f h (some (.element e))) a (h :: hs) := by
  have hfresh := ho.not_mem_of_fresh hh hnew
  obtain ⟨hha, hhs⟩ := not_or.1 (mt List.mem_cons.2 hfresh)
  obtain ⟨has, hnodup⟩ := List.nodup_cons.1 ho.nodup
  have hnodup' : (a :: h :: hs).Nodup :=
    List.nodup_cons.2 ⟨fun hm => (List.mem_cons.1 hm).elim (Ne.symm hha) has,
      List.nodup_cons.2 ⟨hhs, hnodup⟩⟩
  refine ⟨hnodup', ?_, ?_, ?_, ?_, ?_⟩
  · intro k hm
    by_cases hkh : k = h
    · rw [hkh, Function.update_self]
      exact .inl rfl
    · refine (ho.known k ?_).imp_left live_update
      simpa [hkh] using hm
  · intro b d j hb hj
    rcases update_cases hb with ⟨rfl, rfl⟩ | hb
    · exact (ho.links ha hj).imp_left live_update
    · exact (ho.links hb hj).imp_left live_update
  · intro b d j hb hj hl us vs hsplit
    -- Where a cell stands in the longer list: at its head, in the new place, or further behind.
    have hcases : b = a ∧ vs = h :: hs ∨ b = h ∧ vs = hs ∨ ∃ ws, hs = ws ++ b :: vs := by
      rcases us with _ | ⟨u, _ | ⟨u', us⟩⟩
      · obtain ⟨rfl, rfl⟩ := List.cons.inj hsplit
        exact .inl ⟨rfl, rfl⟩
      · obtain ⟨rfl, rfl⟩ := List.cons.inj (List.cons.inj hsplit).2
        exact .inr (.inl ⟨rfl, rfl⟩)
      · exact .inr (.inr ⟨us, (List.cons.inj (List.cons.inj hsplit).2).2⟩)
    rcases update_cases hb with ⟨rfl, rfl⟩ | hfb
    · -- The new cell leads to where the head led to.
      have hlj := live_of_update (fun _ => hnew) (ho.links ha hj) hl
      rcases hcases with ⟨rfl, -⟩ | ⟨-, rfl⟩ | ⟨ws, rfl⟩
      · exact absurd rfl hha
      · exact ho.behind ha hj hlj [] vs rfl
      · exact absurd (List.mem_append_right _ List.mem_cons_self) hhs
    · have hlj := live_of_update (fun _ => hnew) (ho.links hfb hj) hl
      rcases hcases with ⟨rfl, rfl⟩ | ⟨rfl, -⟩ | ⟨ws, rfl⟩
      · exact List.mem_cons_of_mem _ (ho.behind hfb hj hlj [] hs rfl)
      · cases hh.symm.trans hfb
      · exact ho.behind hfb hj hlj (a :: ws) vs rfl
  · intro b d j hb hj hl hnot
    rcases update_cases hb with ⟨rfl, rfl⟩ | hfb
    · exact absurd (List.mem_cons_of_mem _ List.mem_cons_self) hnot
    · have hlj := live_of_update (fun _ => hnew) (ho.links hfb hj) hl
      -- What leads to the new cell is the head alone, and that one is in the list.
      have hjh : j ≠ h := by
        rintro rfl
        rw [hh] at hlj
        cases hlj
      have hbs : b ∉ a :: hs := fun hm => hnot (by simp only [List.mem_cons] at hm ⊢; tauto)
      have hjs := ho.apart hfb hj hlj hbs
      simp only [List.mem_cons, not_or] at hjs ⊢
      exact ⟨hjs.1, hjh, hjs.2⟩
  · intro b l hb
    rcases update_cases hb with ⟨-, hc⟩ | hfb
    · cases hc
    · intro hm
      rcases List.mem_cons.1 hm with rfl | hm
      · cases hh.symm.trans hfb
      · exact ho.heads hfb hm

/-- The head of an array may lead to another cell. -/
theorem relink_head (ho : Ordered gone f a hs) (hb : f b = some (.head link))
    (hh : (f h).isSome) (hself : b = a → h ∈ hs) (hother : b ≠ a → h ∉ a :: hs) :
    Ordered gone (Function.update f b (some (.head (some h)))) a hs := by
  refine ho.update (fun hn => ?_) ?_ ?_ ?_ ?_
  · cases hn.symm.trans hb
  · exact fun _ _ => ho.heads hb
  · rintro j ⟨⟩
    exact .inl hh
  · rintro j ⟨⟩ _ us vs hsplit
    -- The head is in front of the cells that are lined up, and nowhere else.
    rcases us with _ | ⟨u, us⟩
    · obtain ⟨rfl, rfl⟩ := List.cons.inj hsplit
      exact hself rfl
    · obtain ⟨-, rfl⟩ := List.cons.inj hsplit
      exact absurd (List.mem_append_right _ List.mem_cons_self) (ho.heads hb)
  · rintro j ⟨⟩ _ hnot
    exact hother fun hba => hnot (hba ▸ List.mem_cons_self)

/-! ### What is still there -/

/-- A chain that is entered behind some cell of the order lies behind that cell, in the same order.
    -/
theorem chain_sublist (ho : Ordered gone f a hs) (hx : f.Chain link xs) (hb : f b = some c)
    (hc : c.next = link) {us vs : List Handle} (hsplit : a :: hs = us ++ b :: vs) :
    (xs.map (·.1)).Sublist vs := by
  induction hx generalizing b c us vs with
  | nil => exact List.nil_sublist _
  | @cons h e xs he hx ih =>
    have hm : h ∈ vs := ho.behind hb hc (he ▸ rfl) us vs hsplit
    obtain ⟨ps, qs, rfl⟩ := List.append_of_mem hm
    have hsplit' : a :: hs = (us ++ b :: ps) ++ h :: qs := by
      rw [hsplit, List.append_assoc, List.cons_append]
    have hxs : (xs.map (·.1)).Sublist qs := ih he rfl hsplit'
    exact (hxs.cons_cons h).trans (List.sublist_append_right ..)

/-- A chain that is entered from elsewhere stays outside of the order. -/
theorem chain_apart (ho : Ordered gone f a hs) (hx : f.Chain link xs) (hb : f b = some c)
    (hc : c.next = link) (hnot : b ∉ a :: hs) : ∀ p ∈ xs, p.1 ∉ a :: hs := by
  induction hx generalizing b c with
  | nil => exact fun p hp => absurd hp List.not_mem_nil
  | @cons h e xs he hx ih =>
    have hh : h ∉ a :: hs := ho.apart hb hc (he ▸ rfl) hnot
    intro p hp
    rcases List.mem_cons.1 hp with rfl | hp
    · exact hh
    · exact ih he rfl hh p hp

/-- The elements that an array has are those of the cells in order that are still there. -/
theorem elements_eq (ho : Ordered gone f a hs) (hl : f.Laid φ) (ha : f a = some (.head link)) :
    (φ a).map (·.1) = hs.filter fun h => (f h).isSome := by
  have hsub : ((φ a).map (·.1)).Sublist hs :=
    ho.chain_sublist (hl.chain ha) ha rfl (List.nil_append _).symm
  have live {h} (hm : h ∈ (φ a).map (·.1)) : (f h).isSome := by
    obtain ⟨⟨k, e⟩, hke, rfl⟩ := List.mem_map.1 hm
    rw [hl.element ha hke]
    rfl
  have mem {h} (hm : h ∈ hs) (hh : (f h).isSome) : h ∈ (φ a).map (·.1) := by
    obtain ⟨c, hc⟩ := Option.isSome_iff_exists.1 hh
    cases c with
    | head l => exact absurd hm (ho.heads hc)
    | element e =>
      obtain ⟨b, l, hb, hhb⟩ := hl.reached hc
      by_cases hba : b = a
      · exact List.mem_map.2 ⟨_, hba ▸ hhb, rfl⟩
      · have hnot : b ∉ a :: hs := fun hm => (List.mem_cons.1 hm).elim hba (ho.heads hb)
        exact absurd (List.mem_cons_of_mem _ hm) (ho.chain_apart (hl.chain hb) hb rfl hnot _ hhb)
  -- The elements are a part of those that are still there, and none is missing.
  have hall : (φ a).map (·.1) = ((φ a).map (·.1)).filter fun h => (f h).isSome :=
    (List.filter_eq_self.2 fun h hm => live hm).symm
  have hfilter : ((φ a).map (·.1)).Sublist (hs.filter fun h => (f h).isSome) := by
    rw [hall]
    exact hsub.filter _
  refine hfilter.eq_of_length_le ?_
  have hnodup := (List.nodup_cons.1 ho.nodup).2
  refine (List.subperm_of_subset (hnodup.filter _) ?_).length_le
  intro h hm
  exact mem (List.mem_filter.1 hm).1 (List.mem_filter.1 hm).2

end Ordered

end Layout

namespace Pool

variable {α : Type} {p : Pool α} {h : Handle} {a : α}

theorem isSome_get? (p : Pool α) (h : Handle) : (p.get? h).isSome = p.isLive h := by
  rw [get?, isLive, Option.isSome_map]

/-- To modify what is held changes the map there. -/
theorem get?_modify (hp : p.get? h = some a) (f : α → α) :
    (p.modify h f).get? = Function.update p.get? h (some (f a)) := by
  obtain ⟨n, pinned, he⟩ := get?_eq_some.1 hp
  simp only [modify, he]
  exact get?_put he _

/-- To modify what is held vacates nothing. -/
theorem freesAt_modify (p : Pool α) (h : Handle) (f : α → α) :
    (p.modify h f).freesAt = p.freesAt := by
  funext i
  unfold modify
  split <;> [exact freesAt_put ..; rfl]

end Pool

namespace Heap

open Layout (Ordered)

variable {base heap heap' : Heap} {p q : Pool Cell} {a h : Handle} {hs : List Handle} {e : Element}
  {link : Option Handle} {φ φ' : Handle → List (Handle × Element)}

/-! ### Order through operations -/

/-- The cells `hs` are in order behind the head `a` in a pool that comes about from `base`. -/
structure Lined (base : Pool Cell) (a : Handle) (hs : List Handle) (p : Pool Cell) : Prop where
  evolves : base.Evolves p
  wellFormed : p.WellFormed
  ordered : Ordered (base.RetiredSince p) p.get? a hs

namespace Lined

variable {pool : Pool Cell}

/-- What is taken away, or counted anew, leaves the others in order. -/
theorem thins (hl : Lined pool a hs p) (ht : p.Thins q) : Lined pool a hs q := by
  refine ⟨hl.evolves.trans ht.evolves, ht.evolves.wellFormed hl.wellFormed, ?_⟩
  refine hl.ordered.thinned (fun _ _ => ht.get?_eq_some) (fun h hh => ?_) fun h hr =>
    hr.mono ht.evolves
  rw [Pool.isSome_get?] at hh ⊢
  exact (ht.evolves.live_or_retiredSince hl.wellFormed hh).imp_right
    fun hr => hr.of_evolves hl.evolves

/-- A cell may be rewritten if the order is kept. -/
theorem modify {c : Cell} {f : Cell → Cell} (hl : Lined pool a hs p) (hc : p.get? h = some c)
    (ho : Ordered (pool.RetiredSince p) (Function.update p.get? h (some (f c))) a hs) :
    Lined pool a hs (p.modify h f) := by
  have hev : p.Evolves (p.modify h f) := Pool.Evolves.refl.modify h f
  refine ⟨hl.evolves.trans hev, hev.wellFormed hl.wellFormed, ?_⟩
  rw [Pool.get?_modify hc]
  unfold Pool.RetiredSince at ho ⊢
  rwa [Pool.freesAt_modify]

/-- A new cell leads to an order with more cells, or with the same. -/
theorem alloc {c : Cell} (hl : Lined pool a hs p) (hal : p.Allocated c h q)
    (hev : p.Evolves q) {hs' : List Handle}
    (ho : Ordered (pool.RetiredSince p) (Function.update p.get? h (some c)) a hs') :
    Lined pool a hs' q := by
  refine ⟨hl.evolves.trans hev, hal.wellFormed hl.wellFormed, ?_⟩
  rw [Pool.get?_update hal.entry?]
  unfold Pool.RetiredSince at ho ⊢
  rwa [hal.freesAt]

/-- Allocation succeeds or changes nothing. What it gives out is not one of the cells in order, and
    nothing leads to it. -/
theorem alloc_cases (hl : Lined pool a hs p) (hn : pool.Near p) (c : Cell) :
    (∃ h q, p.alloc c = (.ok h, q) ∧ p.Allocated c h q ∧ p.Evolves q ∧ p.get? h = none ∧
      ¬pool.RetiredSince p h) ∨ ∃ f, p.alloc c = (.error f, p) := by
  rcases hl.wellFormed.alloc_cases c with ⟨h, q, hq, hal⟩ | ⟨hq, -⟩
  · refine .inl ⟨h, q, hq, hal, ?_, ?_, hal.not_retiredSince hn⟩
    · have hev : p.Evolves (p.alloc c).2 := Pool.Evolves.refl.alloc c
      rwa [hq] at hev
    · rw [Pool.get?, hal.vacant]
      rfl
  · exact .inr ⟨_, hq⟩

/-- A new array does not join the elements of another one. -/
theorem allocArray (hl : Lined pool a hs heap.cells) (hn : pool.Near heap.cells) :
    Lined pool a hs heap.allocArray.2.cells := by
  change Lined pool a hs (heap.cells.alloc (.head none)).2
  rcases hl.alloc_cases hn (.head none) with ⟨h, q, hq, hal, hev, hh, hnew⟩ | ⟨f, hq⟩
  · rw [hq]
    exact hl.alloc hal hev (hl.ordered.add_head hh hnew)
  · rwa [hq]

end Lined

/-! ### Finding -/

/-- The cell that is found to lead to another one does so. -/
theorem next_of_leadingTo {n : Nat} {b b' : Handle} {c : Cell} (hc : heap.cells.get? b = some c)
    (hnext : c.next = link) (hb : heap.leadingTo h n b link = some b') :
    ∃ c, heap.cells.get? b' = some c ∧ c.next = some h := by
  induction n generalizing b c link with
  | zero => cases link <;> cases hb
  | succ n ih =>
    cases link with
    | none => cases hb
    | some k =>
      rw [leadingTo] at hb
      split at hb
      · next hk =>
        cases hb
        exact ⟨c, hc, hk ▸ hnext⟩
      · rw [next?] at hb
        cases he : heap.element? k with
        | none =>
          rw [he] at hb
          cases n <;> cases hb
        | some e =>
          rw [he] at hb
          exact ih (element?_eq_some.1 he) rfl hb

/-! ### Setting and removing -/

namespace Lined

variable {pool : Pool Cell} {key v : Value}

/-- An element put in front of an array comes in front of the order of that array, and leaves any
    other. -/
theorem insertFirst (hl : Lined pool a hs heap.cells) (hn : pool.Near heap.cells) {b : Handle}
    (hb : heap.cells.get? b = some (.head link)) (key v : Value) :
    ∃ new, Lined pool a (new ++ hs) (heap.insertFirst b link key v).2.cells := by
  obtain ⟨strings, cells⟩ := heap
  rw [Heap.insertFirst]
  rcases hl.alloc_cases hn (.element ⟨key, v, link⟩) with ⟨h, q, hq, hal, hev, hh, hnew⟩ | ⟨f, hq⟩
  · rw [hq]
    have hbh : b ≠ h := by
      rintro rfl
      cases hh.symm.trans hb
    have hget : q.get? = Function.update cells.get? h (some (.element ⟨key, v, link⟩)) :=
      Pool.get?_update hal.entry?
    have hqb : q.get? b = some (.head link) := by rwa [hget, Function.update_of_ne hbh]
    have hqh : (q.get? h).isSome := by
      rw [hget, Function.update_self]
      rfl
    -- The new element is in the order if it is put into this very array.
    by_cases hba : b = a
    · have ho : Lined pool a (h :: hs) q :=
        hl.alloc hal hev (hl.ordered.add_first (hba ▸ hb) hh hnew)
      refine ⟨[h], ho.modify hqb (ho.ordered.relink_head hqb hqh ?_ ?_)⟩
      · exact fun _ => List.mem_cons_self
      · exact fun hne => absurd hba hne
    · have ho : Lined pool a hs q := hl.alloc hal hev (hl.ordered.add_apart hb hba hh hnew)
      refine ⟨[], ho.modify hqb (ho.ordered.relink_head hqb hqh ?_ ?_)⟩
      · exact fun heq => absurd heq hba
      · exact fun _ => hl.ordered.not_mem_of_fresh hh hnew
  · rw [hq]
    exact ⟨[], hl⟩

/-- To set an element keeps the order, with a new one in front at most. -/
theorem set (hl : Lined pool a hs heap.cells) (hn : pool.Near heap.cells) (b : Handle)
    (key v : Value) : ∃ new, Lined pool a (new ++ hs) (heap.set b key v).2.cells := by
  rw [Heap.set]
  split
  · next h _ _ =>
    split
    · next e hf =>
      -- The element that was found keeps its link.
      have he := element?_eq_some.1 hf
      have ho := hl.ordered.keep_link (c := .element { e with value := v }) he (by rintro l ⟨⟩) rfl
      have hm : Lined pool a hs (heap.modifyCell h fun _ => .element { e with value := v }).cells :=
        hl.modify (f := fun _ => .element { e with value := v }) he ho
      exact ⟨[], hm.thins (Thins.releaseAll ..).cells⟩
    · exact ⟨[], hl.thins (Thins.releaseAll ..).cells⟩
  · split
    · exact ⟨[], hl.thins (Thins.releaseAll ..).cells⟩
    · split
      · next link hb => exact hl.insertFirst hn (first_eq_ok.1 hb) key v
      · exact ⟨[], hl⟩
  · exact ⟨[], hl.thins (Thins.releaseAll ..).cells⟩

/-- An element that is unlinked leaves the others in order. -/
theorem unlink (hl : Lined pool a hs heap.cells) {b : Handle}
    (hb : heap.cells.get? b = some (.head link)) (he : heap.element? h = some e) :
    Lined pool a hs (heap.unlink b link h e).2.cells := by
  obtain ⟨strings, cells⟩ := heap
  rw [Heap.unlink]
  split
  · next before hbefore =>
    obtain ⟨c, hc, hch⟩ := next_of_leadingTo hb rfl hbefore
    have hm : Lined pool a hs (cells.modify before (·.withNext e.next)) :=
      hl.modify hc (hl.ordered.skip_link hc hch (element?_eq_some.1 he))
    have hr := hm.thins (.reclaim _ h)
    simp only [modifyCell]
    exact hr.thins (Thins.releaseAll ⟨strings, _⟩ [e.key, e.value]).cells
  · exact hl

/-- To remove an element leaves the others in order. -/
theorem remove (hl : Lined pool a hs heap.cells) (b : Handle) (key : Scalar) :
    Lined pool a hs (heap.remove b key).2.cells := by
  rw [Heap.remove]
  split
  · next h e hf =>
    split
    · next link hb =>
      have hu := hl.unlink (first_eq_ok.1 hb) (element?_of_find hf)
      generalize heap.unlink b link h e = r at hu ⊢
      rcases r with ⟨_ | _, heap'⟩ <;> exact hu
    · exact hl
  · exact hl
  · exact hl

end Lined

/-- Whatever is done with a heap, the elements that an array ever had stay in order. -/
theorem Becomes.lined (h : base.Becomes heap) (hl : Lined base.cells a hs base.cells)
    (hn : base.cells.Near heap.cells) :
    ∃ new, Lined base.cells a (new ++ hs) heap.cells := by
  have keep {hs' : List Handle} {p : Pool Cell}
      (h : ∃ new, Lined base.cells a (new ++ hs') p) (hs'' : ∃ old, hs' = old ++ hs) :
      ∃ new, Lined base.cells a (new ++ hs) p := by
    obtain ⟨new, h⟩ := h
    obtain ⟨old, rfl⟩ := hs''
    exact ⟨new ++ old, by rwa [List.append_assoc]⟩
  -- By induction on what is done with the heap. New elements come in front of those that are known.
  induction h with
  | refl => exact ⟨[], hl⟩
  | @thins heap heap' _ ht ih =>
    obtain ⟨new, hl⟩ := ih (hn.of_evolves ht.cells.evolves)
    exact ⟨new, hl.thins ht.cells⟩
  | allocString _ text ih => exact ih hn
  | @allocArray heap _ ih =>
    have hn := hn.of_evolves (Evolves.refl heap).allocArray.cells
    obtain ⟨new, hl⟩ := ih hn
    exact ⟨new, hl.allocArray hn⟩
  | @set heap _ b key v ih =>
    have hn := hn.of_evolves ((Evolves.refl heap).set b key v).cells
    obtain ⟨new, hl⟩ := ih hn
    exact keep (hl.set hn b key v) ⟨new, rfl⟩
  | @remove heap _ b key ih =>
    obtain ⟨new, hl⟩ := ih (hn.of_evolves ((Evolves.refl heap).remove b key).cells)
    exact ⟨new, hl.remove b key⟩

/-- The elements of an array that is still there are those that it had before and that have not
    been taken away, in the same order, behind new ones. -/
theorem Becomes.elements_eq (h : base.Becomes heap) (hn : base.cells.Near heap.cells)
    (hw : base.cells.WellFormed) (hl : Layout.Laid base.cells.get? φ)
    (hl' : Layout.Laid heap.cells.get? φ') {link' : Option Handle}
    (ha : base.cells.get? a = some (.head link)) (ha' : heap.cells.get? a = some (.head link')) :
    ∃ new, (φ' a).map (·.1) = new ++ ((φ a).map (·.1)).filter fun h => heap.cells.isLive h := by
  have hstart : Lined base.cells a ((φ a).map (·.1)) base.cells := by
    refine ⟨.refl, hw, ?_⟩
    exact (Ordered.of_laid hl ha).thinned (fun _ _ hc => hc) (fun _ => .inl) fun _ => False.elim
  obtain ⟨new, hlined⟩ := h.lined hstart hn
  rw [hlined.ordered.elements_eq hl' ha', List.filter_append]
  simp only [Pool.isSome_get?]
  exact ⟨_, rfl⟩

end Heap

end PoolScript
