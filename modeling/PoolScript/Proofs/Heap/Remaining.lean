import PoolScript.Proofs.Heap.Order

/-!
# The elements that remain

Between two points that are near one another, a handle that leads to a cell at both of them leads
to the same one. So if the heap is looked at from time to time, the elements of an array that have
been there from the beginning can be told from those that came later, although handles come again
in the long run: they are those whose slots have not been vacated since (`Heap.Remains`). They
are always in the order that they had at the beginning.

* `Remains.later`: what remains, from one point to the next;
* `Remains.next_eq`: an element that remains leads to the next one that remains.
-/

namespace PoolScript.Heap

variable {base heap heap' : Heap} {a h k : Handle} {hs pre post : List Handle} {e : Element}
  {link : Option Handle} {φ φ' : Handle → List (Handle × Element)}

theorem element?_eq_none (hdead : ¬heap.cells.isLive h) : heap.element? h = none := by
  cases he : heap.element? h with
  | none => rfl
  | some e =>
    rw [← Pool.isSome_get?, element?_eq_some.1 he] at hdead
    exact absurd rfl hdead

/-- The slot of `h` has not been vacated since the heap was `base`. -/
def Stays (base heap : Heap) (h : Handle) : Prop :=
  heap.cells.freesAt h.index = base.cells.freesAt h.index

instance (base heap : Heap) : DecidablePred (Stays base heap) :=
  fun _ => inferInstanceAs (Decidable (_ = _))

/-- `hs` were the cells of the elements of `a` in `base`. Those that have stayed are elements of `a`
    still, in the same order and behind any others. -/
structure Remains (base : Heap) (a : Handle) (hs : List Handle) (heap : Heap) : Prop where
  evolves : base.cells.Evolves heap.cells
  wellFormed : base.cells.WellFormed
  live : ∀ h ∈ hs, base.cells.isLive h
  elements : ∃ φ link new, Layout.Laid heap.cells.get? φ ∧
    heap.cells.get? a = some (.head link) ∧
    (φ a).map (·.1) = new ++ hs.filter (Stays base heap)

namespace Remains

theorem start (hw : base.cells.WellFormed) (hl : Layout.Laid base.cells.get? φ)
    (ha : base.cells.get? a = some (.head link)) :
    Remains base a ((φ a).map (·.1)) base := by
  refine ⟨.refl, hw, ?_, φ, link, [], hl, ha, ?_⟩
  · intro h hm
    obtain ⟨⟨k, e⟩, hke, rfl⟩ := List.mem_map.1 hm
    rw [← Pool.isSome_get?, hl.element ha hke]
    rfl
  · exact (List.filter_eq_self.2 fun _ _ => decide_eq_true rfl).symm

theorem stays_of_later (hr : Remains base a hs heap) (hev : heap.cells.Evolves heap'.cells)
    (hstays : Stays base heap' h) : Stays base heap h :=
  Nat.le_antisymm ((hev.freesAt_le _).trans_eq hstays) (hr.evolves.freesAt_le _)

theorem element (hr : Remains base a hs heap) (hm : h ∈ hs) (hstays : Stays base heap h) :
    ∃ e, heap.element? h = some e := by
  obtain ⟨φ, link, new, hl, ha, hφ⟩ := hr.elements
  have hmem : h ∈ (φ a).map (·.1) := by
    rw [hφ]
    exact List.mem_append_right _ (List.mem_filter.2 ⟨hm, decide_eq_true hstays⟩)
  obtain ⟨⟨k, e⟩, hke, rfl⟩ := List.mem_map.1 hmem
  exact ⟨e, element?_eq_some.2 (hl.element ha hke)⟩

theorem isLive (hr : Remains base a hs heap) (hm : h ∈ hs) (hstays : Stays base heap h) :
    heap.cells.isLive h := by
  obtain ⟨e, he⟩ := hr.element hm hstays
  rw [← Pool.isSome_get?, element?_eq_some.1 he]
  rfl

/-- Of the cells that stayed until one point those stay until the next that are still there. -/
theorem stays_iff (hr : Remains base a hs heap) (hev : heap.cells.Evolves heap'.cells)
    (hn : heap.cells.Near heap'.cells) (hm : h ∈ hs) :
    Stays base heap' h ↔ Stays base heap h ∧ heap'.cells.isLive h := by
  constructor
  · intro hstays
    exact ⟨hr.stays_of_later hev hstays,
      (hr.evolves.trans hev).live_of_freesAt_eq hr.wellFormed (hr.live h hm) hstays⟩
  · rintro ⟨hstays, hlive⟩
    exact (hev.freesAt_eq_of_live hn (hr.isLive hm hstays) hlive).trans hstays

/-- What remains at one point, and what is still there of it at the next. -/
theorem later (hr : Remains base a hs heap) (hb : heap.Becomes heap')
    (hn : heap.cells.Near heap'.cells) (hl' : Layout.Laid heap'.cells.get? φ')
    (ha' : heap'.cells.get? a = some (.head link)) : Remains base a hs heap' := by
  obtain ⟨φ, l, new, hl, ha, hφ⟩ := hr.elements
  have hev := hb.evolves.cells
  obtain ⟨new', hφ'⟩ := hb.elements_eq hn (hr.evolves.wellFormed hr.wellFormed) hl hl' ha ha'
  refine ⟨hr.evolves.trans hev, hr.wellFormed, hr.live, φ', link,
    new' ++ new.filter fun h => heap'.cells.isLive h, hl', ha', ?_⟩
  rw [hφ', hφ, List.filter_append, List.append_assoc, List.filter_filter]
  -- What stays until the later point is what stayed until the earlier one and is live still.
  congr 2
  refine List.filter_congr fun h hm => ?_
  rw [Bool.eq_iff_iff, Bool.and_eq_true, decide_eq_true_iff, decide_eq_true_iff,
    hr.stays_iff hev hn hm, and_comm]

/-- What stayed until one point and is not there at the next has not stayed. -/
theorem not_stays (hr : Remains base a hs heap) (hev : heap.cells.Evolves heap'.cells)
    (hm : h ∈ hs) (hstays : Stays base heap h) (hdead : ¬heap'.cells.isLive h) :
    ¬Stays heap heap' h := fun hs =>
  hdead (hev.live_of_freesAt_eq (hr.evolves.wellFormed hr.wellFormed) (hr.isLive hm hstays) hs)

/-- An element that remains leads to the next one that remains. -/
theorem next_eq (hr : Remains base a (pre ++ h :: post) heap) (hstays : Stays base heap h)
    (he : heap.element? h = some e) : e.next = (post.filter (Stays base heap)).head? := by
  obtain ⟨φ, link, new, hl, ha, hφ⟩ := hr.elements
  have hf : (h :: post).filter (Stays base heap) = h :: post.filter (Stays base heap) :=
    List.filter_cons_of_pos (decide_eq_true hstays)
  rw [List.filter_append, hf, ← List.append_assoc] at hφ
  -- The chain is new elements, those before this one that have stayed, this one, and those behind
  -- it.
  obtain ⟨xs, ys, hφa, hxs, hys⟩ := List.map_eq_append_iff.1 hφ
  obtain ⟨⟨k, d⟩, zs, rfl, rfl, hzs⟩ := List.map_eq_cons_iff.1 hys
  have hx := hl.chain ha
  rw [hφa] at hx
  have hd : heap.cells.get? k = some (.element d) :=
    hx.element (List.mem_append_right _ List.mem_cons_self)
  obtain rfl := Cell.element.inj (Option.some.inj (hd.symm.trans (element?_eq_some.1 he)))
  rw [hx.next_eq, hzs]

theorem next_some (hr : Remains base a (pre ++ h :: post) heap) (hstays : Stays base heap h)
    (he : heap.element? h = some e) (hk : e.next = some k) :
    ∃ mid post', post = mid ++ k :: post' ∧ Stays base heap k ∧ ∀ m ∈ mid, ¬Stays base heap m := by
  have hfind := hk.symm.trans (hr.next_eq hstays he)
  rw [List.head?_filter] at hfind
  obtain ⟨hks, mid, post', hpost, hmid⟩ := List.find?_eq_some_iff_append.1 hfind.symm
  exact ⟨mid, post', hpost, of_decide_eq_true hks, fun m hm => by simpa using hmid m hm⟩

theorem next_none (hr : Remains base a (pre ++ h :: post) heap) (hstays : Stays base heap h)
    (he : heap.element? h = some e) (hk : e.next = none) : ∀ m ∈ post, ¬Stays base heap m := by
  have hnil := List.head?_eq_none_iff.1 (hk.symm.trans (hr.next_eq hstays he)).symm
  exact fun m hm => by simpa using List.filter_eq_nil_iff.1 hnil m hm

end Remains

end PoolScript.Heap
