import PoolScript.Proofs.Heap.Balance
import PoolScript.Proofs.Heap.Draining
import PoolScript.Proofs.Heap.Evolution

/-!
# Giving references back

Collecting the elements of an array moves what they store to the list of what remains to be
given back, and takes their cells away. So giving the last reference to an array back leaves
the books of a heap right for what remains (`Booked.giveBack`), and giving all references of a
list back leaves them right for the others (`Booked.drain`). The chains of the arrays that are
left stay what they are.
-/

namespace PoolScript.Heap

variable {heap : Heap} {strings : Pool String} {cells : Pool Cell} {a h : Handle}
  {link : Option Handle} {xs : List (Handle × Element)}
  {φ : Handle → List (Handle × Element)} {m m' : Multiset Value}
  {pins pins' gone : Set Value} {v : Value} {n : Nat} {pinned : Bool}

/-! ### Collecting -/

theorem stored_reclaim (cells : Pool Cell) (h : Handle) :
    cells.stored = ((cells.reclaim h).1.elim [] Cell.values : List Value) +
      (cells.reclaim h).2.stored := by
  rw [Pool.reclaim]
  split
  · next e he => exact stored_vacate he
  · exact (zero_add _).symm

/-- What the collected cells stored remains to be given back. -/
theorem collect_stored (link : Option Handle) (pending : List Value) (cells : Pool Cell) :
    ((collect link pending cells).1 : Multiset Value) + (collect link pending cells).2.stored =
      (pending : Multiset Value) + cells.stored := by
  fun_induction collect link pending cells with
  | case1 => rfl
  | case2 pending cells h e cells' hr ih =>
    rw [ih, stored_reclaim cells h, hr]
    simp only [Option.elim, Cell.values, ← Multiset.cons_coe, ← Multiset.singleton_add,
      Multiset.coe_nil]
    abel
  | case3 pending cells h c cells' hc hr =>
    rw [stored_reclaim cells h, hr]
    rcases c with _ | _ | e
    · simp
    · simp [Cell.values]
    · exact (hc e rfl).elim

theorem stored_collect_head (he : cells.entry? a = some ⟨.head link, n, pinned⟩) :
    ((collect link [] (cells.vacate a.index)).1 : Multiset Value) +
      (collect link [] (cells.vacate a.index)).2.stored = cells.stored :=
  (collect_stored ..).trans (stored_vacate he).symm

/-- Collecting a chain takes its cells away. -/
theorem collect_chain (hx : Layout.Chain cells.get? link xs) (hw : cells.WellFormed)
    (pending : List Value) :
    (collect link pending cells).2.WellFormed ∧
      ∀ k, Pool.entry? (collect link pending cells).2 k =
        if k ∈ xs.map (·.1) then none else cells.entry? k := by
  -- By induction on the chain: taking one cell away leaves a chain of the others.
  induction xs generalizing link cells pending with
  | nil =>
    cases hx
    rw [collect]
    exact ⟨hw, fun k => by simp⟩
  | cons p xs ih =>
    have hn := hx.nodup
    cases hx with
    | @cons h e _ he hx =>
      obtain ⟨n, pinned, he⟩ := Pool.get?_eq_some.1 he
      have hr : cells.reclaim h = (some (.element e), cells.vacate h.index) := by
        simp only [Pool.reclaim, he]
      have hv := Pool.entry?_vacate he
      obtain ⟨hh, -⟩ := List.nodup_cons.1 hn
      have hx' : Layout.Chain (cells.vacate h.index).get? e.next xs := by
        refine hx.congr ?_
        intro q hq
        rw [Pool.get?_update hv, Function.update_of_ne]
        rintro rfl
        exact hh (List.mem_map.2 ⟨q, hq, rfl⟩)
      rw [collect_some, hr]
      obtain ⟨hw', hk⟩ := ih hx' (hw.vacate he) (e.value :: e.key :: pending)
      refine ⟨hw', fun k => ?_⟩
      rw [hk, hv, List.map_cons]
      by_cases hkh : k = h
      · subst hkh; simp
      · simp only [List.mem_cons, hkh, false_or, Function.update_of_ne hkh]

/-! ### What is left -/

theorem unpin_absent (hv : v.isCounted → heap.isLive v = false) : heap.unpin v = heap := by
  cases v with
  | int => rfl
  | float => rfl
  | str h =>
    have he : heap.strings.entry? h = none := by simpa [isLive, Pool.isLive] using hv rfl
    simp only [Heap.unpin, Pool.unpin, he]
  | array h =>
    have he : heap.cells.entry? h = none := by simpa [isLive, Pool.isLive] using hv rfl
    simp only [Heap.unpin, Pool.unpin, he]

namespace Booked

/-- When a head goes, the cells of its elements go too. -/
theorem collect_head (hk : Booked ⟨strings, cells⟩ φ m pins gone)
    (he : cells.entry? a = some ⟨.head link, n, pinned⟩) :
    (collect link [] (cells.vacate a.index)).2.WellFormed ∧
      ∀ k, Pool.entry? (collect link [] (cells.vacate a.index)).2 k =
        if k = a ∨ k ∈ (φ a).map (·.1) then none else cells.entry? k := by
  have hl := hk.laid
  have ha : cells.get? a = some (.head link) := Pool.get?_eq_some.2 ⟨_, _, he⟩
  have hv := Pool.entry?_vacate he
  -- The head is no element, so that its chain is still there when the head is not.
  have hx : Layout.Chain (cells.vacate a.index).get? link (φ a) := by
    refine (hl.chain ha).congr ?_
    intro p hp
    rw [Pool.get?_update hv, Function.update_of_ne]
    exact hl.ne_of_mem ha hp ha (by rintro ⟨⟩)
  obtain ⟨hw, hc⟩ := collect_chain hx (hk.cells.vacate he) []
  refine ⟨hw, fun k => ?_⟩
  rw [hc, hv]
  by_cases hka : k = a
  · subst hka; simp
  · simp only [hka, false_or, Function.update_of_ne hka]

/-- A head goes, and what its elements stored remains to be given back. -/
theorem free_head (hk : Booked ⟨strings, cells⟩ φ m pins gone)
    (he : cells.entry? a = some ⟨.head link, n, pinned⟩)
    (ht : Tally.Exact (Function.update (tally? ⟨strings, cells⟩) (.array a) none)
      (m' + cells.stored) pins' gone) :
    Booked ⟨strings, (collect link [] (cells.vacate a.index)).2⟩ φ
      ((collect link [] (cells.vacate a.index)).1 + m') pins' gone := by
  have hl := hk.laid
  have ha : cells.get? a = some (.head link) := Pool.get?_eq_some.2 ⟨_, _, he⟩
  obtain ⟨hw, entry⟩ := hk.collect_head he
  have hs := stored_collect_head he
  generalize collect link [] (cells.vacate a.index) = r at hw entry hs ⊢
  refine ⟨hk.strings, hw, hl.drop ha fun k => ?_, fun {k e n p} hke => ?_, ?_, fun v hv => ?_⟩
  · change (Pool.entry? r.2 k).map _ = _
    rw [entry]
    split <;> rfl
  · change Pool.entry? r.2 k = _ at hke
    rw [entry] at hke
    split at hke
    · cases hke
    · exact hk.element hke
  · -- The cells of elements were in no tally.
    have htally : tally? ⟨strings, r.2⟩ =
        Function.update (tally? ⟨strings, cells⟩) (.array a) none := by
      funext w
      by_cases hwa : w = .array a
      · subst hwa
        rw [Function.update_self]
        simp [tally?, entry]
      · rw [Function.update_of_ne hwa]
        cases w with
        | array k =>
          have hka : k ≠ a := fun hka => hwa (hka ▸ rfl)
          simp only [tally?, entry, hka, false_or]
          split
          · next hm =>
            obtain ⟨p, hp, rfl⟩ := List.mem_map.1 hm
            obtain ⟨n, pinned, hp⟩ := Pool.get?_eq_some.1 (hl.element ha hp)
            rw [hp]
            rfl
          · rfl
        | _ => rfl
    rw [htally]
    change Tally.Exact _ (r.1 + m' + r.2.stored) pins' gone
    rw [add_right_comm, hs, add_comm]
    exact ht
  · have hv' := hk.stale v hv
    cases v with
    | array k =>
      have he : cells.entry? k = none := by simpa [isLive, Pool.isLive] using hv'
      simp [isLive, Pool.isLive, entry, he]
    | _ => exact hv'

/-- What is given back as an array is none of the elements. -/
theorem head_of_entry (hk : Booked ⟨strings, cells⟩ φ ({.array a} + m) pins gone)
    {e : Entry Cell} (he : cells.entry? a = some e) :
    ∃ link, e.content = .head link := by
  obtain ⟨c, n, pinned⟩ := e
  cases c with
  | head link => exact ⟨link, rfl⟩
  | element e =>
    -- It would be in no tally, and so be gone.
    have := hk.stale_of_known hk.known_owned (by simp [tally?, he, Entry.tally]) rfl
    simp [isLive, Pool.isLive, he] at this

/-! ### Giving values back -/

/-- Who gives a value back owns what remains to be given back instead. -/
theorem giveBack (hk : heap.Booked φ ({v} + m) pins gone) :
    (heap.giveBack v).2.Booked φ ((heap.giveBack v).1 + m) pins gone := by
  obtain ⟨strings, cells⟩ := heap
  have hr := hk.tally
  rw [add_assoc] at hr
  cases v with
  | int | float => exact (zero_add m).symm ▸ hk.of_absent rfl
  | str h =>
    rw [Heap.giveBack, Multiset.coe_nil, zero_add]
    simp only [Pool.release]
    split
    · next e he =>
      have ht : tally? ⟨strings, cells⟩ (.str h) = some (e.refs, e.pinned) := by simp [tally?, he]
      split
      · next hn => exact hk.forget_string he (hr.release_last ht hn.1 hn.2)
      · next hn => exact hk.recount_string he (hr.release ht fun h => by simpa [h] using hn)
    · next he => exact hk.of_absent (by simp [tally?, he])
  | array a =>
    rw [Heap.giveBack]
    cases he : cells.entry? a with
    | none =>
      simp only [Pool.release, he, Multiset.coe_nil, zero_add]
      exact hk.of_absent (by simp [tally?, he])
    | some e =>
      obtain ⟨link, hlink⟩ := hk.head_of_entry he
      obtain ⟨_, n, pinned⟩ := e
      obtain rfl := hlink
      have ht : tally? ⟨strings, cells⟩ (.array a) = some (n, pinned) := by
        simp [tally?, he, Entry.tally]
      by_cases hn : n ≤ 1 ∧ ¬pinned = true
      · simp only [Pool.release, he, if_pos hn]
        exact hk.free_head he (hr.release_last ht hn.1 hn.2)
      · simp only [Pool.release, he, if_neg hn, Multiset.coe_nil, zero_add]
        exact hk.recount_head he (hr.release ht fun h => by simpa [h] using hn)

/-- Who gives values back owns them no more. -/
theorem drain (pending : List Value) (heap : Heap)
    (hk : heap.Booked φ (pending + m) pins gone) : (heap.drain pending).Booked φ m pins gone := by
  induction pending, heap using drain_induction with
  | nil heap =>
    rw [drain_nil]
    simpa using hk
  | cons v pending heap ih =>
    rw [coe_cons_add] at hk
    have hg := hk.giveBack
    rw [← add_assoc, Multiset.coe_add] at hg
    rw [drain_cons]
    exact ih hg

theorem releaseAll {vs : List Value} (hk : heap.Booked φ (vs + m) pins gone) :
    (heap.releaseAll vs).Booked φ m pins gone :=
  drain vs heap hk

theorem unpin (hk : heap.Booked φ m pins gone) (hv : heap.Live v ∨ v ∈ gone) :
    (heap.unpin v).Booked φ m (pins \ {v}) gone := by
  cases ht : heap.tally? v with
  | none =>
    rw [unpin_absent (hk.stale_of_known hv ht)]
    exact hk.repin_absent ht (fun w hw => by simp [hw]) (gone_of_known hv ht)
  | some x =>
    obtain ⟨n, pinned⟩ := x
    obtain ⟨strings, cells⟩ := heap
    cases v with
    | int => cases ht
    | float => cases ht
    | str h =>
      obtain ⟨text, he⟩ := tally?_str ht
      simp only [Heap.unpin, Pool.unpin, he]
      split
      · next hn => exact hk.forget_string he (hk.tally.unpin_last (hn ▸ ht))
      · next hn => exact hk.recount_string he (hk.tally.unpin ht hn)
    | array a =>
      obtain ⟨link, he⟩ := tally?_head ht
      simp only [Heap.unpin, Pool.unpin, he]
      by_cases hn : n = 0
      · subst hn
        -- The pin was the last thing that kept the array.
        simp only [if_pos]
        refine drain _ _ ?_
        rw [Multiset.coe_reverse]
        exact hk.free_head he (hk.tally.unpin_last ht)
      · simp only [if_neg hn]
        exact hk.recount_head he (hk.tally.unpin ht hn)

/-- Nothing is stored or pinned in a heap that has been cleared, and what is owned is gone. -/
theorem clear (hs : heap.strings.WellFormed) (hc : heap.cells.WellFormed)
    (hm : ∀ v ∈ m, v.isCounted → v ∈ gone) (hg : ∀ v ∈ gone, v.isCounted) :
    heap.clear.Booked (fun _ => []) m ∅ gone := by
  have hstrings := Pool.entry?_clear hs.size_lt
  have hcells := Pool.entry?_clear hc.size_lt
  have hget : heap.clear.cells.get? = fun _ => none := by
    funext h
    simp [Heap.clear, Pool.get?, hcells]
  have htally : heap.clear.tally? = fun _ => none := by
    funext v
    cases v <;> simp [tally?, Heap.clear, hstrings, hcells]
  have hstored : heap.clear.stored = 0 := by
    simp [stored, Pool.stored, Heap.clear, Pool.contents_clear hc.size_lt]
  refine ⟨(Heap.Evolves.refl heap).clear.strings.wellFormed hs,
    (Heap.Evolves.refl heap).clear.cells.wellFormed hc, hget ▸ .none, fun he => ?_, ?_,
    fun v hv => ?_⟩
  · simp [Heap.clear, hcells] at he
  · rw [htally, hstored, add_zero]
    exact .none hm
  · have := hg v hv
    cases v with
    | int => cases this
    | float => cases this
    | str h => simp [isLive, Pool.isLive, Heap.clear, hstrings]
    | array h => simp [isLive, Pool.isLive, Heap.clear, hcells]

end Booked

namespace Balanced

theorem drain (pending : List Value) (heap : Heap) (hb : heap.Balanced (pending + m) pins) :
    (heap.drain pending).Balanced m pins := by
  obtain ⟨φ, p, hp, hk⟩ := hb.booked
  exact (hk.drain pending heap).balanced hp

theorem release (hb : heap.Balanced ({v} + m) pins) : (heap.release v).Balanced m pins :=
  drain [v] heap hb

theorem releaseAll {vs : List Value} (hb : heap.Balanced (vs + m) pins) :
    (heap.releaseAll vs).Balanced m pins :=
  drain vs heap hb

theorem unpin (hb : heap.Balanced m (insert v pins)) (hv : heap.Live v) :
    (heap.unpin v).Balanced m pins := by
  obtain ⟨φ, p, hp, hk⟩ := hb.booked
  exact (hk.unpin (.inl hv)).balanced (by simpa using hp)

/-- Nothing is owned, stored or pinned in a heap that has been cleared. -/
theorem clear (hs : heap.strings.WellFormed) (hc : heap.cells.WellFormed) :
    heap.clear.Balanced 0 pins :=
  (Booked.clear hs hc (fun v hv => absurd hv (Multiset.notMem_zero v)) fun _ hv => hv.elim).balanced
    (Set.empty_subset _)

end Balanced

end PoolScript.Heap
