import PoolScript.Proofs.Heap.Pairs
import PoolScript.Proofs.Pool.Ledger

/-!
# Moving into an array is all or nothing

Setting an element takes its key and its value from whoever does it. It fails exactly when there is
no array, when the key cannot be one, or when there is neither an element with the key nor room for
a new one. Then the key and the value are given back, and nothing else is done with the heap.
Otherwise both are moved into the array, or the value is moved into the element that has the key,
and what is not needed any more is given back (`Holding.Reached.set_total`).
-/

namespace PoolScript.Heap

/-- The value cannot be the key of an element: it is an array, or a string that is not there. -/
def NoKey (heap : Heap) : Value → Prop
  | .str h => heap.strings.isLive h = false
  | .array _ => True
  | _ => False

/-- An element of the array `a` has the key `key`. -/
def HasKey (heap : Heap) (a : Handle) (key : Value) : Prop :=
  ∃ ps t, heap.Lists a ps ∧ heap.scalar key = .ok t ∧ ∃ p ∈ ps, heap.accepts t p.1 = true

/-- In `stored`, the array `a` has the pairs that it has in `heap` with that of `key` and `v` put
    among them. Every other array has the pairs that it has in `heap`. -/
structure Puts (heap : Heap) (a : Handle) (key v : Value) (stored : Heap) : Prop where
  strings : stored.strings = heap.strings
  written : ∀ ps t, heap.Lists a ps → heap.scalar key = .ok t →
    stored.Lists a (Pairs.put (heap.accepts t) key v ps)
  others : ∀ b ps, b ≠ a → heap.Lists b ps → stored.Lists b ps

/-- What is left of `heap` when `key` and `v` were moved into the array `a`. -/
inductive Moved (heap : Heap) (a : Handle) (key v : Value) : Heap → Prop
  /-- An element has the key already. Its value and the key are given back. -/
  | replaced {t : Scalar} {h : Handle} {e : Element} {n : Nat} {pinned : Bool}
      (scalar : heap.scalar key = .ok t)
      (old : ∀ ps, heap.Lists a ps → Pairs.lookup (heap.accepts t) ps = some e.value)
      (cell : heap.cells.entry? h = some ⟨.element e, n, pinned⟩)
      (puts : Puts heap a key v
        ⟨heap.strings, heap.cells.put h.index ⟨.element { e with value := v }, n, pinned⟩⟩) :
      Moved heap a key v ((release e.value
        ⟨heap.strings, heap.cells.put h.index ⟨.element { e with value := v }, n, pinned⟩⟩).release
          key)
  /-- There is a new element with the key and the value. Nothing is given back. -/
  | inserted {h : Handle} {link : Option Handle} {n : Nat} {pinned : Bool} {cells : Pool Cell}
      (absent : ¬heap.HasKey a key)
      (head : heap.cells.entry? a = some ⟨.head link, n, pinned⟩)
      (cell : heap.cells.Allocated (.element ⟨key, v, link⟩) h cells)
      (puts : Puts heap a key v
        ⟨heap.strings, cells.put a.index ⟨.head (some h), n, pinned⟩⟩) :
      Moved heap a key v ⟨heap.strings, cells.put a.index ⟨.head (some h), n, pinned⟩⟩

variable {heap stored : Heap} {φ φ' : Handle → List (Handle × Element)} {a : Handle}
  {key v : Value} {link : Option Handle} {t : Scalar} {f : Fault}

/-! ### When setting fails -/

theorem noKey_iff : heap.NoKey key ↔ ¬∃ t, heap.scalar key = .ok t := by
  cases key with
  | int | float => exact iff_of_false not_false (not_not.2 ⟨_, rfl⟩)
  | array h => exact iff_of_true trivial (by rintro ⟨t, ⟨⟩⟩)
  | str h =>
    simp only [NoKey, scalar, str, Pool.isLive, Pool.get?]
    cases heap.strings.entry? h <;> simp [Except.map]

theorem hasKey_iff (hl : Layout.Laid heap.cells.get? φ)
    (ha : heap.cells.get? a = some (.head link)) (ht : heap.scalar key = .ok t) :
    heap.HasKey a key ↔ ∃ h e, heap.findIn t (φ a) = some (h, e) := by
  constructor
  · rintro ⟨ps, t', hps, ht', p, hp, hacc⟩
    cases ht.symm.trans ht'
    rw [← (lists_iff hl ha).1 hps] at hp
    cases hf : heap.findIn t (φ a) with
    | some q => exact ⟨q.1, q.2, rfl⟩
    | none => cases (accepts_of_findIn_eq_none hf p hp).symm.trans hacc
  · rintro ⟨h, e, hf⟩
    refine ⟨_, t, (lists_iff hl ha).2 rfl, ht, (e.key, e.value), ?_, (findIn_eq_some hf).1⟩
    exact List.mem_map.2 ⟨(h, e), List.mem_of_find?_eq_some hf, rfl⟩

theorem set_of_error (hf : heap.findValue a key = .error f) (v : Value) :
    heap.set a key v = (.error f, heap.releaseAll [key, v]) := by
  rw [set, hf]

/-- Setting fails for want of an array, a key, or room. -/
theorem set_error_iff (hl : Layout.Laid heap.cells.get? φ) (a : Handle) (key v : Value) :
    (∃ f, (heap.set a key v).1 = .error f) ↔
      ¬heap.Present (.array a) ∨ heap.NoKey key ∨
        ¬heap.HasKey a key ∧ heap.cells.isFull = true := by
  by_cases hk : heap.NoKey key
  · -- Without a key nothing can be looked for.
    refine iff_of_true ?_ (.inr (.inl hk))
    cases hs : heap.scalar key with
    | ok t => exact absurd ⟨t, hs⟩ (noKey_iff.1 hk)
    | error f =>
      have hf : heap.findValue a key = .error f := by rw [findValue, hs]
      exact ⟨f, congrArg Prod.fst (set_of_error hf v)⟩
  obtain ⟨t, ht⟩ := not_not.1 (mt noKey_iff.2 hk)
  by_cases ha : heap.Present (.array a)
  · obtain ⟨link, ha⟩ := ha
    have hf : heap.findValue a key = .ok (heap.findIn t (φ a)) := by
      rw [findValue, ht]
      exact find_eq hl ha t
    rw [or_iff_right (not_not.2 ⟨link, ha⟩), or_iff_right hk, hasKey_iff hl ha ht, set_eq, hf]
    rcases hfind : heap.findIn t (φ a) with _ | ⟨h, e⟩
    · -- No element has the key, so one has to be inserted.
      simp only [first_eq_ok.2 ha, insertOrRelease_error_iff]
      exact (and_iff_right (by rintro ⟨h, e, ⟨⟩⟩)).symm
    · -- The element that has the key takes the value, which never fails.
      exact iff_of_false (by rintro ⟨f, ⟨⟩⟩) fun hn => hn.1 ⟨h, e, rfl⟩
  · refine iff_of_true ?_ (.inl ha)
    have hf : heap.findValue a key = .error (.invalidHandle .array) := by
      rw [findValue, ht]
      exact find_dead (not_exists.1 ha) t
    exact ⟨_, congrArg Prod.fst (set_of_error hf v)⟩

/-! ### What is moved -/

theorem puts_of_laid (hl : Layout.Laid heap.cells.get? φ) (hl' : Layout.Laid stored.cells.get? φ')
    (hs : stored.strings = heap.strings) {heap' : Heap}
    (ho : SetOutcome heap φ a key v (.ok (), heap') φ')
    (hheads : ∀ b link, heap.cells.get? b = some (.head link) →
      ∃ link', stored.cells.get? b = some (.head link')) : Puts heap a key v stored where
  strings := hs
  written ps t hps ht := by
    obtain ⟨link, xs, ha, -, -⟩ := id hps
    obtain ⟨link', ha'⟩ := hheads a link ha
    obtain ⟨t', ht', hp⟩ := ho.pairsOf_eq hl
    cases ht.symm.trans ht'
    rw [(lists_iff hl ha).1 hps] at hp
    exact (lists_iff hl' ha').2 hp
  others b ps hba hps := by
    obtain ⟨link, xs, hb, -, -⟩ := id hps
    obtain ⟨link', hb'⟩ := hheads b link hb
    rw [lists_iff hl' hb', ← (lists_iff hl hb).1 hps]
    have hw : some a ≠ some b := fun hab => hba (Option.some.inj hab).symm
    exact (Change.set (w := some a) rfl ho).pairsOf_eq hl hb hw

/-- Setting that does not fail moves the key and the value. -/
theorem SetOutcome.moved {heap' : Heap} (hl : Layout.Laid heap.cells.get? φ)
    (ho : SetOutcome heap φ a key v (.ok (), heap') φ') : Moved heap a key v heap' := by
  cases id ho with
  | @replaced link t h e n pinned head scalar find cell =>
    have hget := Pool.get?_put cell ⟨.element { e with value := v }, n, pinned⟩
    have hl' := hl.set_value (Pool.get?_eq_some.2 ⟨n, pinned, cell⟩) v
    rw [← hget] at hl'
    rw [releaseAll_pair]
    refine .replaced scalar (fun ps hps => ?_) cell (puts_of_laid hl hl' rfl ho fun b l hb => ?_)
    · rw [← (lists_iff hl head).1 hps, lookup_pairsOf, find]
      rfl
    · have hbh : b ≠ h := by
        rintro rfl
        cases hb.symm.trans (Pool.get?_eq_some.2 ⟨n, pinned, cell⟩)
      exact ⟨l, by rwa [hget, Function.update_of_ne hbh]⟩
  | @inserted link t h n pinned cells head scalar find cell =>
    have ha := Pool.get?_eq_some.2 ⟨n, pinned, head⟩
    have hget := get?_inserted head cell
    have hvacant : heap.cells.get? h = none := by simp [Pool.get?, cell.vacant]
    have hl' := hl.insert ha hvacant key v
    rw [← hget] at hl'
    refine .inserted ?_ head cell (puts_of_laid hl hl' rfl ho fun b l hb => ?_)
    · rw [hasKey_iff hl ha scalar, find]
      rintro ⟨h, e, ⟨⟩⟩
    · by_cases hba : b = a
      · exact ⟨some h, by rw [hget, hba, Function.update_self]⟩
      · have hbh : b ≠ h := by
          rintro rfl
          cases hvacant.symm.trans hb
        exact ⟨l, by rwa [hget, Function.update_of_ne hba, Function.update_of_ne hbh]⟩

namespace Holding

variable {strings cells : Nat} {s : Holding}

/-- Setting is all or nothing in every heap that is reached: it fails for want of an array, a key or
    room, and then the key and the value are given back and nothing else is done. Otherwise both
    are moved. -/
theorem Reached.set_total (hr : Reached strings cells s) (hc : s.Certain) (a : Handle)
    (key v : Value) :
    ((∃ f, (s.heap.set a key v).1 = .error f) ↔
      ¬s.heap.Present (.array a) ∨ s.heap.NoKey key ∨
        ¬s.heap.HasKey a key ∧ s.heap.liveCells = s.heap.cells.capacity) ∧
    (∀ f, (s.heap.set a key v).1 = .error f →
      (s.heap.set a key v).2 = (s.heap.release key).release v) ∧
    ((s.heap.set a key v).1 = .ok () → s.heap.Moved a key v (s.heap.set a key v).2) := by
  -- The heap is laid out and its books are kept, so that each way out can be told.
  obtain ⟨φ, pins, hk⟩ := hr.kept hc
  have hl := hk.booked.laid
  have hw := hk.booked.cells
  rw [liveCells, ← Pool.isFull_iff hw.toConsistent]
  refine ⟨set_error_iff hl a key v, ?_⟩
  obtain ⟨φ', ho⟩ := set_outcome hw hl a key v
  generalize s.heap.set a key v = r at ho ⊢
  obtain ⟨_ | _, heap'⟩ := r
  · refine ⟨fun f _ => ?_, ?_⟩
    · cases ho
      exact releaseAll_pair ..
    · rintro ⟨⟩
  · refine ⟨?_, fun _ => ho.moved hl⟩
    rintro f ⟨⟩

/-- There is no room in `mirror` for another element, so that one under a number is refused, which
    gives the array itself back. The element that is there gets another value. -/
theorem mirror_set :
    mirror.heap.liveCells = mirror.heap.cells.capacity ∧
    (∃ f, (mirror.heap.set ⟨0, 0⟩ (.int 1) (.array ⟨0, 0⟩)).1 = .error f) ∧
    (mirror.heap.set ⟨0, 0⟩ (.int 1) (.array ⟨0, 0⟩)).2 =
      (mirror.heap.release (.int 1)).release (.array ⟨0, 0⟩) ∧
    mirror.heap.Moved ⟨0, 0⟩ (.str ⟨0, 0⟩) (.int 7)
      (mirror.heap.set ⟨0, 0⟩ (.str ⟨0, 0⟩) (.int 7)).2 := by
  have hrefused : (mirror.heap.set ⟨0, 0⟩ (.int 1) (.array ⟨0, 0⟩)).1 =
      .error (.poolExhausted "array" 2) := by decide +kernel
  have hdone : (mirror.heap.set ⟨0, 0⟩ (.str ⟨0, 0⟩) (.int 7)).1 = .ok () := by decide +kernel
  exact ⟨by decide +kernel, ⟨_, hrefused⟩,
    (mirror_reached.set_total (.inl rfl) _ _ _).2.1 _ hrefused,
    (mirror_reached.set_total (.inl rfl) _ _ _).2.2 hdone⟩

/-- There is an array in `torn`, and room for an element, but none under a number is taken. -/
theorem torn_set :
    Reached 1 2 torn ∧ torn.heap.Present (.array ⟨1, 0⟩) ∧ ¬torn.heap.NoKey (.int 1) ∧
      torn.heap.liveCells < torn.heap.cells.capacity ∧
      ∃ f, (torn.heap.set ⟨1, 0⟩ (.int 1) (.int 7)).1 = .error f := by
  have hf : (torn.heap.set ⟨1, 0⟩ (.int 1) (.int 7)).1 = .error (.invalidHandle .element) := by
    decide +kernel
  exact ⟨torn_reached, ⟨_, torn_head⟩, id, by decide +kernel, _, hf⟩

end Holding

end PoolScript.Heap
