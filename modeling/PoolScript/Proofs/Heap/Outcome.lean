import PoolScript.Proofs.Heap.Setting
import PoolScript.Proofs.Heap.Walk

/-!
# What comes of an operation on an array

Every operation on an array looks for a key first, and does one of a few things then. Each of
them is told here with all that is known when it is done, once: where the element was found,
which cells change, and which values are given back. What the operations do to the books of a
heap, to its keys and to what arrays map to is shown from that, and never from the operations.

* `FetchOutcome`, `SetOutcome`, `RemoveOutcome`: what an operation comes to. The last two tell
  the chains that the arrays have afterwards;
* `fetch_outcome`, `set_outcome`, `remove_outcome`: every operation comes to one of them.
-/

namespace PoolScript.Heap

/-- The first of the elements `xs` whose key is `key`, with its cell. -/
def findIn (heap : Heap) (key : Scalar) (xs : List (Handle × Element)) :
    Option (Handle × Element) :=
  xs.find? fun p => heap.keyMatches p.2.key key

/-- What comes of `heap.fetch a key`. -/
inductive FetchOutcome (heap : Heap) (φ : Handle → List (Handle × Element)) (a : Handle)
    (key : Value) : Except Fault (Option Value) × Heap → Prop
  /-- There is no array, or the key is none. -/
  | rejected {f : Fault}
      (fault : heap.Live (.array a) → heap.Live key → ¬f.Dangling) :
      FetchOutcome heap φ a key (.error f, heap)
  | absent {link : Option Handle} {s : Scalar} (head : heap.cells.get? a = some (.head link))
      (scalar : heap.scalar key = .ok s) (find : heap.findIn s (φ a) = none) :
      FetchOutcome heap φ a key (.ok none, heap)
  | found {link : Option Handle} {s : Scalar} {h : Handle} {e : Element} {heap' : Heap}
      (head : heap.cells.get? a = some (.head link)) (scalar : heap.scalar key = .ok s)
      (find : heap.findIn s (φ a) = some (h, e)) (copy : heap.Retains e.value heap') :
      FetchOutcome heap φ a key (.ok (some e.value), heap')
  /-- The value cannot be copied. -/
  | aborted {link : Option Handle} {s : Scalar} {h : Handle} {e : Element} {failed : Assertion}
      (head : heap.cells.get? a = some (.head link)) (scalar : heap.scalar key = .ok s)
      (find : heap.findIn s (φ a) = some (h, e))
      (live : heap.isLive e.value = true → failed = .countFits) :
      FetchOutcome heap φ a key (.error (.aborted failed), heap)

/-- What comes of `heap.set a key v`, and the chains that arrays have afterwards. -/
inductive SetOutcome (heap : Heap) (φ : Handle → List (Handle × Element)) (a : Handle)
    (key v : Value) :
    Except Fault Unit × Heap → (Handle → List (Handle × Element)) → Prop
  /-- There is no array, the key is none, or there is no room. -/
  | rejected {f : Fault}
      (fault : heap.Live (.array a) → heap.Live key → ¬f.Dangling) :
      SetOutcome heap φ a key v (.error f, heap.releaseAll [key, v]) φ
  /-- The element that was found gets another value. -/
  | replaced {link : Option Handle} {s : Scalar} {h : Handle} {e : Element} {n : Nat}
      {pinned : Bool} (head : heap.cells.get? a = some (.head link))
      (scalar : heap.scalar key = .ok s) (find : heap.findIn s (φ a) = some (h, e))
      (cell : heap.cells.entry? h = some ⟨.element e, n, pinned⟩) :
      SetOutcome heap φ a key v
        (.ok (), releaseAll [e.value, key]
          ⟨heap.strings, heap.cells.put h.index ⟨.element { e with value := v }, n, pinned⟩⟩)
        (fun b => Layout.Chain.revalue h v (φ b))
  /-- A new element comes to the front. -/
  | inserted {link : Option Handle} {s : Scalar} {h : Handle} {n : Nat} {pinned : Bool}
      {cells : Pool Cell} (head : heap.cells.entry? a = some ⟨.head link, n, pinned⟩)
      (scalar : heap.scalar key = .ok s) (find : heap.findIn s (φ a) = none)
      (cell : heap.cells.Allocated (.element ⟨key, v, link⟩) h cells) :
      SetOutcome heap φ a key v
        (.ok (), ⟨heap.strings, cells.put a.index ⟨.head (some h), n, pinned⟩⟩)
        (Function.update φ a ((h, ⟨key, v, link⟩) :: φ a))

/-- What comes of `heap.remove a key`, and the chains that arrays have afterwards. -/
inductive RemoveOutcome (heap : Heap) (φ : Handle → List (Handle × Element)) (a : Handle)
    (key : Scalar) :
    Except Fault Bool × Heap → (Handle → List (Handle × Element)) → Prop
  /-- There is no array. -/
  | rejected {f : Fault} (dead : ¬heap.Live (.array a)) :
      RemoveOutcome heap φ a key (.error f, heap) φ
  | absent {link : Option Handle} (head : heap.cells.get? a = some (.head link))
      (find : heap.findIn key (φ a) = none) : RemoveOutcome heap φ a key (.ok false, heap) φ
  /-- The element that was found goes, and what came before it leads to what came after. -/
  | taken {link : Option Handle} {b h : Handle} {c : Cell} {e : Element} {n : Nat} {pinned : Bool}
      {xs ys : List (Handle × Element)} (head : heap.cells.get? a = some (.head link))
      (find : heap.findIn key (φ a) = some (h, e)) (split : φ a = xs ++ (h, e) :: ys)
      (before : ∀ p ∈ xs, heap.keyMatches p.2.key key = false)
      (last : (xs.map (·.1)).getLastD a = b)
      (cell : heap.cells.entry? b = some ⟨c, n, pinned⟩) :
      RemoveOutcome heap φ a key
        (.ok true, releaseAll [e.key, e.value]
          ⟨heap.strings, (heap.cells.put b.index ⟨c.withNext e.next, n, pinned⟩).vacate h.index⟩)
        (Function.update φ a (Layout.Chain.relink b e.next (xs ++ ys)))

variable {heap : Heap} {φ : Handle → List (Handle × Element)} {a h : Handle} {key v : Value}
  {s : Scalar} {e : Element} {link : Option Handle} {f : Fault}

theorem findIn_eq_some {xs : List (Handle × Element)} (hf : heap.findIn s xs = some (h, e)) :
    heap.keyMatches e.key s = true ∧ ∃ us ys, xs = us ++ (h, e) :: ys ∧
      ∀ p ∈ us, heap.keyMatches p.2.key s = false := by
  obtain ⟨hm, us, ys, rfl, hus⟩ := List.find?_eq_some_iff_append.1 hf
  exact ⟨hm, us, ys, rfl, fun p hp => by simpa using hus p hp⟩

/-- The cells after an element came to the front of the array `a`. -/
theorem get?_inserted {cells cells' : Pool Cell} {n : Nat} {pinned : Bool}
    (ha : cells.entry? a = some ⟨.head link, n, pinned⟩)
    (hal : cells.Allocated (.element e) h cells') :
    Pool.get? (cells'.put a.index ⟨.head (some h), n, pinned⟩) =
      Function.update (Function.update cells.get? h (some (.element e))) a
        (some (.head (some h))) := by
  have hah : a ≠ h := by rintro rfl; simp [hal.vacant] at ha
  have ha' : cells'.entry? a = some ⟨.head link, n, pinned⟩ := by
    rw [hal.entry?, Function.update_of_ne hah, ha]
  rw [Pool.get?_put ha', Pool.get?_update hal.entry?]
  rfl

/-- The cells after the element in the cell `h` was taken out of the array `a`. -/
theorem get?_unlinked {cells : Pool Cell} {b : Handle} {c : Cell} {n : Nat} {pinned : Bool}
    {xs ys : List (Handle × Element)} (hl : Layout.Laid cells.get? φ)
    (ha : cells.get? a = some (.head link)) (hx : φ a = xs ++ (h, e) :: ys)
    (hb : (xs.map (·.1)).getLastD a = b) (hc : cells.entry? b = some ⟨c, n, pinned⟩) :
    Pool.get? ((cells.put b.index ⟨c.withNext e.next, n, pinned⟩).vacate h.index) =
      Function.update (Function.update cells.get? b (some (c.withNext e.next))) h none := by
  obtain ⟨n', pinned', hh⟩ :=
    Pool.get?_eq_some.1 (hl.element ha (h := h) (e := e) (by simp [hx]))
  have hh' : Pool.entry? (cells.put b.index ⟨c.withNext e.next, n, pinned⟩) h =
      some ⟨.element e, n', pinned'⟩ := by
    rw [Pool.entry?_put hc, Function.update_of_ne (hl.before_ne ha hx hb).symm, hh]
  rw [Pool.get?_vacate hh', Pool.get?_put hc]

/-- Where there is no array, there is nothing to be found. -/
theorem find_dead (ha : ∀ link, heap.cells.get? a ≠ some (.head link)) (s : Scalar) :
    heap.find a s = .error (.invalidHandle .array) := by
  have : heap.first a = .error (.invalidHandle .array) := by
    rw [first]
    split
    · next link hl => exact absurd hl (ha link)
    · rfl
  rw [find, this]

/-- The key is looked for in the chain of the array, unless something is wrong with either. -/
theorem findValue_cases (hl : Layout.Laid heap.cells.get? φ) (a : Handle) (key : Value) :
    (∃ link s, heap.cells.get? a = some (.head link) ∧ heap.scalar key = .ok s ∧
      heap.findValue a key = .ok (heap.findIn s (φ a))) ∨
    ∃ f, heap.findValue a key = .error f ∧
      (heap.Live (.array a) → heap.Live key → ¬f.Dangling) := by
  rw [findValue]
  cases hs : heap.scalar key with
  | error f =>
    refine .inr ⟨f, rfl, fun _ hk => ?_⟩
    have := Balanced.scalar hk
    rwa [hs] at this
  | ok s =>
    by_cases ha : ∃ link, heap.cells.get? a = some (.head link)
    · obtain ⟨link, ha⟩ := ha
      exact .inl ⟨link, s, ha, rfl, find_eq hl ha s⟩
    · exact .inr ⟨_, find_dead (not_exists.1 ha) s, fun h => absurd (live_array.1 h) ha⟩

theorem fetch_outcome (hl : Layout.Laid heap.cells.get? φ) (a : Handle) (key : Value) :
    FetchOutcome heap φ a key (heap.fetch a key) := by
  rw [fetch]
  rcases findValue_cases hl a key with ⟨link, s, ha, hs, hf⟩ | ⟨f, hf, hfault⟩
  · rw [hf]
    cases hp : heap.findIn s (φ a) with
    | none => exact .absent ha hs hp
    | some q =>
      obtain ⟨h, e⟩ := q
      rcases heap.retain_cases e.value with ⟨heap', hr, hcopy⟩ | ⟨failed, hr, hlive⟩
      · simp only [hr]
        exact .found ha hs hp hcopy
      · simp only [hr]
        exact .aborted ha hs hp hlive
  · rw [hf]
    exact .rejected hfault

theorem set_outcome (hw : heap.cells.WellFormed) (hl : Layout.Laid heap.cells.get? φ) (a : Handle)
    (key v : Value) : ∃ φ', SetOutcome heap φ a key v (heap.set a key v) φ' := by
  rw [set_eq]
  rcases findValue_cases hl a key with ⟨link, s, ha, hs, hf⟩ | ⟨f, hf, hfault⟩
  · rw [hf]
    cases hp : heap.findIn s (φ a) with
    | some q =>
      obtain ⟨h, e⟩ := q
      obtain ⟨n, pinned, he⟩ :=
        Pool.get?_eq_some.1 (hl.element ha (List.mem_of_find?_eq_some hp))
      refine ⟨fun b => Layout.Chain.revalue h v (φ b), ?_⟩
      have hmodify : heap.modifyCell h (fun _ => .element { e with value := v }) =
          ⟨heap.strings, heap.cells.put h.index ⟨.element { e with value := v }, n, pinned⟩⟩ := by
        simp only [modifyCell, Pool.modify, he]
      simp only [hmodify]
      exact .replaced ha hs hp he
    | none =>
      obtain ⟨n, pinned, he⟩ := Pool.get?_eq_some.1 ha
      simp only [first_eq_ok.2 ha]
      rcases hw.alloc_cases (.element ⟨key, v, link⟩) with ⟨h, cells, hh, hal⟩ | ⟨hh, -⟩
      · have hah : a ≠ h := by rintro rfl; simp [hal.vacant] at he
        have he' : cells.entry? a = some ⟨.head link, n, pinned⟩ := by
          rw [hal.entry?, Function.update_of_ne hah, he]
        refine ⟨Function.update φ a ((h, ⟨key, v, link⟩) :: φ a), ?_⟩
        simp only [insertOrRelease, insertFirst, hh, Pool.modify, he']
        exact .inserted he hs hp hal
      · refine ⟨φ, ?_⟩
        simp only [insertOrRelease, insertFirst, hh]
        exact .rejected fun _ _ => by rintro ⟨⟩
  · rw [hf]
    exact ⟨_, .rejected hfault⟩

theorem remove_outcome (hl : Layout.Laid heap.cells.get? φ) (a : Handle) (s : Scalar) :
    ∃ φ', RemoveOutcome heap φ a s (heap.remove a s) φ' := by
  rw [remove]
  by_cases ha : ∃ link, heap.cells.get? a = some (.head link)
  · obtain ⟨link, ha⟩ := ha
    rw [find_eq hl ha]
    cases hp : (φ a).find? fun p => heap.keyMatches p.2.key s with
    | none => exact ⟨_, .absent ha hp⟩
    | some q =>
      obtain ⟨h, e⟩ := q
      have hp : heap.findIn s (φ a) = some (h, e) := hp
      obtain ⟨-, xs, ys, hx, hus⟩ := findIn_eq_some hp
      have hchain := hl.chain ha
      rw [hx] at hchain
      have hn : xs.length < heap.longest := by
        have := length_le_longest hchain
        simp at this
        omega
      -- The cell before is the last one of those that come before, or the head.
      have hbe : ∃ c, heap.cells.get? ((xs.map (·.1)).getLastD a) = some c := by
        have hm : (xs.map (·.1)).getLastD a ∈ a :: xs.map (·.1) := List.getLastD_mem_cons
        rcases List.mem_cons.1 hm with hm | hm
        · exact ⟨_, hm ▸ ha⟩
        · obtain ⟨p, hp, hpe⟩ := List.mem_map.1 hm
          exact ⟨_, hpe ▸ hchain.element (List.mem_append_left _ hp)⟩
      obtain ⟨c, hc⟩ := hbe
      obtain ⟨n, pinned, hc⟩ := Pool.get?_eq_some.1 hc
      have hbh := hl.before_ne ha hx rfl
      obtain ⟨n', pinned', hh⟩ := Pool.get?_eq_some.1 (hchain.element (h := h) (e := e) (by simp))
      have hr : Pool.entry? (heap.cells.put ((xs.map (·.1)).getLastD a).index
          ⟨c.withNext e.next, n, pinned⟩) h = some ⟨.element e, n', pinned'⟩ := by
        rw [Pool.entry?_put hc, Function.update_of_ne hbh.symm, hh]
      refine ⟨Function.update φ a
        (Layout.Chain.relink ((xs.map (·.1)).getLastD a) e.next (xs ++ ys)), ?_⟩
      simp only [first_eq_ok.2 ha, unlink, leadingTo_eq hchain hn, modifyCell, Pool.modify, hc,
        Pool.reclaim, hr]
      exact .taken ha hp hx hus rfl hc
  · rw [find_dead (not_exists.1 ha)]
    exact ⟨_, .rejected fun h => ha (live_array.1 h)⟩

end PoolScript.Heap
