import PoolScript.Proofs.Heap.Wrapping

/-!
# Arrays as lists of pairs

An array is understood as the list of its keys and values in link order (`Heap.Lists`). Setting an
element replaces the value of the first pair whose key matches, or puts a new pair in front;
removing an element deletes the pair whose key matches. So arrays map keys to values, with keys
compared as scalars, and no operation on one array changes another one or a string
(`Reached.refines`).

* `Pairs.lookup`, `Pairs.put`, `Pairs.delete`: what is done with lists of pairs, and how they go
  together;
* `SetOutcome.pairsOf_eq`, `RemoveOutcome.pairsOf_eq`: the operations do just that;
* `Change.pairsOf_eq`, `Change.accepts_eq`: what is not written stays, and so do the keys of what
  is written;
* `SetOutcome.get?_eq`, `RemoveOutcome.get?_eq`: what is found afterwards.
-/

namespace PoolScript.Heap

/-! ### Lists of pairs -/

/-- The keys and values of an array, in link order. -/
abbrev Pairs := List (Value × Value)

namespace Pairs

variable {q q' : Value → Bool} {key v : Value} {ps : Pairs}

/-- The value of the first key that `q` accepts. -/
def lookup (q : Value → Bool) (ps : Pairs) : Option Value :=
  (ps.find? fun p => q p.1).map (·.2)

/-- The pairs with the value `v` for the first key that `q` accepts. If there is none, `key` and
    `v` come to the front. -/
def put (q : Value → Bool) (key v : Value) (ps : Pairs) : Pairs :=
  if ps.any fun p => q p.1 then ps.replaceF fun p => if q p.1 then some (p.1, v) else none
  else (key, v) :: ps

/-- The pairs without the first one whose key `q` accepts. -/
def delete (q : Value → Bool) (ps : Pairs) : Pairs :=
  ps.eraseP fun p => q p.1

/-- A key that matches none is put in front. -/
theorem put_of_any_false (h : ∀ p ∈ ps, q p.1 = false) : put q key v ps = (key, v) :: ps := by
  rw [put, if_neg]
  simpa using h

/-- Where the first accepted key is known, its value is replaced. -/
theorem put_append {us ys : Pairs} {k w : Value} (hus : ∀ p ∈ us, q p.1 = false)
    (hk : q k = true) : put q key v (us ++ (k, w) :: ys) = us ++ (k, v) :: ys := by
  rw [put, if_pos (by simp [hk])]
  induction us with
  | nil => simp [hk]
  | cons p us ih =>
    have hp := hus p List.mem_cons_self
    simp [hp, ih fun p hp => hus p (List.mem_cons_of_mem _ hp)]

/-- The first pair that matches is deleted. -/
theorem delete_append {us ys : Pairs} {k w : Value} (hus : ∀ p ∈ us, q p.1 = false)
    (hk : q k = true) : delete q (us ++ (k, w) :: ys) = us ++ ys := by
  rw [delete, List.eraseP_append_right _ fun p hp => by simp [hus p hp]]
  simp [hk]

/-- Nothing is deleted where nothing matches. -/
theorem delete_of_any_false (h : ∀ p ∈ ps, q p.1 = false) : delete q ps = ps :=
  List.eraseP_of_forall_not fun p hp => by simp [h p hp]

/-- What accepts nothing is skipped. -/
theorem lookup_append {us ys : Pairs} (hus : ∀ p ∈ us, q p.1 = false) :
    lookup q (us ++ ys) = lookup q ys := by
  rw [lookup, List.find?_append, List.find?_eq_none.2 fun p hp => by simp [hus p hp]]
  rfl

/-- Either no key is accepted, or there is a first one. -/
theorem split_cases (q : Value → Bool) (ps : Pairs) :
    (∀ p ∈ ps, q p.1 = false) ∨
    ∃ us k w ys, ps = us ++ (k, w) :: ys ∧ q k = true ∧ ∀ p ∈ us, q p.1 = false := by
  cases hf : ps.find? fun p => q p.1 with
  | none => exact .inl fun p hp => by simpa using List.find?_eq_none.1 hf p hp
  | some p =>
    obtain ⟨hq, us, ys, rfl, hus⟩ := List.find?_eq_some_iff_append.1 hf
    exact .inr ⟨us, p.1, p.2, ys, rfl, hq, fun p hp => by simpa using hus p hp⟩

/-- What was put is found. -/
theorem lookup_put_same (h : ∀ p ∈ ps, q' p.1 = q p.1) (hk : q' key = true) :
    lookup q' (put q key v ps) = some v := by
  rcases split_cases q ps with hn | ⟨us, k, w, ys, rfl, hqk, hus⟩
  · simp [put_of_any_false hn, lookup, hk]
  · rw [put_append hus hqk, lookup_append fun p hp => ?_]
    · simp [lookup, h (k, w) (by simp), hqk]
    · rw [h p (by simp [hp]), hus p hp]

/-- What other keys lead to stays. -/
theorem lookup_put_other (h : ∀ p ∈ ps, q p.1 = true → q' p.1 = false) (hk : q' key = false) :
    lookup q' (put q key v ps) = lookup q' ps := by
  rcases split_cases q ps with hn | ⟨us, k, w, ys, rfl, hqk, hus⟩
  · simp [put_of_any_false hn, lookup, hk]
  · have hk' : q' k = false := h (k, w) (by simp) hqk
    simp [put_append hus hqk, lookup, List.find?_append, hk']

/-- What was deleted is not found, if no other key is accepted. -/
theorem lookup_delete_same (h : ∀ p ∈ ps, q' p.1 = q p.1)
    (ha : ps.Pairwise fun p p' => q p.1 = true → q p'.1 = false) :
    lookup q' (delete q ps) = none := by
  have none_of {ps : Pairs} (hn : ∀ p ∈ ps, q' p.1 = false) : lookup q' ps = none := by
    rw [lookup, List.find?_eq_none.2 fun p hp => by simp [hn p hp]]
    rfl
  rcases split_cases q ps with hn | ⟨us, k, w, ys, rfl, hqk, hus⟩
  · rw [delete_of_any_false hn]
    exact none_of fun p hp => (h p hp).trans (hn p hp)
  · rw [delete_append hus hqk]
    refine none_of fun p hp => ?_
    rw [List.pairwise_append, List.pairwise_cons] at ha
    rcases List.mem_append.1 hp with hp | hp
    · exact (h p (by simp [hp])).trans (hus p hp)
    · exact (h p (by simp [hp])).trans (ha.2.1.1 p hp hqk)

/-- A key that does not match what is deleted is found as before. -/
theorem lookup_delete_other (h : ∀ p ∈ ps, q p.1 = true → q' p.1 = false) :
    lookup q' (delete q ps) = lookup q' ps := by
  rcases split_cases q ps with hn | ⟨us, k, w, ys, rfl, hqk, hus⟩
  · rw [delete_of_any_false hn]
  · have hk' : q' k = false := h (k, w) (by simp) hqk
    simp [delete_append hus hqk, lookup, List.find?_append, hk']

/-- Keys that match the same pairs are looked up alike. -/
theorem lookup_congr (h : ∀ p ∈ ps, q' p.1 = q p.1) : lookup q' ps = lookup q ps := by
  induction ps with
  | nil => rfl
  | cons p ps ih =>
    have ih := ih fun p hp => h p (List.mem_cons_of_mem _ hp)
    simp only [lookup, List.find?_cons, h p List.mem_cons_self] at ih ⊢
    split
    · rfl
    · exact ih

end Pairs

/-! ### Arrays -/

/-- The keys and values of the elements `xs`. -/
def pairsOf (xs : List (Handle × Element)) : Pairs :=
  xs.map fun p => (p.2.key, p.2.value)

/-- `ps` are the keys and values of the array `a`, in link order. -/
def Lists (heap : Heap) (a : Handle) (ps : Pairs) : Prop :=
  ∃ link xs, heap.cells.get? a = some (.head link) ∧ Layout.Chain heap.cells.get? link xs ∧
    pairsOf xs = ps

/-- Whether `key` is the one that is looked for. -/
def accepts (heap : Heap) (wanted : Scalar) (key : Value) : Bool :=
  heap.keyMatches key wanted

variable {heap heap' : Heap} {φ φ' : Handle → List (Handle × Element)} {a b h : Handle}
  {e : Element} {key v : Value} {s t : Scalar} {link w : Option Handle}
  {xs ys us : List (Handle × Element)} {m m' : Multiset Value} {pins pins' gone : Set Value}

/-- The pairs of an array are those of its chain. -/
theorem lists_iff (hl : Layout.Laid heap.cells.get? φ)
    (ha : heap.cells.get? a = some (.head link)) {ps : Pairs} :
    heap.Lists a ps ↔ pairsOf (φ a) = ps := by
  constructor
  · rintro ⟨link', xs, ha', hx, rfl⟩
    cases ha.symm.trans ha'
    rw [(hl.chain ha).unique hx]
  · exact fun hp => ⟨link, φ a, ha, hl.chain ha, hp⟩

/-- Each pair is that of an element. -/
theorem mem_pairsOf {p : Value × Value} (hp : p ∈ pairsOf xs) :
    ∃ h e, (h, e) ∈ xs ∧ p = (e.key, e.value) := by
  obtain ⟨q, hq, rfl⟩ := List.mem_map.1 hp
  exact ⟨q.1, q.2, hq, rfl⟩

/-- Links have no part in the pairs. -/
theorem pairsOf_relink (h : Handle) (next : Option Handle) (xs : List (Handle × Element)) :
    pairsOf (Layout.Chain.relink h next xs) = pairsOf xs := by
  rw [pairsOf, Layout.Chain.relink, List.map_map]
  refine List.map_congr_left fun p _ => ?_
  by_cases hp : p.1 = h <;> simp [hp]

theorem pairsOf_append (xs ys : List (Handle × Element)) :
    pairsOf (xs ++ ys) = pairsOf xs ++ pairsOf ys :=
  List.map_append

/-- The pairs before, at and behind the first element that matches. -/
theorem pairsOf_split (hx : xs = us ++ (h, e) :: ys)
    (hus : ∀ p ∈ us, heap.keyMatches p.2.key s = false) :
    pairsOf xs = pairsOf us ++ (e.key, e.value) :: pairsOf ys ∧
      ∀ p ∈ pairsOf us, heap.accepts s p.1 = false := by
  refine ⟨by rw [hx, pairsOf_append]; rfl, fun p hp => ?_⟩
  obtain ⟨k, d, hm, rfl⟩ := mem_pairsOf hp
  exact hus _ hm

/-! ### Finding -/

/-- Looking up a pair finds the element that the heap finds. -/
theorem lookup_pairsOf (heap : Heap) (s : Scalar) (xs : List (Handle × Element)) :
    Pairs.lookup (heap.accepts s) (pairsOf xs) = (heap.findIn s xs).map (·.2.value) := by
  rw [Pairs.lookup, pairsOf, List.find?_map, Option.map_map]
  rfl

/-- If no element is found, no pair matches. -/
theorem accepts_of_findIn_eq_none (hf : heap.findIn s xs = none) :
    ∀ p ∈ pairsOf xs, heap.accepts s p.1 = false := by
  intro p hp
  obtain ⟨h, e, hm, rfl⟩ := mem_pairsOf hp
  exact findIn_eq_none hf _ (List.mem_map.2 ⟨_, hm, rfl⟩)

/-- To get from an array is to look up its pairs. -/
theorem get?_eq (hl : Layout.Laid heap.cells.get? φ)
    (ha : heap.cells.get? a = some (.head link)) (s : Scalar) :
    heap.get? a s = .ok (Pairs.lookup (heap.accepts s) (pairsOf (φ a))) := by
  rw [get?, find_eq hl ha, lookup_pairsOf]
  rfl

/-- Fetching looks the key up, and copies what it leads to. -/
theorem fetch_eq (hl : Layout.Laid heap.cells.get? φ)
    (ha : heap.cells.get? a = some (.head link)) (hk : heap.scalar key = .ok s) :
    heap.fetch a key =
      match Pairs.lookup (heap.accepts s) (pairsOf (φ a)) with
      | some v => (heap.retain v).map (·.map some) id
      | none => (.ok none, heap) := by
  have hf : heap.findValue a key = .ok (heap.findIn s (φ a)) := by
    rw [findValue, hk]
    exact find_eq hl ha s
  rw [fetch, hf, lookup_pairsOf]
  cases heap.findIn s (φ a) <;> rfl

/-! ### Setting and removing -/

/-- Giving the element that was found another value puts a pair. -/
theorem pairsOf_revalue (hf : heap.findIn s xs = some (h, e)) (hn : (xs.map (·.1)).Nodup)
    (key v : Value) :
    pairsOf (Layout.Chain.revalue h v xs) = Pairs.put (heap.accepts s) key v (pairsOf xs) := by
  obtain ⟨hm, us, ys, hx, hus⟩ := findIn_eq_some hf
  obtain ⟨hp, hpus⟩ := pairsOf_split hx hus
  rw [hp, Pairs.put_append hpus hm]
  -- The cell comes nowhere else in the chain.
  rw [hx, List.map_append, List.map_cons] at hn
  obtain ⟨hn₁, hn₂, hne⟩ := List.nodup_append.1 hn
  have hus' : h ∉ us.map (·.1) := fun hmem => hne h hmem h List.mem_cons_self rfl
  have hys' : h ∉ ys.map (·.1) := (List.nodup_cons.1 hn₂).1
  have hr : Layout.Chain.revalue h v xs = us ++ (h, { e with value := v }) :: ys := by
    rw [hx, Layout.Chain.revalue, List.map_append, List.map_cons]
    simp only [if_true]
    rw [← Layout.Chain.revalue, ← Layout.Chain.revalue,
      Layout.Chain.revalue_of_not_mem hus', Layout.Chain.revalue_of_not_mem hys']
  rw [hr, pairsOf_append]
  rfl

/-- Setting an element that there was room for puts a pair. -/
theorem SetOutcome.pairsOf_eq (hl : Layout.Laid heap.cells.get? φ)
    (ho : SetOutcome heap φ a key v (.ok (), heap') φ') :
    ∃ s, heap.scalar key = .ok s ∧
      pairsOf (φ' a) = Pairs.put (heap.accepts s) key v (pairsOf (φ a)) := by
  cases ho with
  | replaced head scalar find => exact ⟨_, scalar, pairsOf_revalue find (hl.chain head).nodup _ _⟩
  | inserted _ scalar find =>
    refine ⟨_, scalar, ?_⟩
    rw [Function.update_self, Pairs.put_of_any_false (accepts_of_findIn_eq_none find)]
    rfl

/-- A failed set leaves the chains as they are. -/
theorem SetOutcome.eq_of_error {f : Fault}
    (ho : SetOutcome heap φ a key v (.error f, heap') φ') : φ' = φ := by
  cases ho
  rfl

/-- Removing an element deletes a pair, and tells whether there was one. -/
theorem RemoveOutcome.pairsOf_eq {r : Except Fault Bool × Heap} (ha : heap.Live (.array a))
    (ho : RemoveOutcome heap φ a s r φ') :
    r.1 = .ok ((pairsOf (φ a)).any fun p => heap.accepts s p.1) ∧
      ((∀ p ∈ pairsOf (φ a), heap.accepts s p.1 = false) → r.2 = heap) ∧
      pairsOf (φ' a) = Pairs.delete (heap.accepts s) (pairsOf (φ a)) := by
  cases ho with
  | rejected dead => exact absurd ha dead
  | absent _ find =>
    have hn := accepts_of_findIn_eq_none find
    refine ⟨congrArg _ (List.any_eq_false.2 fun p hp => ?_).symm, fun _ => rfl,
      (Pairs.delete_of_any_false hn).symm⟩
    simp [hn p hp]
  | taken _ find split before =>
    have hm := (findIn_eq_some find).1
    obtain ⟨hp, hus⟩ := pairsOf_split split before
    have hmem : (_, _) ∈ pairsOf (φ a) := hp ▸ List.mem_append_right _ List.mem_cons_self
    refine ⟨congrArg _ (List.any_eq_true.2 ⟨_, hmem, hm⟩).symm, fun hn => ?_, ?_⟩
    · cases (hn _ hmem).symm.trans hm
    · rw [Function.update_self, pairsOf_relink, pairsOf_append, hp, Pairs.delete_append hus hm]

/-! ### Everything else stays -/

/-- An array that is not written has the elements that it had. -/
theorem Change.pairsOf_eq (hl : Layout.Laid heap.cells.get? φ) (hc : Change heap φ w heap' φ')
    (hb : heap.cells.get? b = some (.head link)) (hw : w ≠ some b) :
    pairsOf (φ' b) = pairsOf (φ b) := by
  cases hc with
  | thinned => rfl
  | string => rfl
  | @array h cells hal =>
    have hbh : b ≠ h := by rintro rfl; simp [Pool.get?, hal.vacant] at hb
    rw [Function.update_of_ne hbh]
  | @set a _ _ _ _ ha ho =>
    have hba : b ≠ a := by rintro rfl; exact hw ha
    cases ho with
    | rejected => rfl
    | replaced head _ find =>
      -- The element that was found is in another chain.
      refine congrArg pairsOf (Layout.Chain.revalue_of_not_mem fun hm => ?_)
      obtain ⟨p, hp, rfl⟩ := List.mem_map.1 hm
      exact hba (hl.disjoint hb head hp (List.mem_of_find?_eq_some find))
    | inserted => rw [Function.update_of_ne hba]
  | @remove a _ _ _ ha ho =>
    have hba : b ≠ a := by rintro rfl; exact hw ha
    cases ho with
    | rejected => rfl
    | absent => rfl
    | taken => rw [Function.update_of_ne hba]

/-- The keys that an array has afterwards are what they were before. -/
theorem Change.accepts_eq (hk : heap.Booked φ m pins gone) (hd : heap.Keyed φ)
    (hc : Change heap φ w heap' φ') (hk' : heap'.Booked φ' m' pins' gone)
    (ha : heap'.cells.get? a = some (.head link)) (s : Scalar) :
    ∀ p ∈ pairsOf (φ' a), heap'.accepts s p.1 = heap.accepts s p.1 := by
  intro p hp
  obtain ⟨h, e, hm, rfl⟩ := mem_pairsOf hp
  obtain ⟨t, ht⟩ :=
    (hc.distinct_before hk.laid hd ha).scalar e.key (List.mem_map.2 ⟨_, hm, rfl⟩)
  have hst : e.key ∈ heap'.stored :=
    mem_stored (hk'.laid.element ha hm) (by simp [Cell.values])
  rw [accepts, accepts, keyMatches_eq ht,
    keyMatches_eq (hk'.scalar_kept hc.sameTexts hk.stale hst ht)]

/-! ### Distinct keys -/

/-- Keys that are the same are accepted by the same elements. -/
theorem Distinct.accepts_same (hd : heap.Distinct (Layout.keys xs)) (hst : s.same t = true) :
    ∀ p ∈ pairsOf xs, heap.accepts t p.1 = heap.accepts s p.1 := by
  intro p hp
  obtain ⟨h, e, hm, rfl⟩ := mem_pairsOf hp
  obtain ⟨r, hr⟩ := hd.scalar e.key (List.mem_map.2 ⟨_, hm, rfl⟩)
  rw [accepts, accepts, keyMatches_eq hr, keyMatches_eq hr, Scalar.same_congr hst]

/-- Keys that are not the same are accepted by no common element. -/
theorem Distinct.accepts_other (hd : heap.Distinct (Layout.keys xs)) (hst : s.same t = false) :
    ∀ p ∈ pairsOf xs, heap.accepts s p.1 = true → heap.accepts t p.1 = false := by
  intro p hp
  obtain ⟨h, e, hm, rfl⟩ := mem_pairsOf hp
  obtain ⟨r, hr⟩ := hd.scalar e.key (List.mem_map.2 ⟨_, hm, rfl⟩)
  rw [accepts, accepts, keyMatches_eq hr, keyMatches_eq hr]
  exact fun hrs => (Scalar.same_congr_left hrs t).trans hst

/-- No two keys are accepted. -/
theorem Distinct.accepts_once (hd : heap.Distinct (Layout.keys xs)) (s : Scalar) :
    (pairsOf xs).Pairwise fun p p' => heap.accepts s p.1 = true → heap.accepts s p'.1 = false := by
  rw [pairsOf, List.pairwise_map]
  refine (List.pairwise_map.1 hd.pairwise).imp ?_
  rintro p q ⟨r, t, hr, ht, hrt⟩
  rw [accepts, accepts, keyMatches_eq hr, keyMatches_eq ht]
  exact fun hrs => by rw [Scalar.same_comm, ← Scalar.same_congr_left hrs, hrt]

/-! ### What is found afterwards -/

/-- After a change elsewhere an array is looked up with the old texts. -/
theorem Change.get?_eq (hk : heap.Booked φ m pins gone) (hd : heap.Keyed φ)
    (hc : Change heap φ w heap' φ') (hk' : heap'.Booked φ' m' pins' gone)
    (ha : heap'.cells.get? a = some (.head link)) (t : Scalar) :
    heap'.get? a t = .ok (Pairs.lookup (heap.accepts t) (pairsOf (φ' a))) := by
  rw [Heap.get?_eq hk'.laid ha, Pairs.lookup_congr (hc.accepts_eq hk hd hk' ha t)]

/-- After a key was set it leads to the value, and every other key leads where it led. -/
theorem lookup_put (hd : heap.Distinct (Layout.keys xs)) (hk : heap.scalar key = .ok s)
    (v : Value) (t : Scalar) :
    Pairs.lookup (heap.accepts t) (Pairs.put (heap.accepts s) key v (pairsOf xs)) =
      if s.same t then some v else Pairs.lookup (heap.accepts t) (pairsOf xs) := by
  have hkey : heap.accepts t key = s.same t := keyMatches_eq hk t
  split
  · next hst => exact Pairs.lookup_put_same (hd.accepts_same hst) (hkey.trans hst)
  · next hst =>
    rw [Bool.not_eq_true] at hst
    exact Pairs.lookup_put_other (hd.accepts_other hst) (hkey.trans hst)

/-- After a key was removed it leads nowhere, and every other key leads where it led. -/
theorem lookup_delete (hd : heap.Distinct (Layout.keys xs)) (s t : Scalar) :
    Pairs.lookup (heap.accepts t) (Pairs.delete (heap.accepts s) (pairsOf xs)) =
      if s.same t then none else Pairs.lookup (heap.accepts t) (pairsOf xs) := by
  split
  · next hst => exact Pairs.lookup_delete_same (hd.accepts_same hst) (hd.accepts_once s)
  · next hst =>
    rw [Bool.not_eq_true] at hst
    exact Pairs.lookup_delete_other (hd.accepts_other hst)

/-- What is found after a set: the new value under its key, and what was there under any other. -/
theorem SetOutcome.get?_eq (hk : heap.Booked φ m pins gone) (hd : heap.Keyed φ)
    (ho : SetOutcome heap φ a key v (.ok (), heap') φ') (hk' : heap'.Booked φ' m' pins' gone)
    (ha : heap.cells.get? a = some (.head w)) (ha' : heap'.cells.get? a = some (.head link))
    (hs : heap.scalar key = .ok s) (t : Scalar) :
    heap'.get? a t = if s.same t then .ok (some v) else heap.get? a t := by
  obtain ⟨s', hs', hp⟩ := ho.pairsOf_eq hk.laid
  cases hs.symm.trans hs'
  rw [(Change.set (w := some a) rfl ho).get?_eq hk hd hk' ha', hp, lookup_put (hd ha) hs,
    Heap.get?_eq hk.laid ha]
  split <;> rfl

/-- What is found after a removal: nothing under the key, and what was there under any other. -/
theorem RemoveOutcome.get?_eq {r : Except Fault Bool × Heap} (hk : heap.Booked φ m pins gone)
    (hd : heap.Keyed φ) (ho : RemoveOutcome heap φ a s r φ') (hk' : r.2.Booked φ' m' pins' gone)
    (ha : heap.cells.get? a = some (.head w)) (ha' : r.2.cells.get? a = some (.head link))
    (t : Scalar) : r.2.get? a t = if s.same t then .ok none else heap.get? a t := by
  obtain ⟨-, -, hp⟩ := ho.pairsOf_eq (live_array.2 ⟨_, ha⟩)
  rw [(Change.remove (w := some a) rfl ho).get?_eq hk hd hk' ha', hp, lookup_delete (hd ha),
    Heap.get?_eq hk.laid ha]
  split <;> rfl

namespace Holding

variable {d : Deed} {s s' : Holding} {strings cells : Nat}

/-- The array `a` is the list `ps`. -/
structure Refines (s : Holding) (a : Handle) (ps : Pairs) : Prop where
  lists : ∀ qs, s.heap.Lists a qs ↔ ps = qs
  elements : (s.heap.elements a).map (List.map fun e => (e.key, e.value)) = .ok ps
  size : s.heap.size a = .ok ps.length
  get : ∀ t, s.heap.get? a t = .ok (Pairs.lookup (s.heap.accepts t) ps)
  /-- Fetching gives a copy of the value, which is to be live and whose count has to fit. -/
  fetch : ∀ key t v, s.heap.scalar key = .ok t → Pairs.lookup (s.heap.accepts t) ps = some v →
    s.heap.isLive v = true → (∀ n, s.heap.refs? v = some n → n + 1 < UInt32.size) →
    ∃ heap', s.heap.fetch a key = (.ok (some v), heap') ∧ s.heap.Retains v heap'
  fetch_none : ∀ key t, s.heap.scalar key = .ok t → Pairs.lookup (s.heap.accepts t) ps = none →
    s.heap.fetch a key = (.ok none, s.heap)
  /-- Setting an element puts a pair. Then the key leads to the value. -/
  set : ∀ key v s', Step (.act (.set a key v)) s s' → (s.heap.set a key v).1 = .ok () →
    ∃ t, s.heap.scalar key = .ok t ∧ (s'.heap.Present (.array a) →
      s'.heap.Lists a (Pairs.put (s.heap.accepts t) key v ps) ∧
      ∀ t', s'.heap.get? a t' = if t.same t' then .ok (some v) else s.heap.get? a t')
  rejected : ∀ key v s' f, Step (.act (.set a key v)) s s' →
    (s.heap.set a key v).1 = .error f → s'.heap.Present (.array a) → s'.heap.Lists a ps
  /-- Removing an element deletes a pair. Then the key leads nowhere. -/
  remove : ∀ t s', Step (.act (.remove a t)) s s' →
    (s.heap.remove a t).1 = .ok (ps.any fun p => s.heap.accepts t p.1) ∧
    ((∀ p ∈ ps, s.heap.accepts t p.1 = false) → s'.heap = s.heap) ∧
    (s'.heap.Present (.array a) → s'.heap.Lists a (Pairs.delete (s.heap.accepts t) ps) ∧
      ∀ t', s'.heap.get? a t' = if t.same t' then .ok none else s.heap.get? a t')
  removeValue : ∀ key t, s.heap.scalar key = .ok t →
    s.heap.removeValue a key = s.heap.remove a t
  /-- Whatever else is done leaves the list as it is. -/
  unwritten : ∀ d s', Step d s s' → d.writes ≠ some a → s'.heap.Present (.array a) →
    s'.heap.Lists a ps
  /-- An array that is held stays. -/
  held : ∀ d s', Step d s s' → d ≠ .clear → .array a ∈ s'.owned → s'.heap.Present (.array a)

/-- The heap after an action is the one that the action leaves. -/
theorem Step.heap_eq {act : HeapAction} (h : Step (.act act) s s') :
    s'.heap = (act.perform s.heap).2 := by
  cases h
  rfl

/-- What is present and still owned is spared by an action that does not clear the heap. -/
theorem Kept.spared (hk : s.Kept φ pins) (h : Step d s s') {φ' : Handle → List (Handle × Element)}
    (hk' : s'.Kept φ' pins') (hd : d ≠ .clear) (hv : s.heap.Present v) (hm : v ∈ s'.owned) :
    s'.heap.Present v := by
  refine present_iff.2 ⟨hv.isCounted, (hk'.booked.known hm).resolve_right fun hl => ?_⟩
  rw [h.lost_eq hd] at hl
  exact absurd hv.isLive (by simp [hk.booked.stale v hl])

/-- Setting an element comes to something, and keeps the books. -/
theorem Kept.set_outcome (hk : s.Kept φ pins) (hc : s.Certain)
    (h : Step (.act (.set a key v)) s s') :
    ∃ φ', SetOutcome s.heap φ a key v ((s.heap.set a key v).1, s'.heap) φ' ∧
      s'.heap.Booked φ' s'.owned pins s.lost := by
  have hb := hk.booked
  have hs := hk.spares hc
  obtain ⟨φ', ho⟩ := Heap.set_outcome hb.cells hb.laid a key v
  refine ⟨φ', h.heap_eq ▸ ho, ?_⟩
  cases h with
  | @act _ heap rest guards lost borrows =>
    have hm : owned ⟨heap, (HeapAction.set a key v).takes + rest, guards, lost⟩ =
        {key} + ({v} + owned ⟨(heap.set a key v).2, 0 + rest, guards, lost⟩) := by
      simp only [owned, HeapAction.takes, coe_pair]
      abel
    exact Booked.set (hm ▸ hb) hs ho

/-- The pairs of the chain of a live array are what the operations read and write. -/
theorem Kept.refines_pairsOf (hk : s.Kept φ pins) (hc : s.Certain)
    (ha : s.heap.cells.get? a = some (.head link)) : Refines s a (pairsOf (φ a)) := by
  have hb := hk.booked
  refine {
    lists := fun qs => lists_iff hb.laid ha
    elements := ?_
    size := ?_
    get := Heap.get?_eq hb.laid ha
    fetch := fun key t v ht hv hlive hfits => ?_
    fetch_none := fun key t ht hv => by rw [fetch_eq hb.laid ha ht, hv]
    set := fun key v s' h hr => ?_
    rejected := fun key v s' f h hr ha' => ?_
    remove := fun t s' h => ?_
    removeValue := fun key t ht => ?_
    unwritten := fun d s' h hw ha' => ?_
    held := fun d s' h hd hm => ?_ }
  · rw [elements_eq hb.laid ha, Except.map, List.map_map]
    rfl
  · rw [Heap.size, elements_eq hb.laid ha, Except.map, List.length_map, pairsOf, List.length_map]
  · obtain ⟨heap', hr, hcopy⟩ := exists_retain hlive hfits
    exact ⟨heap', by rw [fetch_eq hb.laid ha ht, hv]; simp only [hr]; rfl, hcopy⟩
  · obtain ⟨φ', ho, hk'⟩ := hk.set_outcome hc h
    rw [hr] at ho
    obtain ⟨t, ht, hp⟩ := ho.pairsOf_eq hb.laid
    refine ⟨t, ht, ?_⟩
    rintro ⟨l, ha'⟩
    exact ⟨(lists_iff hk'.laid ha').2 hp, ho.get?_eq hb hk.keyed hk' ha ha' ht⟩
  · obtain ⟨φ', ho, hk'⟩ := hk.set_outcome hc h
    rw [hr] at ho
    obtain ⟨l, ha'⟩ := ha'
    exact (lists_iff hk'.laid ha').2 (by rw [ho.eq_of_error])
  · obtain ⟨φ', ho⟩ := remove_outcome hb.laid a t
    have hk' := hb.remove ho
    obtain ⟨hr, hn, hp⟩ := ho.pairsOf_eq (live_array.2 ⟨_, ha⟩)
    have hs' : s'.heap = (s.heap.remove a t).2 := h.heap_eq
    rw [hs']
    refine ⟨hr, hn, ?_⟩
    rintro ⟨l, ha'⟩
    exact ⟨(lists_iff hk'.laid ha').2 hp, ho.get?_eq hb hk.keyed hk' ha ha'⟩
  · rw [Heap.removeValue, ht]
  · have hd : d ≠ .clear := by
      rintro rfl
      cases h
      exact not_present_clear hb.strings hb.cells _ ha'
    obtain ⟨φ', hch, hk'⟩ := h.change hk hc hd
    obtain ⟨l, ha'⟩ := ha'
    exact (lists_iff hk'.booked.laid ha').2 (hch.pairsOf_eq hb.laid ha hw)
  · obtain ⟨φ', hch, hk'⟩ := h.change hk hc hd
    exact hk.spared h hk' hd ⟨_, ha⟩ hm

/-- Strings that stay live keep their texts. -/
theorem Step.sameTexts (h : Step d s s') (hk : s.Kept φ pins) (hc : s.Certain) :
    s.heap.SameTexts s'.heap := by
  by_cases hd : d = .clear
  · subst hd
    cases h
    intro k text text' _ hk'
    exact absurd ⟨text', hk'⟩ (not_present_clear hk.booked.strings hk.booked.cells (.str k))
  · obtain ⟨φ', hch, -⟩ := h.change hk hc hd
    exact hch.sameTexts

/-- In every state that is reached from an empty heap every array is a list of keys and values, and
    whatever is done changes no other list and no text. -/
theorem Reached.refines (h : Reached strings cells s) (hc : s.Certain) :
    (∀ a, s.heap.Present (.array a) → ∃ ps, Refines s a ps) ∧
      ∀ d s', Step d s s' → s.heap.SameTexts s'.heap := by
  obtain ⟨φ, pins, hk⟩ := h.kept hc
  exact ⟨fun a ⟨link, ha⟩ => ⟨_, hk.refines_pairsOf hc ha⟩, fun d s' hs => hs.sameTexts hk hc⟩

/-- The array in `mirror` is one pair, and empty when its key was removed. -/
theorem mirror_refines : mirror.Refines ⟨0, 0⟩ [(.str ⟨0, 0⟩, .str ⟨0, 0⟩)] ∧
    (mirror.does (.remove ⟨0, 0⟩ (.str "glass")) {.array ⟨0, 0⟩}).heap.Lists ⟨0, 0⟩ [] := by
  obtain ⟨ps, h⟩ := (Reached.refines mirror_reached (.inl rfl)).1 ⟨0, 0⟩ ⟨some ⟨1, 0⟩, by rfl⟩
  have he : (mirror.heap.elements ⟨0, 0⟩).map (List.map fun e => (e.key, e.value)) =
    .ok [(.str ⟨0, 0⟩, .str ⟨0, 0⟩)] := by rfl
  cases h.elements.symm.trans he
  have hs : Step _ mirror (mirror.does (.remove ⟨0, 0⟩ (.str "glass")) {.array ⟨0, 0⟩}) :=
    .does (by decide +kernel) (by decide +kernel)
  have hp : Pairs.delete (mirror.heap.accepts (.str "glass"))
      [(.str ⟨0, 0⟩, .str ⟨0, 0⟩)] = [] := by decide +kernel
  refine ⟨h, hp ▸ ((h.remove _ _ hs).2.2 ?_).1⟩
  exact h.held _ _ hs (by rintro ⟨⟩) (by decide +kernel)

/-- A text was lost when the heap was cleared, and stored in an array afterwards. -/
def heirloom : Holding :=
  let lost : Value := .str ⟨0, 0⟩
  let array : Value := .array ⟨0, 0⟩
  (start 1 2).does (.allocScalar (.str "glass")) 0
    |>.cleared
    |>.does .allocArray {lost}
    |>.counts 0
    |>.does (.set ⟨0, 0⟩ (.int 0) lost) {array}

/-- The pair in `heirloom` is found, but its value cannot be copied. The array in `torn` is no list
    of pairs at all. -/
theorem torn_unrefined :
    (Reached 1 2 heirloom ∧ heirloom.heap.get? ⟨0, 0⟩ (.int 0) = .ok (some (.str ⟨0, 0⟩)) ∧
      (heirloom.heap.fetch ⟨0, 0⟩ (.int 0)).1 =
        .error (.aborted (.retainsLive .string ⟨0, 0⟩))) ∧
    Reached 1 2 torn ∧ torn.heap.Present (.array ⟨1, 0⟩) ∧ ¬∃ ps, torn.heap.Lists ⟨1, 0⟩ ps := by
  have hheirloom : Reached 1 2 heirloom := by
    have h : Reached 1 2 (start 1 2) := .refl
    refine (((h.does ?_ ?_).cleared.does ?_ ?_).counts 0).does ?_ ?_
    all_goals decide +kernel
  refine ⟨⟨hheirloom, by decide +kernel, by decide +kernel⟩, torn_reached, ⟨_, torn_head⟩, ?_⟩
  rintro ⟨ps, link, xs, ha, hx, -⟩
  obtain rfl := Cell.head.inj (Option.some.inj (torn_head.symm.trans ha))
  cases hx with
  | cons he => cases torn_element.symm.trans he

end Holding

end PoolScript.Heap
