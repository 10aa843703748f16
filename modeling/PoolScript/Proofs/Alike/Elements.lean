import PoolScript.Proofs.Alike.Heap

/-!
# Arrays that are alike

In heaps that are alike, arrays that go together have the same elements, one by one: the
chain that the links of the one array lead along goes together with the chain of the other
(`Heap.Alike.chain`). Slots may be taken up in another order and in another number, so the
walks along two such chains need not be cut short at the same length. They are not cut short
at all where every array of the first heap has a chain (`Heap.Chained`).

So whatever is read from arrays that go together is the same, and whatever is done to them
keeps the heaps alike.
-/

namespace PoolScript

theorem forall₂_map_eq {α β γ : Type} {R : α → β → Prop} {f : α → γ} {g : β → γ} {as : List α}
    {bs : List β} (h : List.Forall₂ R as bs) (hfg : ∀ {a b}, R a b → f a = g b) :
    as.map f = bs.map g := by
  induction h with
  | nil => rfl
  | cons hab _ ih => rw [List.map_cons, List.map_cons, hfg hab, ih]

/-- Elements that go together, in cells that do. -/
def Located (ρ : Pairing) (p q : Handle × Element) : Prop :=
  ρ.cells p.1 q.1 ∧ p.2.Alike ρ q.2

namespace Heap

/-- Every array has a chain. -/
def Chained (heap : Heap) : Prop :=
  ∀ a link, heap.cells.get? a = some (.head link) → ∃ xs, Layout.Chain heap.cells.get? link xs

variable {κ : Likeness} {ρ : Pairing} {a b : Heap} {v w v' w' : Value} {g h k : Handle}
  {e e' : Element} {l l' : Option Handle} {xs : List (Handle × Element)} {es : List Element}

/-- Where the books are kept every array has a chain. -/
theorem Balanced.chained {m : Multiset Value} {pins : Set Value} (hb : a.Balanced m pins) :
    a.Chained := fun _ _ ha =>
  let ⟨φ, hl⟩ := hb.laid
  ⟨φ _, hl.chain ha⟩

/-- So it has after something was fetched, be it that the count did not fit. -/
theorem Balanced.chained_fetch {m : Multiset Value} {pins : Set Value} (hb : a.Balanced m pins)
    (h : Handle) (key : Value) : (a.fetch h key).2.Chained := fun _ _ ha =>
  let ⟨φ, _, _, hk⟩ := hb.booked
  ⟨φ _, (hk.fetch h key).laid.chain ha⟩

theorem Chained.allocScalar (hc : a.Chained) (s : Scalar) : (a.allocScalar s).2.Chained := by
  cases s <;> exact hc

/-- A new array has an empty chain. -/
theorem Chained.allocArray (hw : a.cells.WellFormed) (hc : a.Chained) : a.allocArray.2.Chained := by
  rcases hw.alloc_cases (.head none) with ⟨i, p, hp, hal⟩ | ⟨hp, -⟩
  · simp only [Heap.allocArray, hp]
    intro j link hj
    have hget : p.get? = Function.update a.cells.get? i (some (.head none)) :=
      Pool.get?_update hal.entry?
    change p.get? j = _ at hj
    change ∃ xs, Layout.Chain p.get? link xs
    rw [hget] at hj ⊢
    by_cases hji : j = i
    · subst hji
      rw [Function.update_self] at hj
      cases hj
      exact ⟨[], .nil⟩
    · rw [Function.update_of_ne hji] at hj
      obtain ⟨xs, hx⟩ := hc j link hj
      refine ⟨xs, hx.congr fun q hq => Function.update_of_ne ?_ ..⟩
      -- The new cell is in no chain, since its handle led nowhere.
      rintro rfl
      have hv : a.cells.get? q.1 = none := by simp [Pool.get?, hal.vacant]
      cases hv.symm.trans (hx.element hq)
  · simp only [Heap.allocArray, hp]
    exact hc

namespace Alike

/-! ### Cells -/

/-- What is an element on the one side is one on the other. -/
theorem element? (hab : a.Alike κ ρ b) (hh : ρ.cells h k) :
    Option.Rel (Element.Alike ρ) (a.element? h) (b.element? k) := by
  have hc := hab.cells.get? hh
  simp only [Heap.element?]
  generalize a.cells.get? h = x at hc ⊢
  generalize b.cells.get? k = y at hc ⊢
  cases hc with
  | none => exact .none
  | some hc =>
    cases hc with
    | head => exact .none
    | element he => exact .some he

theorem next? (hab : a.Alike κ ρ b) (hh : ρ.cells h k) :
    Option.Rel ρ.cells (a.next? h) (b.next? k) :=
  (hab.element? hh).bind fun he => he.next

/-- Arrays that go together lead to elements that do. -/
theorem first (hab : a.Alike κ ρ b) (hh : ρ.cells h k) :
    Except.Rel (Option.Rel ρ.cells) (a.first h) (b.first k) := by
  have hc := hab.cells.get? hh
  simp only [Heap.first]
  generalize a.cells.get? h = x at hc ⊢
  generalize b.cells.get? k = y at hc ⊢
  cases hc with
  | none => exact .error _
  | some hc =>
    cases hc with
    | head hl => exact .ok hl
    | element => exact .error _

/-- The key and the value of an element are copied on both sides, or a count runs over on both. -/
theorem entry (hab : a.Alike κ ρ b) (hh : ρ.cells h k) {m : Multiset Value} {pins : Set Value}
    (hb : a.Balanced m pins) :
    Agree κ (fun ρ => Option.Rel fun p q => p.1.Alike ρ q.1 ∧ p.2.Alike ρ q.2) (Heap.Alike κ) ρ
      (a.entry h) (b.entry k) := by
  have he := hab.element? hh
  simp only [Heap.entry]
  cases ha : a.element? h with
  | none =>
    rw [ha] at he
    generalize b.element? k = y at he ⊢
    cases he
    exact .ok le_rfl .none hab
  | some e =>
    rw [ha] at he
    generalize b.element? k = y at he ⊢
    cases he with
    | some he =>
      have hcell := element?_eq_some.1 ha
      have hkey := hab.retain he.key (hb.live_key hcell).isLive
      rcases a.retain_cases e.key with ⟨a', hr, hretains⟩ | ⟨_, hr, -⟩
      · have hlive := hretains.live (hb.live_value hcell)
        rw [hr] at hkey
        simp only [hr]
        generalize Heap.retain _ b = r at hkey ⊢
        cases hkey with
        | ok hle hk hab' =>
          have hvalue := hab'.retain (he.value.mono hle) hlive.isLive
          dsimp only
          generalize Heap.retain _ a' = r at hvalue ⊢
          generalize Heap.retain _ _ = r' at hvalue ⊢
          cases hvalue with
          | halted hκ hf => exact .halted hκ hf
          | error f hle' hs => exact .error f (hle.trans hle') (hs.release (hk.mono hle'))
          | ok hle' hv hs => exact .ok (hle.trans hle') (.some ⟨hk.mono hle', hv⟩) hs
      · rw [hr] at hkey
        simp only [hr]
        generalize Heap.retain _ b = r at hkey ⊢
        cases hkey with
        | halted hκ hf => exact .halted hκ hf
        | error _ hle hs => exact .error _ hle hs

/-! ### Strings -/

theorem str (hab : a.Alike κ ρ b) (hh : ρ.strings h k) : a.str h = b.str k := by
  rw [Heap.str, Heap.str, (hab.strings.get? hh).eq]

theorem text? (hab : a.Alike κ ρ b) (hv : v.Alike ρ w) : a.text? v = b.text? w := by
  cases hv with
  | str hh => exact (hab.strings.get? hh).eq
  | _ => rfl

/-- Keys that go together are the same scalar, since their texts are the same. -/
theorem scalar (hab : a.Alike κ ρ b) (hv : v.Alike ρ w) : a.scalar v = b.scalar w := by
  cases hv with
  | str hh => rw [Heap.scalar, Heap.scalar, hab.str hh]
  | _ => rfl

/-- So they match the same keys. -/
theorem keyMatches (hab : a.Alike κ ρ b) (hv : v.Alike ρ w) (key : Scalar) :
    a.keyMatches v key = b.keyMatches w key := by
  cases hv with
  | str hh =>
    cases key with
    | str text => simp only [Heap.keyMatches, (hab.strings.get? hh).eq]
    | _ => rfl
  | _ => cases key <;> rfl

/-! ### Chains -/

/-- The chains that links lead along go together if the links do. -/
theorem chain (hab : a.Alike κ ρ b) (hl : Option.Rel ρ.cells l l')
    (hx : Layout.Chain a.cells.get? l xs) :
    ∃ ys, Layout.Chain b.cells.get? l' ys ∧ List.Forall₂ (Located ρ) xs ys := by
  induction hx generalizing l' with
  | nil =>
    cases hl
    exact ⟨[], .nil, .nil⟩
  | @cons h e xs he _ ih =>
    cases hl with
    | @some _ k hh =>
      have he' := hab.element? hh
      rw [element?_eq_some.2 he] at he'
      generalize hk : b.element? k = y at he'
      cases he' with
      | some he' =>
        obtain ⟨ys, hy, hxy⟩ := ih he'.next
        exact ⟨(k, _) :: ys, .cons (element?_eq_some.1 hk) hy, .cons ⟨hh, he'⟩ hxy⟩

/-- Arrays that go together have chains that go together, or both are none. -/
theorem array (hab : a.Alike κ ρ b) (hc : a.Chained) (hh : ρ.cells h k) :
    (∃ l l' xs ys, a.first h = .ok l ∧ b.first k = .ok l' ∧ Option.Rel ρ.cells l l' ∧
      Layout.Chain a.cells.get? l xs ∧ Layout.Chain b.cells.get? l' ys ∧
        List.Forall₂ (Located ρ) xs ys) ∨
    ∃ f, a.first h = .error f ∧ b.first k = .error f := by
  have hf := hab.first hh
  generalize ha : a.first h = x at hf ⊢
  generalize b.first k = y at hf ⊢
  cases hf with
  | ok hl =>
    obtain ⟨xs, hx⟩ := hc _ _ (first_eq_ok.1 ha)
    obtain ⟨ys, hy, hxy⟩ := hab.chain hl hx
    exact .inl ⟨_, _, xs, ys, rfl, rfl, hl, hx, hy, hxy⟩
  | error f => exact .inr ⟨f, rfl, rfl⟩

/-- The elements that are visited go together in turn. -/
theorem elements (hab : a.Alike κ ρ b) (hc : a.Chained) (hh : ρ.cells h k) :
    Except.Rel (List.Forall₂ (Element.Alike ρ)) (a.elements h) (b.elements k) := by
  simp only [Heap.elements]
  rcases hab.array hc hh with ⟨l, l', xs, ys, ha, hb, -, hx, hy, hxy⟩ | ⟨f, ha, hb⟩
  · rw [ha, hb]
    refine .ok ?_
    rw [elementsFrom_eq hx (length_le_longest hx), elementsFrom_eq hy (length_le_longest hy),
      List.forall₂_map_left_iff, List.forall₂_map_right_iff]
    exact hxy.imp fun _ _ hp => hp.2
  · rw [ha, hb]
    exact .error f

theorem size (hab : a.Alike κ ρ b) (hc : a.Chained) (hh : ρ.cells h k) : a.size h = b.size k := by
  have he := hab.elements hc hh
  simp only [Heap.size]
  generalize a.elements h = x at he ⊢
  generalize b.elements k = y at he ⊢
  cases he with
  | ok he => exact congrArg Except.ok he.length_eq
  | error f => rfl

/-- A key is found in elements that go together, or in none. -/
theorem find (hab : a.Alike κ ρ b) (hc : a.Chained) (hh : ρ.cells h k) (key : Scalar) :
    Except.Rel (Option.Rel (Located ρ)) (a.find h key) (b.find k key) := by
  simp only [Heap.find]
  rcases hab.array hc hh with ⟨l, l', xs, ys, ha, hb, -, hx, hy, hxy⟩ | ⟨f, ha, hb⟩
  · rw [ha, hb]
    dsimp only
    rw [findFrom_eq hx (length_le_longest hx), findFrom_eq hy (length_le_longest hy)]
    refine .ok ?_
    clear hx hy
    -- The first elements with the key are found at the same place of both chains.
    induction hxy with
    | nil => exact .none
    | cons hp _ ih =>
      rw [List.find?_cons, List.find?_cons, hab.keyMatches hp.2.key key]
      split
      · exact .some hp
      · exact ih
  · rw [ha, hb]
    exact .error f

/-- What is searched for is the same scalar on both sides. -/
theorem findValue (hab : a.Alike κ ρ b) (hc : a.Chained) (hh : ρ.cells h k) (hv : v.Alike ρ w) :
    Except.Rel (Option.Rel (Located ρ)) (a.findValue h v) (b.findValue k w) := by
  simp only [Heap.findValue]
  rw [hab.scalar hv]
  split
  · exact hab.find hc hh _
  · exact .error _

/-- The value that is found is copied on both sides, or its count runs over on both. -/
theorem fetch (hab : a.Alike κ ρ b) (hh : ρ.cells h k) (hv : v.Alike ρ w) {m : Multiset Value}
    {pins : Set Value} (hb : a.Balanced m pins) :
    Agree κ (fun ρ => Option.Rel (Value.Alike ρ)) (Heap.Alike κ) ρ (a.fetch h v) (b.fetch k w) := by
  have hf := hab.findValue hb.chained hh hv
  simp only [Heap.fetch]
  generalize ha : a.findValue h v = x at hf ⊢
  generalize b.findValue k w = y at hf ⊢
  cases hf with
  | error f => exact .error f le_rfl hab
  | ok hp =>
    cases hp with
    | none => exact .ok le_rfl .none hab
    | @some p q hp =>
      have hlive := hb.live_value (element?_eq_some.1 (element?_of_findValue ha))
      have hcopy := hab.retain hp.2.value hlive.isLive
      dsimp only
      generalize Heap.retain _ a = r at hcopy ⊢
      generalize Heap.retain _ b = r' at hcopy ⊢
      cases hcopy with
      | halted hκ hf => exact .halted hκ hf
      | error f hle hs => exact .error f hle hs
      | ok hle hv hs => exact .ok hle (.some hv) hs

theorem get? (hab : a.Alike κ ρ b) (hc : a.Chained) (hh : ρ.cells h k) (key : Scalar) :
    Except.Rel (Option.Rel (Value.Alike ρ)) (a.get? h key) (b.get? k key) := by
  have hf := hab.find hc hh key
  simp only [Heap.get?]
  generalize a.find h key = x at hf ⊢
  generalize b.find k key = y at hf ⊢
  cases hf with
  | ok hp => exact .ok (hp.map fun hp => hp.2.value)
  | error f => exact .error f

/-- The cells that lead to cells that go together go together. -/
theorem leadingTo (hab : a.Alike κ ρ b) (hx : Layout.Chain a.cells.get? l xs)
    (hl : Option.Rel ρ.cells l l') {i j : Handle} (hij : ρ.cells i j) (hh : ρ.cells h k)
    {n n' : Nat} (hn : xs.length ≤ n) (hn' : xs.length ≤ n') :
    Option.Rel ρ.cells (a.leadingTo h n i l) (b.leadingTo k n' j l') := by
  induction hx generalizing l' i j n n' with
  | nil =>
    cases hl
    cases n <;> cases n' <;> exact .none
  | @cons g e xs he _ ih =>
    cases hl with
    | @some _ g' hg =>
      -- Neither walk is cut short here: both lengths are those of chains with `g` in them.
      obtain ⟨n, rfl⟩ := Nat.exists_eq_add_of_le' (Nat.le_trans (Nat.le_add_left 1 _) hn)
      obtain ⟨n', rfl⟩ := Nat.exists_eq_add_of_le' (Nat.le_trans (Nat.le_add_left 1 _) hn')
      have hnext : a.next? g = e.next := by simp [Heap.next?, element?_eq_some.2 he]
      have hnext' := hab.next? hg
      rw [hnext] at hnext'
      rw [Heap.leadingTo, Heap.leadingTo, hnext]
      by_cases hgh : g = h
      · rw [if_pos hgh, if_pos ((hab.cells.eq_iff hg hh).1 hgh)]
        exact .some hij
      · rw [if_neg hgh, if_neg fun hgk => hgh ((hab.cells.eq_iff hg hh).2 hgk)]
        exact ih hnext' hg (Nat.le_of_succ_le_succ hn) (Nat.le_of_succ_le_succ hn')

/-! ### Writing -/

/-- Cells that go together are changed alike. -/
theorem modifyCell (hab : a.Alike κ ρ b) (hh : ρ.cells h k) {f f' : Cell → Cell}
    (hf : ∀ {c d}, c.Alike ρ d → (f c).Alike ρ (f' d)) :
    (a.modifyCell h f).Alike κ ρ (b.modifyCell k f') :=
  ⟨hab.strings, hab.cells.modify hh hf⟩

/-- An element is inserted on both sides, or it is given back where there is no room. -/
theorem insertOrRelease (hab : a.Alike κ ρ b) (hy : Ready κ a b) (hh : ρ.cells h k)
    (hl : Option.Rel ρ.cells l l') (hv : v.Alike ρ w) (hv' : v'.Alike ρ w') :
    Agree κ Pairing.Same (Heap.Alike κ) ρ (a.insertOrRelease h l v v')
      (b.insertOrRelease k l' w w') := by
  have hyc : κ.renames = true → a.cells.Young ∧ b.cells.Young := fun hκ =>
    ⟨(hy hκ).1.cells, (hy hκ).2.cells⟩
  have he : Cell.Alike ρ (.element ⟨v, v', l⟩) (.element ⟨w, w', l'⟩) := .element ⟨hv, hv', hl⟩
  rcases hab.cells.alloc hyc he with ⟨i, j, p, q, hp, hq, hpq⟩ | ⟨f, hp, hf, hq⟩
  · simp only [Heap.insertOrRelease, Heap.insertFirst, hp, hq]
    let ρ' : Pairing := ⟨ρ.strings, fun i' j' => ρ.cells i' j' ∨ i' = i ∧ j' = j⟩
    have hle : ρ ≤ ρ' := ⟨le_rfl, fun _ _ => .inl⟩
    have hpq' : p.Alike κ (Cell.Alike ρ') ρ'.cells q := hpq.mono fun hc => hc.mono hle
    have hi : ρ'.cells i j := .inr ⟨rfl, rfl⟩
    exact .ok hle rfl ⟨hab.strings, hpq'.modify (.inl hh) fun hc => hc.withNext (.some hi)⟩
  · simp only [Heap.insertOrRelease, Heap.insertFirst, hp]
    rcases hq with hκ | hq
    · exact .halted hκ (.inl hf)
    · rw [hq]
      exact .error f le_rfl (hab.releaseAll (.cons hv (.cons hv' .nil)))

/-- A value is exchanged on both sides, or an element is inserted. -/
theorem set (hab : a.Alike κ ρ b) (hy : Ready κ a b) (hc : a.Chained) (hh : ρ.cells h k)
    (hv : v.Alike ρ w) (hv' : v'.Alike ρ w') :
    Agree κ Pairing.Same (Heap.Alike κ) ρ (a.set h v v') (b.set k w w') := by
  have hf := hab.findValue hc hh hv
  have hr := hab.releaseAll (.cons hv (.cons hv' .nil))
  simp only [Heap.set_eq]
  generalize a.findValue h v = x at hf ⊢
  generalize b.findValue k w = y at hf ⊢
  cases hf with
  | error f => exact .error f le_rfl hr
  | ok hp =>
    cases hp with
    | some hp =>
      refine .ok le_rfl rfl (releaseAll (modifyCell hab hp.1 fun _ => ?_) ?_)
      · exact .element ⟨hp.2.key, hv', hp.2.next⟩
      · exact .cons hp.2.value (.cons hv .nil)
    | none =>
      have hl := hab.first hh
      dsimp only
      generalize a.first h = x at hl ⊢
      generalize b.first k = y at hl ⊢
      cases hl with
      | ok hl => exact hab.insertOrRelease hy hh hl hv hv'
      | error f => exact .error f le_rfl hr

/-- The links that lead to the element are led around it. -/
theorem unlink (hab : a.Alike κ ρ b) (hx : Layout.Chain a.cells.get? l xs)
    (hl : Option.Rel ρ.cells l l') {i j : Handle} (hij : ρ.cells i j) (hh : ρ.cells h k)
    (he : e.Alike ρ e') :
    Agree κ Pairing.Same (Heap.Alike κ) ρ (a.unlink i l h e) (b.unlink j l' k e') := by
  -- Both walks are as long as their pools have slots, which is enough for either chain.
  obtain ⟨ys, hy, hxy⟩ := hab.chain hl hx
  have hn' : xs.length ≤ b.longest := hxy.length_eq.trans_le (length_le_longest hy)
  have hb := hab.leadingTo hx hl hij hh (length_le_longest hx) hn'
  simp only [Heap.unlink]
  generalize a.leadingTo h _ _ _ = x at hb ⊢
  generalize b.leadingTo k _ _ _ = y at hb ⊢
  cases hb with
  | none => exact .error _ le_rfl hab
  | some hb =>
    have hm := hab.modifyCell hb fun hc => hc.withNext he.next
    exact .ok le_rfl rfl
      (releaseAll ⟨hm.strings, (hm.cells.reclaim hh).2⟩ (.cons he.key (.cons he.value .nil)))

/-- The element that is removed is the same one, and what it held is given back. -/
theorem remove (hab : a.Alike κ ρ b) (hc : a.Chained) (hh : ρ.cells h k) (key : Scalar) :
    Agree κ Pairing.Same (Heap.Alike κ) ρ (a.remove h key) (b.remove k key) := by
  have hf := hab.find hc hh key
  simp only [Heap.remove]
  generalize a.find h key = x at hf ⊢
  generalize b.find k key = y at hf ⊢
  cases hf with
  | error f => exact .error f le_rfl hab
  | ok hp =>
    cases hp with
    | none => exact .ok le_rfl rfl hab
    | @some p q hp =>
      rcases hab.array hc hh with ⟨l, l', xs, ys, ha, hb, hl, hx, -, -⟩ | ⟨f, ha, hb⟩
      · have hu := hab.unlink hx hl hh hp.1 hp.2
        simp only [ha, hb]
        generalize a.unlink h l p.1 p.2 = r at hu ⊢
        generalize b.unlink k l' q.1 q.2 = r' at hu ⊢
        cases hu with
        | halted hκ hf => exact .halted hκ hf
        | error f hle hs => exact .error f hle hs
        | ok hle _ hs => exact .ok hle rfl hs
      · simp only [ha, hb]
        exact .error f le_rfl hab

theorem removeValue (hab : a.Alike κ ρ b) (hc : a.Chained) (hh : ρ.cells h k) (hv : v.Alike ρ w) :
    Agree κ Pairing.Same (Heap.Alike κ) ρ (a.removeValue h v) (b.removeValue k w) := by
  simp only [Heap.removeValue]
  rw [hab.scalar hv]
  split
  · exact hab.remove hc hh _
  · exact .error _ le_rfl hab

/-! ### Text and views -/

theorem innerText (hab : a.Alike κ ρ b) (hv : v.Alike ρ w) : a.innerText v = b.innerText w := by
  have hs := hab.scalar hv
  cases hv with
  | array => rfl
  | _ => exact congrArg (Except.map Scalar.text) hs

theorem elementText (hab : a.Alike κ ρ b) (he : e.Alike ρ e') :
    a.elementText e = b.elementText e' := by
  rw [Heap.elementText, Heap.elementText, hab.innerText he.key, hab.innerText he.value]

/-- What is shown has no handles. -/
theorem display (hab : a.Alike κ ρ b) (hc : a.Chained) (hv : v.Alike ρ w) :
    a.display v = b.display w := by
  have hs := hab.scalar hv
  cases hv with
  | @array h k hh =>
    have he := hab.elements hc hh
    simp only [Heap.display]
    generalize a.elements h = x at he ⊢
    generalize b.elements k = y at he ⊢
    cases he with
    | error f => rfl
    | @ok es es' he =>
      have htexts : es.mapM a.elementText = es'.mapM b.elementText := by
        induction he with
        | nil => rfl
        | cons he _ ih => rw [List.mapM_cons, List.mapM_cons, hab.elementText he, ih]
      exact congrArg (Except.map _) htexts
  | _ => exact congrArg (Except.map Scalar.text) hs

/-- Nor has what a host function is shown. -/
theorem view (hab : a.Alike κ ρ b) (hc : a.Chained) (depth : Nat) (hv : v.Alike ρ w) :
    a.view depth v = b.view depth w := by
  induction depth using Nat.strongRec generalizing v w with
  | ind depth ih =>
    rw [Heap.view.eq_def, Heap.view.eq_def]
    cases hv with
    | int => rfl
    | float => rfl
    | str hh =>
      dsimp only
      rw [(hab.strings.get? hh).eq]
    | @array h k hh =>
      have he := hab.elements hc hh
      dsimp only
      generalize a.elements h = x at he ⊢
      generalize b.elements k = y at he ⊢
      cases he with
      | error f => rfl
      | ok he =>
        cases depth with
        | zero => rfl
        | succ depth =>
          refine congrArg View.array (forall₂_map_eq he fun he => ?_)
          rw [ih depth (Nat.lt_succ_self _) he.key, ih depth (Nat.lt_succ_self _) he.value]

end Alike

end Heap

end PoolScript
