import PoolScript.Proofs.Alike.Operate
import PoolScript.Proofs.Host.Balance

/-!
# Host functions on heaps that are alike

A host function sees no handles. Its requests are answered in the same way on heaps that are
alike, with frames whose variables go together (`HostRequest.answer_agrees`), and what it
looks at is the same (`HostLook.see_alike`). So it does the same and leaves heaps and frames
that are alike (`HostProgram.run_agrees`).

Where the second heap may have more room, a request can be granted that the first heap has no
room for, and the host function may go on in another way. It does not, if it *stops at
faults*: it raises a fault as soon as a request has failed for it.
-/

namespace PoolScript

variable {κ : Likeness} {ρ ρ' : Pairing} {v w : Value} {a b : Heap} {f g : Frame}
  {cursors cursors' : List Handle} {name : String}

/-! ### Frames -/

/-- In frames of the same function the same variables are set, to values that go together. -/
structure Frame.Alike (ρ : Pairing) (f g : Frame) : Prop where
  function : f.function = g.function
  locals : List.Forall₂ (fun e e' => e.1 = e'.1 ∧ e.2.Alike ρ e'.2)
    f.locals.entries g.locals.entries

namespace Frame.Alike

/-- More handles may go together. -/
theorem mono (hf : f.Alike ρ g) (hle : ρ ≤ ρ') : f.Alike ρ' g :=
  ⟨hf.function, hf.locals.imp fun _ _ he => ⟨he.1, he.2.mono hle⟩⟩

theorem empty (name : String) : Frame.Alike ρ (.empty name) (.empty name) :=
  ⟨rfl, .nil⟩

theorem get? (hf : f.Alike ρ g) (name : String) :
    Option.Rel (Value.Alike ρ) (f.get? name) (g.get? name) := by
  have hf := hf.locals
  simp only [Frame.get?, Table.get?]
  generalize f.locals.entries = es at hf ⊢
  generalize g.locals.entries = es' at hf ⊢
  induction hf with
  | nil => exact .none
  | @cons e e' es es' he _ ih =>
    obtain ⟨k, v⟩ := e
    obtain ⟨k', w⟩ := e'
    obtain ⟨hk, hv⟩ := he
    obtain rfl : k = k' := hk
    rw [List.lookup_cons, List.lookup_cons]
    split
    · exact .some hv
    · exact ih

theorem contains (hf : f.Alike ρ g) (name : String) : f.contains name = g.contains name := by
  have hv := hf.get? name
  change (f.get? name).isSome = (g.get? name).isSome
  generalize f.get? name = x at hv ⊢
  generalize g.get? name = y at hv ⊢
  cases hv <;> rfl

/-- A variable is bound at the same place in both frames. -/
theorem set (hf : f.Alike ρ g) (name : String) (hv : v.Alike ρ w) :
    (f.set name v).2.Alike ρ (g.set name w).2 := by
  refine ⟨hf.function, ?_⟩
  have hf := hf.locals
  change List.Forall₂ _ (Table.bind name v f.locals.entries) (Table.bind name w g.locals.entries)
  generalize f.locals.entries = es at hf ⊢
  generalize g.locals.entries = es' at hf ⊢
  induction hf with
  | nil => exact .cons ⟨rfl, hv⟩ .nil
  | @cons e e' es es' he hes ih =>
    rw [Table.bind, Table.bind, ← he.1]
    split
    · exact .cons ⟨rfl, hv⟩ hes
    · exact .cons he ih

theorem take (hf : f.Alike ρ g) (name : String) :
    (f.take name).2.Alike ρ (g.take name).2 := by
  refine ⟨hf.function, ?_⟩
  have hf := hf.locals
  change List.Forall₂ _ (Table.unbind name f.locals.entries) (Table.unbind name g.locals.entries)
  generalize f.locals.entries = es at hf ⊢
  generalize g.locals.entries = es' at hf ⊢
  induction hf with
  | nil => exact .nil
  | @cons e e' es es' he hes ih =>
    rw [Table.unbind, Table.unbind, ← he.1]
    split
    · exact hes
    · exact .cons he ih

/-- The values come in the same order. -/
theorem values (hf : f.Alike ρ g) : List.Forall₂ (Value.Alike ρ) f.values g.values := by
  simp only [Frame.values, Table.values]
  rw [List.forall₂_map_left_iff, List.forall₂_map_right_iff]
  exact hf.locals.imp fun _ _ he => he.2

end Frame.Alike

/-! ### Requests -/

namespace HostRequest

/-- Heaps and frames are alike. -/
def Alike (κ : Likeness) (ρ : Pairing) (s t : Heap × Frame) : Prop :=
  s.1.Alike κ ρ t.1 ∧ s.2.Alike ρ t.2

/-- A variable is set in both frames or in neither. -/
theorem value?_rel (hf : f.Alike ρ g) (name : String) :
    Except.Rel (Value.Alike ρ) (value? f name) (value? g name) := by
  have hv := hf.get? name
  simp only [value?]
  generalize f.get? name = x at hv ⊢
  generalize g.get? name = y at hv ⊢
  cases hv with
  | some hv => exact .ok hv
  | none => exact .error _

theorem array?_rel (hf : f.Alike ρ g) (name : String) :
    Except.Rel ρ.cells (array? f name) (array? g name) := by
  have hv := value?_rel hf name
  simp only [array?]
  generalize value? f name = x at hv ⊢
  generalize value? g name = y at hv ⊢
  cases hv with
  | error e => exact .error e
  | ok hv =>
    cases hv with
    | array hh => exact .ok hh
    | _ => exact .error _

/-- What a variable had is given back on both sides. -/
theorem bind_alike (hab : a.Alike κ ρ b) (hf : f.Alike ρ g) (name : String) (hv : v.Alike ρ w) :
    Alike κ ρ (bind name v a f) (bind name w b g) := by
  -- The value that the variable had is given back.
  refine ⟨hab.releaseAll ?_, hf.set name hv⟩
  have hold := hf.get? name
  change List.Forall₂ _ (f.get? name).toList (g.get? name).toList
  generalize f.get? name = x at hold ⊢
  generalize g.get? name = y at hold ⊢
  cases hold with
  | some hold => exact .cons hold .nil
  | none => exact .nil

/-- What could be made is bound on both sides. -/
theorem bindNew_agrees {made made' : Except Fault Value × Heap}
    (hm : Agree κ Value.Alike (Heap.Alike κ) ρ made made') (hf : f.Alike ρ g) (name : String) :
    Agree κ Pairing.Same (Alike κ) ρ (bindNew name made f) (bindNew name made' g) := by
  cases hm with
  | halted hκ he => exact .halted hκ he
  | error e hle hs => exact .error e hle ⟨hs, hf.mono hle⟩
  | ok hle hv hs => exact .ok hle rfl (bind_alike hs (hf.mono hle) name hv)

/-- What is stored is made on both sides, the key before the value. -/
theorem store_agrees (hab : a.Alike κ ρ b) (hy : Heap.Ready κ a b) (hc : a.Chained)
    (hf : f.Alike ρ g) (name : String) (key value : Scalar) :
    Agree κ Pairing.Same (Heap.Alike κ) ρ
      (store name key value a f) (store name key value b g) := by
  have hk := hab.allocScalar hy key
  have hyk := hy.allocScalar key
  have hck := Heap.Chained.allocScalar hc key
  simp only [store]
  generalize a.allocScalar key = r at hk hyk hck ⊢
  generalize b.allocScalar key = r' at hk hyk ⊢
  cases hk with
  | halted hκ he => exact .halted hκ he
  | error e hle hs => exact .error e hle hs
  | @ok ρ₁ k k' a₁ b₁ hle hk hs =>
    have hv := hs.allocScalar hyk value
    have hyv := hyk.allocScalar value
    have hcv := Heap.Chained.allocScalar hck value
    dsimp only at hv hyv hcv ⊢
    generalize a₁.allocScalar value = r at hv hyv hcv ⊢
    generalize b₁.allocScalar value = r' at hv hyv ⊢
    cases hv with
    | halted hκ he => exact .halted hκ he
    | error e hle' hs => exact .error e (hle.trans hle') (hs.release (hk.mono hle'))
    | @ok ρ₂ v v' a₂ b₂ hle' hv hs =>
      have hk := hk.mono hle'
      have hx := (hf.mono (hle.trans hle')).get? name
      -- Where the variable holds no array, both sides give the key and the value back.
      have failed (t : Option ValueType) : Agree κ Pairing.Same (Heap.Alike κ) ρ
          (.error (.arrayExpected t), a₂.releaseAll [k, v])
          ((.error (.arrayExpected t), b₂.releaseAll [k', v']) : Except Fault Unit × Heap) :=
        .error _ (hle.trans hle') (hs.releaseAll (.cons hk (.cons hv .nil)))
      dsimp only
      generalize f.get? name = x at hx ⊢
      generalize g.get? name = y at hx ⊢
      cases hx with
      | none => exact failed none
      | some hx =>
        cases hx with
        | array hh => exact (hs.set hyv hcv hh hk hv).mono (hle.trans hle')
        | _ => exact failed (some _)

/-- Storing into a variable that is not set gives nothing back. -/
theorem bind_of_not_contains (hn : f.contains name = false) (v : Value) (heap : Heap) :
    bind name v heap f = (heap, (f.set name v).2) := by
  have hg : f.get? name = none := by simpa [Frame.contains, Table.contains, Frame.get?] using hn
  simp [bind, Frame.set, hg, Heap.releaseAll, Heap.drain]

/-- An array is made for a variable that is not set on both sides. -/
theorem arraySet_agrees (hab : a.Alike κ ρ b) (hy : Heap.Ready κ a b) (hc : a.Chained)
    (hf : f.Alike ρ g) (name : String) (key value : Scalar) :
    Agree κ Pairing.Same (Alike κ) ρ ((arraySet name key value).answer a f)
      ((arraySet name key value).answer b g) := by
  simp only [answer, hf.contains name]
  cases hn : g.contains name with
  | true =>
    have hst := store_agrees hab hy hc hf name key value
    exact hst.after (f := (·, f)) (g := (·, g)) fun hle hs => ⟨hs, hf.mono hle⟩
  | false =>
    have hm := hab.allocArray hy
    have hym := hy.allocArray
    have hcm := Heap.Chained.allocArray hab.cells.left hc
    -- The new array takes the place of nothing, so the chains are still those of `allocArray`.
    simp only [bindNew, bind_of_not_contains hn,
      bind_of_not_contains ((hf.contains name).trans hn)]
    generalize a.allocArray = r at hm hym hcm ⊢
    generalize b.allocArray = r' at hm hym ⊢
    cases hm with
    | halted hκ he => exact .halted hκ he
    | error e hle hs => exact .error e hle ⟨hs, hf.mono hle⟩
    | ok hle hv hs =>
      have hf' := (hf.mono hle).set name hv
      have hst := store_agrees hs hym hcm hf' name key value
      exact (hst.after (f := (·, _)) (g := (·, _)) fun hle hs => ⟨hs, hf'.mono hle⟩).mono hle

/-- The answers have no handles, so they are the same. -/
theorem answer_agrees (hab : a.Alike κ ρ b) (hy : Heap.Ready κ a b) (hc : a.Chained)
    (hf : f.Alike ρ g) (r : HostRequest) :
    Agree κ Pairing.Same (Alike κ) ρ (r.answer a f) (r.answer b g) := by
  have hs : Alike κ ρ (a, f) (b, g) := ⟨hab, hf⟩
  cases r with
  | get name depth =>
    exact .same ((value?_rel hf name).map_eq fun hv => hab.view hc depth hv) hs
  | has name => exact .same (congrArg Except.ok (hf.contains name)) hs
  | typeOf name =>
    refine .same (congrArg Except.ok ?_) hs
    have hv := hf.get? name
    generalize f.get? name = x at hv ⊢
    generalize g.get? name = y at hv ⊢
    cases hv with
    | some hv => exact congrArg some hv.type_eq
    | none => rfl
  | getInt name =>
    have hv := value?_rel hf name
    simp only [answer]
    generalize value? f name = x at hv ⊢
    generalize value? g name = y at hv ⊢
    cases hv with
    | error e => exact .same rfl hs
    | ok hv => cases hv <;> exact .same rfl hs
  | getFloat name =>
    have hv := value?_rel hf name
    simp only [answer]
    generalize value? f name = x at hv ⊢
    generalize value? g name = y at hv ⊢
    cases hv with
    | error e => exact .same rfl hs
    | ok hv => cases hv <;> exact .same rfl hs
  | getStr name =>
    have hv := value?_rel hf name
    simp only [answer]
    generalize value? f name = x at hv ⊢
    generalize value? g name = y at hv ⊢
    cases hv with
    | error e => exact .same rfl hs
    | ok hv =>
      cases hv with
      | str hh => exact .same (hab.str hh) hs
      | _ => exact .same rfl hs
  | getText name => exact .same ((value?_rel hf name).map_eq hab.text?) hs
  | refs name => exact .same ((value?_rel hf name).map_eq hab.refs?) hs
  | live => exact .same (congrArg Except.ok (Prod.ext hab.strings.live hab.cells.live)) hs
  | setInt name n => exact .ok le_rfl rfl (bind_alike hab hf name (.int n))
  | setFloat name x => exact .ok le_rfl rfl (bind_alike hab hf name (.float x))
  | setStr name text => exact bindNew_agrees (hab.allocString hy text) hf name
  | makeArray name => exact bindNew_agrees (hab.allocArray hy) hf name
  | arrayGet name key depth =>
    have ha := array?_rel hf name
    simp only [answer]
    generalize array? f name = x at ha ⊢
    generalize array? g name = y at ha ⊢
    cases ha with
    | error e => exact .same rfl hs
    | @ok h k hh =>
      have hg := hab.get? hc hh key
      dsimp only
      generalize a.get? h key = x at hg ⊢
      generalize b.get? k key = y at hg ⊢
      cases hg with
      | error e => exact .same rfl hs
      | ok hv =>
        cases hv with
        | none => exact .same rfl hs
        | some hv => exact .same (congrArg Except.ok (hab.view hc depth hv)) hs
  | arraySet name key value => exact arraySet_agrees hab hy hc hf name key value
  | arrayRemove name key =>
    have ha := array?_rel hf name
    simp only [answer]
    generalize array? f name = x at ha ⊢
    generalize array? g name = y at ha ⊢
    cases ha with
    | error e => exact .same rfl hs
    | ok hh =>
      have hr := hab.remove hc hh key
      exact hr.after (f := (·, f)) (g := (·, g)) fun hle hs => ⟨hs, hf.mono hle⟩
  | arraySize name =>
    have ha := array?_rel hf name
    simp only [answer]
    generalize array? f name = x at ha ⊢
    generalize array? g name = y at ha ⊢
    cases ha with
    | error e => exact .same rfl hs
    | ok hh => exact .same (hab.size hc hh) hs
  | entries name depth =>
    have ha := array?_rel hf name
    simp only [answer]
    generalize array? f name = x at ha ⊢
    generalize array? g name = y at ha ⊢
    cases ha with
    | error e => exact .same rfl hs
    | ok hh =>
      refine .same ((hab.elements hc hh).map_eq fun hes => forall₂_map_eq hes fun he => ?_) hs
      rw [hab.view hc depth he.key, hab.view hc depth he.value]

end HostRequest

/-! ### Looks -/

theorem forall₂_getElem? {α β : Type} {R : α → β → Prop} {as : List α} {bs : List β}
    (h : List.Forall₂ R as bs) (i : Nat) : Option.Rel R as[i]? bs[i]? := by
  induction h generalizing i with
  | nil => exact .none
  | cons hab _ ih =>
    cases i with
    | zero => exact .some hab
    | succ i => exact ih i

namespace Place

/-- The elements are counted from the front on both sides. -/
theorem elementIn_rel (hab : a.Alike κ ρ b) (hc : a.Chained) (i : Nat) (hv : v.Alike ρ w) :
    Option.Rel (Element.Alike ρ) (elementIn a i v) (elementIn b i w) := by
  cases hv with
  | array hh =>
    have he := hab.elements hc hh
    simp only [elementIn]
    generalize a.elements _ = x at he ⊢
    generalize b.elements _ = y at he ⊢
    cases he with
    | ok hes => exact forall₂_getElem? hes i
    | error e => exact .none
  | _ => exact .none

/-- The same place has values that go together, or none. -/
theorem value?_rel (hab : a.Alike κ ρ b) (hc : a.Chained) (hf : f.Alike ρ g)
    (hcur : List.Forall₂ ρ.cells cursors cursors') (p : Place) :
    Option.Rel (Value.Alike ρ) (p.value? a f cursors) (p.value? b g cursors') := by
  induction p with
  | var name => exact hf.get? name
  | keyAt c => exact ((forall₂_getElem? hcur c).bind hab.element?).map fun he => he.key
  | valueAt c => exact ((forall₂_getElem? hcur c).bind hab.element?).map fun he => he.value
  | keyIn p i ih => exact (ih.bind (elementIn_rel hab hc i)).map fun he => he.key
  | valueIn p i ih => exact (ih.bind (elementIn_rel hab hc i)).map fun he => he.value

end Place

namespace HostLook

/-- Cursors are set to elements that go together. -/
theorem setCursor_alike {l l' : Option Handle} (hl : Option.Rel ρ.cells l l')
    (hcur : List.Forall₂ ρ.cells cursors cursors') :
    (setCursor l cursors).1 = (setCursor l' cursors').1 ∧
      List.Forall₂ ρ.cells (setCursor l cursors).2 (setCursor l' cursors').2 := by
  cases hl with
  | none => exact ⟨rfl, hcur⟩
  | some hh => exact ⟨congrArg some hcur.length_eq, List.rel_append hcur (.cons hh .nil)⟩

/-- Two values are one on both sides or on neither, for handles go together one to one. -/
theorem sameValue_eq (hab : a.Alike κ ρ b) {v' w' : Value} (hv : v.Alike ρ w)
    (hv' : v'.Alike ρ w') :
    sameValue v v' = sameValue w w' := by
  cases hv with
  | int n => cases hv' <;> rfl
  | float x => cases hv' <;> rfl
  | str hh =>
    cases hv' with
    | str hh' => exact Bool.eq_iff_iff.2 (by simpa [sameValue] using hab.strings.eq_iff hh hh')
    | _ => rfl
  | array hh =>
    cases hv' with
    | array hh' => exact Bool.eq_iff_iff.2 (by simpa [sameValue] using hab.cells.eq_iff hh hh')
    | _ => rfl

/-- A look shows the same on both sides, and leaves cursors at cells that go together. -/
theorem see_alike (hab : a.Alike κ ρ b) (hc : a.Chained) (hf : f.Alike ρ g)
    (hcur : List.Forall₂ ρ.cells cursors cursors') (l : HostLook) :
    (l.see a f cursors).1 = (l.see b g cursors').1 ∧
      List.Forall₂ ρ.cells (l.see a f cursors).2 (l.see b g cursors').2 := by
  have value (p : Place) := Place.value?_rel hab hc hf hcur p
  cases l with
  | first name =>
    have ha := HostRequest.array?_rel hf name
    simp only [see]
    generalize HostRequest.array? f name = x at ha ⊢
    generalize HostRequest.array? g name = y at ha ⊢
    cases ha with
    | error e => exact ⟨rfl, hcur⟩
    | @ok h k hh =>
      have hl := hab.first hh
      dsimp only
      generalize a.first h = x at hl ⊢
      generalize b.first k = y at hl ⊢
      cases hl with
      | error e => exact ⟨rfl, hcur⟩
      | ok hl =>
        obtain ⟨hn, hcur'⟩ := setCursor_alike hl hcur
        exact ⟨congrArg Except.ok hn, hcur'⟩
  | next c => exact setCursor_alike ((forall₂_getElem? hcur c).bind hab.next?) hcur
  | sameElement c d =>
    refine ⟨?_, hcur⟩
    have hx := forall₂_getElem? hcur c
    have hy := forall₂_getElem? hcur d
    simp only [see]
    generalize cursors[c]? = x at hx ⊢
    generalize cursors'[c]? = x' at hx ⊢
    generalize cursors[d]? = y at hy ⊢
    generalize cursors'[d]? = y' at hy ⊢
    cases hx with
    | none => cases hy <;> rfl
    | some hh =>
      cases hy with
      | none => rfl
      | some hh' => exact Bool.eq_iff_iff.2 (by simpa using hab.cells.eq_iff hh hh')
  | view p depth => exact ⟨((value p).map (hab.view hc depth)).eq, hcur⟩
  | refs p => exact ⟨(value p).bind_eq hab.refs?, hcur⟩
  | isPinned p => exact ⟨(value p).bind_eq hab.isPinned?, hcur⟩
  | same p q =>
    have hp := value p
    have hq := value q
    simp only [see]
    generalize p.value? a f cursors = x at hp ⊢
    generalize p.value? b g cursors' = x' at hp ⊢
    generalize q.value? a f cursors = y at hq ⊢
    generalize q.value? b g cursors' = y' at hq ⊢
    cases hp with
    | none => exact ⟨rfl, hcur⟩
    | some hp =>
      cases hq with
      | none => exact ⟨rfl, hcur⟩
      | some hq => exact ⟨sameValue_eq hab hp hq, hcur⟩

end HostLook

/-! ### Host functions -/

namespace HostProgram

/-- The host function notes lines and then fails with `f`. -/
def Raises (f : Fault) : HostProgram → Prop
  | raise g => g = f
  | note _ next => next.Raises f
  | _ => False

/-- A request that fails is the last one, and its fault is raised. -/
def StopsAtFaults : HostProgram → Prop
  | done => True
  | raise _ => True
  | request r next =>
    (∀ a : r.Reply, (next (.ok a)).StopsAtFaults) ∧ ∀ f, (next (.error f)).Raises f
  | look l next => ∀ a : l.Reply, (next a).StopsAtFaults
  | note _ next => next.StopsAtFaults

/-- What raises a fault at once has stopped. -/
theorem Raises.stopsAtFaults {e : Fault} {p : HostProgram} (hp : p.Raises e) : p.StopsAtFaults := by
  induction p with
  | note line next ih => exact ih hp
  | raise => trivial
  | _ => exact hp.elim

/-- Whatever is noted on the way. -/
theorem Raises.run {e : Fault} {p : HostProgram} (hp : p.Raises e) (heap : Heap) (frame : Frame)
    (cursors : List Handle) (journal : List String) :
    (p.run heap frame cursors journal).1 = .error e := by
  induction p generalizing journal with
  | note line next ih => exact ih hp _
  | raise f => exact congrArg Except.error hp
  | _ => exact hp.elim

/-- Heaps and frames are alike, whatever the journals are. -/
def Alike (κ : Likeness) (ρ : Pairing) (s t : Heap × Frame × List String) : Prop :=
  s.1.Alike κ ρ t.1 ∧ s.2.1.Alike ρ t.2.1

theorem run_agrees (p : HostProgram) (hp : κ.widens = true → p.StopsAtFaults) (hab : a.Alike κ ρ b)
    (hf : f.Alike ρ g) {m : Multiset Value} {pins : Set Value}
    (hb : a.Balanced (f.values + m) pins) (hcur : List.Forall₂ ρ.cells cursors cursors')
    (journal journal' : List String)
    (hy : Heap.Ready κ (p.run a f cursors journal).2.1 (p.run b g cursors' journal').2.1) :
    Agree κ Pairing.Same (Alike κ) ρ (p.run a f cursors journal) (p.run b g cursors' journal') := by
  -- The pairing grows from request to request.
  induction p generalizing ρ a b f g cursors cursors' journal journal' with
  | done => exact .ok le_rfl rfl ⟨hab, hf⟩
  | raise e => exact .error e le_rfl ⟨hab, hf⟩
  | note line next ih => exact ih hp hab hf hb hcur _ _ hy
  | look l next ih =>
    obtain ⟨hreply, hcur'⟩ := HostLook.see_alike hab hb.chained hf hcur l
    rw [run, run] at hy ⊢
    dsimp only at hy ⊢
    rw [← hreply] at hy ⊢
    exact ih _ (fun hκ => hp hκ _) hab hf hb hcur' _ _ hy
  | request r next ih =>
    have hb' := (HostRequest.answer_serves hb r).1
    -- What comes after the request evolves its heaps, so they are young if the last ones are.
    have hya : Heap.Ready κ a b := fun hκ =>
      ⟨((Heap.Becomes.refl.answer r f).host _ _ cursors journal).evolves.young (hy hκ).1,
        ((Heap.Becomes.refl.answer r g).host _ _ cursors' journal').evolves.young (hy hκ).2⟩
    have ha := HostRequest.answer_agrees hab hya hb.chained hf r
    rw [run, run] at hy ⊢
    generalize r.answer a f = x at hb' ha hy ⊢
    generalize r.answer b g = y at ha hy ⊢
    cases ha with
    | @halted e s r' hκ he =>
      -- The fault is raised on the first side, whatever the request gives on the second one.
      have hr := ((hp hκ).2 e).run s.1 s.2 cursors journal
      dsimp only
      generalize (next (.error e)).run s.1 s.2 cursors journal = z at hr ⊢
      obtain ⟨_, z⟩ := z
      cases hr
      exact .halted hκ he
    | error e hle hs =>
      exact (ih _ (fun hκ => ((hp hκ).2 e).stopsAtFaults) hs.1 hs.2 hb'
        (hcur.imp (hle.2)) _ _ hy).mono hle
    | ok hle hv hs =>
      cases hv
      exact (ih _ (fun hκ => (hp hκ).1 _) hs.1 hs.2 hb' (hcur.imp (hle.2)) _ _ hy).mono hle

end HostProgram

end PoolScript
