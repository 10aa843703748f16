import PoolScript.Proofs.Alike.Teardown
import PoolScript.Proofs.Machine.Variables

/-!
# States that are alike

Two states of a machine are alike if their heaps are, the variables of their calls go
together, call by call, and the same lines were printed since lines that may differ. The
operations that statements and calls are made of agree on states that are alike. A call may
also be refused on the first side only, when fewer calls may be open there.
-/

namespace PoolScript

/-- Heaps, variables and printed lines of two states are alike. -/
structure State.Alike (κ : Likeness) (old old' : Array String) (ρ : Pairing) (s t : State) :
    Prop where
  heap : s.heap.Alike κ ρ t.heap
  frames : List.Forall₂ (Frame.Alike ρ) s.frames t.frames
  out : s.out.Alike old old' t.out

/-- A variable that is not set is bound without giving anything back. -/
theorem State.bind_of_not_contains {f : Frame} {name : String} (hn : f.contains name = false)
    (v : Value) (heap : Heap) (frames : List Frame) (out : LineWriter) (journal : List String) :
    State.bind name v ⟨heap, f :: frames, out, journal⟩ =
      (.ok (), ⟨heap, (f.set name v).2 :: frames, out, journal⟩) := by
  have hb := HostRequest.bind_of_not_contains hn v heap
  simp only [HostRequest.bind] at hb
  obtain ⟨hh, hf⟩ := Prod.mk.inj hb
  simp only [State.bind, hh]

namespace State.Alike

variable {α β : Type} {κ : Likeness} {old old' : Array String} {ρ ρ' : Pairing} {s t : State}
  {v w v' w' : Value} {vs ws : List Value} {name : String} {m : Multiset Value} {pins : Set Value}

/-! ### The heap -/

/-- What agrees on heaps agrees on states. -/
theorem onHeap {V : Pairing → α → β → Prop} {f : Heap → Except Fault α × Heap}
    {g : Heap → Except Fault β × Heap} (hst : s.Alike κ old old' ρ t)
    (h : Agree κ V (Heap.Alike κ) ρ (f s.heap) (g t.heap)) :
    Agree κ V (State.Alike κ old old') ρ (s.onHeap f) (t.onHeap g) :=
  h.after (f := fun heap => (⟨heap, s.frames, s.out, s.journal⟩ : State))
    (g := fun heap => (⟨heap, t.frames, t.out, t.journal⟩ : State)) fun hle hs =>
      ⟨hs, hst.frames.imp fun _ _ hf => hf.mono hle, hst.out⟩

theorem releaseAll (hst : s.Alike κ old old' ρ t) (hvs : List.Forall₂ (Value.Alike ρ) vs ws) :
    (s.releaseAll vs).Alike κ old old' ρ (t.releaseAll ws) :=
  ⟨hst.heap.releaseAll hvs, hst.frames, hst.out⟩

/-! ### Variables -/

/-- A variable is set on both sides or on neither. -/
theorem lookup (hst : s.Alike κ old old' ρ t) (name : String) :
    Except.Rel (Option.Rel (Value.Alike ρ)) (s.lookup name) (t.lookup name) := by
  have hf := hst.frames
  simp only [State.lookup]
  generalize s.frames = fs at hf ⊢
  generalize t.frames = gs at hf ⊢
  cases hf with
  | nil => exact .error _
  | cons hf => exact .ok (hf.get? name)

/-- A copy of a variable is counted on both sides, whose counts are equal. -/
theorem load (hst : s.Alike κ old old' ρ t) (hb : s.Balanced m pins) (name : String) :
    Agree κ Value.Alike (State.Alike κ old old') ρ (s.load name) (t.load name) := by
  have live {v : Value} (hv : s.lookup name = .ok (some v)) := (hb.lookup_live hv).isLive
  obtain ⟨a, fs, out, journal⟩ := s
  obtain ⟨b, gs, out', journal'⟩ := t
  obtain ⟨hab, hfs, hout⟩ := hst
  cases hfs with
  | nil => exact .error _ le_rfl ⟨hab, .nil, hout⟩
  | @cons f g fs gs hf hfs =>
    have hx := hf.get? name
    simp only [State.lookup] at live
    simp only [State.load]
    generalize f.get? name = x at hx live ⊢
    generalize g.get? name = y at hx ⊢
    cases hx with
    | some hv =>
      have hst : State.Alike κ old old' ρ ⟨a, f :: fs, out, journal⟩ ⟨b, g :: gs, out', journal'⟩ :=
        ⟨hab, .cons hf hfs, hout⟩
      exact hst.onHeap (hab.retain hv (live rfl))
    | none => exact .error _ le_rfl ⟨hab, .cons hf hfs, hout⟩

/-- What the variable had is given back on both sides. -/
theorem bind (hst : s.Alike κ old old' ρ t) (name : String) (hv : v.Alike ρ w) :
    Agree κ Pairing.Same (State.Alike κ old old') ρ (s.bind name v) (t.bind name w) := by
  obtain ⟨a, fs, out, journal⟩ := s
  obtain ⟨b, gs, out', journal'⟩ := t
  obtain ⟨hab, hfs, hout⟩ := hst
  cases hfs with
  | nil => exact .error _ le_rfl ⟨hab.releaseAll (.cons hv .nil), .nil, hout⟩
  | cons hf hfs =>
    obtain ⟨hab', hf'⟩ := HostRequest.bind_alike hab hf name hv
    exact .ok le_rfl rfl ⟨hab', .cons hf' hfs, hout⟩

/-! ### Elements -/

/-- An element is found on both sides or on neither, and copied. -/
theorem element (hst : s.Alike κ old old' ρ t) (hb : s.Balanced m pins) (name : String)
    (hv : v.Alike ρ w) :
    Agree κ Value.Alike (State.Alike κ old old') ρ (s.element name v) (t.element name w) := by
  have hx := hst.lookup name
  simp only [State.element]
  generalize s.lookup name = x at hx ⊢
  generalize t.lookup name = y at hx ⊢
  cases hx with
  | error e => exact .error e le_rfl hst
  | ok hx =>
    cases hx with
    | none => exact .error _ le_rfl hst
    | some hx =>
      cases hx with
      | @array h k hh =>
        have hcopy := hst.onHeap (hst.heap.fetch hh hv hb)
        have hc : (s.onHeap (Heap.fetch h v)).2.heap.Chained := Heap.Balanced.chained_fetch hb h v
        dsimp only
        generalize s.onHeap (Heap.fetch h v) = r at hcopy hc ⊢
        generalize t.onHeap (Heap.fetch k w) = r' at hcopy ⊢
        cases hcopy with
        | halted hκ hf => exact .halted hκ hf
        | error e hle hs => exact .error e hle hs
        | ok hle hx hs =>
          cases hx with
          | some hx => exact .ok hle hx hs
          | none =>
            dsimp only
            rw [hs.heap.display hc (hv.mono hle)]
            split <;> exact .error _ hle hs
      | _ => exact .error _ le_rfl hst

theorem loadElement (hst : s.Alike κ old old' ρ t) (hb : s.Balanced m pins) (name : String)
    (hv : v.Alike ρ w) :
    Agree κ Value.Alike (State.Alike κ old old') ρ (s.loadElement name v) (t.loadElement name w) :=
  (hst.element hb name hv).after (f := State.releaseAll [v]) (g := State.releaseAll [w])
    fun hle hs => hs.releaseAll (.cons (hv.mono hle) .nil)

/-- Storing in an array that is there. -/
theorem store (hst : s.Alike κ old old' ρ t) (hy : Heap.Ready κ s.heap t.heap) (hc : s.heap.Chained)
    (name : String) (hv : v.Alike ρ w) (hv' : v'.Alike ρ w') :
    Agree κ Pairing.Same (State.Alike κ old old') ρ
      (match s.lookup name with
        | .ok (some (.array h)) => s.onHeap (Heap.set h v v')
        | .ok other => (.error (.arrayExpected (other.map Value.type)), s.releaseAll [v, v'])
        | .error f => (.error f, s.releaseAll [v, v']))
      (match t.lookup name with
        | .ok (some (.array h)) => t.onHeap (Heap.set h w w')
        | .ok other => (.error (.arrayExpected (other.map Value.type)), t.releaseAll [w, w'])
        | .error f => (.error f, t.releaseAll [w, w'])) := by
  have hx := hst.lookup name
  have hr := hst.releaseAll (.cons hv (.cons hv' .nil))
  generalize s.lookup name = x at hx ⊢
  generalize t.lookup name = y at hx ⊢
  cases hx with
  | error e => exact .error e le_rfl hr
  | ok hx =>
    cases hx with
    | none => exact .error _ le_rfl hr
    | some hx =>
      cases hx with
      | array hh => exact hst.onHeap (hst.heap.set hy hc hh hv hv')
      | _ => exact .error _ le_rfl hr

/-- An array is made for the variable on both sides, if it is not set. -/
theorem storeElement (hst : s.Alike κ old old' ρ t) (hy : Heap.Ready κ s.heap t.heap)
    (hc : s.heap.Chained) (name : String) (hv : v.Alike ρ w) (hv' : v'.Alike ρ w') :
    Agree κ Pairing.Same (State.Alike κ old old') ρ (s.storeElement name v v')
      (t.storeElement name w w') := by
  simp only [State.storeElement]
  obtain ⟨a, fs, out, journal⟩ := s
  obtain ⟨b, gs, out', journal'⟩ := t
  obtain ⟨hab, hfs, hout⟩ := hst
  cases hfs with
  | nil => exact .error _ le_rfl ⟨hab.releaseAll (.cons hv (.cons hv' .nil)), .nil, hout⟩
  | @cons f g fs gs hf hfs =>
    simp only [State.ensureArray, hf.contains name]
    cases hn : g.contains name with
    | true => exact store ⟨hab, .cons hf hfs, hout⟩ hy hc name hv hv'
    | false =>
      -- The variable is set to a new array, which nothing is given back for.
      have hm := hab.allocArray hy
      have hym := hy.allocArray
      have hcm := Heap.Chained.allocArray hab.cells.left hc
      dsimp only at hm hym hcm ⊢
      generalize a.allocArray = r at hm hym hcm ⊢
      generalize b.allocArray = r' at hm hym ⊢
      cases hm with
      | halted hκ he => exact .halted hκ he
      | error e hle hs =>
        refine .error e hle
          (releaseAll ⟨hs, ?_, hout⟩ (.cons (hv.mono hle) (.cons (hv'.mono hle) .nil)))
        exact .cons (hf.mono hle) (hfs.imp fun _ _ hf => hf.mono hle)
      | @ok ρ' u u' a' b' hle hu hs =>
        have hf' := (hf.mono hle).set name hu
        have hfs' := hfs.imp fun _ _ hf => Frame.Alike.mono hf hle
        simp only [State.bind_of_not_contains hn,
          State.bind_of_not_contains ((hf.contains name).trans hn)]
        have hst : State.Alike κ old old' ρ' ⟨a', (f.set name u).2 :: fs, out, journal⟩
            ⟨b', (g.set name u').2 :: gs, out', journal'⟩ := ⟨hs, .cons hf' hfs', hout⟩
        exact (hst.store hym hcm name (hv.mono hle) (hv'.mono hle)).mono hle

/-! ### Calls -/

/-- Parameters take arguments that go together, and those that are left over are given back. -/
theorem bindParams {a b : Heap} {f g : Frame} (hab : a.Alike κ ρ b) (hf : f.Alike ρ g)
    (ps : List String) (hvs : List.Forall₂ (Value.Alike ρ) vs ws) :
    HostRequest.Alike κ ρ (State.bindParams a f ps vs) (State.bindParams b g ps ws) := by
  induction hvs generalizing a b f g ps with
  | nil =>
    cases ps <;> exact ⟨hab.releaseAll .nil, hf⟩
  | cons hv hvs ih =>
    cases ps with
    | nil => exact ⟨hab.releaseAll (.cons hv hvs), hf⟩
    | cons p ps =>
      obtain ⟨hab', hf'⟩ := HostRequest.bind_alike hab hf p hv
      exact ih hab' hf' ps

/-- A call is entered on both sides, or it is refused where fewer may be open. -/
theorem enter (hst : s.Alike κ old old' ρ t) {depth depth' : Nat} (hd : κ.Admits depth depth')
    (function : String) (params : List String) (hvs : List.Forall₂ (Value.Alike ρ) vs ws) :
    Agree κ Pairing.Same (State.Alike κ old old') ρ (s.enter depth function params vs)
      (t.enter depth' function params ws) := by
  obtain ⟨a, fs, out, journal⟩ := s
  obtain ⟨b, gs, out', journal'⟩ := t
  obtain ⟨hab, hfs, hout⟩ := hst
  have hn := hfs.length_eq
  have entered : Agree κ Pairing.Same (State.Alike κ old old') ρ
      (.ok (), ⟨(State.bindParams a (.empty function) params vs).1,
        (State.bindParams a (.empty function) params vs).2 :: fs, out, journal⟩)
      (.ok (), ⟨(State.bindParams b (.empty function) params ws).1,
        (State.bindParams b (.empty function) params ws).2 :: gs, out', journal'⟩) := by
    obtain ⟨hab', hf'⟩ := bindParams hab (Frame.Alike.empty function) params hvs
    exact .ok le_rfl rfl ⟨hab', .cons hf' hfs, hout⟩
  dsimp only at hn
  simp only [State.enter, ← hn]
  by_cases h : depth ≤ fs.length
  · rw [if_pos h]
    cases hκ : κ.widens with
    | true => exact .halted hκ (.inr rfl)
    | false =>
      rw [← hd.eq hκ, if_pos h]
      exact .error _ le_rfl ⟨hab.releaseAll hvs, hfs, hout⟩
  · -- As many calls are open on both sides, and the second side may have no fewer of them.
    rw [if_neg h, if_neg fun h' => h (hd.le.trans h')]
    exact entered

/-- A call is left on both sides with results that go together. -/
theorem leave (hst : s.Alike κ old old' ρ t) (hb : s.Balanced m pins) {order order' : TearDown}
    (ho : κ.renames = false → order = order') :
    (s.leave order).1.Alike ρ (t.leave order').1 ∧
      (s.leave order).2.Alike κ old old' ρ (t.leave order').2 := by
  obtain ⟨a, fs, out, journal⟩ := s
  obtain ⟨b, gs, out', journal'⟩ := t
  obtain ⟨hab, hfs, hout⟩ := hst
  cases hfs with
  | nil => exact ⟨.int 0, hab, .nil, hout⟩
  | @cons f g fs gs hf hfs =>
    have hr : ((f.get? Frame.resultName).getD (.int 0)).Alike ρ
        ((g.get? Frame.resultName).getD (.int 0)) := by
      have hx := hf.get? Frame.resultName
      generalize f.get? Frame.resultName = x at hx ⊢
      generalize g.get? Frame.resultName = y at hx ⊢
      cases hx with
      | some hv => exact hv
      | none => exact .int 0
    have hown := hb.take_result.pin hb.take_result.live_owned
    rw [add_left_comm] at hown
    exact ⟨hr, ((hab.pin hr).giveUp (hf.take _) hown ho).unpin hr, hfs, hout⟩

/-- A host function is answered alike, so it does the same on both sides. -/
theorem runHost (hst : s.Alike κ old old' ρ t) (p : HostProgram)
    (hp : κ.widens = true → p.StopsAtFaults) {m : Multiset Value} {pins : Set Value}
    (hb : s.Balanced m pins) (hy : Heap.Ready κ (s.runHost p).2.heap (t.runHost p).2.heap) :
    Agree κ Pairing.Same (State.Alike κ old old') ρ (s.runHost p) (t.runHost p) := by
  obtain ⟨a, fs, out, journal⟩ := s
  obtain ⟨b, gs, out', journal'⟩ := t
  obtain ⟨hab, hfs, hout⟩ := hst
  cases hfs with
  | nil => exact .error _ le_rfl ⟨hab, .nil, hout⟩
  | @cons f g fs gs hf hfs =>
    rw [State.Balanced, State.values_cons, add_assoc] at hb
    have hr := HostProgram.run_agrees p hp hab hf hb .nil journal journal' hy
    exact hr.after (f := fun s => (⟨s.1, s.2.1 :: fs, out, s.2.2⟩ : State))
      (g := fun t => (⟨t.1, t.2.1 :: gs, out', t.2.2⟩ : State)) fun hle hs =>
        State.Alike.mk hs.1 (.cons hs.2 (hfs.imp fun _ _ hf => Frame.Alike.mono hf hle)) hout

end State.Alike

end PoolScript
