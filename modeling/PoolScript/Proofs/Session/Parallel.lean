import PoolScript.Proofs.Alike.Machine
import PoolScript.Proofs.Session.Runs

/-!
# Runs in parallel

A run starts from a heap that has been cleared, so two sessions of one program start to run on
states that are alike as soon as their pools can be filled in parallel. Then both runs have
the same *outcome* (`Session.run_parallel`): the same failure or none, the same printed lines
and as many strings and cells that are left.
-/

namespace PoolScript.Session

variable {κ : Likeness} {ρ : Pairing} {s s' t t' : Session}
  {lines lines' : Array String}

/-- Two runs have come to the same end, after lines that were printed before them. -/
structure SameOutcome (lines lines' : Array String) (t t' : Session) : Prop where
  lastError : t.lastError = t'.lastError
  lines : ∃ new, t.state.out.lines = lines ++ new ∧ t'.state.out.lines = lines' ++ new
  strings : t.state.heap.liveStrings = t'.state.heap.liveStrings
  cells : t.state.heap.liveCells = t'.state.heap.liveCells

/-- Two runs agree, or the first one ends for want of room or of depth, if it ends. -/
def RunsAgree (κ : Likeness) (lines lines' : Array String) (x y : Option Session) : Prop :=
  (κ.widens = true ∧ ∀ t, x = some t → ∃ f, t.lastError = some f ∧ f.fault.IsLimit) ∨
    Option.Rel (SameOutcome lines lines') x y

/-- A run never frees a slot as often as there are generations. -/
def StaysYoung (s : Session) : Prop :=
  ∀ n, (s.inCall "main" [] s.cleared n).2.heap.Young

theorem callToEnd_parallel (hcode : s.code.Alike κ s'.code)
    (hstop : κ.widens = true → s.code.StopsAtFaults)
    (hst : s.cleared.Alike κ lines lines' ρ s'.cleared)
    (hb : s.cleared.Balanced 0 ∅) (hf : s.cleared.frames = [])
    (hy : κ.renames = true → s.StaysYoung ∧ s'.StaysYoung) (fuel : Nat) :
    Machine.RunsParallel κ lines lines' (callToEnd s.code fuel "main" [] s.cleared)
      (callToEnd s'.code fuel "main" [] s'.cleared) := by
  have hready (n : Nat) : Heap.Ready κ (s.inCall "main" [] s.cleared n).2.heap
      (s'.inCall "main" [] s'.cleared n).2.heap := fun hκ => ⟨(hy hκ).1 n, (hy hκ).2 n⟩
  have hs : Machine.Sound (fun _ => True) 0 ∅
      (Machine.call s.code "main" "main" [] .halt s.cleared) := by
    refine Machine.call_sound (fun _ _ => trivial) ?_ ?_ s.code.hostFailsOf_true "main" "main"
    · simpa [Cont.values] using hb
    · exact congrArg List.length hf
  have hp := Machine.call_parallel (m := 0) (k := .halt) hcode hstop hst .halt .nil
    (by simpa using hb) "main" "main" (hready 0)
  simp only [inCall] at hready
  simp only [callToEnd]
  generalize Machine.call s.code "main" "main" [] .halt s.cleared = x at hp hs hready ⊢
  generalize Machine.call s'.code "main" "main" [] .halt s'.cleared = y at hp hready ⊢
  cases hp with
  | halted hκ hl =>
    refine .halted hκ ?_
    intro r hr
    obtain ⟨f', s', hr, hf'⟩ := Machine.run_failing hr
    exact ⟨f', s', hr, hf' ▸ hl⟩
  | alike _ hc hst => exact Machine.run_parallel hcode hstop hst hc hs hready

/-- What a run comes to, by the way in which the call of `main` ends. -/
theorem run_eq (s : Session) (fuel : Nat) :
    s.run fuel = (callToEnd s.code fuel "main" [] s.cleared).map fun
      | (.ok v, state) =>
        { s with state := (state.releaseAll [v]).onOut .flush, lastError := none }
      | (.error f, state) =>
        { s with state := (state.reset s.platform.order).onOut .flush, lastError := some f } := by
  obtain ⟨limits, functions, host, platform, state, lastError⟩ := s
  unfold run
  dsimp only [code, cleared]
  generalize callToEnd _ fuel "main" [] _ = x
  rcases x with _ | ⟨_ | _, _⟩ <;> rfl

theorem run_parallel (hcode : s.code.Alike κ s'.code)
    (hstop : κ.widens = true → s.code.StopsAtFaults)
    (hst : s.cleared.Alike κ lines lines' ρ s'.cleared)
    (hs : s.state.heap.strings.WellFormed) (hc : s.state.heap.cells.WellFormed)
    (hy : κ.renames = true → s.StaysYoung ∧ s'.StaysYoung) (fuel : Nat) :
    RunsAgree κ lines lines' (s.run fuel) (s'.run fuel) := by
  obtain ⟨hb, hf⟩ : s.cleared.Balanced 0 ∅ ∧ s.cleared.frames = [] :=
    State.Balanced.reset hs hc _
  have hp := callToEnd_parallel hcode hstop hst hb hf hy fuel
  rw [run_eq, run_eq]
  generalize callToEnd s.code fuel "main" [] s.cleared = x at hp ⊢
  generalize callToEnd s'.code fuel "main" [] s'.cleared = y at hp ⊢
  cases hp with
  | halted hκ hx =>
    refine .inl ⟨hκ, ?_⟩
    intro t ht
    cases x with
    | none => cases ht
    | some r =>
      obtain ⟨f, u, rfl, hl⟩ := hx r rfl
      cases ht
      exact ⟨f, rfl, hl⟩
  | running => exact .inr .none
  -- After a failure both heaps are cleared, so the counts are zero.
  | @error _ u u' f hst =>
    have hu := live_reset hst.heap.strings.left hst.heap.cells.left s.platform.order
    have hu' := live_reset hst.heap.strings.right hst.heap.cells.right s'.platform.order
    exact .inr (.some ⟨rfl, hst.out.flush.lines, hu.1.trans hu'.1.symm, hu.2.trans hu'.2.symm⟩)
  | ok hv hst =>
    have hr := hst.releaseAll (.cons hv .nil)
    exact .inr (.some ⟨rfl, hr.out.flush.lines, hr.heap.strings.live, hr.heap.cells.live⟩)

end PoolScript.Session
