import PoolScript.Proofs.Machine.Handles
import PoolScript.Session

/-!
# Runs and calls

A session *rests* when no call is open and its heap is balanced for the values that the host
holds. A run begins with a heap that has been cleared, so it leaves a session at rest that
owes the host nothing, whatever was done with the session before (`Session.run_rests`). A
call takes its arguments from a session at rest and leaves it at rest with what it returns,
also when it fails (`Session.call_rests`).
-/

namespace PoolScript

/-- The value that a call returned, if it did not fail. -/
def returned : Except Failure Value → List Value
  | .ok v => [v]
  | .error _ => []

namespace Session

variable {s s' : Session} {m : Multiset Value} {pins : Set Value} {fuel : Nat} {name : String}
  {args : List Value}

/-- No call is open, and the heap is balanced for the values `m` of the host. -/
structure Rests (s : Session) (m : Multiset Value) (pins : Set Value) : Prop where
  heap : s.state.heap.Balanced m pins
  frames : s.state.frames = []

/-- What does not change while the session runs a script. -/
def code (s : Session) : Code :=
  ⟨s.functions, s.host, s.limits.maxDepth, s.platform⟩

/-- The configuration after `n` steps of a call. -/
def inCall (s : Session) (name : String) (args : List Value) (state : State) (n : Nat) :
    Control × State :=
  Machine.after s.code n (Machine.call s.code name name args .halt state)

/-! ### Runs and calls -/

/-- The state that a run begins with. -/
def cleared (s : Session) : State :=
  s.state.reset s.platform.order

theorem run_cases (hr : s.run fuel = some s') :
    (∃ v state, callToEnd s.code fuel "main" [] s.cleared = some (.ok v, state) ∧
      s' = { s with state := (state.releaseAll [v]).onOut .flush, lastError := none }) ∨
    (∃ f state, callToEnd s.code fuel "main" [] s.cleared = some (.error f, state) ∧
      s' = { s with
        state := (state.reset s.platform.order).onOut .flush, lastError := some f }) := by
  obtain ⟨limits, functions, host, platform, state, lastError⟩ := s
  simp only [run] at hr
  split at hr
  · next v state he =>
    cases hr
    exact .inl ⟨v, state, he, rfl⟩
  · next f state he =>
    cases hr
    exact .inr ⟨f, state, he, rfl⟩
  · cases hr

theorem call_cases {r : Except Failure Value} (hr : s.call fuel name args = some (r, s')) :
    (∃ v state, callToEnd s.code fuel name args s.state = some (.ok v, state) ∧ r = .ok v ∧
      s' = { s with state := state.onOut .flush }) ∨
    (∃ f state, callToEnd s.code fuel name args s.state = some (.error f, state) ∧ r = .error f ∧
      s' = { s with state := (state.unwind s.platform.order).onOut .flush }) := by
  obtain ⟨limits, functions, host, platform, state, lastError⟩ := s
  simp only [call] at hr
  split at hr
  · next v state he =>
    cases hr
    exact .inl ⟨v, state, he, rfl, rfl⟩
  · next f state he =>
    cases hr
    exact .inr ⟨f, state, he, rfl, rfl⟩
  · cases hr

theorem values_of_frames {state : State} (h : state.frames = []) : state.values = 0 := by
  simp [State.values, h]

theorem live_reset {state : State} (hs : state.heap.strings.WellFormed)
    (hc : state.heap.cells.WellFormed) (order : TearDown) :
    (state.reset order).heap.liveStrings = 0 ∧ (state.reset order).heap.liveCells = 0 :=
  have he := State.unwind_evolves (.refl state.heap) order
  have hs' := he.strings.wellFormed hs
  have hc' := he.cells.wellFormed hc
  ⟨Pool.live_clear hs'.size_lt hs'.toConsistent, Pool.live_clear hc'.size_lt hc'.toConsistent⟩

theorem callToEnd_ended {bad : Fault → Prop} (hbad : ∀ f : Fault, ¬f.Dangling → bad f)
    {code : Code} {state : State} {r : Except Failure Value × State}
    (hb : state.Balanced (args + m) pins) (hs : state.frames = []) (hosts : code.HostFailsOf bad)
    (hr : callToEnd code fuel name args state = some r) : Machine.Ended bad m pins r := by
  refine Machine.run_sound hbad
    (Machine.call_sound hbad (k := .halt) ?_ ?_ hosts name name) hosts hr
  · exact (zero_add m).symm ▸ hb
  · exact congrArg List.length hs

theorem callToEnd_evolves {base : Heap} {code : Code} {state : State}
    {r : Except Failure Value × State} (h : base.Evolves state.heap)
    (hr : callToEnd code fuel name args state = some r) : base.Evolves r.2.heap :=
  Machine.run_evolves (h.trans (Machine.call_becomes .refl code name name args .halt).evolves) hr

/-- A run leaves no call open and nothing to the host, whatever the session was like before. -/
theorem run_rests (hs : s.state.heap.strings.WellFormed) (hc : s.state.heap.cells.WellFormed)
    (hr : s.run fuel = some s') : s'.Rests 0 pins := by
  obtain ⟨hb, hf⟩ :
      s.cleared.Balanced (([] : List Value) + 0) pins ∧ s.cleared.frames = [] :=
    State.Balanced.reset hs hc _
  rcases run_cases hr with ⟨v, state, he, rfl⟩ | ⟨f, state, he, rfl⟩
  · obtain ⟨hv, hn⟩ := callToEnd_ended (fun _ _ => trivial) hb hf (Code.hostFailsOf_true _) he
    refine ⟨?_, hn⟩
    have hv : (state.releaseAll [v]).Balanced 0 pins := hv.releaseAll
    have hn' : (state.releaseAll [v]).frames = [] := hn
    rwa [State.Balanced, values_of_frames hn', zero_add] at hv
  · have hw := callToEnd_evolves (State.reset_evolves (.refl _) _) he
    obtain ⟨hr, hn⟩ : (state.reset s.platform.order).Balanced 0 pins ∧
        (state.reset s.platform.order).frames = [] :=
      State.Balanced.reset (hw.strings.wellFormed hs) (hw.cells.wellFormed hc) _
    refine ⟨?_, hn⟩
    rw [State.Balanced, values_of_frames hn, zero_add] at hr
    exact hr

theorem run_evolves (hr : s.run fuel = some s') : s.cleared.heap.Evolves s'.state.heap := by
  rcases run_cases hr with ⟨v, state, he, rfl⟩ | ⟨f, state, he, rfl⟩
  · exact State.releaseAll_evolves (callToEnd_evolves (.refl _) he) _
  · exact State.reset_evolves (callToEnd_evolves (.refl _) he) _

/-- A call consumes its arguments and leaves what it returns to the host. -/
theorem call_rests (h : s.Rests (args + m) pins) {r : Except Failure Value}
    (hr : s.call fuel name args = some (r, s')) : s'.Rests (returned r + m) pins := by
  have hb : s.state.Balanced (args + m) pins := by
    rw [State.Balanced, values_of_frames h.frames, zero_add]
    exact h.heap
  rcases call_cases hr with ⟨v, state, he, rfl, rfl⟩ | ⟨f, state, he, rfl, rfl⟩
  · obtain ⟨hv, hn⟩ := callToEnd_ended (fun _ _ => trivial) hb h.frames (Code.hostFailsOf_true _) he
    refine ⟨?_, hn⟩
    rw [State.Balanced, values_of_frames hn, zero_add] at hv
    exact hv
  · obtain ⟨hv, -⟩ := callToEnd_ended (fun _ _ => trivial) hb h.frames (Code.hostFailsOf_true _) he
    obtain ⟨hu, hn⟩ := hv.unwind s.platform.order
    refine ⟨?_, hn⟩
    rw [State.Balanced, values_of_frames hn, zero_add] at hu
    exact (zero_add m).symm ▸ hu

theorem call_evolves {r : Except Failure Value} (hr : s.call fuel name args = some (r, s')) :
    s.state.heap.Evolves s'.state.heap := by
  rcases call_cases hr with ⟨v, state, he, rfl, rfl⟩ | ⟨f, state, he, rfl, rfl⟩
  · exact callToEnd_evolves (.refl _) he
  · exact State.unwind_evolves (callToEnd_evolves (.refl _) he) _

end Session

end PoolScript
