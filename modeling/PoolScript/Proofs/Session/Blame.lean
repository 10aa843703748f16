import PoolScript.Proofs.Machine.Blame
import PoolScript.Proofs.Session.Runs

/-!
# The line of an error

A run or a call can be watched from outside, with a record of the statements that are begun and not
finished across all the calls that are open. When it fails, the line of the error is that of the
innermost statement of the record, as it was when the error was raised, and there is no line if the
record was empty (`Session.blames_innermost`). A call that is refused, or that an intrinsic or the
host fails, has begun no statement of its own: the calling statement is blamed.
-/

namespace PoolScript

namespace Machine

variable {code : Code} {k : Cont .value} {s : State}

/-- If the control fails, it is with a fault that is raised under `k`. -/
def FailsUnder (k : Cont .value) (c : Control) : Prop :=
  c.isFailing → ∃ f, c = .failing (.of f) k

theorem settle_failsUnder (r : Except Fault Value × State) : FailsUnder k (settle k r).1 := by
  rcases r with ⟨f | v, s⟩
  · exact fun _ => ⟨f, rfl⟩
  · exact nofun

/-- A call that does not come to its body fails where it was made. -/
theorem call_failsUnder (name callee : String) (args : List Value) :
    FailsUnder k (call code name callee args k s).1 := by
  rw [call]
  split
  · exact settle_failsUnder _
  · split
    · split
      · exact fun _ => ⟨_, rfl⟩
      · split
        · exact fun _ => ⟨_, rfl⟩
        · exact settle_failsUnder _
    · split
      · split
        · exact fun _ => ⟨_, rfl⟩
        · rintro ⟨⟩
      · exact fun _ => ⟨_, rfl⟩

/-- So does one whose name means no function. -/
theorem evaluate_call_failsUnder (name : String) (args : List Expr) :
    FailsUnder k (evaluate code (.call name args) k s).1 := by
  rw [evaluate]
  split
  · exact fun _ => ⟨_, rfl⟩
  · cases args with
    | nil => exact call_failsUnder name _ []
    | cons arg rest => rintro ⟨⟩

end Machine

namespace Session

/-- A run or a call of the session under watch. -/
def watch (s : Session) (fuel : Nat) (name : String) (args : List Value) (state : State) :
    Option (Except Failure Value × Watched) :=
  (Watched.start (Machine.call s.code name name args .halt state)).run s.code fuel

theorem callToEnd_eq_watch (s : Session) (fuel : Nat) (name : String) (args : List Value)
    (state : State) : callToEnd s.code fuel name args state =
      (s.watch fuel name args state).map fun r => (r.1, r.2.state) :=
  Watched.run_eq s.code fuel (.start (Machine.call s.code name name args .halt state))

/-- What was watched failed with `f`, which has the line of the innermost of the statements that
    there were when it was raised, or no line if there were none. -/
def Blames (watched : Option (Except Failure Value × Watched)) (f : Failure) : Prop :=
  ∃ w stack, watched = some (.error f, w) ∧ w.raised = some stack ∧
    f.line = stack.head?.map (·.stmt.line) ∧ (f.line = none ↔ stack = [])

theorem watch_blames {s : Session} {fuel : Nat} {name : String} {args : List Value}
    {f : Failure} {state state' : State}
    (h : callToEnd s.code fuel name args state = some (.error f, state')) :
    Blames (s.watch fuel name args state) f := by
  rw [callToEnd_eq_watch, Option.map_eq_some_iff] at h
  obtain ⟨⟨r, w⟩, hw, hr⟩ := h
  obtain ⟨rfl, -⟩ := Prod.mk.inj hr
  obtain ⟨stack, hraised, hline⟩ := (Watched.start_faithful name name args state).run_blames hw
  refine ⟨w, stack, hw, hraised, hline, ?_⟩
  rw [hline, Watched.innermost, Option.map_eq_none_iff, List.head?_eq_none_iff]

/-- The line of an error is that of the innermost statement that was begun and not finished when it
    was raised, for every run and every call that fails. Nothing is begun by a call that fails
    before its body. -/
theorem blames_innermost (s : Session) (fuel : Nat) :
    (∀ s' f, s.run fuel = some s' → s'.lastError = some f →
      Blames (s.watch fuel "main" [] s.cleared) f) ∧
    (∀ name args f s', s.call fuel name args = some (.error f, s') →
      Blames (s.watch fuel name args s.state) f) ∧
    (∀ name args state, callToEnd s.code fuel name args state =
      (s.watch fuel name args state).map fun r => (r.1, r.2.state)) ∧
    ∀ (k : Cont .value) (state : State),
      (∀ name callee args, Machine.FailsUnder k (Machine.call s.code name callee args k state).1) ∧
      ∀ name args, Machine.FailsUnder k (Machine.evaluate s.code (.call name args) k state).1 := by
  refine ⟨?_, ?_, s.callToEnd_eq_watch fuel, fun k state => ⟨?_, ?_⟩⟩
  · intro s' f hr hf
    -- A run or a call that fails does so in the watched machine as well.
    rcases run_cases hr with ⟨v, state, -, rfl⟩ | ⟨g, state, he, rfl⟩
    · cases hf
    · cases hf
      exact watch_blames he
  · intro name args f s' hr
    rcases call_cases hr with ⟨v, state, -, hv, -⟩ | ⟨g, state, he, hg, -⟩
    · cases hv
    · cases hg
      exact watch_blames he
  · exact fun name callee args => Machine.call_failsUnder name callee args
  · exact fun name args => Machine.evaluate_call_failsUnder name args

/-- A script with a loop that calls a function, which fails in a conditional of the second call. -/
def slip : Program :=
  ⟨[⟨"main", [], [.assign 2 "i" (.int 0),
      .whileLoop 3 (.binary .lt (.var "i") (.int 2))
        [.assign 4 "i" (.binary .plus (.var "i") (.int 1)), .expr 5 (.call "f" [.var "i"])]], 1⟩,
    ⟨"f", ["n"], [.ifThen 9 (.binary .eq (.var "n") (.int 2))
      [.ret 10 (some (.binary .div (.int 1) (.int 0)))]], 8⟩]⟩

/-- The error is on the line of the division. What was begun around it is the conditional, the call
    and the loop. -/
theorem slip_blamed :
    ∃ s' f w stack, (Session.new slip .default).run 100 = some s' ∧ s'.lastError = some f ∧
      (Session.new slip .default).watch 100 "main" [] (Session.new slip .default).cleared =
        some (.error f, w) ∧
      w.raised = some stack ∧ stack.map (·.stmt.line) = [10, 9, 5, 3] ∧ f.line = some 10 := by
  have hc : ((Session.new slip .default).run 100).any fun s' =>
      s'.lastError.any fun f => f.line == some 10 := by decide +kernel
  have hw : ((Session.new slip .default).watch 100 "main" []
      (Session.new slip .default).cleared).any fun r =>
        decide (r.2.raised.map (·.map (·.stmt.line)) = some [10, 9, 5, 3]) := by decide +kernel
  obtain ⟨s', hr, hc⟩ := (Option.any_eq_true _ _).1 hc
  obtain ⟨f, hf, hline⟩ := (Option.any_eq_true _ _).1 hc
  obtain ⟨w, stack, he, hraised, -⟩ :=
    (blames_innermost (Session.new slip .default) 100).1 s' f hr hf
  refine ⟨s', f, w, stack, hr, hf, he, hraised, ?_, beq_iff_eq.1 hline⟩
  rw [he] at hw
  have hlines := of_decide_eq_true hw
  rw [hraised] at hlines
  exact Option.some.inj hlines

end Session

end PoolScript
