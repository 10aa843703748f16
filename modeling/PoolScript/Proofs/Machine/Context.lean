import PoolScript.Proofs.Machine.Handles

/-!
# Machines in a context

What a machine does does not depend on what is left to be done after it. A continuation can be
put onto another one, with which it goes on where it would have halted (`Cont.onto`). As long
as the machine has not ended, its steps stay the same (`Machine.step_onto`). So if a run ends,
the machine does the same steps in every context and then hands the result to the
continuation below (`Machine.after_onto`).
-/

namespace PoolScript

namespace Cont

/-- The continuation that goes on with `base` where `k` halts. -/
def onto {a : Awaits} (k : Cont a) (base : Cont .value) : Cont a :=
  match k with
  | .halt => base
  | .rightOperand op rhs k => .rightOperand op rhs (k.onto base)
  | .operator op lhs k => .operator op lhs (k.onto base)
  | .negation k => .negation (k.onto base)
  | .subscript name k => .subscript name (k.onto base)
  | .argument name callee given rest k => .argument name callee given rest (k.onto base)
  | .result k => .result (k.onto base)
  | .test line body rest k => .test line body rest (k.onto base)
  | .sequence line chain rest k => .sequence line chain rest (k.onto base)
  | .discard k => .discard (k.onto base)
  | .assign name k => .assign name (k.onto base)
  | .storedValue name value k => .storedValue name value (k.onto base)
  | .store name key k => .store name key (k.onto base)
  | .loopTest cond body k => .loopTest cond body (k.onto base)
  | .loopBody cond body k => .loopBody cond body (k.onto base)
  | .rangeLast var last body k => .rangeLast var last body (k.onto base)
  | .rangeBegin var first body k => .rangeBegin var first body (k.onto base)
  | .rangeBody var i last body k => .rangeBody var i last body (k.onto base)
  | .eachBegin key value body k => .eachBegin key value body (k.onto base)
  | .eachBody key value body subject cell next k =>
    .eachBody key value body subject cell next (k.onto base)
  | .returnValue k => .returnValue (k.onto base)

end Cont

namespace Control

/-- The control with its continuation put onto `base`. -/
def onto (c : Control) (base : Cont .value) : Control :=
  match c with
  | eval e k => eval e (k.onto base)
  | value v k => value v (k.onto base)
  | block chain stmts k => block chain stmts (k.onto base)
  | signal s k => signal s (k.onto base)
  | failing f k => failing f (k.onto base)

/-- The control that hands a result to a continuation. -/
def ofResult (k : Cont .value) : Except Failure Value → Control
  | .ok v => value v k
  | .error f => failing f k

/-- A control that has ended hands its result to the base. -/
theorem onto_of_result {c : Control} {r : Except Failure Value} (h : c.result? = some r)
    (base : Cont .value) : c.onto base = ofResult base r := by
  simp only [result?] at h
  split at h <;> cases h <;> rfl

end Control

namespace Machine

variable {code : Code} {base : Cont .value} {s : State}

/-- The configuration with its continuation put onto `base`. -/
def onto (base : Cont .value) (p : Control × State) : Control × State :=
  (p.1.onto base, p.2)

theorem settle_onto (k : Cont .value) (r : Except Fault Value × State) :
    settle (k.onto base) r = onto base (settle k r) := by
  rcases r with ⟨_ | _, _⟩ <;> rfl

theorem complete_onto (signal : Signal) (k : Cont .signal) (r : Except Fault Unit × State) :
    complete signal (k.onto base) r = onto base (complete signal k r) := by
  rcases r with ⟨_ | _, _⟩ <;> rfl

/-- A call does the same in any context. -/
theorem call_onto (name callee : String) (args : List Value) (k : Cont .value) (s : State) :
    call code name callee args (k.onto base) s = onto base (call code name callee args k s) := by
  simp only [call]
  split
  · exact settle_onto ..
  · split
    · split
      · rfl
      · split
        · rfl
        · exact settle_onto ..
    · split
      · split <;> rfl
      · rfl

/-- A step into an expression is the same in any context. -/
theorem evaluate_onto (e : Expr) (k : Cont .value) (s : State) :
    evaluate code e (k.onto base) s = onto base (evaluate code e k s) := by
  cases e with
  | str | var => exact settle_onto ..
  | call name args =>
    simp only [evaluate]
    split
    · rfl
    · cases args with
      | nil => exact call_onto ..
      | cons => rfl
  | _ => rfl

theorem countFrom_onto (var : String) (i last : Int64) (body : List Stmt) (k : Cont .signal)
    (s : State) :
    countFrom var i last body (k.onto base) s = onto base (countFrom var i last body k s) := by
  simp only [countFrom]
  split
  · split <;> rfl
  · rfl

theorem walkFrom_onto (key value : String) (body : List Stmt) (subject : Value)
    (cell : Option Handle) (k : Cont .signal) (s : State) :
    walkFrom key value body subject cell (k.onto base) s =
      onto base (walkFrom key value body subject cell k s) := by
  cases cell with
  | none => rfl
  | some h =>
    simp only [walkFrom]
    split
    · rfl
    · rfl
    · split
      · rfl
      · split <;> rfl

/-- What receives a value does the same in any context, as long as something is left to be done. -/
theorem receive_onto (v : Value) (k : Cont .value) (s : State) (hk : k ≠ .halt) :
    receive code v (k.onto base) s = onto base (receive code v k s) := by
  cases k with
  | halt => exact absurd rfl hk
  | operator | negation | subscript => exact settle_onto ..
  | argument name callee given rest k =>
    cases rest with
    | nil => exact call_onto ..
    | cons => rfl
  | test line body rest k =>
    simp only [receive, Cont.onto]
    split <;> rfl
  | assign | store | returnValue => exact complete_onto ..
  | loopTest cond body k =>
    simp only [receive, Cont.onto]
    split <;> rfl
  | rangeLast => cases v <;> rfl
  | rangeBegin var first body k =>
    cases v with
    | int last => exact countFrom_onto ..
    | _ => rfl
  | eachBegin key value body k =>
    cases v with
    | array h =>
      simp only [receive, Cont.onto]
      split
      · exact walkFrom_onto ..
      · rfl
    | _ => rfl
  | _ => rfl

/-- What goes on after a signal does the same in any context. -/
theorem resume_onto (signal : Signal) (k : Cont .signal) (s : State) :
    resume code signal (k.onto base) s = onto base (resume code signal k s) := by
  cases k with
  | result k => exact settle_onto k ((s.leave code.platform.order).map .ok id)
  | sequence | loopBody => cases signal <;> rfl
  | rangeBody var i last body k =>
    have next : (if i = Int64.maxValue then (.signal .normal (k.onto base), s)
        else countFrom var (i + 1) last body (k.onto base) s) =
        onto base (if i = Int64.maxValue then (.signal .normal k, s)
          else countFrom var (i + 1) last body k s) := by
      split
      · rfl
      · exact countFrom_onto ..
    cases signal with
    | normal | continued => exact next
    | _ => rfl
  | eachBody key value body subject cell next k =>
    cases signal with
    | normal | continued => exact walkFrom_onto ..
    | _ => rfl

theorem execute_onto (chain : Chain) (stmts : List Stmt) (k : Cont .signal) :
    execute chain stmts (k.onto base) = (execute chain stmts k).onto base := by
  cases stmts with
  | nil => rfl
  | cons stmt rest =>
    cases stmt with
    | elseIf | elseThen => cases chain <;> rfl
    | ret line value => cases value <;> rfl
    | _ => rfl

/-- A failure goes the same way down in any context, as long as it has not come to the end. -/
theorem fail_onto (f : Failure) {a : Awaits} (k : Cont a) (s : State)
    (hk : (Control.failing f k).result? = none) :
    fail f (k.onto base) s = onto base (fail f k s) := by
  cases k with
  | halt => cases hk
  | _ => rfl

/-- A machine that has not ended takes the same step in every context. -/
theorem step_onto {c : Control} (hc : c.result? = none) :
    step code (c.onto base) s = onto base (step code c s) := by
  cases c with
  | eval e k => exact evaluate_onto e k s
  | value v k =>
    refine receive_onto v k s ?_
    rintro rfl
    cases hc
  | block chain stmts k => exact congrArg (·, s) (execute_onto chain stmts k)
  | signal signal k => exact resume_onto signal k s
  | failing f k => exact fail_onto f k s hc

/-- A run that ends hands its result to the continuation below. -/
theorem after_onto {fuel : Nat} {c : Control} {r : Except Failure Value} {s' : State}
    (hr : run code fuel c s = some (r, s')) (base : Cont .value) :
    ∃ n, after code n (c.onto base, s) = (.ofResult base r, s') := by
  induction fuel generalizing c s with
  | zero =>
    rw [run] at hr
    split at hr
    · next hres =>
      cases hr
      rw [← Control.onto_of_result hres base]
      exact ⟨0, rfl⟩
    · cases hr
  | succ fuel ih =>
    rw [run] at hr
    split at hr
    · next hres =>
      cases hr
      rw [← Control.onto_of_result hres base]
      exact ⟨0, rfl⟩
    · next hres =>
      obtain ⟨n, hn⟩ := ih hr
      refine ⟨n + 1, ?_⟩
      rw [after, Function.iterate_succ_apply, step_onto hres]
      exact hn

end Machine

end PoolScript
