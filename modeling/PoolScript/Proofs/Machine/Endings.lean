import PoolScript.Proofs.Machine.Context
import PoolScript.Proofs.Machine.Layers

/-!
# How statements end

Statements end by handing a signal or a failure to what is left to be done after them
(`Machine.Ends`). What they do until then does not depend on what that is: the same layers can be
put over another continuation (`Cont.atop`), and the machine takes the same steps
(`Machine.step_atop`). So a list of statements has an ending of its own (`Machine.Runs`), and an
expression has a value of its own (`Machine.Evaluates`), and the machine can be understood by
them, wherever the list or the expression stands.

* `ends_atop`: what is begun ends by itself, and then goes on with what is below;
* `ends_onto`: the same for an expression.
-/

namespace PoolScript

namespace Cont

/-- What is left to be done after statements that are executed by themselves. -/
def ground : Cont .signal :=
  .result .halt

/-- The same layers, with `base` in the place of the ground that they stand on. -/
def atop {a : Awaits} (k : Cont a) (base : Cont .signal) : Cont a :=
  match k with
  | .halt => .halt
  | .rightOperand op rhs k => .rightOperand op rhs (k.atop base)
  | .operator op lhs k => .operator op lhs (k.atop base)
  | .negation k => .negation (k.atop base)
  | .subscript name k => .subscript name (k.atop base)
  | .argument name callee given rest k => .argument name callee given rest (k.atop base)
  | .result k => if k.layers = 0 then base else .result (k.atop base)
  | .test line body rest k => .test line body rest (k.atop base)
  | .sequence line chain rest k => .sequence line chain rest (k.atop base)
  | .discard k => .discard (k.atop base)
  | .assign name k => .assign name (k.atop base)
  | .storedValue name value k => .storedValue name value (k.atop base)
  | .store name key k => .store name key (k.atop base)
  | .loopTest cond body k => .loopTest cond body (k.atop base)
  | .loopBody cond body k => .loopBody cond body (k.atop base)
  | .rangeLast var last body k => .rangeLast var last body (k.atop base)
  | .rangeBegin var first body k => .rangeBegin var first body (k.atop base)
  | .rangeBody var i last body k => .rangeBody var i last body (k.atop base)
  | .eachBegin key value body k => .eachBegin key value body (k.atop base)
  | .eachBody key value body subject cell next k =>
    .eachBody key value body subject cell next (k.atop base)
  | .returnValue k => .returnValue (k.atop base)

variable {a b : Awaits} {k : Cont a} {base : Cont .signal}

/-- Above something else there is a layer at least. -/
theorem layers_pos (h : ground.Above k) : k.layers ≠ 0 := by
  have : 1 ≤ k.layers := h.layers_le
  omega

/-- Above the ground, a call that is left is on layers that are above the ground. -/
theorem atop_result {k : Cont .value} (h : ground.Above k) (base : Cont .signal) :
    (Cont.result k).atop base = .result (k.atop base) :=
  if_neg (layers_pos h)

theorem beneath_atop {k' : Cont b} (hk : k.beneath = some ⟨b, k'⟩) (h : ground.Above k')
    (base : Cont .signal) : (k.atop base).beneath = some ⟨b, k'.atop base⟩ := by
  cases k with
  | result k =>
    cases hk
    rw [atop_result h, beneath]
  | halt => cases hk
  | _ =>
    cases hk
    rfl

/-- The layers that were above the ground are above the base. -/
theorem base_above (h : ground.Above k) (base : Cont .signal) : base.Above (k.atop base) := by
  induction h with
  | refl => exact .refl
  | layer hk h ih => exact .layer (beneath_atop hk h base) ih

/-- The layers over another base: the one that was the ground is counted there. -/
theorem layers_atop (h : ground.Above k) (base : Cont .signal) :
    (k.atop base).layers + 1 = k.layers + base.layers := by
  induction h with
  | refl => exact Nat.add_comm ..
  | layer hk h ih =>
    rw [layers_beneath hk, layers_beneath (beneath_atop hk h base)]
    omega

/-- Nothing above the ground is in its place but the ground itself. -/
theorem eq_ground {k : Cont .signal} (h : ground.Above k) (hk : k.atop base = base) :
    k = ground := by
  refine h.eq_of_layers ?_
  have := layers_atop h base
  rw [hk] at this
  show k.layers = 1
  omega

end Cont

namespace Control

/-- The control with its layers over another base. -/
def atop (c : Control) (base : Cont .signal) : Control :=
  match c with
  | eval e k => eval e (k.atop base)
  | value v k => value v (k.atop base)
  | block chain stmts k => block chain stmts (k.atop base)
  | signal s k => signal s (k.atop base)
  | failing f k => failing f (k.atop base)

/-- The control that hands a signal or a failure to a continuation. -/
def hand (k : Cont .signal) : Except Failure Signal → Control
  | .ok sig => signal sig k
  | .error f => failing f k

variable {c : Control} {k : Cont .signal}

/-- A control hands something over if it is what is handed over. -/
theorem handsTo_iff : c.HandsTo k ↔ ∃ r, c = hand k r :=
  ⟨fun h => h.elim (fun ⟨sig, hc⟩ => ⟨.ok sig, hc⟩) fun ⟨f, hc⟩ => ⟨.error f, hc⟩,
    fun ⟨r, hc⟩ => match r with
      | .ok sig => .inl ⟨sig, hc⟩
      | .error f => .inr ⟨f, hc⟩⟩

/-- What goes on above a continuation hands it nothing yet. -/
theorem not_handsTo_of_isAbove (h : c.isAbove k.layers) : ¬c.HandsTo k := by
  rintro (⟨sig, rfl⟩ | ⟨f, rfl⟩) <;>
  exact Nat.lt_irrefl _ (of_decide_eq_true h)

/-- What is handed to the ground is handed to the base instead. -/
theorem hand_atop (r : Except Failure Signal) (base : Cont .signal) :
    (hand .ground r).atop base = hand base r := by
  cases r <;> rfl

/-- It can be told from the control what is handed over. -/
theorem hand_inj {r r' : Except Failure Signal} (h : hand k r = hand k r') : r = r' := by
  cases r <;> cases r' <;> cases h <;> rfl

/-- What is above the ground hands something to the base only from the ground. -/
theorem handsTo_of_atop (h : c.Within .ground) {base : Cont .signal}
    (hc : (c.atop base).HandsTo base) : c.HandsTo .ground := by
  rcases hc with ⟨sig, hc⟩ | ⟨f, hc⟩
  · cases c <;> simp only [atop, reduceCtorEq] at hc
    obtain ⟨rfl, hk⟩ := Control.signal.inj hc
    rw [Cont.eq_ground h hk]
    exact .inl ⟨_, rfl⟩
  · cases c <;> simp only [atop, reduceCtorEq] at hc
    next g a k =>
    obtain ⟨rfl, rfl, hk⟩ := Control.failing.inj hc
    rw [Cont.eq_ground h (eq_of_heq hk)]
    exact .inr ⟨_, rfl⟩

end Control

namespace Machine

variable {code : Code} {base k : Cont .signal} {s : State}

/-! ### The same steps over another base -/

/-- The configuration with its layers over another base. -/
def atop (base : Cont .signal) (p : Control × State) : Control × State :=
  (p.1.atop base, p.2)

theorem settle_atop (k : Cont .value) (r : Except Fault Value × State) :
    settle (k.atop base) r = atop base (settle k r) := by
  rcases r with ⟨_ | _, _⟩ <;> rfl

theorem complete_atop (signal : Signal) (k : Cont .signal) (r : Except Fault Unit × State) :
    complete signal (k.atop base) r = atop base (complete signal k r) := by
  rcases r with ⟨_ | _, _⟩ <;> rfl

/-- A call does the same over any base. -/
theorem call_atop {k : Cont .value} (h : Cont.ground.Above k) (name callee : String)
    (args : List Value) (s : State) :
    call code name callee args (k.atop base) s = atop base (call code name callee args k s) := by
  simp only [call]
  split
  · exact settle_atop ..
  · split
    · split
      · rfl
      · split
        · rfl
        · exact settle_atop ..
    · split
      · split
        · rfl
        · rw [← Cont.atop_result h]
          rfl
      · rfl

/-- A step into an expression is the same over any base. -/
theorem evaluate_atop {k : Cont .value} (h : Cont.ground.Above k) (e : Expr) (s : State) :
    evaluate code e (k.atop base) s = atop base (evaluate code e k s) := by
  cases e with
  | str | var => exact settle_atop ..
  | call name args =>
    simp only [evaluate]
    split
    · rfl
    · cases args with
      | nil => exact call_atop h ..
      | cons => rfl
  | _ => rfl

theorem countFrom_atop (var : String) (i last : Int64) (body : List Stmt) (k : Cont .signal)
    (s : State) :
    countFrom var i last body (k.atop base) s = atop base (countFrom var i last body k s) := by
  simp only [countFrom]
  split
  · split <;> rfl
  · rfl

theorem walkFrom_atop (key value : String) (body : List Stmt) (subject : Value)
    (cell : Option Handle) (k : Cont .signal) (s : State) :
    walkFrom key value body subject cell (k.atop base) s =
      atop base (walkFrom key value body subject cell k s) := by
  cases cell with
  | none => rfl
  | some h =>
    simp only [walkFrom]
    split
    · rfl
    · rfl
    · split
      · rfl
      · split <;> rfl

/-- What receives a value does the same over any base. -/
theorem receive_atop {k : Cont .value} (h : Cont.ground.Above k) (v : Value) (s : State) :
    receive code v (k.atop base) s = atop base (receive code v k s) := by
  cases k with
  | halt => exact absurd rfl (Cont.layers_pos h)
  | operator | negation | subscript => exact settle_atop ..
  | argument name callee given rest k =>
    cases rest with
    | nil =>
      cases h with
      | layer hk h =>
        cases hk
        exact call_atop h ..
    | cons => rfl
  | test line body rest k =>
    simp only [receive, Cont.atop]
    split <;> rfl
  | assign | store | returnValue => exact complete_atop ..
  | loopTest cond body k =>
    simp only [receive, Cont.atop]
    split <;> rfl
  | rangeLast => cases v <;> rfl
  | rangeBegin var first body k =>
    cases v with
    | int last => exact countFrom_atop ..
    | _ => rfl
  | eachBegin key value body k =>
    cases v with
    | array h =>
      simp only [receive, Cont.atop]
      split
      · exact walkFrom_atop ..
      · rfl
    | _ => rfl
  | _ => rfl

/-- What goes on after a signal does the same over any base, but for the ground, which ends a call.
    -/
theorem resume_atop (h : Cont.ground.Above k) (hk : k ≠ .ground) (signal : Signal) (s : State) :
    resume code signal (k.atop base) s = atop base (resume code signal k s) := by
  cases k with
  | result k =>
    cases h with
    | refl => exact absurd rfl hk
    | layer hl h =>
      cases hl
      rw [Cont.atop_result h]
      exact settle_atop k ((s.leave code.platform.order).map .ok id)
  | sequence | loopBody => cases signal <;> rfl
  | rangeBody var i last body k =>
    have next : (if i = Int64.maxValue then (.signal .normal (k.atop base), s)
        else countFrom var (i + 1) last body (k.atop base) s) =
        atop base (if i = Int64.maxValue then (.signal .normal k, s)
          else countFrom var (i + 1) last body k s) := by
      split
      · rfl
      · exact countFrom_atop ..
    cases signal with
    | normal | continued => exact next
    | _ => rfl
  | eachBody key value body subject cell next k =>
    cases signal with
    | normal | continued => exact walkFrom_atop ..
    | _ => rfl

theorem execute_atop (chain : Chain) (stmts : List Stmt) (k : Cont .signal) :
    execute chain stmts (k.atop base) = (execute chain stmts k).atop base := by
  cases stmts with
  | nil => rfl
  | cons stmt rest =>
    cases stmt with
    | elseIf | elseThen => cases chain <;> rfl
    | ret line value => cases value <;> rfl
    | _ => rfl

/-- A failure goes the same way down over any base, as long as there is a layer of its own to leave.
    -/
theorem fail_atop {a : Awaits} {k : Cont a} (h : Cont.ground.Above k)
    (hk : k.layers ≠ 1) (f : Failure) (s : State) :
    fail f (k.atop base) s = atop base (fail f k s) := by
  cases k with
  | halt => exact absurd rfl (Cont.layers_pos h)
  | result k =>
    cases h with
    | refl => exact absurd rfl hk
    | layer hl h =>
      cases hl
      rw [Cont.atop_result h]
      rfl
  | _ => rfl

/-- Above the ground a machine takes the same step over every base. -/
theorem step_atop {c : Control} (h : c.Within .ground) (hc : ¬c.HandsTo .ground)
    (base : Cont .signal) (s : State) :
    step code (c.atop base) s = atop base (step code c s) := by
  cases c with
  | eval e k => exact evaluate_atop h e s
  | value v k => exact receive_atop h v s
  | block chain stmts k => exact congrArg (·, s) (execute_atop chain stmts k)
  | signal signal k =>
    refine resume_atop h ?_ signal s
    rintro rfl
    exact hc (.inl ⟨_, rfl⟩)
  | failing f k =>
    refine fail_atop h ?_ f s
    intro hk
    cases h with
    | refl => exact hc (.inr ⟨f, rfl⟩)
    | layer hl h =>
      rw [Cont.layers_beneath hl] at hk
      exact Cont.layers_pos h (Nat.succ.inj hk)

/-! ### Endings -/

/-- The machine hands a signal or a failure to `k`, for the first time, in the given state. -/
inductive Ends (code : Code) (k : Cont .signal) :
    Control × State → Except Failure Signal × State → Prop
  | now (r : Except Failure Signal) (s : State) : Ends code k (.hand k r, s) (r, s)
  | step {c : Control} {s : State} {q : Except Failure Signal × State} : ¬c.HandsTo k →
      Ends code k (step code c s) q → Ends code k (c, s) q

/-- How a list of statements ends that is executed by itself. -/
def Runs (code : Code) (stmts : List Stmt) (s : State) (q : Except Failure Signal × State) : Prop :=
  Ends code .ground (.block .absent stmts .ground, s) q

/-- What an expression comes to that is evaluated by itself. -/
def Evaluates (code : Code) (e : Expr) (s : State) (q : Except Failure Value × State) : Prop :=
  ∃ fuel, run code fuel (.eval e .halt) s = some q

variable {k' : Cont .signal} {c : Control} {r : Except Failure Signal}
  {q : Except Failure Signal × State}

/-- What is handed over at once is the ending. -/
theorem ends_hand : Ends code k (.hand k r, s) q ↔ q = (r, s) := by
  constructor
  · intro h
    generalize hp : (Control.hand k r, s) = p at h
    cases h with
    | now r' s' =>
      obtain ⟨hr, rfl⟩ := Prod.mk.inj hp
      rw [Control.hand_inj hr]
    | step hc _ =>
      obtain ⟨rfl, rfl⟩ := Prod.mk.inj hp
      exact absurd (Control.handsTo_iff.2 ⟨r, rfl⟩) hc
  · rintro rfl
    exact .now r s

/-- What hands nothing over yet ends as it does after a step. -/
theorem ends_step (hc : ¬c.HandsTo k) : Ends code k (c, s) q ↔ Ends code k (step code c s) q := by
  constructor
  · intro h
    generalize hp : (c, s) = p at h
    cases h with
    | now r s' =>
      obtain ⟨rfl, rfl⟩ := Prod.mk.inj hp
      exact absurd (Control.handsTo_iff.2 ⟨r, rfl⟩) hc
    | step _ h =>
      obtain ⟨rfl, rfl⟩ := Prod.mk.inj hp
      exact h
  · exact .step hc

/-- Statements end when something is handed on after steps above what is left to be done. -/
theorem ends_after (n : Nat) {p : Control × State}
    (above : ∀ i < n, (after code i p).1.isAbove k.layers)
    (h : after code n p = (.hand k r, s)) : Ends code k p (r, s) := by
  induction n generalizing p with
  | zero =>
    obtain rfl : p = _ := h
    exact .now r s
  | succ n ih =>
    obtain ⟨c, t⟩ := p
    refine .step (Control.not_handsTo_of_isAbove (above 0 (Nat.succ_pos n))) (ih (fun i hi => ?_) h)
    exact above (i + 1) (Nat.succ_lt_succ hi)

theorem atop_within (h : c.Within .ground) (base : Cont .signal) : (c.atop base).Within base := by
  cases c <;> exact Cont.base_above h base

/-- A control over `k'`, which is above `k`, hands something to `k` only if the two are the same
    and it is at the ground. -/
theorem handsTo_ground (h : c.Within .ground) (hk : k.Above k') (hc : (c.atop k').HandsTo k) :
    c.HandsTo .ground := by
  have habove : k'.Above k := by
    have hwithin := atop_within h k'
    rcases hc with ⟨sig, hc⟩ | ⟨f, hc⟩ <;> rw [hc] at hwithin <;> exact hwithin
  obtain rfl := hk.eq_of_layers (Nat.le_antisymm habove.layers_le hk.layers_le)
  exact Control.handsTo_of_atop h hc

/-- What is begun over `k'` ends by itself, and then hands on to `k'`. -/
theorem ends_atop (h : c.Within .ground) (hk : k.Above k') :
    Ends code k (c.atop k', s) q ↔
      ∃ r t, Ends code .ground (c, s) (r, t) ∧ Ends code k (.hand k' r, t) q := by
  constructor
  · -- From left to right the steps are followed until the upper part has ended.
    intro hends
    generalize hp : (c.atop k', s) = p at hends
    induction hends generalizing c s with
    | now r t =>
      obtain ⟨hc, rfl⟩ := Prod.mk.inj hp
      have hover : (c.atop k').HandsTo k := Control.handsTo_iff.2 ⟨r, hc⟩
      obtain ⟨r', rfl⟩ := Control.handsTo_iff.1 (handsTo_ground h hk hover)
      refine ⟨r', s, .now r' s, ?_⟩
      rw [← Control.hand_atop, hc]
      exact .now r s
    | step hnot hends ih =>
      obtain ⟨rfl, rfl⟩ := Prod.mk.inj hp
      -- Either the upper part ends just now, or it goes on with the same step by itself.
      by_cases hc : c.HandsTo .ground
      · obtain ⟨r, rfl⟩ := Control.handsTo_iff.1 hc
        refine ⟨r, s, .now r s, ?_⟩
        rw [← Control.hand_atop]
        exact .step hnot hends
      · obtain ⟨r, t, hground, hrest⟩ := ih (step_within h hc s) (step_atop h hc k' s).symm
        exact ⟨r, t, .step hc hground, hrest⟩
  · -- From right to left the steps of the upper part come first.
    rintro ⟨r, t, hground, hrest⟩
    generalize hp : (c, s) = p at hground
    generalize hq : (r, t) = q' at hground
    induction hground generalizing c s with
    | now r s =>
      obtain ⟨rfl, rfl⟩ := Prod.mk.inj hp
      obtain ⟨rfl, rfl⟩ := Prod.mk.inj hq
      rwa [Control.hand_atop]
    | step hc _ ih =>
      obtain ⟨rfl, rfl⟩ := Prod.mk.inj hp
      refine .step (fun hover => hc (handsTo_ground h hk hover)) ?_
      rw [step_atop h hc]
      exact ih (step_within h hc s) rfl hq

/-- A list of statements ends over every continuation as it does by itself. -/
theorem ends_block {stmts : List Stmt} (hk : k.Above k') :
    Ends code k (.block .absent stmts k', s) q ↔
      ∃ r t, Runs code stmts s (r, t) ∧ Ends code k (.hand k' r, t) q :=
  ends_atop (c := .block .absent stmts .ground) .refl hk

/-- Statements by themselves end by themselves. -/
theorem ends_block_self {stmts : List Stmt} :
    Ends code k (.block .absent stmts k, s) q ↔ Runs code stmts s q := by
  simp only [ends_block (.refl : k.Above k), ends_hand]
  constructor
  · rintro ⟨r, t, hruns, rfl⟩
    exact hruns
  · intro hruns
    exact ⟨q.1, q.2, hruns, rfl⟩

/-! ### Values -/

/-- A continuation that is put onto a base is above it. -/
theorem onto_above {a : Awaits} (k : Cont a) (base : Cont .value) : base.Above (k.onto base) := by
  induction k with
  | halt => exact .refl
  | _ =>
    rename_i ih
    exact .layer rfl ih

/-- What is begun above `base`, which awaits a value above `k`, hands nothing to `k`. -/
theorem not_handsTo_onto {base : Cont .value} (hk : k.Above base) (c : Control) :
    ¬(c.onto base).HandsTo k := by
  intro hc
  have hwithin : (c.onto base).Within base := by
    cases c <;> exact onto_above _ base
  have hle : base.layers ≤ k.layers := by
    rcases hc with ⟨sig, hc⟩ | ⟨f, hc⟩ <;> rw [hc] at hwithin <;> exact hwithin.layers_le
  cases hk with
  | layer hl h =>
    have := h.layers_le
    rw [Cont.layers_beneath hl] at hle
    omega

/-- A run that is begun over `base` ends by itself, and then hands on to `base`. -/
theorem ends_onto {base : Cont .value} (hk : k.Above base) (c : Control) (s : State) :
    Ends code k (c.onto base, s) q ↔
      ∃ r t, (∃ fuel, run code fuel c s = some (r, t)) ∧ Ends code k (.ofResult base r, t) q := by
  constructor
  · intro hends
    generalize hp : (c.onto base, s) = p at hends
    induction hends generalizing c s with
    | now r t =>
      obtain ⟨hc, rfl⟩ := Prod.mk.inj hp
      exact absurd (Control.handsTo_iff.2 ⟨r, hc⟩) (not_handsTo_onto hk c)
    | step hnot hends ih =>
      obtain ⟨rfl, rfl⟩ := Prod.mk.inj hp
      -- Either the expression has come to its end, or it takes the same step by itself.
      cases hres : c.result? with
      | some r =>
        refine ⟨r, s, ⟨0, by rw [run, hres]⟩, ?_⟩
        rw [← Control.onto_of_result hres]
        exact .step hnot hends
      | none =>
        obtain ⟨r, t, ⟨fuel, hrun⟩, hrest⟩ := ih _ _ (step_onto hres).symm
        exact ⟨r, t, ⟨fuel + 1, by rw [run, hres]; exact hrun⟩, hrest⟩
  · rintro ⟨r, t, ⟨fuel, hrun⟩, hrest⟩
    induction fuel generalizing c s with
    | zero =>
      rw [run] at hrun
      split at hrun
      · next hres =>
        cases hrun
        rwa [Control.onto_of_result hres]
      · cases hrun
    | succ fuel ih =>
      rw [run] at hrun
      split at hrun
      · next hres =>
        cases hrun
        rwa [Control.onto_of_result hres]
      · next hres =>
        refine .step (not_handsTo_onto hk c) ?_
        rw [step_onto hres]
        exact ih _ _ hrun

/-- An expression comes to the same over every continuation as it does by itself. -/
theorem ends_eval {e : Expr} {base : Cont .value} (hk : k.Above base) :
    Ends code k (.eval e base, s) q ↔
      ∃ r t, Evaluates code e s (r, t) ∧ Ends code k (.ofResult base r, t) q :=
  ends_onto hk (.eval e .halt) s

end Machine

end PoolScript
