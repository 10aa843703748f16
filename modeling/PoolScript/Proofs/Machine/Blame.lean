import PoolScript.Proofs.Machine.Frames
import PoolScript.Proofs.Machine.Layers

/-!
# Who is blamed for a failure

A machine can be *watched*. While it runs, a record is kept of the statements that were begun and
are not finished, the innermost one in front. A statement is begun when it is taken from its list,
and it is finished as soon as no more is left to be done than there was before: the record knows
nothing of lines. When the machine begins to fail, it is noted which statements there are. Watching
does not change what the machine does (`Watched.run_eq`).

A continuation has a layer for every statement that goes on with what it was waiting for. So a step
keeps the record and these layers in step (`Machine.step_follows`), a failure that unwinds them is
blamed on the first one, and a run that fails blames the innermost statement that there was when
the failure was raised (`Watched.run_blames`).
-/

namespace PoolScript

/-- A statement that was begun, and how many layers were left to be done then. -/
structure Begun where
  stmt : Stmt
  layers : Nat

namespace Control

/-- How many layers are left to be done. -/
def layers : Control → Nat
  | eval _ k | value _ k => k.layers
  | block _ _ k | signal _ k => k.layers
  | failing _ k => k.layers

/-- What is begun and not finished during a step: the first statement of a list is begun by it. -/
def begins (c : Control) (stack : List Begun) : List Begun :=
  match c with
  | block _ (stmt :: _) k => ⟨stmt, k.layers⟩ :: stack
  | _ => stack

/-- What is not finished when a control is come to: more is left to be done than there was when it
    was begun. -/
def unfinished (c : Control) (stack : List Begun) : List Begun :=
  stack.dropWhile fun b => c.layers ≤ b.layers

end Control

/-- A machine under watch. -/
structure Watched where
  control : Control
  state : State
  /-- The statements that were begun and are not finished, the innermost one in front. -/
  stack : List Begun
  /-- Those that there were when the machine began to fail. -/
  raised : Option (List Begun)

namespace Watched

/-- A machine whose watch begins. -/
def start (c : Control × State) : Watched :=
  ⟨c.1, c.2, [], if c.1.isFailing then some [] else none⟩

/-- One step of a machine under watch. -/
def step (code : Code) (w : Watched) : Watched :=
  let stack := w.control.begins w.stack
  match Machine.step code w.control w.state with
  | (c, s) => ⟨c, s, c.unfinished stack, w.raised.or (if c.isFailing then some stack else none)⟩

/-- Steps until nothing is left to be done, `fuel` of them at most. -/
def run (code : Code) (fuel : Nat) (w : Watched) : Option (Except Failure Value × Watched) :=
  match w.control.result? with
  | some result => some (result, w)
  | none =>
    match fuel with
    | 0 => none
    | fuel + 1 => (w.step code).run code fuel

/-- A machine under watch does what it does without. -/
theorem run_eq (code : Code) (fuel : Nat) (w : Watched) :
    Machine.run code fuel w.control w.state = (w.run code fuel).map fun r => (r.1, r.2.state) := by
  induction fuel generalizing w with
  | zero =>
    rw [Machine.run, run]
    cases w.control.result? <;> rfl
  | succ fuel ih =>
    rw [Machine.run, run]
    cases w.control.result? with
    | some result => rfl
    | none => exact ih (w.step code)

end Watched

/-! ### Statements in a continuation -/

namespace Cont

/-- The lines of the statements that a continuation goes on with, the innermost one in front, each
    with the number of layers beneath it. -/
def opened {a : Awaits} (k : Cont a) : List (Nat × Nat) :=
  match k with
  | .halt => []
  | .rightOperand _ _ k | .operator _ _ k | .negation k | .subscript _ k | .argument _ _ _ _ k =>
    k.opened
  | .result k => k.opened
  | .test line _ _ k => (line, k.layers) :: k.opened
  | .sequence line _ _ k => (line, k.layers) :: k.opened
  | .discard k | .assign _ k | .storedValue _ _ k | .store _ _ k | .loopTest _ _ k
  | .rangeLast _ _ _ k | .rangeBegin _ _ _ k | .eachBegin _ _ _ k | .returnValue k => k.opened
  | .loopBody _ _ k | .rangeBody _ _ _ _ k | .eachBody _ _ _ _ _ _ k => k.opened

variable {a : Awaits}

theorem opened_lt : ∀ {a : Awaits} (k : Cont a), ∀ e ∈ k.opened, e.2 < k.layers := by
  intro a k
  induction k with
  | halt => exact fun e he => absurd he List.not_mem_nil
  | test line body rest k ih | sequence line chain rest k ih =>
    intro e he
    rcases List.mem_cons.1 he with rfl | he
    · exact Nat.lt_succ_self _
    · exact Nat.lt_succ_of_lt (ih e he)
  | _ => rename_i ih; exact fun e he => Nat.lt_succ_of_lt (ih e he)

/-- None of the statements of a continuation is finished while the continuation is there. -/
theorem dropWhile_opened (k : Cont a) :
    (k.opened.dropWhile fun e => k.layers ≤ e.2) = k.opened := by
  rcases ho : k.opened with _ | ⟨e, es⟩
  · rfl
  · have hlt : e.2 < k.layers := opened_lt k e (ho ▸ List.mem_cons_self)
    rw [List.dropWhile_cons_of_neg]
    simpa using hlt

end Cont

namespace Control

/-- The statements that a control goes on with. -/
def opened : Control → List (Nat × Nat)
  | eval _ k | value _ k => k.opened
  | block _ _ k | signal _ k => k.opened
  | failing _ k => k.opened

/-- Those, and the one that a step begins. -/
def ongoing : Control → List (Nat × Nat)
  | block _ (stmt :: _) k => (stmt.line, k.layers) :: k.opened
  | c => c.opened

/-- The line that will be blamed when the control unwinds its continuation. -/
def blamed : Control → Option Nat
  | failing f k => f.line.or (k.opened.head?.map Prod.fst)
  | _ => none

theorem blamed_of_result {c : Control} {f : Failure} (h : c.result? = some (.error f)) :
    c.isFailing ∧ c.blamed = f.line := by
  simp only [result?] at h
  split at h <;> cases h
  exact ⟨rfl, Option.or_none⟩

/-- The control is come to by a step during which the statements in `es` are begun and not
    finished: some of them are finished, and a failure is blamed on the first one. -/
structure Follows (es : List (Nat × Nat)) (c : Control) : Prop where
  opened : (es.dropWhile fun e => c.layers ≤ e.2) = c.opened
  blamed : c.isFailing → c.blamed = es.head?.map Prod.fst

variable {k : Cont .value} {j : Cont .signal} {a : Awaits} {l : Cont a}

theorem follows_eval (e : Expr) : (eval e k).Follows k.opened :=
  ⟨k.dropWhile_opened, nofun⟩

theorem follows_value (v : Value) : (value v k).Follows k.opened :=
  ⟨k.dropWhile_opened, nofun⟩

theorem follows_block (chain : Chain) (ss : List Stmt) : (block chain ss j).Follows j.opened :=
  ⟨j.dropWhile_opened, nofun⟩

theorem follows_signal (sig : Signal) : (signal sig j).Follows j.opened :=
  ⟨j.dropWhile_opened, nofun⟩

/-- A fault that is raised is blamed on the first statement there is. -/
theorem follows_failing (f : Fault) : (failing (.of f) l).Follows l.opened :=
  ⟨l.dropWhile_opened, fun _ => rfl⟩

/-- The statement on `line` is finished when nothing more is left to be done than before. -/
theorem Follows.finish {c : Control} (line : Nat) (h : c.Follows l.opened)
    (hl : c.layers = l.layers) (hc : c.isFailing = false) :
    c.Follows ((line, l.layers) :: l.opened) where
  opened := by
    rw [List.dropWhile_cons_of_pos (by simp [hl])]
    exact h.opened
  blamed hf := absurd hf (by simp [hc])

/-- A failure that the statement on `line` is blamed for finishes it. -/
theorem follows_blamed (f : Fault) (line : Nat) :
    (failing ⟨f, some line⟩ l).Follows ((line, l.layers) :: l.opened) where
  opened := by
    rw [List.dropWhile_cons_of_pos (by simp [layers])]
    exact l.dropWhile_opened
  blamed _ := rfl

end Control

/-! ### Steps -/

namespace Machine

open Control

variable {code : Code}

theorem settle_follows (k : Cont .value) (r : Except Fault Value × State) :
    (settle k r).1.Follows k.opened := by
  rcases r with ⟨_ | _, _⟩
  · exact follows_failing _
  · exact follows_value _

theorem complete_follows (signal : Signal) (k : Cont .signal) (r : Except Fault Unit × State) :
    (complete signal k r).1.Follows k.opened := by
  rcases r with ⟨_ | _, _⟩
  · exact follows_failing _
  · exact follows_signal _

/-- Whatever goes wrong with a call, the calling statement is blamed. -/
theorem call_follows (code : Code) (name callee : String) (args : List Value) (k : Cont .value)
    (s : State) : (call code name callee args k s).1.Follows k.opened := by
  rw [call]
  split
  · exact settle_follows ..
  · split
    · split
      · exact follows_failing _
      · split
        · exact follows_failing _
        · exact settle_follows ..
    · split
      · split
        · exact follows_failing _
        · exact follows_block (j := .result k) ..
      · exact follows_failing _

theorem evaluate_follows (code : Code) (e : Expr) (k : Cont .value) (s : State) :
    (evaluate code e k s).1.Follows k.opened := by
  cases e with
  | int | float => exact follows_value _
  | str | var => exact settle_follows ..
  | index name sub => exact follows_eval (k := .subscript name k) sub
  | binary op lhs rhs => exact follows_eval (k := .rightOperand op rhs k) lhs
  | neg operand => exact follows_eval (k := .negation k) operand
  | call name args =>
    rw [evaluate]
    split
    · exact follows_failing _
    · next target _ =>
      cases args with
      | nil => exact call_follows ..
      | cons arg rest => exact follows_eval (k := .argument name target [] rest k) arg

theorem countFrom_follows (var : String) (i last : Int64) (body : List Stmt) (k : Cont .signal)
    (s : State) : (countFrom var i last body k s).1.Follows k.opened := by
  rw [countFrom]
  split
  · split
    · exact follows_block (j := .rangeBody var i last body k) ..
    · exact follows_failing _
  · exact follows_signal _

theorem walkFrom_follows (key value : String) (body : List Stmt) (subject : Value)
    (cell : Option Handle) (k : Cont .signal) (s : State) :
    (walkFrom key value body subject cell k s).1.Follows k.opened := by
  cases cell with
  | none => exact follows_signal _
  | some h =>
    simp only [walkFrom]
    split
    · exact follows_failing _
    · exact follows_signal _
    · split
      · exact follows_failing _
      · split
        · exact follows_failing _
        · exact follows_block (j := .eachBody key value body subject h (s.heap.next? h) k) ..

theorem receive_follows (code : Code) (v : Value) (k : Cont .value) (s : State) :
    (receive code v k s).1.Follows k.opened := by
  cases k with
  | halt => exact follows_value _
  | rightOperand op rhs k => exact follows_eval (k := .operator op v k) rhs
  | operator _ _ k | negation k | subscript _ k => exact settle_follows k _
  | argument name callee given rest k =>
    cases rest with
    | nil => exact call_follows code name callee _ k s
    | cons arg rest => exact follows_eval (k := .argument name callee (v :: given) rest k) arg
  | test line body rest k =>
    -- The conditional goes on with its branch, or is finished.
    simp only [receive]
    split
    · exact follows_block (j := .sequence line .taken rest k) ..
    · exact (follows_block ..).finish line rfl rfl
    · exact follows_blamed ..
  | discard k => exact follows_signal (j := k) _
  | assign _ k | store _ _ k | returnValue k => exact complete_follows _ k _
  | storedValue name e k => exact follows_eval (k := .store name v k) e
  | loopTest cond body k =>
    simp only [receive]
    split
    · exact follows_block (j := .loopBody cond body k) ..
    · exact follows_signal (j := k) _
    · exact follows_failing (l := k) _
  | rangeLast var last body k =>
    cases v with
    | int first => exact follows_eval (k := .rangeBegin var first body k) last
    | _ => exact follows_failing (l := k) _
  | rangeBegin var first body k =>
    cases v with
    | int last => exact countFrom_follows var first last body k s
    | _ => exact follows_failing (l := k) _
  | eachBegin key value body k =>
    cases v with
    | array h =>
      simp only [receive]
      split
      · exact walkFrom_follows key value body _ _ k s
      · exact follows_failing (l := k) _
    | _ => exact follows_failing (l := k) _

/-- A statement of a list is finished by its signal, whether the list goes on or not. -/
theorem resume_follows (code : Code) (sig : Signal) (k : Cont .signal) (s : State) :
    (resume code sig k s).1.Follows k.opened := by
  cases k with
  | result k => exact settle_follows k _
  | sequence line chain rest k =>
    cases sig with
    | normal => exact (follows_block ..).finish line rfl rfl
    | returned | broke | continued => exact (follows_signal _).finish line rfl rfl
  | loopBody cond body k =>
    cases sig with
    | normal | continued => exact follows_eval (k := .loopTest cond body k) cond
    | broke | returned => exact follows_signal (j := k) _
  | rangeBody var i last body k =>
    cases sig with
    | normal | continued =>
      simp only [resume]
      split
      · exact follows_signal (j := k) _
      · exact countFrom_follows var _ last body k s
    | broke | returned => exact follows_signal (j := k) _
  | eachBody key value body subject cell next k =>
    cases sig with
    | normal | continued => exact walkFrom_follows key value body subject _ k s
    | broke | returned => exact follows_signal (j := k) _

/-- A statement that is begun goes on with something, or is finished at once. -/
theorem execute_follows (chain : Chain) (stmt : Stmt) (rest : List Stmt) (k : Cont .signal) :
    (execute chain (stmt :: rest) k).Follows ((stmt.line, k.layers) :: k.opened) := by
  cases stmt with
  | ifThen line cond body => exact follows_eval (k := .test line body rest k) cond
  | elseIf line cond body =>
    cases chain with
    | absent => exact follows_blamed ..
    | untaken => exact follows_eval (k := .test line body rest k) cond
    | taken => exact (follows_block ..).finish line rfl rfl
  | elseThen line body =>
    cases chain with
    | absent => exact follows_blamed ..
    | untaken => exact follows_block (j := .sequence line .absent rest k) ..
    | taken => exact (follows_block ..).finish line rfl rfl
  | empty line => exact (follows_block ..).finish line rfl rfl
  | «break» line | «continue» line => exact (follows_signal _).finish line rfl rfl
  | expr line e => exact follows_eval (k := .discard (.sequence line .absent rest k)) e
  | assign line name e => exact follows_eval (k := .assign name (.sequence line .absent rest k)) e
  | assignElement line name sub e =>
    exact follows_eval (k := .storedValue name e (.sequence line .absent rest k)) sub
  | whileLoop line cond body =>
    exact follows_eval (k := .loopTest cond body (.sequence line .absent rest k)) cond
  | forRange line var first last body =>
    exact follows_eval (k := .rangeLast var last body (.sequence line .absent rest k)) first
  | forEach line key value array body =>
    exact follows_eval (k := .eachBegin key value body (.sequence line .absent rest k)) array
  | ret line value =>
    cases value with
    | none => exact (follows_signal _).finish line rfl rfl
    | some e => exact follows_eval (k := .returnValue (.sequence line .absent rest k)) e

/-- Unwinding a layer finishes the statement that goes on with it. -/
theorem fail_opened (f : Failure) (k : Cont a) (s : State) :
    (k.opened.dropWhile fun e => (fail f k s).1.layers ≤ e.2) = (fail f k s).1.opened := by
  cases k with
  | halt => rfl
  | test line body rest k | sequence line chain rest k =>
    exact (List.dropWhile_cons_of_pos (by simp [fail, layers])).trans k.dropWhile_opened
  | _ => rename_i k; exact k.dropWhile_opened

/-- Unwinding a layer does not change who is blamed. -/
theorem fail_blamed (f : Failure) (k : Cont a) (s : State) :
    (fail f k s).1.blamed = (failing f k).blamed := by
  cases k with
  | test line body rest k | sequence line chain rest k =>
    obtain ⟨fault, _ | _⟩ := f <;> rfl
  | _ => rfl

/-- What is begun and not finished during a step is finished by it or gone on with, and a failure
    that it raises is blamed on the first of it. -/
theorem step_follows (code : Code) {c : Control} (hc : c.isFailing = false) (s : State) :
    (step code c s).1.Follows c.ongoing := by
  cases c with
  | eval e k => exact evaluate_follows code e k s
  | value v k => exact receive_follows code v k s
  | block chain stmts k =>
    cases stmts with
    | nil => exact follows_signal _
    | cons stmt rest => exact execute_follows chain stmt rest k
  | signal signal k => exact resume_follows code signal k s
  | failing f k => cases hc

/-- A failure finishes statements, and goes on to blame the one that it was blamed on. -/
theorem step_unwinds (code : Code) {c : Control} (hc : c.isFailing) (s : State) :
    (c.ongoing.dropWhile fun e => (step code c s).1.layers ≤ e.2) = (step code c s).1.opened ∧
      (step code c s).1.blamed = c.blamed := by
  cases c with
  | failing f k => exact ⟨fail_opened f k s, fail_blamed f k s⟩
  | _ => cases hc

end Machine

/-! ### Runs -/

namespace Watched

open Control

variable {code : Code} {w : Watched}

/-- A record lists the statements of which `es` has the lines. -/
def Lists (stack : List Begun) (es : List (Nat × Nat)) : Prop :=
  stack.map (fun b => (b.stmt.line, b.layers)) = es

/-- The line of the innermost statement of a record. -/
def innermost (stack : List Begun) : Option Nat :=
  stack.head?.map (·.stmt.line)

theorem Lists.innermost {stack : List Begun} {es : List (Nat × Nat)} (h : Lists stack es) :
    innermost stack = es.head?.map Prod.fst := by
  rw [← h, Watched.innermost, List.head?_map, Option.map_map]
  rfl

theorem Lists.unfinished {stack : List Begun} {es : List (Nat × Nat)} (h : Lists stack es)
    (c : Control) : Lists (c.unfinished stack) (es.dropWhile fun e => c.layers ≤ e.2) := by
  rw [Lists, ← h, List.dropWhile_map]
  rfl

theorem Lists.begins {c : Control} {stack : List Begun} (h : Lists stack c.opened) :
    Lists (c.begins stack) c.ongoing := by
  cases c with
  | block chain stmts k =>
    cases stmts with
    | nil => exact h
    | cons stmt rest => exact congrArg (_ :: ·) h
  | _ => exact h

/-- The record is about what the control goes on with, and about the one that is blamed once the
    machine fails. -/
structure Faithful (w : Watched) : Prop where
  opened : Lists w.stack w.control.opened
  running : w.control.isFailing = false → w.raised = none
  failing : w.control.isFailing → ∃ bs, w.raised = some bs ∧ w.control.blamed = innermost bs

theorem start_faithful (name callee : String) (args : List Value) (s : State) :
    (start (Machine.call code name callee args .halt s)).Faithful := by
  have hf := Machine.call_follows code name callee args .halt s
  refine ⟨hf.opened, fun hc => if_neg ?_, fun hc => ⟨[], if_pos hc, hf.blamed hc⟩⟩
  exact Bool.eq_false_iff.1 hc

theorem Faithful.step (h : w.Faithful) : (w.step code).Faithful := by
  have hb := h.opened.begins
  cases hc : w.control.isFailing with
  | false =>
    have hf := Machine.step_follows code hc w.state
    have hr : (w.step code).raised = if (w.step code).control.isFailing then
        some (w.control.begins w.stack) else none := by
      simp [Watched.step, h.running hc]
    refine ⟨(hb.unfinished _).trans hf.opened, fun hn => ?_, fun hn => ?_⟩
    · rw [hr, hn, if_neg nofun]
    · exact ⟨_, hr.trans (if_pos hn), (hf.blamed hn).trans hb.innermost.symm⟩
  | true =>
    obtain ⟨ho, hl⟩ := Machine.step_unwinds code hc w.state
    obtain ⟨bs, hr, hbs⟩ := h.failing hc
    have hfail := (Machine.step_failing code hc w.state).1
    refine ⟨(hb.unfinished _).trans ho, fun hn => ?_, fun _ => ⟨bs, ?_, hl.trans hbs⟩⟩
    · exact absurd (hn.symm.trans hfail) nofun
    · simp [Watched.step, hr]

theorem Faithful.run {fuel : Nat} {r : Except Failure Value × Watched} (h : w.Faithful)
    (hr : w.run code fuel = some r) :
    r.2.Faithful ∧ r.2.control.result? = some r.1 := by
  fun_induction Watched.run code fuel w with
  | case1 fuel w result hw =>
    cases hr
    exact ⟨h, hw⟩
  | case2 => cases hr
  | case3 w _ fuel ih => exact ih h.step hr

/-- A run that fails blames the innermost of the statements that there were when the failure was
    raised. -/
theorem Faithful.run_blames {fuel : Nat} {f : Failure} {w' : Watched} (h : w.Faithful)
    (hr : w.run code fuel = some (.error f, w')) :
    ∃ bs, w'.raised = some bs ∧ f.line = innermost bs := by
  obtain ⟨hw, hf⟩ := h.run hr
  obtain ⟨hfail, hline⟩ := blamed_of_result hf
  obtain ⟨bs, hraised, hbs⟩ := hw.failing hfail
  exact ⟨bs, hraised, hline.symm.trans hbs⟩

end Watched

end PoolScript
