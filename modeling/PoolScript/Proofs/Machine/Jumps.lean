import PoolScript.Proofs.Machine.Handles
import PoolScript.Proofs.Tree.Jumps

/-!
# Jumps of machines

When a machine begins a `break` or `continue`, it hands the signal on until it comes to a loop. If
the functions of a script keep their jumps in loops, there is one before the end of the call: what
is left to be done in no loop of a call has no jump outside of loops of its own
(`Control.KeepsJumps`). Every step keeps it so (`Machine.step_keepsJumps`), and no function ends
with a jump (`Machine.call_ends`).
-/

namespace PoolScript

/-- The signal leaves a round of a loop. -/
def Signal.isJump : Signal → Bool
  | broke | continued => true
  | normal | returned => false

namespace Cont

/-- The innermost call is in the body of a loop. -/
def inLoop {a : Awaits} (k : Cont a) : Bool :=
  match k with
  | .halt | .result _ => false
  | .loopBody _ _ _ | .rangeBody _ _ _ _ _ | .eachBody _ _ _ _ _ _ _ => true
  | .rightOperand _ _ k | .operator _ _ k | .negation k | .subscript _ k | .argument _ _ _ _ k =>
    k.inLoop
  | .test _ _ _ k | .discard k | .assign _ k | .storedValue _ _ k | .store _ _ k
  | .loopTest _ _ k | .rangeLast _ _ _ k | .rangeBegin _ _ _ k | .eachBegin _ _ _ k
  | .returnValue k => k.inLoop
  | .sequence _ _ _ k => k.inLoop

/-- The statements can be executed before `k`: their jumps find a loop. -/
def Admits (k : Cont .signal) (ss : List Stmt) : Prop :=
  k.inLoop = false → KeepsJumps ss

/-- In the body of a loop, any statements can be executed. -/
theorem admits_of_inLoop {k : Cont .signal} (h : k.inLoop = true) (ss : List Stmt) :
    k.Admits ss :=
  fun hout => absurd (h.symm.trans hout) Bool.noConfusion

/-- The jumps in statements that are left to be done find loops. -/
def KeepsJumps {a : Awaits} (k : Cont a) : Prop :=
  match k with
  | .halt => True
  | .test _ body rest k => k.Admits body ∧ k.Admits rest ∧ k.KeepsJumps
  | .sequence _ _ rest k => k.Admits rest ∧ k.KeepsJumps
  | .rightOperand _ _ k | .operator _ _ k | .negation k | .subscript _ k | .argument _ _ _ _ k =>
    k.KeepsJumps
  | .result k => k.KeepsJumps
  | .discard k | .assign _ k | .storedValue _ _ k | .store _ _ k | .loopTest _ _ k
  | .rangeLast _ _ _ k | .rangeBegin _ _ _ k | .eachBegin _ _ _ k | .returnValue k => k.KeepsJumps
  | .loopBody _ _ k | .rangeBody _ _ _ _ k | .eachBody _ _ _ _ _ _ k => k.KeepsJumps

end Cont

namespace Control

/-- All jumps find loops, those in statements that are left to be done and the one that is being
    made. -/
def KeepsJumps : Control → Prop
  | eval _ k | value _ k => k.KeepsJumps
  | block _ ss k => k.Admits ss ∧ k.KeepsJumps
  | signal sig k => (k.inLoop = false → sig.isJump = false) ∧ k.KeepsJumps
  | failing _ k => k.KeepsJumps

/-- The body of a function ends with a jump. -/
def JumpsOut (c : Control) : Prop :=
  ∃ sig k, c = .signal sig (.result k) ∧ sig.isJump = true

theorem KeepsJumps.not_jumpsOut {c : Control} (h : c.KeepsJumps) : ¬c.JumpsOut := by
  rintro ⟨sig, k, rfl, hsig⟩
  exact Bool.false_ne_true ((h.1 rfl).symm.trans hsig)

end Control

/-- The functions of a script keep their jumps in loops. -/
def Code.KeepsJumps (code : Code) : Prop :=
  ∀ name f, code.functions.get? name = some f → PoolScript.KeepsJumps f.body

namespace Machine

variable {code : Code}

theorem settle_keepsJumps {k : Cont .value} (hk : k.KeepsJumps) (r : Except Fault Value × State) :
    (settle k r).1.KeepsJumps := by
  rcases r with ⟨_ | _, _⟩ <;> exact hk

theorem complete_keepsJumps {signal : Signal} {k : Cont .signal} (hsig : signal.isJump = false)
    (hk : k.KeepsJumps) (r : Except Fault Unit × State) : (complete signal k r).1.KeepsJumps := by
  rcases r with ⟨_ | _, _⟩
  · exact hk
  · exact ⟨fun _ => hsig, hk⟩

theorem call_keepsJumps (hc : code.KeepsJumps) (name callee : String) (args : List Value)
    {k : Cont .value} (hk : k.KeepsJumps) (s : State) :
    (call code name callee args k s).1.KeepsJumps := by
  rw [call]
  split
  · exact settle_keepsJumps hk _
  · split
    · split
      · exact hk
      · split
        · exact hk
        · exact settle_keepsJumps hk _
    · split
      · next f hf =>
        split
        · exact hk
        -- The body is in no loop of its call, whatever loops the caller is in.
        · exact ⟨fun _ => hc _ f hf, hk⟩
      · exact hk

theorem evaluate_keepsJumps (hc : code.KeepsJumps) (e : Expr) {k : Cont .value}
    (hk : k.KeepsJumps) (s : State) : (evaluate code e k s).1.KeepsJumps := by
  cases e with
  | str | var => exact settle_keepsJumps hk _
  | call name args =>
    rw [evaluate]
    split
    · exact hk
    · cases args with
      | nil => exact call_keepsJumps hc _ _ _ hk s
      | cons => exact hk
  | _ => exact hk

/-- The body of a loop can have jumps wherever the loop is. -/
theorem countFrom_keepsJumps (var : String) (i last : Int64) (body : List Stmt) {k : Cont .signal}
    (hk : k.KeepsJumps) (s : State) : (countFrom var i last body k s).1.KeepsJumps := by
  rw [countFrom]
  split
  · split
    · exact ⟨Cont.admits_of_inLoop rfl body, hk⟩
    · exact hk
  · exact ⟨fun _ => rfl, hk⟩

theorem walkFrom_keepsJumps (key value : String) (body : List Stmt) (subject : Value)
    (cell : Option Handle) {k : Cont .signal} (hk : k.KeepsJumps) (s : State) :
    (walkFrom key value body subject cell k s).1.KeepsJumps := by
  cases cell with
  | none => exact ⟨fun _ => rfl, hk⟩
  | some h =>
    simp only [walkFrom]
    split
    · exact hk
    · exact ⟨fun _ => rfl, hk⟩
    · split
      · exact hk
      · split
        · exact hk
        · exact ⟨Cont.admits_of_inLoop rfl body, hk⟩

theorem receive_keepsJumps (hc : code.KeepsJumps) (v : Value) {k : Cont .value}
    (hk : k.KeepsJumps) (s : State) : (receive code v k s).1.KeepsJumps := by
  cases k with
  | halt | rightOperand | storedValue => exact hk
  | operator | negation | subscript =>
    refine settle_keepsJumps ?_ _
    exact hk
  | assign | store | returnValue => exact complete_keepsJumps rfl hk _
  | discard => exact ⟨fun _ => rfl, hk⟩
  | argument name callee given rest k =>
    cases rest with
    | nil => exact call_keepsJumps hc _ _ _ (k := k) hk s
    | cons => exact hk
  | test line body rest k =>
    obtain ⟨hbody, hrest, hk⟩ := hk
    simp only [receive]
    split
    · exact ⟨hbody, hrest, hk⟩
    · exact ⟨hrest, hk⟩
    · exact hk
  | loopTest cond body k =>
    simp only [receive]
    split
    · exact ⟨Cont.admits_of_inLoop rfl body, hk⟩
    · exact ⟨fun _ => rfl, hk⟩
    · exact hk
  | rangeLast => cases v <;> exact hk
  | rangeBegin => cases v <;> first | exact hk | exact countFrom_keepsJumps _ _ _ _ hk s
  | eachBegin key value body k =>
    cases v with
    | array h =>
      simp only [receive]
      split
      · exact walkFrom_keepsJumps _ _ _ _ _ hk s
      · exact hk
    | _ => exact hk

/-- The signal of a list of statements goes on to what is around it, but no jump leaves a loop. -/
theorem resume_keepsJumps {sig : Signal} {k : Cont .signal}
    (h : (Control.signal sig k).KeepsJumps) (s : State) : (resume code sig k s).1.KeepsJumps := by
  obtain ⟨hsig, hk⟩ := h
  cases k with
  | result k => exact settle_keepsJumps hk _
  | sequence line chain rest k =>
    cases sig with
    | normal => exact hk
    | returned | broke | continued => exact ⟨hsig, hk.2⟩
  | loopBody cond body k =>
    -- A jump ends here: it goes on with the loop or, as a normal signal, behind it.
    cases sig with
    | normal | continued => exact hk
    | broke | returned => exact ⟨fun _ => rfl, hk⟩
  | rangeBody var i last body k =>
    cases sig with
    | normal | continued =>
      simp only [resume]
      split
      · exact ⟨fun _ => rfl, hk⟩
      · exact countFrom_keepsJumps _ _ _ _ (k := k) hk s
    | broke | returned => exact ⟨fun _ => rfl, hk⟩
  | eachBody key value body subject cell next k =>
    cases sig with
    | normal | continued => exact walkFrom_keepsJumps _ _ _ _ _ (k := k) hk s
    | broke | returned => exact ⟨fun _ => rfl, hk⟩

theorem execute_keepsJumps (chain : Chain) {ss : List Stmt} {k : Cont .signal} (hss : k.Admits ss)
    (hk : k.KeepsJumps) : (execute chain ss k).KeepsJumps := by
  cases ss with
  | nil => exact ⟨fun _ => rfl, hk⟩
  | cons stmt rest =>
    have hrest : k.Admits rest := fun hl => (hss hl).tail
    cases stmt with
    | ifThen line cond body => exact ⟨fun hl => (hss hl).body, hrest, hk⟩
    | elseIf line cond body =>
      cases chain with
      | absent => exact hk
      | untaken => exact ⟨fun hl => (hss hl).body, hrest, hk⟩
      | taken => exact ⟨hrest, hk⟩
    | elseThen line body =>
      cases chain with
      | absent => exact hk
      | untaken => exact ⟨fun hl => (hss hl).body, hrest, hk⟩
      | taken => exact ⟨hrest, hk⟩
    | ret line value =>
      cases value with
      | none => exact ⟨fun _ => rfl, hk⟩
      | some e => exact ⟨hrest, hk⟩
    | «break» | «continue» => exact ⟨fun hl => (hss hl).head, hk⟩
    | _ => exact ⟨hrest, hk⟩

theorem fail_keepsJumps {a : Awaits} (f : Failure) {k : Cont a} (hk : k.KeepsJumps) (s : State) :
    (fail f k s).1.KeepsJumps := by
  cases k with
  | test => exact hk.2.2
  | sequence => exact hk.2
  | _ => exact hk

theorem step_keepsJumps (hc : code.KeepsJumps) {c : Control} (h : c.KeepsJumps) (s : State) :
    (step code c s).1.KeepsJumps := by
  cases c with
  | eval e k => exact evaluate_keepsJumps hc e h s
  | value v k => exact receive_keepsJumps hc v h s
  | block chain ss k => exact execute_keepsJumps chain h.1 h.2
  | signal sig k => exact resume_keepsJumps h s
  | failing f k => exact fail_keepsJumps f h s

theorem after_keepsJumps (hc : code.KeepsJumps) {c : Control × State} (h : c.1.KeepsJumps)
    (n : Nat) : (after code n c).1.KeepsJumps := by
  induction n with
  | zero => exact h
  | succ n ih =>
    rw [after_succ]
    exact step_keepsJumps hc ih _

/-- No function ends with a jump, neither one that is called nor one that it calls. -/
theorem call_ends (hc : code.KeepsJumps) (name callee : String) (args : List Value) (s : State)
    (n : Nat) : ¬(after code n (call code name callee args .halt s)).1.JumpsOut :=
  (after_keepsJumps hc (call_keepsJumps hc name callee args (k := .halt) trivial s) n).not_jumpsOut

end Machine

end PoolScript
