import PoolScript.Proofs.Machine.Handles

/-!
# Layers

A continuation is made of layers. A step takes at most one layer away from the continuation of
its control and puts others there instead. So what is left to be done after a statement stays
where it is until the statement has ended: until a signal or a failure is handed to it
(`Machine.step_within`).
-/

namespace PoolScript

namespace Cont

/-- What is beneath the topmost layer of a continuation. -/
def beneath {a : Awaits} (k : Cont a) : Option ((b : Awaits) × Cont b) :=
  match k with
  | .halt => none
  | .rightOperand _ _ k | .operator _ _ k | .negation k | .subscript _ k | .argument _ _ _ _ k =>
    some ⟨.value, k⟩
  | .result k => some ⟨.value, k⟩
  | .test _ _ _ k | .discard k | .assign _ k | .storedValue _ _ k | .store _ _ k
  | .loopTest _ _ k | .rangeLast _ _ _ k | .rangeBegin _ _ _ k | .eachBegin _ _ _ k
  | .returnValue k => some ⟨.signal, k⟩
  | .sequence _ _ _ k | .loopBody _ _ k | .rangeBody _ _ _ _ k | .eachBody _ _ _ _ _ _ k =>
    some ⟨.signal, k⟩

/-- The continuation consists of some layers over `base`. -/
inductive Above {b : Awaits} (base : Cont b) : {a : Awaits} → Cont a → Prop
  | refl : Above base base
  | layer {a a' : Awaits} {k : Cont a} {k' : Cont a'} :
      k.beneath = some ⟨a', k'⟩ → Above base k' → Above base k

/-- How many layers a continuation has. -/
def layers {a : Awaits} (k : Cont a) : Nat :=
  match k with
  | .halt => 0
  | .rightOperand _ _ k | .operator _ _ k | .negation k | .subscript _ k | .argument _ _ _ _ k =>
    k.layers + 1
  | .result k => k.layers + 1
  | .test _ _ _ k | .discard k | .assign _ k | .storedValue _ _ k | .store _ _ k
  | .loopTest _ _ k | .rangeLast _ _ _ k | .rangeBegin _ _ _ k | .eachBegin _ _ _ k
  | .returnValue k => k.layers + 1
  | .sequence _ _ _ k | .loopBody _ _ k | .rangeBody _ _ _ _ k | .eachBody _ _ _ _ _ _ k =>
    k.layers + 1

variable {a b c : Awaits} {k : Cont a} {k' : Cont b} {base : Cont c}

theorem layers_beneath (h : k.beneath = some ⟨b, k'⟩) : k.layers = k'.layers + 1 := by
  cases k <;> cases h <;> rfl

namespace Above

theorem trans (h : base.Above k') (h' : k'.Above k) : base.Above k := by
  induction h' with
  | refl => exact h
  | layer hk _ ih => exact .layer hk ih

theorem layers_le (h : base.Above k) : base.layers ≤ k.layers := by
  induction h with
  | refl => exact Nat.le_refl _
  | layer hk _ ih =>
    rw [layers_beneath hk]
    exact Nat.le_succ_of_le ih

theorem layers_lt (h : base.Above k') (hk : k.beneath = some ⟨b, k'⟩) :
    base.layers < k.layers := by
  rw [layers_beneath hk]
  exact Nat.lt_succ_of_le h.layers_le

/-- Nothing is above a continuation of as many layers but itself. -/
theorem eq_of_layers {base k : Cont a} (h : base.Above k) (hl : k.layers = base.layers) :
    k = base := by
  cases h with
  | refl => rfl
  | layer hk h =>
    have hle := h.layers_le
    rw [layers_beneath hk] at hl
    omega

end Above

end Cont

namespace Control

/-- The continuation of a control consists of some layers over `base`. -/
def Within {b : Awaits} (base : Cont b) : Control → Prop
  | eval _ k | value _ k => base.Above k
  | block _ _ k | signal _ k => base.Above k
  | failing _ k => base.Above k

/-- A signal or a failure is handed to `k`. -/
def HandsTo (k : Cont .signal) (c : Control) : Prop :=
  (∃ sig, c = .signal sig k) ∨ ∃ f, c = .failing f k

/-- If a value, a signal or a failure is handed to a continuation, that has more than `n` layers. -/
def isAbove (n : Nat) : Control → Bool
  | eval _ _ | block _ _ _ => true
  | value _ k | signal _ k | failing _ k => n < k.layers

variable {a b : Awaits} {base : Cont b} {k : Cont a} {c : Control}

theorem Within.trans (h : c.Within k) (hk : base.Above k) : c.Within base := by
  cases c <;> exact hk.trans h

/-- Within a continuation, something is handed either to what is above it or to itself. -/
theorem Within.isAbove {k : Cont .signal} (h : c.Within k) (hc : ¬c.HandsTo k) :
    c.isAbove k.layers := by
  cases c with
  | eval | block => rfl
  | value v l =>
    cases h with
    | layer hl h => exact decide_eq_true (h.layers_lt hl)
  | signal sig l =>
    cases h with
    | refl => exact absurd (.inl ⟨sig, rfl⟩) hc
    | layer hl h => exact decide_eq_true (h.layers_lt hl)
  | failing f l =>
    cases h with
    | refl => exact absurd (.inr ⟨f, rfl⟩) hc
    | layer hl h => exact decide_eq_true (h.layers_lt hl)

/-- If nothing is handed to what is above a continuation, it is handed to itself. -/
theorem Within.eq_value {k : Cont .value} (h : c.Within k) (hc : ¬c.isAbove k.layers) :
    (∃ v, c = .value v k) ∨ ∃ f, c = .failing f k := by
  cases c with
  | eval | block => exact absurd rfl hc
  | value v l =>
    cases h with
    | refl => exact .inl ⟨v, rfl⟩
    | layer hl h => exact absurd (decide_eq_true (h.layers_lt hl)) hc
  | signal sig l =>
    cases h with
    | layer hl h => exact absurd (decide_eq_true (h.layers_lt hl)) hc
  | failing f l =>
    cases h with
    | refl => exact .inr ⟨f, rfl⟩
    | layer hl h => exact absurd (decide_eq_true (h.layers_lt hl)) hc

end Control

namespace Machine

open Cont (Above)
open Control (Within HandsTo)

variable {code : Code} {s : State}

theorem settle_within (k : Cont .value) (r : Except Fault Value × State) :
    (settle k r).1.Within k := by
  rcases r with ⟨_ | _, _⟩ <;> exact .refl

theorem complete_within (signal : Signal) (k : Cont .signal) (r : Except Fault Unit × State) :
    (complete signal k r).1.Within k := by
  rcases r with ⟨_ | _, _⟩ <;> exact .refl

theorem call_within (name callee : String) (args : List Value) (k : Cont .value) (s : State) :
    (call code name callee args k s).1.Within k := by
  rw [call]
  split
  · exact settle_within ..
  · split
    · split
      · exact .refl
      · split
        · exact .refl
        · exact settle_within ..
    · split
      · split
        · exact .refl
        · exact .layer rfl .refl
      · exact .refl

theorem evaluate_within (e : Expr) (k : Cont .value) (s : State) :
    (evaluate code e k s).1.Within k := by
  cases e with
  | int | float => exact .refl
  | index | binary | neg => exact .layer rfl .refl
  | str | var => exact settle_within ..
  | call name args =>
    rw [evaluate]
    split
    · exact .refl
    · cases args with
      | nil => exact call_within ..
      | cons => exact .layer rfl .refl

theorem countFrom_within (var : String) (i last : Int64) (body : List Stmt) (k : Cont .signal)
    (s : State) : (countFrom var i last body k s).1.Within k := by
  rw [countFrom]
  split
  · split
    · exact .layer rfl .refl
    · exact .refl
  · exact .refl

theorem walkFrom_within (key value : String) (body : List Stmt) (subject : Value)
    (cell : Option Handle) (k : Cont .signal) (s : State) :
    (walkFrom key value body subject cell k s).1.Within k := by
  cases cell with
  | none => exact .refl
  | some h =>
    simp only [walkFrom]
    split
    · exact .refl
    · exact .refl
    · split
      · exact .refl
      · split
        · exact .refl
        · exact .layer rfl .refl

theorem receive_within {b : Awaits} {base : Cont b} {k : Cont .value} (v : Value)
    (hk : k.beneath = some ⟨b, base⟩) (s : State) : (receive code v k s).1.Within base := by
  -- What goes on is on the layer below, or puts a layer on it.
  cases k with
  | halt => cases hk
  | operator | negation | subscript =>
    cases hk
    exact settle_within ..
  | assign | store | returnValue =>
    cases hk
    exact complete_within ..
  | argument name callee given rest k =>
    cases hk
    cases rest with
    | nil => exact call_within ..
    | cons => exact .layer rfl .refl
  | test | loopTest =>
    cases hk
    simp only [receive]
    split <;> first | exact .refl | exact .layer rfl .refl
  | discard =>
    cases hk
    exact .refl
  | rightOperand | storedValue =>
    cases hk
    exact .layer rfl .refl
  | rangeLast =>
    cases hk
    cases v <;> first | exact .refl | exact .layer rfl .refl
  | rangeBegin =>
    cases hk
    cases v <;> first | exact .refl | exact countFrom_within ..
  | eachBegin =>
    cases hk
    cases v with
    | array h =>
      simp only [receive]
      split
      · exact walkFrom_within ..
      · exact .refl
    | _ => exact .refl

theorem resume_within {b : Awaits} {base : Cont b} {k : Cont .signal} (signal : Signal)
    (hk : k.beneath = some ⟨b, base⟩) (s : State) : (resume code signal k s).1.Within base := by
  cases k with
  | result =>
    cases hk
    exact settle_within ..
  | sequence =>
    cases hk
    cases signal <;> exact .refl
  | loopBody =>
    cases hk
    cases signal <;> first | exact .refl | exact .layer rfl .refl
  | rangeBody =>
    cases hk
    simp only [resume]
    split
    · split <;> [exact .refl; exact countFrom_within ..]
    · split <;> [exact .refl; exact countFrom_within ..]
    · exact .refl
    · exact .refl
  | eachBody =>
    cases hk
    cases signal <;> first | exact .refl | exact walkFrom_within ..

theorem execute_within (chain : Chain) (stmts : List Stmt) (k : Cont .signal) :
    (execute chain stmts k).Within k := by
  cases stmts with
  | nil => exact .refl
  | cons stmt rest =>
    cases stmt with
    | ifThen => exact .layer rfl .refl
    | elseIf | elseThen => cases chain <;> first | exact .refl | exact .layer rfl .refl
    | empty | «break» | «continue» => exact .refl
    | ret line value =>
      cases value with
      | none => exact .refl
      | some e => exact .layer rfl (.layer rfl .refl)
    | _ => exact .layer rfl (.layer rfl .refl)

theorem fail_within {a b : Awaits} {base : Cont b} {k : Cont a} (f : Failure)
    (hk : k.beneath = some ⟨b, base⟩) (s : State) : (fail f k s).1.Within base := by
  cases k <;> cases hk <;> exact .refl

/-- What is left to be done stays where it is as long as only what is above it is handed
    something. -/
theorem step_within_above {b : Awaits} {base : Cont b} {c : Control} (h : c.Within base)
    (hc : c.isAbove base.layers) (s : State) : (step code c s).1.Within base := by
  have hlt {a : Awaits} {k : Cont a} (hk : decide (base.layers < k.layers) = true) :
      base.layers < k.layers := of_decide_eq_true hk
  cases c with
  | eval e l => exact (evaluate_within e l s).trans h
  | block chain stmts l => exact (execute_within chain stmts l).trans h
  | value v l =>
    cases h with
    | refl => exact absurd (hlt hc) (Nat.lt_irrefl _)
    | layer hl h => exact (receive_within v hl s).trans h
  | signal sig l =>
    cases h with
    | refl => exact absurd (hlt hc) (Nat.lt_irrefl _)
    | layer hl h => exact (resume_within sig hl s).trans h
  | failing f l =>
    cases h with
    | refl => exact absurd (hlt hc) (Nat.lt_irrefl _)
    | layer hl h => exact (fail_within f hl s).trans h

/-- What is left to be done after a statement stays where it is until it is handed a signal or a
    failure. -/
theorem step_within {c : Control} {k : Cont .signal} (h : c.Within k) (hc : ¬c.HandsTo k)
    (s : State) : (step code c s).1.Within k :=
  step_within_above h (h.isAbove hc) s

end Machine

end PoolScript
