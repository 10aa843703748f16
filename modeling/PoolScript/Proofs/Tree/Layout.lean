import PoolScript.Proofs.Token.Layout
import PoolScript.Proofs.Tree.Equations

/-!
# Layout never changes meaning

The layout of a text decides on which lines its tokens stand, and nothing else. The readings pass
the lines of their tokens into the tree and never look at them: of two lists with the same tokens
(`SameTokens`) a reading makes trees that are the same but for their lines and leaves the same
tokens, or it refuses both at the same token for the same cause (`Agree`). The induction is along
the readings, by the length of what is left to read.

* `Program.ofTokens_agree`: the tree of a list of tokens, on whatever lines they stand;
* `parse_relaid`: what is made of a text, and of the same text laid out anew.
-/

namespace PoolScript

/-! ### Trees without lines -/

namespace Stmt

mutual

/-- A statement with all its lines set to zero. -/
def unlined : Stmt → Stmt
  | empty _ => .empty 0
  | expr _ e => .expr 0 e
  | assign _ name value => .assign 0 name value
  | assignElement _ name subscript value => .assignElement 0 name subscript value
  | ifThen _ cond body => .ifThen 0 cond (unlinedAll body)
  | elseIf _ cond body => .elseIf 0 cond (unlinedAll body)
  | elseThen _ body => .elseThen 0 (unlinedAll body)
  | whileLoop _ cond body => .whileLoop 0 cond (unlinedAll body)
  | forRange _ var first last body => .forRange 0 var first last (unlinedAll body)
  | forEach _ key value array body => .forEach 0 key value array (unlinedAll body)
  | ret _ value => .ret 0 value
  | .break _ => .break 0
  | .continue _ => .continue 0

/-- Statements with all their lines set to zero. -/
def unlinedAll : List Stmt → List Stmt
  | [] => []
  | s :: ss => unlined s :: unlinedAll ss

end

end Stmt

/-- A function with all its lines set to zero. -/
def Func.unlined (f : Func) : Func :=
  { f with body := Stmt.unlinedAll f.body, line := 0 }

/-- A program with all its lines set to zero. -/
def Program.unlined (p : Program) : Program :=
  ⟨p.funcs.map Func.unlined⟩

namespace Reading

open Parsed (outcome length_lt_of_outcome)

variable {α β γ δ : Type} {f : α → β} {g : γ → δ} {ts us vs ws : List Lexeme}

/-! ### Readings that agree -/

/-- Two lists have the same tokens, perhaps on other lines. -/
def SameTokens (ts us : List Lexeme) : Prop :=
  ts.map (·.token) = us.map (·.token)

namespace SameTokens

/-- The token in view is the same. -/
theorem peek_eq (h : SameTokens ts us) : peek ts = peek us := by
  rw [peek, peek, ← List.head?_map, ← List.head?_map, h]

/-- As many tokens are left. -/
theorem length_eq (h : SameTokens ts us) : ts.length = us.length := by
  have := congrArg List.length h
  rwa [List.length_map, List.length_map] at this

theorem tail (h : SameTokens ts us) : SameTokens ts.tail us.tail := by
  rw [SameTokens, List.map_tail, List.map_tail, h]

theorem cons {t : Token} {l l' : Nat} (h : SameTokens ts us) :
    SameTokens (⟨t, l⟩ :: ts) (⟨t, l'⟩ :: us) :=
  congrArg (t :: ·) h

/-- Lists with the same tokens are empty together, or begin with the same token. -/
theorem cases (h : SameTokens ts us) : ts = [] ∧ us = [] ∨
    ∃ t l l' vs ws, ts = ⟨t, l⟩ :: vs ∧ us = ⟨t, l'⟩ :: ws ∧ SameTokens vs ws := by
  rcases ts with _ | ⟨⟨t, l⟩, vs⟩
  · exact .inl ⟨rfl, List.map_eq_nil_iff.1 h.symm⟩
  · obtain ⟨⟨_, l'⟩, ws, rfl, rfl, hs⟩ := List.map_eq_cons_iff.1 h.symm
    exact .inr ⟨_, l, l', vs, ws, rfl, rfl, hs.symm⟩

end SameTokens

/-- If two computations come to the same but for what `f` forgets, and then whatever follows comes
    to the same but for what `g` forgets, so do both together. -/
theorem map_bind_congr {ε : Type} {x y : Except ε α} {k k' : α → Except ε γ}
    (h : x.map f = y.map f)
    (hk : ∀ a b, x = .ok a → f a = f b → (k a).map g = (k' b).map g) :
    (x >>= k).map g = (y >>= k').map g := by
  rcases x with r | a <;> rcases y with r' | b
  · exact congrArg Except.error (Except.error.inj h)
  · cases h
  · cases h
  · exact hk a b rfl (Except.ok.inj h)

/-- Two readings make the same but for what `f` forgets and leave the same tokens, or refuse the
    same token for the same cause. -/
def Agree (f : α → β) (x y : Except Refusal (α × List Lexeme)) : Prop :=
  x.map (Prod.map f (List.map (·.token))) = y.map (Prod.map f (List.map (·.token)))

namespace Agree

/-- Two readings that both make a tree agree if the trees are the same and so is what they leave. -/
theorem ok {a b : α} (hf : f a = f b) (h : SameTokens ts us) :
    Agree f (.ok (a, ts)) (.ok (b, us)) :=
  congrArg Except.ok (Prod.ext hf h)

/-- Two readings that both refuse agree if they refuse the same token. -/
theorem error (r : Refusal) : Agree f (.error r) (.error r) :=
  rfl

/-- Readings that agree, followed by readings that agree on whatever is left. -/
theorem bind {x y : Except Refusal (α × List Lexeme)}
    {k k' : α × List Lexeme → Except Refusal (γ × List Lexeme)} (h : Agree f x y)
    (hk : ∀ a b us vs, x = .ok (a, us) → f a = f b → SameTokens us vs →
      Agree g (k (a, us)) (k' (b, vs))) : Agree g (x >>= k) (y >>= k') := by
  refine map_bind_congr h fun p q hp hpq => ?_
  obtain ⟨hf, hs⟩ := Prod.mk.inj hpq
  exact hk p.1 q.1 p.2 q.2 hp hf hs

/-- Readings that agree on the very tree, followed by readings that agree on whatever is left. -/
theorem bind_id {x y : Except Refusal (α × List Lexeme)}
    {k k' : α × List Lexeme → Except Refusal (γ × List Lexeme)} (h : Agree id x y)
    (hk : ∀ a us vs, x = .ok (a, us) → SameTokens us vs → Agree g (k (a, us)) (k' (a, vs))) :
    Agree g (x >>= k) (y >>= k') :=
  h.bind fun a b us vs ha hab hs => (show a = b from hab) ▸ hk a us vs ha hs

/-- Readings that agree on the very tree are refused together, or make it together. -/
theorem cases {x y : Except Refusal (α × List Lexeme)} (h : Agree id x y) :
    (∃ r, x = .error r ∧ y = .error r) ∨
      ∃ a us vs, x = .ok (a, us) ∧ y = .ok (a, vs) ∧ SameTokens us vs := by
  rcases x with r | ⟨a, us⟩ <;> rcases y with r' | ⟨b, vs⟩
  · obtain rfl := Except.error.inj h
    exact .inl ⟨r, rfl, rfl⟩
  · cases h
  · cases h
  · obtain ⟨hab, hs⟩ := Prod.mk.inj (Except.ok.inj h)
    obtain rfl : a = b := hab
    exact .inr ⟨a, us, vs, rfl, rfl, hs⟩

end Agree

/-! ### Tokens -/

/-- Whether a token is the expected one does not depend on its line. -/
theorem expect_agree (t : Token) (h : SameTokens ts us) :
    Agree id (outcome (expect t ts)) (outcome (expect t us)) := by
  rcases h.cases with ⟨rfl, rfl⟩ | ⟨u, l, l', vs, ws, rfl, rfl, hs⟩
  · exact .error _
  · by_cases ht : u = t
    · subst ht
      rw [expect_self, expect_self]
      exact .ok rfl hs
    · simp only [expect, if_neg ht, Parsed.outcome_error, unexpected, refuse, List.length_cons,
        hs.length_eq]
      exact .error _

/-- A name is read, or refused, on any line. -/
theorem name_agree (what : Expected) (h : SameTokens ts us) :
    Agree id (outcome (name what ts)) (outcome (name what us)) := by
  rcases h.cases with ⟨rfl, rfl⟩ | ⟨t, l, l', vs, ws, rfl, rfl, hs⟩
  · exact .error _
  · have hrefused : (unexpected what (⟨t, l⟩ :: vs)) = unexpected what (⟨t, l'⟩ :: ws) := by
      simp only [unexpected, refuse, List.length_cons, hs.length_eq]
      rfl
    cases t with
    | ident s => exact .ok rfl hs
    | _ =>
      simp only [name, Parsed.outcome_error, hrefused]
      exact .error _

/-! ### Expressions -/

/-- The operator in view is found on any line. -/
theorem operator?_congr (min : Nat) (h : SameTokens ts us) :
    operator? min ts = operator? min us := by
  rw [operator?, operator?, h.peek_eq]

mutual

theorem climb_agree {n : Nat} {ts us : List Lexeme} (min : Nat) (hn : ts.length = n)
    (h : SameTokens ts us) :
    Agree id (outcome (climb min ts)) (outcome (climb min us)) := by
  rw [climb_outcome, climb_outcome]
  refine (operand_agree hn h).bind_id fun a vs ws ha hs => ?_
  have := length_lt_of_outcome ha
  exact operators_agree min a rfl hs
termination_by 4 * n + 1
decreasing_by all_goals omega

theorem operators_agree {n : Nat} {ts us : List Lexeme} (min : Nat) (lhs : Expr)
    (hn : ts.length = n) (h : SameTokens ts us) :
    Agree id (Trailing.outcome (operators min lhs ts))
      (Trailing.outcome (operators min lhs us)) := by
  have hop' := operator?_congr min h
  cases hop : operator? min ts with
  | none =>
    rw [operators_of_none hop, operators_of_none (hop' ▸ hop)]
    exact .ok rfl h
  | some op =>
    rcases h.cases with ⟨rfl, rfl⟩ | ⟨t, l, l', ts, us, rfl, rfl, hs⟩
    · cases hop
    · rw [operators_of_some hop, operators_of_some (hop' ▸ hop)]
      refine (climb_agree _ rfl hs).bind_id fun a vs ws ha hs => ?_
      have := length_lt_of_outcome ha
      exact operators_agree min _ rfl hs
termination_by 4 * n
decreasing_by all_goals simp only [List.length_cons] at *; omega

/-- An operand is one of three: after a minus, after a name, or a primary expression. -/
theorem operand_agree {n : Nat} {ts us : List Lexeme} (hn : ts.length = n) (h : SameTokens ts us) :
    Agree id (outcome (operand ts)) (outcome (operand us)) := by
  rcases h.cases with ⟨rfl, rfl⟩ | ⟨t, l, l', ts, us, rfl, rfl, hs⟩
  · simp only [operand]
    exact .error _
  have hpeek := hs.peek_eq
  -- The token in view is the same, so both readings take the same way.
  cases t with
  | minus =>
    by_cases hleast : peek ts = some (.intLit leastMagnitude)
    · rw [operand_least hleast, operand_least (hpeek ▸ hleast), List.drop_one, List.drop_one]
      exact .ok rfl hs.tail
    · rw [operand_minus hleast, operand_minus (hpeek ▸ hleast)]
      exact (operand_agree rfl hs).bind_id fun a vs ws _ hs => .ok rfl hs
  | intLit m =>
    by_cases hm : m < leastMagnitude
    · rw [operand_int hm, operand_int hm]
      exact .ok rfl hs
    · simp only [operand, if_neg hm, Parsed.outcome_error, refuse, List.length_cons, hs.length_eq]
      exact .error _
  | floatLit x =>
    rw [operand_float, operand_float]
    exact .ok rfl hs
  | stringLit s =>
    rw [operand_str, operand_str]
    exact .ok rfl hs
  | trueKw =>
    rw [operand_true, operand_true]
    exact .ok rfl hs
  | falseKw =>
    rw [operand_false, operand_false]
    exact .ok rfl hs
  | lparen =>
    rw [operand_parens, operand_parens]
    refine (climb_agree 0 rfl hs).bind_id fun a vs ws _ hs => ?_
    exact (expect_agree .rparen hs).bind_id fun _ vs ws _ hs => .ok rfl hs
  | ident s =>
    by_cases hcall : peek ts = some .lparen
    · obtain ⟨l₁, h₁⟩ := eq_cons_of_peek hcall
      obtain ⟨l₂, h₂⟩ := eq_cons_of_peek (hpeek ▸ hcall)
      have ht := hs.tail
      have hlt : ts.tail.length < ts.length := by rw [h₁]; simp
      rw [h₁, h₂, operand_call, operand_call]
      exact (arguments_agree rfl ht).bind_id fun a vs ws _ hs => .ok rfl hs
    by_cases hindex : peek ts = some .lbracket
    · obtain ⟨l₁, h₁⟩ := eq_cons_of_peek hindex
      obtain ⟨l₂, h₂⟩ := eq_cons_of_peek (hpeek ▸ hindex)
      have ht := hs.tail
      have hlt : ts.tail.length < ts.length := by rw [h₁]; simp
      rw [h₁, h₂, operand_index, operand_index]
      refine (climb_agree 0 rfl ht).bind_id fun a vs ws _ hs => ?_
      exact (expect_agree .rbracket hs).bind_id fun _ vs ws _ hs => .ok rfl hs
    · rw [operand_var hcall hindex, operand_var (hpeek ▸ hcall) (hpeek ▸ hindex)]
      exact .ok rfl hs
  | _ =>
    simp only [operand, Parsed.outcome_error, unexpected, refuse, List.length_cons, hs.length_eq]
    exact .error _
termination_by 4 * n
decreasing_by all_goals simp only [List.length_cons] at hn; omega

/-- The arguments of a call may be spread over lines. -/
theorem arguments_agree {n : Nat} {ts us : List Lexeme} (hn : ts.length = n)
    (h : SameTokens ts us) :
    Agree id (outcome (arguments ts)) (outcome (arguments us)) := by
  by_cases hclose : peek ts = some .rparen
  · obtain ⟨l₁, h₁⟩ := eq_cons_of_peek hclose
    obtain ⟨l₂, h₂⟩ := eq_cons_of_peek (h.peek_eq ▸ hclose)
    rw [h₁, h₂, arguments_none, arguments_none]
    exact .ok rfl h.tail
  · rw [arguments_some hclose, arguments_some (h.peek_eq ▸ hclose)]
    exact moreArguments_agree hn h
termination_by 4 * n + 3
decreasing_by omega

theorem moreArguments_agree {n : Nat} {ts us : List Lexeme} (hn : ts.length = n)
    (h : SameTokens ts us) :
    Agree id (outcome (moreArguments ts)) (outcome (moreArguments us)) := by
  rw [moreArguments_outcome, moreArguments_outcome]
  refine (climb_agree 0 hn h).bind_id fun a vs ws ha hs => ?_
  have := length_lt_of_outcome ha
  dsimp only
  rw [← hs.peek_eq]
  split
  · have : vs.tail.length ≤ vs.length := List.length_tail ▸ Nat.sub_le ..
    exact (moreArguments_agree rfl hs.tail).bind_id fun more vs ws _ hs => .ok rfl hs
  · exact (expect_agree .rparen hs).bind_id fun _ vs ws _ hs => .ok rfl hs
termination_by 4 * n + 2
decreasing_by all_goals omega

end

/-! ### What stands in a statement -/

theorem condition_agree (h : SameTokens ts us) :
    Agree id (outcome (condition ts)) (outcome (condition us)) := by
  rw [condition_outcome, condition_outcome]
  refine (expect_agree .lparen h).bind_id fun _ vs ws _ hs => ?_
  refine (climb_agree 0 rfl hs).bind_id fun a vs ws _ hs => ?_
  exact (expect_agree .rparen hs).bind_id fun _ vs ws _ hs => .ok rfl hs

theorem exprStmt_agree (h : SameTokens ts us) :
    Agree id (outcome (exprStmt ts)) (outcome (exprStmt us)) := by
  rw [exprStmt_outcome, exprStmt_outcome]
  refine (climb_agree 0 rfl h).bind_id fun a vs ws _ hs => ?_
  exact (expect_agree .semi hs).bind_id fun _ vs ws _ hs => .ok rfl hs

/-- What is assigned to is read in the same way, and where it is not one the reading goes back
    alike. -/
theorem targetOutcome_agree (s : String) (h : SameTokens ts us) :
    (targetOutcome s ts).map (Option.map (Prod.map id (List.map (·.token)))) =
      (targetOutcome s us).map (Option.map (Prod.map id (List.map (·.token)))) := by
  by_cases hassign : peek ts = some .assign
  · obtain ⟨l₁, h₁⟩ := eq_cons_of_peek hassign
    obtain ⟨l₂, h₂⟩ := eq_cons_of_peek (h.peek_eq ▸ hassign)
    rw [h₁, h₂, targetOutcome_assign, targetOutcome_assign]
    exact congrArg (fun rest => Except.ok (some (Target.variable s, rest))) h.tail
  by_cases helement : peek ts = some .lbracket
  · obtain ⟨l₁, h₁⟩ := eq_cons_of_peek helement
    obtain ⟨l₂, h₂⟩ := eq_cons_of_peek (h.peek_eq ▸ helement)
    rw [h₁, h₂, targetOutcome_element, targetOutcome_element]
    rcases (climb_agree 0 rfl h.tail).cases with ⟨r, ha, hb⟩ | ⟨a, vs, ws, ha, hb, hs⟩
    · rw [ha, hb]
    rcases (expect_agree .rbracket hs).cases with ⟨r, hc, hd⟩ | ⟨_, xs, ys, hc, hd, hs⟩
    · simp only [ha, hb, hc, hd, bind, Except.bind]
    · simp only [ha, hb, hc, hd, bind, Except.bind, ← hs.peek_eq]
      split
      · exact congrArg (fun rest => Except.ok (some (Target.element s a, rest))) hs.tail
      · rfl
  · rw [targetOutcome_none hassign helement,
      targetOutcome_none (h.peek_eq ▸ hassign) (h.peek_eq ▸ helement)]

/-- The line of an assignment is the only thing that its place leaves in the tree. -/
theorem assignment_unlined (l l' : Nat) (target : Target) (value : Expr) :
    (assignment l target value).unlined = (assignment l' target value).unlined := by
  cases target <;> rfl

/-- A statement that begins with a name, be it an assignment or an expression. -/
theorem nameStmt_agree (s : String) (l l' : Nat) (h : SameTokens ts us) :
    Agree Stmt.unlined (outcome (nameStmt s l ts)) (outcome (nameStmt s l' us)) := by
  rw [nameStmt_outcome, nameStmt_outcome]
  refine map_bind_congr (targetOutcome_agree s h) fun p q _ hpq => ?_
  rcases p with _ | ⟨target, vs⟩ <;> rcases q with _ | ⟨target', ws⟩
  · exact (exprStmt_agree h.cons).bind_id fun e vs ws _ hs => .ok rfl hs
  · cases hpq
  · cases hpq
  · obtain ⟨htarget, hs⟩ := Prod.mk.inj (Option.some.inj hpq)
    obtain rfl : target = target' := htarget
    exact (exprStmt_agree hs).bind_id fun e vs ws _ hs => .ok (assignment_unlined ..) hs

/-- The header of a loop, with a range or an array. -/
theorem header_agree (h : SameTokens ts us) :
    Agree id (outcome (header ts)) (outcome (header us)) := by
  rw [header_outcome, header_outcome]
  refine (expect_agree .lparen h).bind_id fun _ vs ws _ hs => ?_
  refine (name_agree .loopVariable hs).bind_id fun first vs ws _ hs => ?_
  dsimp only
  rw [← hs.peek_eq]
  split
  · refine (name_agree .valueVariable hs.tail).bind_id fun value vs ws _ hs => ?_
    refine (expect_agree .inKw hs).bind_id fun _ vs ws _ hs => ?_
    refine (climb_agree 0 rfl hs).bind_id fun array vs ws _ hs => ?_
    exact (expect_agree .rparen hs).bind_id fun _ vs ws _ hs => .ok rfl hs
  · refine (expect_agree .inKw hs).bind_id fun _ vs ws _ hs => ?_
    refine (climb_agree 0 rfl hs).bind_id fun start vs ws _ hs => ?_
    refine (expect_agree .dotDot hs).bind_id fun _ vs ws _ hs => ?_
    refine (climb_agree 0 rfl hs).bind_id fun stop vs ws _ hs => ?_
    exact (expect_agree .rparen hs).bind_id fun _ vs ws _ hs => .ok rfl hs

/-- The line of a loop is the only thing that its place leaves in the tree. -/
theorem loop_unlined (l l' : Nat) (range : Header) {body body' : List Stmt}
    (h : Stmt.unlinedAll body = Stmt.unlinedAll body') :
    (loop l range body).unlined = (loop l' range body').unlined := by
  cases range <;> simp only [loop, Stmt.unlined, h]

theorem result_agree (h : SameTokens ts us) :
    Agree id (outcome (result ts)) (outcome (result us)) := by
  rw [result_outcome, result_outcome, ← h.peek_eq]
  split
  · exact .ok rfl h.tail
  · exact (exprStmt_agree h).bind_id fun e vs ws _ hs => .ok rfl hs

/-! ### Statements -/

/-- A jump is refused outside of a loop, wherever it stands. -/
theorem jump_agree (inLoop : Bool) (keyword : Token) (l l' : Nat) {s s' : Stmt}
    (hs : s.unlined = s'.unlined) (h : SameTokens ts us) :
    Agree Stmt.unlined (outcome (jump inLoop keyword l s ts))
      (outcome (jump inLoop keyword l' s' us)) := by
  rw [jump_outcome, jump_outcome, ← h.length_eq]
  split
  · exact (expect_agree .semi h).bind_id fun _ vs ws _ h => .ok hs h
  · exact .error _

mutual

theorem block_agree {n : Nat} {ts us : List Lexeme} (inLoop : Bool) (_hn : ts.length = n)
    (h : SameTokens ts us) :
    Agree Stmt.unlinedAll (outcome (block inLoop ts)) (outcome (block inLoop us)) := by
  rw [block_outcome, block_outcome]
  refine (expect_agree .lbrace h).bind_id fun _ vs ws hopen hs => ?_
  have := length_lt_of_outcome hopen
  exact statements_agree inLoop rfl hs
termination_by 3 * n

theorem statements_agree {n : Nat} {ts us : List Lexeme} (inLoop : Bool) (_hn : ts.length = n)
    (h : SameTokens ts us) :
    Agree Stmt.unlinedAll (outcome (statements inLoop ts)) (outcome (statements inLoop us)) := by
  rcases h.cases with ⟨rfl, rfl⟩ | ⟨t, l, l', ts, us, rfl, rfl, hs⟩
  · rw [statements_none]
    exact .error _
  by_cases ht : t = .rbrace
  · subst ht
    rw [statements_nil, statements_nil]
    exact .ok rfl hs
  · rw [statements_some ht, statements_some ht]
    refine (stmt_agree inLoop t l l' rfl hs).bind fun a b vs ws ha hab hs => ?_
    have := length_lt_of_outcome ha
    refine (statements_agree inLoop rfl hs).bind fun as bs vs ws _ habs hs => .ok ?_ hs
    simp only [Stmt.unlinedAll, hab, habs]
termination_by 3 * n + 1
decreasing_by all_goals simp only [List.length_cons] at *; omega

/-- A statement, by its first token. Both lines of this token go into the trees, which differ in
    nothing else. -/
theorem stmt_agree {n : Nat} {ts us : List Lexeme} (inLoop : Bool) (t : Token) (l l' : Nat)
    (_hn : ts.length = n) (h : SameTokens ts us) :
    Agree Stmt.unlined (outcome (stmt inLoop ⟨t, l⟩ ts)) (outcome (stmt inLoop ⟨t, l'⟩ us)) := by
  by_cases ht : isStatementStart t = false
  · rw [stmt_expr_outcome ht, stmt_expr_outcome ht]
    exact (exprStmt_agree h.cons).bind_id fun e vs ws _ hs => .ok rfl hs
  cases t with
  | semi =>
    rw [stmt_empty, stmt_empty]
    exact .ok rfl h
  | ifKw =>
    rw [stmt_if_outcome, stmt_if_outcome]
    refine (condition_agree h).bind_id fun c vs ws hc hs => ?_
    have := length_lt_of_outcome hc
    refine (block_agree inLoop rfl hs).bind fun as bs vs ws _ habs hs => .ok ?_ hs
    simp only [Stmt.unlined, habs]
  | elseKw =>
    rw [stmt_else_outcome, stmt_else_outcome, ← h.peek_eq]
    split
    · refine (condition_agree h.tail).bind_id fun c vs ws hc hs => ?_
      have := length_lt_of_outcome hc
      have : ts.tail.length ≤ ts.length := List.length_tail ▸ Nat.sub_le ..
      refine (block_agree inLoop rfl hs).bind fun as bs vs ws _ habs hs => .ok ?_ hs
      simp only [Stmt.unlined, habs]
    · refine (block_agree inLoop rfl h).bind fun as bs vs ws _ habs hs => .ok ?_ hs
      simp only [Stmt.unlined, habs]
  | whileKw =>
    rw [stmt_while_outcome, stmt_while_outcome]
    refine (condition_agree h).bind_id fun c vs ws hc hs => ?_
    have := length_lt_of_outcome hc
    refine (block_agree true rfl hs).bind fun as bs vs ws _ habs hs => .ok ?_ hs
    simp only [Stmt.unlined, habs]
  | forKw =>
    rw [stmt_for_outcome, stmt_for_outcome]
    refine (header_agree h).bind_id fun range vs ws hr hs => ?_
    have := length_lt_of_outcome hr
    refine (block_agree true rfl hs).bind fun as bs vs ws _ habs hs => ?_
    exact .ok (loop_unlined l l' range habs) hs
  | returnKw =>
    rw [stmt_return_outcome, stmt_return_outcome]
    exact (result_agree h).bind_id fun value vs ws _ hs => .ok rfl hs
  | breakKw =>
    rw [stmt_break_outcome, stmt_break_outcome]
    exact jump_agree inLoop .breakKw l l' rfl h
  | continueKw =>
    rw [stmt_continue_outcome, stmt_continue_outcome]
    exact jump_agree inLoop .continueKw l l' rfl h
  | ident s =>
    rw [stmt_name, stmt_name]
    exact nameStmt_agree s l l' h
  | _ => exact absurd rfl ht
termination_by 3 * n + 2
decreasing_by all_goals omega

end

/-! ### Functions -/

theorem moreParams_agree {n : Nat} {ts us : List Lexeme} (hn : ts.length = n)
    (h : SameTokens ts us) :
    Agree id (outcome (moreParams ts)) (outcome (moreParams us)) := by
  induction n using Nat.strongRecOn generalizing ts us with
  | _ n ih =>
    rw [moreParams_outcome, moreParams_outcome]
    refine (name_agree .parameterName h).bind_id fun first vs ws hfirst hs => ?_
    have := length_lt_of_outcome hfirst
    dsimp only
    rw [← hs.peek_eq]
    split
    · have : vs.tail.length ≤ vs.length := List.length_tail ▸ Nat.sub_le ..
      exact (ih _ (by omega) rfl hs.tail).bind_id fun more vs ws _ hs => .ok rfl hs
    · exact (expect_agree .rparen hs).bind_id fun _ vs ws _ hs => .ok rfl hs

theorem params_agree (h : SameTokens ts us) :
    Agree id (outcome (params ts)) (outcome (params us)) := by
  by_cases hclose : peek ts = some .rparen
  · obtain ⟨l₁, h₁⟩ := eq_cons_of_peek hclose
    obtain ⟨l₂, h₂⟩ := eq_cons_of_peek (h.peek_eq ▸ hclose)
    rw [h₁, h₂, params_none, params_none]
    exact .ok rfl h.tail
  · rw [params_some hclose, params_some (h.peek_eq ▸ hclose)]
    exact moreParams_agree rfl h

/-- A function and its line. -/
theorem func_agree (t : Token) (l l' : Nat) (h : SameTokens ts us) :
    Agree Func.unlined (outcome (func ⟨t, l⟩ ts)) (outcome (func ⟨t, l'⟩ us)) := by
  rw [func_outcome, func_outcome]
  refine (expect_agree .func h.cons).bind_id fun _ vs ws _ hs => ?_
  refine (name_agree .functionName hs).bind_id fun fname vs ws _ hs => ?_
  refine (expect_agree .lparen hs).bind_id fun _ vs ws _ hs => ?_
  refine (params_agree hs).bind_id fun args vs ws _ hs => ?_
  refine (block_agree false rfl hs).bind fun as bs vs ws _ habs hs => .ok ?_ hs
  simp only [Func.unlined, habs]

/-- The functions of a program, to the last token. -/
theorem funcs_agree {n : Nat} {ts us : List Lexeme} (hn : ts.length = n) (h : SameTokens ts us) :
    (funcs ts).map (List.map Func.unlined) = (funcs us).map (List.map Func.unlined) := by
  induction n using Nat.strongRecOn generalizing ts us with
  | _ n ih =>
    rcases h.cases with ⟨rfl, rfl⟩ | ⟨t, l, l', ts, us, rfl, rfl, hs⟩
    · rfl
    rw [funcs_outcome, funcs_outcome]
    refine map_bind_congr (func_agree t l l' hs) fun p q hp hpq => ?_
    obtain ⟨hunlined, hs⟩ := Prod.mk.inj hpq
    have hlt : p.2.length < n := hn ▸ length_lt_of_outcome hp
    refine map_bind_congr (ih _ hlt rfl hs) fun fs fs' _ hfs => ?_
    exact congrArg Except.ok (by rw [List.map_cons, List.map_cons, hunlined, hfs])

end Reading

open Reading (SameTokens climb_agree funcs_agree)

variable {α β : Type} {ts us : List Lexeme}

/-- Of lists with the same tokens, on whatever lines, the same program is made but for its lines,
    or both are refused at the same token for the same cause. -/
theorem Program.ofTokens_agree (h : SameTokens ts us) :
    (ofTokens ts).map unlined = (ofTokens us).map unlined := by
  have hprogram (ts : List Lexeme) :
      (ofTokens ts).map unlined =
        ((Reading.funcs ts).map (List.map Func.unlined)).map Program.mk := by
    rw [ofTokens]
    cases Reading.funcs ts <;> rfl
  rw [hprogram, hprogram, funcs_agree rfl h]

/-- Of lists with the same tokens, on whatever lines, the same expression is made, or both are
    refused at the same token for the same cause. -/
theorem Expr.ofTokens_agree (h : SameTokens ts us) : ofTokens ts = ofTokens us := by
  have hexpr (ts : List Lexeme) :
      ofTokens ts = Parsed.outcome (Reading.climb 0 ts) >>= fun a =>
        match Reading.peek a.2 with
        | none => .ok a.1
        | some t => .error ⟨.afterExpression t, a.2.length⟩ := by
    rw [ofTokens, Reading.expr]
    rcases Reading.climb 0 ts with r | ⟨a, rest, _⟩
    · rfl
    · cases rest <;> rfl
  rw [hexpr, hexpr]
  rcases (climb_agree 0 rfl h).cases with ⟨r, ha, hb⟩ | ⟨a, vs, ws, ha, hb, hs⟩
  · rw [ha, hb]
  · rw [ha, hb]
    simp only [bind, Except.bind, hs.peek_eq, hs.length_eq]

/-! ### Source texts -/

open Token (Relaid scan_relaid)

/-- The span of the token numbered `i`, or the end of the text behind the last one. -/
def spanAt (source : String) (tokens : List (Token × Span)) (i : Nat) : Span :=
  (tokens.map (·.2))[i]?.getD ⟨source.utf8ByteSize, source.utf8ByteSize⟩

/-- What is made of two texts with these tokens is the same but for what `forget` forgets, or both
    are refused for the same cause at tokens of the same number. -/
def MadeAlike (forget : α → β) (source source' : String) (tokens tokens' : List (Token × Span))
    (x y : Except SourceError α) : Prop :=
  (∃ a b, x = .ok a ∧ y = .ok b ∧ forget a = forget b) ∨
    ∃ fault i, i ≤ tokens.length ∧
      x = .error (.locate (.ofText source) (.grammar fault) (spanAt source tokens i)) ∧
      y = .error (.locate (.ofText source') (.grammar fault) (spanAt source' tokens' i))

/-- The tokens of a text, on their lines. -/
def lexemes (source : String) (tokens : List (Token × Span)) : List Lexeme :=
  tokens.map fun t => ⟨t.1, (Lines.ofText source).line t.2.start⟩

/-- A text that can be scanned is read from its lexemes, and a refusal points at the span of its
    token. -/
theorem readSource_of_scan {read : List Lexeme → Except Refusal α} {source : String}
    {tokens : List (Token × Span)} (h : Token.scan source = .ok tokens) :
    readSource read source = match read (lexemes source tokens) with
      | .ok tree => .ok tree
      | .error r => .error (.locate (.ofText source) (.grammar r.fault)
          (spanAt source tokens (tokens.length - r.left))) := by
  rw [readSource, h]
  rfl

/-- A reading that does not look at lines makes the same of two texts with the same tokens. -/
theorem readSource_alike {read : List Lexeme → Except Refusal α} {forget : α → β}
    (hread : ∀ ts us, SameTokens ts us → (read ts).map forget = (read us).map forget)
    {source source' : String} {tokens tokens' : List (Token × Span)}
    (h : Token.scan source = .ok tokens) (h' : Token.scan source' = .ok tokens')
    (ht : tokens'.map (·.1) = tokens.map (·.1)) :
    MadeAlike forget source source' tokens tokens' (readSource read source)
      (readSource read source') := by
  have hs : SameTokens (lexemes source tokens) (lexemes source' tokens') := by
    simpa [SameTokens, lexemes, Function.comp_def] using ht.symm
  have hlength : tokens'.length = tokens.length := by
    simpa using congrArg List.length ht
  have hmap := hread _ _ hs
  rw [readSource_of_scan h, readSource_of_scan h']
  generalize read (lexemes source tokens) = x at *
  generalize read (lexemes source' tokens') = y at *
  rcases x with r | a <;> rcases y with r' | b
  · obtain rfl := Except.error.inj hmap
    refine .inr ⟨r.fault, tokens.length - r.left, Nat.sub_le .., rfl, ?_⟩
    rw [hlength]
  · cases hmap
  · cases hmap
  · exact .inl ⟨a, b, rfl, rfl, Except.ok.inj hmap⟩

/-- A text that is laid out anew has the same tokens, and the same program is made of it but for
    its lines, or it is refused for the same cause at the same token; and so for an expression,
    which has no lines. -/
theorem parse_relaid {source source' : String} {tokens : List (Token × Span)}
    (h : Token.scan source = .ok tokens) (hr : Relaid source tokens source') :
    ∃ tokens', Token.scan source' = .ok tokens' ∧ tokens'.map (·.1) = tokens.map (·.1) ∧
      MadeAlike Program.unlined source source' tokens tokens' (Program.parse source)
        (Program.parse source') ∧
      MadeAlike id source source' tokens tokens' (Expr.parse source) (Expr.parse source') := by
  obtain ⟨tokens', h', ht⟩ := scan_relaid h hr
  refine ⟨tokens', h', ht, readSource_alike (fun _ _ => Program.ofTokens_agree) h h' ht, ?_⟩
  refine readSource_alike (fun ts us hs => ?_) h h' ht
  rw [Expr.ofTokens_agree hs]

/-- The tokens of a call, in the text `f("#")`. -/
def markedCall : List (Token × Span) :=
  [(.ident "f", ⟨0, 1⟩), (.lparen, ⟨1, 2⟩), (.stringLit "#", ⟨2, 5⟩), (.rparen, ⟨5, 6⟩)]

/-- The same call with a comment before it and one in it. -/
theorem markedCall_relaid :
    Token.scan "f(\"#\")" = .ok markedCall ∧
      Relaid "f(\"#\")" markedCall "#\nf\t( //\n\"#\" )" ∧
      ∃ tokens', Token.scan "#\nf\t( //\n\"#\" )" = .ok tokens' ∧
        tokens'.map (·.1) = markedCall.map (·.1) ∧
        MadeAlike Program.unlined "f(\"#\")" "#\nf\t( //\n\"#\" )" markedCall tokens'
          (Program.parse "f(\"#\")") (Program.parse "#\nf\t( //\n\"#\" )") ∧
        MadeAlike id "f(\"#\")" "#\nf\t( //\n\"#\" )" markedCall tokens'
          (Expr.parse "f(\"#\")") (Expr.parse "#\nf\t( //\n\"#\" )") := by
  have hscan : Token.scan "f(\"#\")" = .ok markedCall := by decide +kernel
  have htab : Token.Gap ['\t'] := ⟨.space rfl .nil, by rintro c ⟨⟩; rfl, List.cons_ne_nil _ _⟩
  have hblank : Token.Gap [' '] :=
    ⟨.space rfl .nil, by rintro c ⟨⟩; rfl, List.cons_ne_nil _ _⟩
  have hslashes : Token.Filler (['/', '/'] ++ [] ++ ['\n']) :=
    .comment (.inr rfl) List.not_mem_nil .nil
  have hmark : Token.Filler (['#'] ++ [] ++ ['\n']) := .comment (.inl rfl) List.not_mem_nil .nil
  have hcomment : Token.Gap [' ', '/', '/', '\n'] :=
    ⟨.space rfl hslashes, by rintro c ⟨⟩; rfl, List.cons_ne_nil _ _⟩
  have hrelaid : Relaid "f(\"#\")" markedCall "#\nf\t( //\n\"#\" )" :=
    ⟨['#', '\n'], _, hmark,
      .cons htab (.cons hcomment (.cons hblank (.last (.inl rfl)))), rfl⟩
  exact ⟨hscan, hrelaid, parse_relaid hscan hrelaid⟩

end PoolScript
