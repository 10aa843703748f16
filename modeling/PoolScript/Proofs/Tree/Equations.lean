import PoolScript.Proofs.Tree.Readings

/-!
# What the readings of statements make

Each reading of a statement, of what stands in one, or of a function is described by an equation
between outcomes, be they trees or refusals: what it makes of a list of tokens in terms of what
its parts make of the lists they get.
-/

namespace PoolScript.Reading

open Parsed (outcome)

variable {α β : Type} {inLoop : Bool} {l l' : Nat} {t : Token} {s : String} {ts us : List Lexeme}

/-- A reading that goes on where another one stopped. -/
theorem outcome_bind (r : Except Refusal (Parsed α us))
    (f : (p : Parsed α us) → Except Refusal (Parsed β ts))
    (g : α × List Lexeme → Except Refusal (β × List Lexeme))
    (h : ∀ p, outcome (f p) = g (p.value, p.rest)) :
    outcome (r >>= f) = outcome r >>= g := by
  rcases r with r | p
  · rfl
  · exact h p

/-- A token that is seen is at the front. -/
theorem eq_cons_of_peek (h : peek ts = some t) : ∃ l, ts = ⟨t, l⟩ :: ts.tail := by
  rcases ts with _ | ⟨⟨u, l⟩, us⟩
  · cases h
  · obtain rfl : u = t := Option.some.inj h
    exact ⟨l, rfl⟩

/-! ### What stands in a statement -/

/-- A condition is an expression between parentheses. -/
theorem condition_outcome (ts : List Lexeme) :
    outcome (condition ts) = do
      let opening ← outcome (expect .lparen ts)
      let cond ← outcome (climb 0 opening.2)
      let close ← outcome (expect .rparen cond.2)
      return (cond.1, close.2) :=
  outcome_bind _ _ _ fun _ => outcome_bind _ _ _ fun _ => outcome_bind _ _ _ fun _ => rfl

/-- An expression that is a statement is followed by a semicolon. -/
theorem exprStmt_outcome (ts : List Lexeme) :
    outcome (exprStmt ts) = do
      let a ← outcome (climb 0 ts)
      let close ← outcome (expect .semi a.2)
      return (a.1, close.2) :=
  outcome_bind _ _ _ fun _ => outcome_bind _ _ _ fun _ => rfl

/-- The target of an assignment, if there is one, and the tokens that were left after it. -/
def targetOutcome (s : String) (ts : List Lexeme) :
    Except Refusal (Option (Target × List Lexeme)) :=
  (target? s ts).map (Option.map fun p => (p.value, p.rest))

theorem targetOutcome_assign :
    targetOutcome s (⟨.assign, l⟩ :: ts) = .ok (some (.variable s, ts)) :=
  rfl

/-- After a bracket an element may be assigned to, if its subscript is followed by an equals sign.
    -/
theorem targetOutcome_element :
    targetOutcome s (⟨.lbracket, l⟩ :: ts) = do
      let a ← outcome (climb 0 ts)
      let close ← outcome (expect .rbracket a.2)
      if peek close.2 = some .assign then return some (.element s a.1, close.2.tail)
      else return none := by
  rw [targetOutcome, target?, expr]
  rcases climb 0 ts with r | a
  · rfl
  · simp only [Parsed.outcome_ok, bind, Except.bind]
    rcases expect .rbracket a.rest with r | ⟨_, rest, hrest⟩
    · rfl
    · simp only [Parsed.outcome_ok]
      split
      · rfl
      · next h =>
        rw [if_neg]
        · rfl
        · intro hc
          obtain ⟨l, hl⟩ := eq_cons_of_peek hc
          exact h l _ hl

/-- Nothing else begins an assignment. -/
theorem targetOutcome_none (hassign : peek ts ≠ some .assign)
    (helement : peek ts ≠ some .lbracket) :
    targetOutcome s ts = .ok none := by
  unfold targetOutcome target?
  split
  · exact absurd rfl hassign
  · exact absurd rfl helement
  · rfl

/-- What begins with a name assigns to it, or is an expression read from the name on. -/
theorem nameStmt_outcome (s : String) (l : Nat) (ts : List Lexeme) :
    outcome (nameStmt s l ts) = targetOutcome s ts >>= fun
      | some (target, rest) => do
        let value ← outcome (exprStmt rest)
        return (assignment l target value.1, value.2)
      | none => do
        let e ← outcome (exprStmt (⟨.ident s, l⟩ :: ts))
        return (.expr l e.1, e.2) := by
  rw [nameStmt, targetOutcome]
  rcases target? s ts with r | _ | target
  · rfl
  · exact outcome_bind _ _ _ fun _ => rfl
  · exact outcome_bind _ _ _ fun _ => rfl

/-- The header of a loop has one variable and two bounds, or two variables and an array. -/
theorem header_outcome (ts : List Lexeme) :
    outcome (header ts) = do
      let opening ← outcome (expect .lparen ts)
      let first ← outcome (name .loopVariable opening.2)
      if peek first.2 = some .comma then
        let value ← outcome (name .valueVariable first.2.tail)
        let word ← outcome (expect .inKw value.2)
        let array ← outcome (climb 0 word.2)
        let close ← outcome (expect .rparen array.2)
        return (.each first.1 value.1 array.1, close.2)
      else
        let word ← outcome (expect .inKw first.2)
        let start ← outcome (climb 0 word.2)
        let dots ← outcome (expect .dotDot start.2)
        let stop ← outcome (climb 0 dots.2)
        let close ← outcome (expect .rparen stop.2)
        return (.range first.1 start.1 stop.1, close.2) := by
  refine outcome_bind _ _ _ fun opening => outcome_bind _ _ _ ?_
  rintro ⟨first, rest, hrest⟩
  dsimp only
  split
  · exact outcome_bind _ _ _ fun _ => outcome_bind _ _ _ fun _ => outcome_bind _ _ _ fun _ =>
      outcome_bind _ _ _ fun _ => rfl
  · next h =>
    rw [if_neg]
    · exact outcome_bind _ _ _ fun _ => outcome_bind _ _ _ fun _ => outcome_bind _ _ _ fun _ =>
        outcome_bind _ _ _ fun _ => outcome_bind _ _ _ fun _ => rfl
    · intro hc
      obtain ⟨l, hl⟩ := eq_cons_of_peek hc
      exact h l _ hl

/-- A function returns nothing, or what an expression comes to. -/
theorem result_outcome (ts : List Lexeme) :
    outcome (result ts) =
      if peek ts = some .semi then .ok (none, ts.tail)
      else outcome (exprStmt ts) >>= fun e => .ok (some e.1, e.2) := by
  unfold result
  split
  · rfl
  · next h =>
    rw [if_neg]
    · exact outcome_bind _ _ _ fun _ => rfl
    · intro hc
      obtain ⟨l, hl⟩ := eq_cons_of_peek hc
      exact h l _ hl

/-! ### Statements -/

/-- A block is a list of statements after a brace. -/
theorem block_outcome (inLoop : Bool) (ts : List Lexeme) :
    outcome (block inLoop ts) =
      outcome (expect .lbrace ts) >>= fun brace => outcome (statements inLoop brace.2) := by
  rw [block]
  refine outcome_bind _ _ _ fun brace => ?_
  rcases statements inLoop brace.rest with r | p <;> rfl

/-- The closing brace is missed at the end. -/
theorem statements_none :
    outcome (statements inLoop []) = .error ⟨.expected (.token .rbrace) none, 0⟩ := by
  rw [statements]
  rfl

theorem statements_some {t : Lexeme} (ht : t.token ≠ .rbrace) :
    outcome (statements inLoop (t :: ts)) = do
      let s ← outcome (stmt inLoop t ts)
      let more ← outcome (statements inLoop s.2)
      return (s.1 :: more.1, more.2) := by
  rw [statements]
  · exact outcome_bind _ _ _ fun _ => outcome_bind _ _ _ fun _ => rfl
  · rintro l rfl
    exact ht rfl

theorem stmt_if_outcome :
    outcome (stmt inLoop ⟨.ifKw, l⟩ ts) = do
      let cond ← outcome (condition ts)
      let body ← outcome (block inLoop cond.2)
      return (.ifThen l cond.1 body.1, body.2) := by
  rw [stmt]
  exact outcome_bind _ _ _ fun _ => outcome_bind _ _ _ fun _ => rfl

/-- An `else` before an `if` has a condition, which is read after the `if`. -/
theorem stmt_else_outcome :
    outcome (stmt inLoop ⟨.elseKw, l⟩ ts) =
      if peek ts = some .ifKw then do
        let cond ← outcome (condition ts.tail)
        let body ← outcome (block inLoop cond.2)
        return (.elseIf l cond.1 body.1, body.2)
      else do
        let body ← outcome (block inLoop ts)
        return (.elseThen l body.1, body.2) := by
  by_cases h : peek ts = some .ifKw
  · obtain ⟨l', hl'⟩ := eq_cons_of_peek h
    rw [if_pos h]
    generalize ts.tail = us at hl'
    subst hl'
    rw [stmt]
    exact outcome_bind _ _ _ fun _ => outcome_bind _ _ _ fun _ => rfl
  · rw [if_neg h, stmt]
    · exact outcome_bind _ _ _ fun _ => rfl
    · rintro l us rfl
      exact h rfl

/-- The body of a loop is read as one, wherever the loop stands. -/
theorem stmt_while_outcome :
    outcome (stmt inLoop ⟨.whileKw, l⟩ ts) = do
      let cond ← outcome (condition ts)
      let body ← outcome (block true cond.2)
      return (.whileLoop l cond.1 body.1, body.2) := by
  rw [stmt]
  exact outcome_bind _ _ _ fun _ => outcome_bind _ _ _ fun _ => rfl

theorem stmt_for_outcome :
    outcome (stmt inLoop ⟨.forKw, l⟩ ts) = do
      let range ← outcome (header ts)
      let body ← outcome (block true range.2)
      return (loop l range.1 body.1, body.2) := by
  rw [stmt]
  exact outcome_bind _ _ _ fun _ => outcome_bind _ _ _ fun _ => rfl

theorem stmt_return_outcome :
    outcome (stmt inLoop ⟨.returnKw, l⟩ ts) = do
      let value ← outcome (result ts)
      return (.ret l value.1, value.2) := by
  rw [stmt]
  exact outcome_bind _ _ _ fun _ => rfl

/-- A jump outside of loops is refused at its keyword, before its semicolon is read. -/
theorem jump_outcome (inLoop : Bool) (keyword : Token) (l : Nat) (s : Stmt) (ts : List Lexeme) :
    outcome (jump inLoop keyword l s ts) =
      if inLoop then outcome (expect .semi ts) >>= fun close => .ok (s, close.2)
      else .error ⟨.outsideLoop keyword, ts.length + 1⟩ := by
  unfold jump
  split
  · exact outcome_bind _ _ _ fun _ => rfl
  · rfl

/-- Both jumps are read in one way. -/
theorem stmt_break_outcome :
    stmt inLoop ⟨.breakKw, l⟩ ts = jump inLoop .breakKw l (.break l) ts := by
  rw [stmt]

theorem stmt_continue_outcome :
    stmt inLoop ⟨.continueKw, l⟩ ts = jump inLoop .continueKw l (.continue l) ts := by
  rw [stmt]

/-- What a token must be to begin a statement that is no expression. -/
def isStatementStart : Token → Bool
  | .semi | .ifKw | .elseKw | .whileKw | .forKw | .returnKw | .breakKw | .continueKw
  | .ident _ => true
  | _ => false

/-- A token that begins no other statement is taken to begin an expression. -/
theorem stmt_expr_outcome (ht : isStatementStart t = false) :
    outcome (stmt inLoop ⟨t, l⟩ ts) = do
      let e ← outcome (exprStmt (⟨t, l⟩ :: ts))
      return (.expr l e.1, e.2) := by
  rw [stmt]
  · exact outcome_bind _ _ _ fun _ => rfl
  case x_8 =>
    rintro name rfl
    cases ht
  all_goals
    rintro rfl
    cases ht

/-! ### Functions -/

/-- After a parameter come a comma and another one, or the closing parenthesis. -/
theorem moreParams_outcome (ts : List Lexeme) :
    outcome (moreParams ts) = do
      let first ← outcome (name .parameterName ts)
      if peek first.2 = some .comma then
        let more ← outcome (moreParams first.2.tail)
        return (first.1 :: more.1, more.2)
      else
        let close ← outcome (expect .rparen first.2)
        return ([first.1], close.2) := by
  rw [moreParams]
  refine outcome_bind _ _ _ ?_
  rintro ⟨first, rest, hrest⟩
  dsimp only
  split
  · exact outcome_bind _ _ _ fun _ => rfl
  · next h =>
    rw [if_neg]
    · exact outcome_bind _ _ _ fun _ => rfl
    · intro hc
      obtain ⟨l, hl⟩ := eq_cons_of_peek hc
      exact h l _ hl

/-- A function has a name, parameters between parentheses and a body that is in no loop. -/
theorem func_outcome (t : Lexeme) (ts : List Lexeme) :
    outcome (func t ts) = do
      let word ← outcome (expect .func (t :: ts))
      let fname ← outcome (name .functionName word.2)
      let opening ← outcome (expect .lparen fname.2)
      let args ← outcome (params opening.2)
      let body ← outcome (block false args.2)
      return (⟨fname.1, args.1, body.1, t.line⟩, body.2) :=
  outcome_bind _ _ _ fun _ => outcome_bind _ _ _ fun _ => outcome_bind _ _ _ fun _ =>
    outcome_bind _ _ _ fun _ => outcome_bind _ _ _ fun _ => rfl

/-- A program is read function by function, and the first refusal is its own. -/
theorem funcs_outcome (t : Lexeme) (ts : List Lexeme) :
    funcs (t :: ts) = do
      let f ← outcome (func t ts)
      let more ← funcs f.2
      return f.1 :: more := by
  rw [funcs]
  rcases func t ts with r | f <;> rfl

end PoolScript.Reading
