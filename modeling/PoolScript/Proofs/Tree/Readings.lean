import PoolScript.Tree.Parse

/-!
# What a reading leaves

A reading gives its tree and the tokens it left, with a proof that it took at least one. Here
that proof is forgotten (`Parsed.outcome`, `Trailing.outcome`), and each reading of an
expression is described by an equation between outcomes: what it makes of a list of tokens in
terms of what its parts make of the lists they get. The equations are all that the theory of
the grammar uses of the readings.
-/

namespace PoolScript

variable {α β : Type} {ts us : List Lexeme}

/-- The tree of a reading and the tokens it left. -/
def Parsed.outcome (r : Except Refusal (Parsed α ts)) : Except Refusal (α × List Lexeme) :=
  r.map fun p => (p.value, p.rest)

/-- The tree of a reading that may take no token, and the tokens it left. -/
def Trailing.outcome (r : Except Refusal (Trailing α ts)) : Except Refusal (α × List Lexeme) :=
  r.map fun p => (p.value, p.rest)

namespace Parsed

@[simp] theorem outcome_ok (p : Parsed α ts) : outcome (.ok p) = .ok (p.value, p.rest) := rfl

@[simp] theorem outcome_error (r : Refusal) :
    outcome (.error r : Except Refusal (Parsed α ts)) = .error r := rfl

/-- An outcome that is a tree is that of a reading. -/
theorem outcome_eq_ok {r : Except Refusal (Parsed α ts)} {a : α} {rest : List Lexeme}
    (h : outcome r = .ok (a, rest)) : ∃ p, r = .ok p ∧ p.value = a ∧ p.rest = rest := by
  rcases r with r | p
  · simp at h
  · rw [outcome_ok, Except.ok.injEq, Prod.mk.injEq] at h
    exact ⟨p, rfl, h.1, h.2⟩

/-- A token was taken. -/
theorem length_lt_of_outcome {r : Except Refusal (Parsed α ts)} {a : α} {rest : List Lexeme}
    (h : outcome r = .ok (a, rest)) : rest.length < ts.length := by
  obtain ⟨p, -, -, rfl⟩ := outcome_eq_ok h
  exact p.shorter

/-- A reading whose result is put into a reading of the whole list. -/
theorem outcome_after (r : Except Refusal (Parsed α us)) (h : us.length < ts.length) (f : α → β) :
    outcome (r >>= fun p => (.ok (p.after h f) : Except Refusal (Parsed β ts))) =
      outcome r >>= fun q => .ok (f q.1, q.2) := by
  rcases r with r | p <;> rfl

end Parsed

namespace Reading

open Parsed (outcome outcome_ok outcome_eq_ok)

/-- A sequence of two readings succeeds only if both do. -/
theorem bind_eq_ok {x : Except Refusal α} {f : α → Except Refusal β} {b : β}
    (h : x >>= f = .ok b) : ∃ a, x = .ok a ∧ f a = .ok b := by
  rcases x with r | a
  · simp [bind, Except.bind] at h
  · exact ⟨a, rfl, h⟩

variable {min : Nat} {lhs : Expr} {t : Token} {line : Nat} {rest : List Lexeme}

/-- The token that is expected is taken. -/
theorem expect_self : outcome (expect t (⟨t, line⟩ :: ts)) = .ok ((), ts) := by
  rw [expect, if_pos rfl, Parsed.outcome_ok]

/-- Nothing else is. -/
theorem expect_eq_ok {u : Unit} (h : outcome (expect t ts) = .ok (u, rest)) :
    ∃ line, ts = ⟨t, line⟩ :: rest := by
  unfold expect at h
  split at h
  · rename_i v vs
    split at h
    · obtain ⟨v, line⟩ := v
      rename_i hv
      obtain rfl : vs = rest := (Prod.mk.inj (Except.ok.inj h)).2
      exact ⟨line, by rw [← hv]⟩
    · simp at h
  · simp at h

/-! ### Expressions -/

/-- An operand is read first, and then the operators that bind tightly enough. -/
theorem climb_outcome (min : Nat) (ts : List Lexeme) :
    outcome (climb min ts) =
      outcome (operand ts) >>= fun a => Trailing.outcome (operators min a.1 a.2) := by
  rw [climb]
  rcases operand ts with r | a
  · rfl
  · simp only [Parsed.outcome_ok, bind, Except.bind]
    cases operators min a.value a.rest <;> rfl

/-- Where no operator is that binds tightly enough, nothing is taken. -/
theorem operators_of_none (h : operator? min ts = none) :
    Trailing.outcome (operators min lhs ts) = .ok (lhs, ts) := by
  unfold operators
  split
  · rfl
  · rw [h]
    rfl

/-- An operator takes a right operand of a higher level and becomes the left operand of the next
    one. -/
theorem operators_of_some {t : Lexeme} {op : BinOp} (h : operator? min (t :: ts) = some op) :
    Trailing.outcome (operators min lhs (t :: ts)) =
      outcome (climb (op.level + 1) ts) >>= fun r =>
        Trailing.outcome (operators min (.binary op lhs r.1) r.2) := by
  rw [operators, h]
  simp only [bind, Except.bind]
  rcases climb (op.level + 1) ts with r | r
  · rfl
  · simp only [Parsed.outcome_ok]
    cases operators min (.binary op lhs r.value) r.rest <;> rfl

/-- The least integer is read with its sign, since its magnitude alone is too large. -/
theorem operand_least (h : peek ts = some (.intLit leastMagnitude)) :
    outcome (operand (⟨.minus, line⟩ :: ts)) = .ok (.int Int64.minValue, ts.drop 1) := by
  rw [operand, if_pos h]
  rfl

/-- Any other minus negates the operand after it. -/
theorem operand_minus (h : peek ts ≠ some (.intLit leastMagnitude)) :
    outcome (operand (⟨.minus, line⟩ :: ts)) =
      outcome (operand ts) >>= fun a => .ok (negated a.1, a.2) := by
  rw [operand, if_neg h]
  exact Parsed.outcome_after ..

/-- An integer up to the greatest one stands for itself. -/
theorem operand_int {n : Nat} (h : n < leastMagnitude) :
    outcome (operand (⟨.intLit n, line⟩ :: ts)) = .ok (.int (.ofNat n), ts) := by
  rw [operand, if_pos h]
  rfl

theorem operand_float (x : Float) :
    outcome (operand (⟨.floatLit x, line⟩ :: ts)) = .ok (.float x, ts) := by
  rw [operand]
  rfl

theorem operand_str (s : String) :
    outcome (operand (⟨.stringLit s, line⟩ :: ts)) = .ok (.str s, ts) := by
  rw [operand]
  rfl

/-- The truth values are numbers. -/
theorem operand_true : outcome (operand (⟨.trueKw, line⟩ :: ts)) = .ok (.int 1, ts) := by
  rw [operand]
  rfl

theorem operand_false : outcome (operand (⟨.falseKw, line⟩ :: ts)) = .ok (.int 0, ts) := by
  rw [operand]
  rfl

/-- In parentheses any expression is read, and the closing one is expected. -/
theorem operand_parens :
    outcome (operand (⟨.lparen, line⟩ :: ts)) =
      outcome (climb 0 ts) >>= fun a =>
        outcome (expect .rparen a.2) >>= fun close => .ok (a.1, close.2) := by
  rw [operand]
  rcases climb 0 ts with r | a
  · rfl
  · exact Parsed.outcome_after ..

/-- A name before a parenthesis is called. -/
theorem operand_call {s : String} {line' : Nat} :
    outcome (operand (⟨.ident s, line⟩ :: ⟨.lparen, line'⟩ :: ts)) =
      outcome (arguments ts) >>= fun args => .ok (.call s args.1, args.2) := by
  rw [operand]
  exact Parsed.outcome_after ..

/-- A name before a bracket is an array, of which an element is read. -/
theorem operand_index {s : String} {line' : Nat} :
    outcome (operand (⟨.ident s, line⟩ :: ⟨.lbracket, line'⟩ :: ts)) =
      outcome (climb 0 ts) >>= fun a =>
        outcome (expect .rbracket a.2) >>= fun close => .ok (.index s a.1, close.2) := by
  rw [operand]
  rcases climb 0 ts with r | a
  · rfl
  · exact Parsed.outcome_after ..

/-- Any other name is a variable. -/
theorem operand_var {s : String} (hcall : peek ts ≠ some .lparen)
    (hindex : peek ts ≠ some .lbracket) :
    outcome (operand (⟨.ident s, line⟩ :: ts)) = .ok (.var s, ts) := by
  rw [operand]
  · rfl
  · rintro _ us rfl
    exact hcall rfl
  · rintro _ us rfl
    exact hindex rfl

/-- There may be no arguments at all. -/
theorem arguments_none : outcome (arguments (⟨.rparen, line⟩ :: ts)) = .ok ([], ts) := by
  rw [arguments]
  rfl

theorem arguments_some (h : peek ts ≠ some .rparen) :
    outcome (arguments ts) = outcome (moreArguments ts) := by
  unfold arguments
  split
  · simp [peek] at h
  · rfl

/-- After an argument come a comma and another one, or the closing parenthesis. -/
theorem moreArguments_outcome (ts : List Lexeme) :
    outcome (moreArguments ts) =
      outcome (climb 0 ts) >>= fun a =>
        if peek a.2 = some .comma then
          outcome (moreArguments a.2.tail) >>= fun more => .ok (a.1 :: more.1, more.2)
        else outcome (expect .rparen a.2) >>= fun close => .ok ([a.1], close.2) := by
  rw [moreArguments]
  rcases climb 0 ts with r | ⟨a, rest, shorter⟩
  · rfl
  · simp only [Parsed.outcome_ok, bind, Except.bind]
    split
    · exact Parsed.outcome_after ..
    · rename_i h
      rw [if_neg]
      · exact Parsed.outcome_after ..
      · intro hc
        rcases rest with _ | ⟨⟨t, line⟩, us⟩
        · simp [peek] at hc
        · obtain rfl : t = .comma := by simpa [peek] using hc
          exact h line us rfl

/-! ### Statements -/

variable {inLoop : Bool} {l l' l₁ l₂ l₃ l₄ l₅ : Nat} {name x y : String} {e k v : Expr}
  {stmt₁ : Stmt} {body : List Stmt}

/-- A condition stands in parentheses. -/
theorem condition_of_climb (h : outcome (climb 0 ts) = .ok (e, ⟨.rparen, l'⟩ :: rest)) :
    outcome (condition (⟨.lparen, l⟩ :: ts)) = .ok (e, rest) := by
  obtain ⟨⟨_, _, _⟩, hp, rfl, rfl⟩ := outcome_eq_ok h
  simp only [condition, expect, expr, if_true, bind, Except.bind, hp]
  rfl

/-- An expression that is a statement ends with a semicolon. -/
theorem exprStmt_of_climb (h : outcome (climb 0 ts) = .ok (e, ⟨.semi, l⟩ :: rest)) :
    outcome (exprStmt ts) = .ok (e, rest) := by
  obtain ⟨⟨_, _, _⟩, hp, rfl, rfl⟩ := outcome_eq_ok h
  simp only [exprStmt, expect, expr, if_true, bind, Except.bind, hp]
  rfl

/-- A name before an equals sign is assigned to. -/
theorem nameStmt_assign (h : outcome (exprStmt ts) = .ok (v, rest)) :
    outcome (nameStmt name l (⟨.assign, l'⟩ :: ts)) = .ok (.assign l name v, rest) := by
  obtain ⟨⟨_, _, _⟩, hp, rfl, rfl⟩ := outcome_eq_ok h
  simp only [nameStmt, target?, bind, Except.bind, pure, Except.pure, hp]
  rfl

/-- A subscript between them makes it an element. -/
theorem nameStmt_element
    (hk : outcome (climb 0 ts) = .ok (k, ⟨.rbracket, l₁⟩ :: ⟨.assign, l₂⟩ :: us))
    (hv : outcome (exprStmt us) = .ok (v, rest)) :
    outcome (nameStmt name l (⟨.lbracket, l'⟩ :: ts)) = .ok (.assignElement l name k v, rest) := by
  obtain ⟨⟨_, _, _⟩, hp, rfl, rfl⟩ := outcome_eq_ok hk
  obtain ⟨⟨_, _, _⟩, hq, rfl, rfl⟩ := outcome_eq_ok hv
  simp only [nameStmt, target?, expect, expr, if_true, bind, Except.bind, pure, Except.pure, hp, hq]
  rfl

/-- A name that no equals sign follows, be it at once or after an element, begins an
    expression. -/
theorem nameStmt_expr (hassign : peek ts ≠ some .assign)
    (helement : ∀ l us, ts = ⟨.lbracket, l⟩ :: us → ∃ k l' vs,
      outcome (climb 0 us) = .ok (k, ⟨.rbracket, l'⟩ :: vs) ∧ peek vs ≠ some .assign)
    (h : outcome (exprStmt (⟨.ident name, l⟩ :: ts)) = .ok (e, rest)) :
    outcome (nameStmt name l ts) = .ok (.expr l e, rest) := by
  have htarget : target? name ts = .ok none := by
    unfold target?
    split
    · simp [peek] at hassign
    · rename_i l us
      obtain ⟨k, l', vs, hk, hvs⟩ := helement l us rfl
      obtain ⟨⟨_, _, _⟩, hp, rfl, rfl⟩ := outcome_eq_ok hk
      simp only [expect, expr, if_true, bind, Except.bind, hp]
      split
      · simp [peek] at hvs
      · rfl
    · rfl
  obtain ⟨⟨_, _, _⟩, hp, rfl, rfl⟩ := outcome_eq_ok h
  simp only [nameStmt, htarget, bind, Except.bind, hp]
  rfl

/-- A loop over numbers has two bounds. -/
theorem header_range (ha : outcome (climb 0 ts) = .ok (k, ⟨.dotDot, l₁⟩ :: us))
    (hb : outcome (climb 0 us) = .ok (v, ⟨.rparen, l₂⟩ :: rest)) :
    outcome (header (⟨.lparen, l₃⟩ :: ⟨.ident x, l₄⟩ :: ⟨.inKw, l₅⟩ :: ts)) =
      .ok (.range x k v, rest) := by
  obtain ⟨⟨_, _, _⟩, hp, rfl, rfl⟩ := outcome_eq_ok ha
  obtain ⟨⟨_, _, _⟩, hq, rfl, rfl⟩ := outcome_eq_ok hb
  simp only [header, Reading.name, expect, expr, if_true, bind, Except.bind, hp, hq]
  rfl

/-- A loop over an array has two names. -/
theorem header_each (h : outcome (climb 0 ts) = .ok (e, ⟨.rparen, l₁⟩ :: rest)) :
    outcome (header (⟨.lparen, l⟩ :: ⟨.ident x, l₂⟩ :: ⟨.comma, l₃⟩ :: ⟨.ident y, l₄⟩ ::
      ⟨.inKw, l₅⟩ :: ts)) = .ok (.each x y e, rest) := by
  obtain ⟨⟨_, _, _⟩, hp, rfl, rfl⟩ := outcome_eq_ok h
  simp only [header, Reading.name, expect, expr, if_true, bind, Except.bind, hp]
  rfl

/-- A function may return nothing. -/
theorem result_none : outcome (result (⟨.semi, l⟩ :: ts)) = .ok (none, ts) :=
  rfl

theorem result_some (hsemi : peek ts ≠ some .semi) (h : outcome (exprStmt ts) = .ok (e, rest)) :
    outcome (result ts) = .ok (some e, rest) := by
  obtain ⟨⟨_, _, _⟩, hp, rfl, rfl⟩ := outcome_eq_ok h
  unfold result
  split
  · simp [peek] at hsemi
  · simp only [bind, Except.bind, hp]
    rfl

/-- A block begins with a brace, and its statements take the closing one. -/
theorem block_of_statements (h : outcome (statements inLoop ts) = .ok (body, rest)) :
    outcome (block inLoop (⟨.lbrace, l⟩ :: ts)) = .ok (body, rest) := by
  obtain ⟨⟨_, _, _⟩, hp, rfl, rfl⟩ := outcome_eq_ok h
  rw [block]
  simp only [expect, if_true, bind, Except.bind, hp]
  rfl

/-- The closing brace ends the statements. -/
theorem statements_nil : outcome (statements inLoop (⟨.rbrace, l⟩ :: ts)) = .ok ([], ts) := by
  rw [statements]
  rfl

/-- Anything else begins another one. -/
theorem statements_cons {t : Lexeme} (ht : t.token ≠ .rbrace)
    (hs : outcome (stmt inLoop t ts) = .ok (stmt₁, us))
    (h : outcome (statements inLoop us) = .ok (body, rest)) :
    outcome (statements inLoop (t :: ts)) = .ok (stmt₁ :: body, rest) := by
  obtain ⟨⟨_, _, _⟩, hp, rfl, rfl⟩ := outcome_eq_ok hs
  obtain ⟨⟨_, _, _⟩, hq, rfl, rfl⟩ := outcome_eq_ok h
  rw [statements]
  · simp only [bind, Except.bind, hp, hq]
    rfl
  · rintro l rfl
    exact ht rfl

theorem stmt_empty : outcome (stmt inLoop ⟨.semi, l⟩ ts) = .ok (.empty l, ts) := by
  rw [stmt]
  rfl

theorem stmt_if (hc : outcome (condition ts) = .ok (e, us))
    (hb : outcome (block inLoop us) = .ok (body, rest)) :
    outcome (stmt inLoop ⟨.ifKw, l⟩ ts) = .ok (.ifThen l e body, rest) := by
  obtain ⟨⟨_, _, _⟩, hp, rfl, rfl⟩ := outcome_eq_ok hc
  obtain ⟨⟨_, _, _⟩, hq, rfl, rfl⟩ := outcome_eq_ok hb
  rw [stmt]
  simp only [bind, Except.bind, hp, hq]
  rfl

/-- An `else` before an `if` is read together with it. -/
theorem stmt_elseIf (hc : outcome (condition ts) = .ok (e, us))
    (hb : outcome (block inLoop us) = .ok (body, rest)) :
    outcome (stmt inLoop ⟨.elseKw, l⟩ (⟨.ifKw, l'⟩ :: ts)) = .ok (.elseIf l e body, rest) := by
  obtain ⟨⟨_, _, _⟩, hp, rfl, rfl⟩ := outcome_eq_ok hc
  obtain ⟨⟨_, _, _⟩, hq, rfl, rfl⟩ := outcome_eq_ok hb
  rw [stmt]
  simp only [bind, Except.bind, hp, hq]
  rfl

/-- An `else` by itself has no condition. -/
theorem stmt_else (hif : peek ts ≠ some .ifKw)
    (hb : outcome (block inLoop ts) = .ok (body, rest)) :
    outcome (stmt inLoop ⟨.elseKw, l⟩ ts) = .ok (.elseThen l body, rest) := by
  obtain ⟨⟨_, _, _⟩, hq, rfl, rfl⟩ := outcome_eq_ok hb
  rw [stmt]
  · simp only [bind, Except.bind, hq]
    rfl
  · rintro l us rfl
    exact hif rfl

/-- In the body of a loop `break` and `continue` may stand. -/
theorem stmt_while (hc : outcome (condition ts) = .ok (e, us))
    (hb : outcome (block true us) = .ok (body, rest)) :
    outcome (stmt inLoop ⟨.whileKw, l⟩ ts) = .ok (.whileLoop l e body, rest) := by
  obtain ⟨⟨_, _, _⟩, hp, rfl, rfl⟩ := outcome_eq_ok hc
  obtain ⟨⟨_, _, _⟩, hq, rfl, rfl⟩ := outcome_eq_ok hb
  rw [stmt]
  simp only [bind, Except.bind, hp, hq]
  rfl

theorem stmt_for {range : Header} (hr : outcome (header ts) = .ok (range, us))
    (hb : outcome (block true us) = .ok (body, rest)) :
    outcome (stmt inLoop ⟨.forKw, l⟩ ts) = .ok (loop l range body, rest) := by
  obtain ⟨⟨_, _, _⟩, hp, rfl, rfl⟩ := outcome_eq_ok hr
  obtain ⟨⟨_, _, _⟩, hq, rfl, rfl⟩ := outcome_eq_ok hb
  rw [stmt]
  simp only [bind, Except.bind, hp, hq]
  rfl

theorem stmt_return {value : Option Expr} (h : outcome (result ts) = .ok (value, rest)) :
    outcome (stmt inLoop ⟨.returnKw, l⟩ ts) = .ok (.ret l value, rest) := by
  obtain ⟨⟨_, _, _⟩, hp, rfl, rfl⟩ := outcome_eq_ok h
  rw [stmt]
  simp only [bind, Except.bind, hp]
  rfl

/-- They may only stand there. -/
theorem stmt_break :
    outcome (stmt true ⟨.breakKw, l⟩ (⟨.semi, l'⟩ :: ts)) = .ok (.break l, ts) := by
  rw [stmt]
  rfl

theorem stmt_continue :
    outcome (stmt true ⟨.continueKw, l⟩ (⟨.semi, l'⟩ :: ts)) = .ok (.continue l, ts) := by
  rw [stmt]
  rfl

/-- A statement that begins with a name is read in one place. -/
theorem stmt_name : stmt inLoop ⟨.ident name, l⟩ ts = nameStmt name l ts := by
  rw [stmt]

/-! ### Functions -/

theorem moreParams_last :
    outcome (moreParams (⟨.ident x, l⟩ :: ⟨.rparen, l'⟩ :: ts)) = .ok ([x], ts) := by
  rw [moreParams]
  rfl

theorem moreParams_cons {names : List String} (h : outcome (moreParams ts) = .ok (names, rest)) :
    outcome (moreParams (⟨.ident x, l⟩ :: ⟨.comma, l'⟩ :: ts)) = .ok (x :: names, rest) := by
  obtain ⟨⟨_, _, _⟩, hp, rfl, rfl⟩ := outcome_eq_ok h
  rw [moreParams]
  simp only [Reading.name, bind, Except.bind, hp]
  rfl

theorem params_none : outcome (params (⟨.rparen, l⟩ :: ts)) = .ok ([], ts) :=
  rfl

theorem params_some (h : peek ts ≠ some .rparen) :
    outcome (params ts) = outcome (moreParams ts) := by
  unfold params
  split
  · simp [peek] at h
  · rfl

/-- The body of a function is in no loop, wherever the function stands. -/
theorem func_of_block {names : List String} (hargs : outcome (params ts) = .ok (names, us))
    (hb : outcome (block false us) = .ok (body, rest)) :
    outcome (func ⟨.func, l⟩ (⟨.ident x, l₁⟩ :: ⟨.lparen, l₂⟩ :: ts)) =
      .ok (⟨x, names, body, l⟩, rest) := by
  obtain ⟨⟨_, _, _⟩, hp, rfl, rfl⟩ := outcome_eq_ok hargs
  obtain ⟨⟨_, _, _⟩, hq, rfl, rfl⟩ := outcome_eq_ok hb
  simp only [func, Reading.name, expect, if_true, bind, Except.bind, hp, hq]
  rfl

theorem funcs_nil : funcs [] = .ok [] := by
  rw [funcs]
  rfl

/-- A program is one function after another. -/
theorem funcs_cons {t : Lexeme} {f : Func} {fs : List Func}
    (hf : outcome (func t ts) = .ok (f, rest)) (h : funcs rest = .ok fs) :
    funcs (t :: ts) = .ok (f :: fs) := by
  obtain ⟨⟨_, _, _⟩, hp, rfl, rfl⟩ := outcome_eq_ok hf
  rw [funcs]
  simp only [bind, Except.bind, hp, h]
  rfl

end Reading

/-- An expression is read from a whole list of tokens. -/
theorem Expr.ofTokens_eq_ok {e : Expr} :
    Expr.ofTokens ts = .ok e ↔ Parsed.outcome (Reading.climb 0 ts) = .ok (e, []) := by
  rw [Expr.ofTokens, Reading.expr]
  rcases Reading.climb 0 ts with r | ⟨a, rest, shorter⟩
  · simp [bind, Except.bind]
  · rcases rest with _ | ⟨t, us⟩ <;> simp [bind, Except.bind, pure, Except.pure]

end PoolScript
