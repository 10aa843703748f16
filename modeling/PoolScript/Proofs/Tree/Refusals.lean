import Mathlib.Data.List.Basic
import PoolScript.Proofs.Tree.Layout

/-!
# A refusal stands

A reading goes from left to right with one token in view. How it ends is settled once it has seen
the token that is in view where it ends: put any other tokens behind that one, and it makes the
same tree and stops in front of the same token, or refuses the same token for the same cause
(`Settled`). So no program can be made of a list of tokens by changing what follows the token
that is refused.

Only one reading goes back. A statement that begins with a name and a subscript and is no
assignment is read again from its name on. But the same is made of the subscript again, so that
the second reading gets at least as far as the first one (`nameStmt_ways`).

* `Settled.bind`: two readings in a row, the second of what the first one left;
* `Program.refusal_stands`: the tokens up to the refused one settle the refusal of a program.
-/

namespace PoolScript

namespace Reading

open Parsed (outcome length_lt_of_outcome)

variable {α β : Type} {x z : List Lexeme → Except Refusal (α × List Lexeme)}
  {y : List Lexeme → Except Refusal (β × List Lexeme)}
  {k : α × List Lexeme → Except Refusal (β × List Lexeme)} {t : Lexeme} {ts us : List Lexeme}

/-! ### Readings settled by what they saw -/

/-- How a reading ends in front of `rest`: with a tree, or with the refusal of the first token of
    `rest`, or of the end if there is none. -/
def ending (e : Except SyntaxFault α) (rest : List Lexeme) : Except Refusal (α × List Lexeme) :=
  match e with
  | .ok a => .ok (a, rest)
  | .error fault => .error ⟨fault, rest.length⟩

/-- The reading `x` of the list ends at the end of the list, or in front of a token up to which
    the list settles how it ends. -/
inductive Settled (x : List Lexeme → Except Refusal (α × List Lexeme)) : List Lexeme → Prop
  | atEnd {ts : List Lexeme} (e : Except SyntaxFault α) (h : x ts = ending e []) : Settled x ts
  | inView (seen : List Lexeme) (t : Lexeme) (rest : List Lexeme) (e : Except SyntaxFault α)
      (h : ∀ vs, x (seen ++ t :: vs) = ending e (t :: vs)) : Settled x (seen ++ t :: rest)

namespace Settled

/-- A reading that takes no token. -/
theorem ok (a : α) (ts : List Lexeme) : Settled (fun vs => .ok (a, vs)) ts := by
  rcases ts with _ | ⟨t, ts⟩
  · exact .atEnd (.ok a) rfl
  · exact .inView [] t ts (.ok a) fun _ => rfl

/-- A reading that refuses the first token. -/
theorem refused (fault : SyntaxFault)
    (h : ∀ vs, x (t :: vs) = .error ⟨fault, vs.length + 1⟩) : Settled x (t :: us) :=
  .inView [] t us (.error fault) h

/-- A reading that asks for something else than the first token. -/
theorem unexpected (what : Expected)
    (h : ∀ vs, x (t :: vs) = .error (Reading.unexpected what (t :: vs))) : Settled x (t :: us) :=
  refused (.expected what (some t.token)) h

/-- A list that goes on from `seen` begins as every other one does. -/
theorem exists_tail {seen rest : List Lexeme} {u : Lexeme} (h : t :: us = seen ++ u :: rest)
    (vs : List Lexeme) : ∃ ws, seen ++ u :: vs = t :: ws := by
  rcases seen with _ | ⟨v, seen⟩
  · obtain ⟨rfl, -⟩ := List.cons.inj h
    exact ⟨vs, rfl⟩
  · obtain ⟨rfl, -⟩ := List.cons.inj h
    exact ⟨seen ++ u :: vs, rfl⟩

/-- What matters of a reading is what it makes of the lists with the same first token. -/
theorem congr (hx : Settled x (t :: us)) (h : ∀ vs, z (t :: vs) = x (t :: vs)) :
    Settled z (t :: us) := by
  generalize hts : t :: us = ts at hx
  rcases hx with ⟨e, he⟩ | ⟨seen, u, rest, e, he⟩
  · subst hts
    exact .atEnd e ((h us).trans he)
  · refine .inView seen u rest e fun vs => ?_
    obtain ⟨ws, hws⟩ := exists_tail hts vs
    rw [hws, h, ← hws, he]

/-- A reading that takes the first token and reads on. -/
theorem cons (hx : Settled x us) (h : ∀ vs, z (t :: vs) = x vs) : Settled z (t :: us) := by
  rcases hx with ⟨e, he⟩ | ⟨seen, u, rest, e, he⟩
  · exact .atEnd e ((h us).trans he)
  · exact .inView (t :: seen) u rest e fun vs => (h _).trans (he vs)

/-- Where there is nothing to read, a reading ends there. -/
theorem nil (hx : Settled x []) : ∃ e, x [] = ending e [] := by
  generalize hts : ([] : List Lexeme) = ts at hx
  rcases hx with ⟨e, he⟩ | ⟨seen, t, rest, e, -⟩
  · subst hts
    exact ⟨e, he⟩
  · exact absurd hts (by simp)

/-- Two readings in a row, the second of what the first one left. -/
theorem bind (hx : Settled x ts)
    (hk : ∀ a us, x ts = .ok (a, us) → Settled (fun vs => k (a, vs)) us) :
    Settled (fun vs => x vs >>= k) ts := by
  rcases hx with ⟨e, he⟩ | ⟨seen, t, rest, e, he⟩
  · rcases e with fault | a
    · exact .atEnd (.error fault) (by rw [he]; rfl)
    · obtain ⟨e, he'⟩ := (hk a [] he).nil
      exact .atEnd e (by rw [he]; exact he')
  · rcases e with fault | a
    · exact .inView seen t rest (.error fault) fun vs => by rw [he]; rfl
    · -- The token in view of the first reading is the first one that the second reading gets.
      have hnext := hk a (t :: rest) (he rest)
      generalize hus : t :: rest = us at hnext
      rcases hnext with ⟨e, he'⟩ | ⟨seen', u, rest', e, he'⟩
      · subst hus
        exact .atEnd e (by rw [he]; exact he')
      · rw [← List.append_assoc]
        refine .inView (seen ++ seen') u rest' e fun vs => ?_
        obtain ⟨ws, hws⟩ := exists_tail hus vs
        rw [List.append_assoc, hws, he, ← he' vs, hws]
        rfl

/-- A reading that begins with another one, on the lists with the same first token. -/
theorem begin (hx : Settled x (t :: us)) (h : ∀ vs, y (t :: vs) = x (t :: vs) >>= k)
    (hk : ∀ a vs, x (t :: us) = .ok (a, vs) → Settled (fun ws => k (a, ws)) vs) :
    Settled y (t :: us) :=
  (hx.bind hk).congr h

/-- A reading whose tree is put into another one. -/
theorem map (f : α → β) (hx : Settled x ts) :
    Settled (fun vs => x vs >>= fun p => .ok (f p.1, p.2)) ts :=
  hx.bind fun a us _ => ok (f a) us

/-- A reading that goes two ways, by the token in view. -/
theorem ite {t : Token}
    (hx : ∀ l us, ts = ⟨t, l⟩ :: us → Settled (fun vs => x (⟨t, l⟩ :: vs)) us)
    (hz : peek ts ≠ some t → Settled z ts) :
    Settled (fun vs => if peek vs = some t then x vs else z vs) ts := by
  rcases ts with _ | ⟨⟨u, l⟩, us⟩
  · obtain ⟨e, he⟩ := (hz nofun).nil
    exact .atEnd e he
  · by_cases hu : u = t
    · subst hu
      exact (hx l us rfl).cons fun vs => if_pos rfl
    · have hne : some u ≠ some t := fun h => hu (Option.some.inj h)
      exact (hz hne).congr fun vs => if_neg hne

/-- Two readings that are the same settle the same lists. -/
theorem of_eq (h : ∀ vs, x vs = z vs) (hz : Settled z ts) : Settled x ts :=
  funext h ▸ hz

end Settled

/-! ### Tokens -/

/-- A token that is expected is in view where the reading ends. -/
theorem expect_settled (t : Token) (ts : List Lexeme) :
    Settled (fun vs => outcome (expect t vs)) ts := by
  rcases ts with _ | ⟨u, us⟩
  · exact .atEnd (.error _) rfl
  · by_cases hu : u.token = t
    · exact (Settled.ok () us).cons fun vs => by rw [expect, if_pos hu, Parsed.outcome_ok]
    · exact .unexpected (.token t) fun vs => by rw [expect, if_neg hu, Parsed.outcome_error]

/-- A name that is expected is in view where the reading ends. -/
theorem name_settled (what : Expected) (ts : List Lexeme) :
    Settled (fun vs => outcome (name what vs)) ts := by
  rcases ts with _ | ⟨⟨t, l⟩, us⟩
  · exact .atEnd (.error _) rfl
  · cases t with
    | ident s => exact (Settled.ok s us).cons fun vs => rfl
    | _ => exact .unexpected what fun vs => rfl

/-! ### Expressions -/

/-- An operand behind a minus. The magnitude of the least integer needs a second token, which is
    consumed then. -/
theorem operand_minus_ite (l : Nat) (ts : List Lexeme) :
    outcome (operand (⟨.minus, l⟩ :: ts)) =
      if peek ts = some (.intLit leastMagnitude) then .ok (.int Int64.minValue, ts.tail)
      else outcome (operand ts) >>= fun a => .ok (negated a.1, a.2) := by
  split
  · next h => rw [operand_least h, List.drop_one]
  · next h => exact operand_minus h

/-- What is made of a name, by the token that follows it. -/
theorem operand_ident (s : String) (l : Nat) (ts : List Lexeme) :
    outcome (operand (⟨.ident s, l⟩ :: ts)) =
      if peek ts = some .lparen then
        outcome (arguments ts.tail) >>= fun args => .ok (.call s args.1, args.2)
      else if peek ts = some .lbracket then
        outcome (climb 0 ts.tail) >>= fun a =>
          outcome (expect .rbracket a.2) >>= fun close => .ok (.index s a.1, close.2)
      else .ok (.var s, ts) := by
  split
  · next hcall =>
    obtain ⟨l', h⟩ := eq_cons_of_peek hcall
    rw [h, operand_call, List.tail_cons]
  · next hcall =>
    split
    · next hindex =>
      obtain ⟨l', h⟩ := eq_cons_of_peek hindex
      rw [h, operand_index, List.tail_cons]
    · next hindex => exact operand_var hcall hindex

/-- The arguments of a call, by the token in view. -/
theorem arguments_ite (ts : List Lexeme) :
    outcome (arguments ts) =
      if peek ts = some .rparen then .ok ([], ts.tail) else outcome (moreArguments ts) := by
  split
  · next h =>
    obtain ⟨l, hl⟩ := eq_cons_of_peek h
    rw [hl, arguments_none, List.tail_cons]
  · next h => exact arguments_some h

-- A reading may begin with another one of the same list, so a token counts for four, and what is
-- added says which reading begins with which.
mutual

/-- A chain of operators is settled by the token that ends it. -/
theorem climb_settled (min : Nat) (ts : List Lexeme) :
    Settled (fun vs => outcome (climb min vs)) ts := by
  refine Settled.of_eq (climb_outcome min) ?_
  refine (operand_settled ts).bind fun a us ha => ?_
  have := length_lt_of_outcome ha
  exact operators_settled min a us
termination_by 4 * ts.length + 1

theorem operators_settled (min : Nat) (lhs : Expr) (ts : List Lexeme) :
    Settled (fun vs => Trailing.outcome (operators min lhs vs)) ts := by
  rcases ts with _ | ⟨t, us⟩
  · exact .atEnd (.ok lhs) (operators_of_none rfl)
  cases hop : operator? min (t :: us) with
  | none => exact (Settled.ok lhs _).congr fun vs => operators_of_none hop
  | some op =>
    refine Settled.cons ?_ fun vs => operators_of_some hop
    refine (climb_settled _ us).bind fun r vs hr => ?_
    have := length_lt_of_outcome hr
    exact operators_settled min (.binary op lhs r) vs
termination_by 4 * ts.length
decreasing_by all_goals simp only [List.length_cons] at *; omega

/-- An operand is settled by its tokens: none of its readings looks behind the token that ends it.
    -/
theorem operand_settled (ts : List Lexeme) : Settled (fun vs => outcome (operand vs)) ts := by
  rcases ts with _ | ⟨⟨t, l⟩, us⟩
  · exact .atEnd (.error _) (by simp only [operand]; rfl)
  cases t with
  | minus =>
    refine Settled.cons ?_ (operand_minus_ite l)
    refine .ite (fun l' vs hvs => ?_) fun _ => (operand_settled us).map negated
    exact .ok _ vs
  | intLit n =>
    by_cases hn : n < leastMagnitude
    · exact (Settled.ok _ us).cons fun vs => operand_int hn
    · exact .refused .integerTooLarge fun vs => by rw [operand, if_neg hn]; rfl
  | floatLit r => exact (Settled.ok _ us).cons fun vs => operand_float r
  | stringLit s => exact (Settled.ok _ us).cons fun vs => operand_str s
  | trueKw => exact (Settled.ok _ us).cons fun vs => operand_true
  | falseKw => exact (Settled.ok _ us).cons fun vs => operand_false
  | lparen =>
    refine Settled.cons ?_ fun vs => operand_parens
    exact (climb_settled 0 us).bind fun a vs _ => (expect_settled .rparen vs).map fun _ => a
  | ident s => exact (ident_settled s l us).cons fun vs => rfl
  | _ => exact .unexpected .expression fun vs => by simp only [operand, Parsed.outcome_error]
termination_by 4 * ts.length
decreasing_by all_goals simp only [List.length_cons]; omega

/-- A name and what follows it, read from behind the name. -/
theorem ident_settled (s : String) (l : Nat) (ts : List Lexeme) :
    Settled (fun vs => outcome (operand (⟨.ident s, l⟩ :: vs))) ts := by
  refine Settled.of_eq (operand_ident s l) ?_
  refine .ite ?_ fun _ => .ite ?_ fun _ => .ok (Expr.var s) ts
  · intro l' us hus
    have : us.length < ts.length := hus ▸ Nat.lt_succ_self _
    exact (arguments_settled us).map (Expr.call s)
  · intro l' us hus
    have : us.length < ts.length := hus ▸ Nat.lt_succ_self _
    exact (climb_settled 0 us).bind fun a vs _ => (expect_settled .rbracket vs).map fun _ =>
      Expr.index s a
termination_by 4 * ts.length
decreasing_by all_goals omega

/-- The arguments of a call are settled at the parenthesis or where they are refused. -/
theorem arguments_settled (ts : List Lexeme) :
    Settled (fun vs => outcome (arguments vs)) ts := by
  refine Settled.of_eq arguments_ite ?_
  exact .ite (fun _ us _ => .ok [] us) fun _ => moreArguments_settled ts
termination_by 4 * ts.length + 3

theorem moreArguments_settled (ts : List Lexeme) :
    Settled (fun vs => outcome (moreArguments vs)) ts := by
  refine Settled.of_eq moreArguments_outcome ?_
  refine (climb_settled 0 ts).bind fun a us ha => ?_
  have hlt := length_lt_of_outcome ha
  refine .ite ?_ fun _ => (expect_settled .rparen us).map fun _ => [a]
  intro l' vs hvs
  have : vs.length < us.length := hvs ▸ Nat.lt_succ_self _
  exact (moreArguments_settled vs).map (a :: ·)
termination_by 4 * ts.length + 2
decreasing_by all_goals omega

end

/-! ### What stands in a statement -/

theorem condition_settled (ts : List Lexeme) :
    Settled (fun vs => outcome (condition vs)) ts := by
  refine Settled.of_eq condition_outcome ?_
  refine (expect_settled .lparen ts).bind fun _ us _ => ?_
  exact (climb_settled 0 us).bind fun e vs _ => (expect_settled .rparen vs).map fun _ => e

/-- A statement that is an expression is settled at its semicolon or where it is refused. -/
theorem exprStmt_settled (ts : List Lexeme) :
    Settled (fun vs => outcome (exprStmt vs)) ts := by
  refine Settled.of_eq exprStmt_outcome ?_
  exact (climb_settled 0 ts).bind fun e us _ => (expect_settled .semi us).map fun _ => e

/-- What is made of a statement that begins with a name, by the token that follows it. Behind a
    subscript that begins no assignment, the expression goes on from the element: that the name
    and the subscript are read again changes nothing. -/
theorem nameStmt_ways (s : String) (l : Nat) (ts : List Lexeme) :
    outcome (nameStmt s l ts) =
      if peek ts = some .assign then
        outcome (exprStmt ts.tail) >>= fun v => .ok (.assign l s v.1, v.2)
      else if peek ts = some .lbracket then
        outcome (climb 0 ts.tail) >>= fun i => outcome (expect .rbracket i.2) >>= fun close =>
          if peek close.2 = some .assign then
            outcome (exprStmt close.2.tail) >>= fun v => .ok (.assignElement l s i.1 v.1, v.2)
          else
            Trailing.outcome (operators 0 (.index s i.1) close.2) >>= fun e =>
              outcome (expect .semi e.2) >>= fun semi => .ok (.expr l e.1, semi.2)
      else outcome (exprStmt (⟨.ident s, l⟩ :: ts)) >>= fun e => .ok (.expr l e.1, e.2) := by
  rw [nameStmt_outcome]
  split
  · next h =>
    obtain ⟨l', hl'⟩ := eq_cons_of_peek h
    rw [hl', targetOutcome_assign]
    rfl
  next hassign =>
  split
  · -- The subscript is read once for the target, and again for the expression: what was made of it
    -- before is made of it then.
    next h =>
    obtain ⟨l', hl'⟩ := eq_cons_of_peek h
    rw [hl', targetOutcome_element, List.tail_cons, exprStmt_outcome,
      climb_outcome 0 (⟨.ident s, l⟩ :: _), operand_index]
    rcases outcome (climb 0 ts.tail) with r | ⟨i, us⟩
    · rfl
    simp only [bind, Except.bind]
    rcases outcome (expect .rbracket us) with r | ⟨_, vs⟩
    · rfl
    by_cases hvs : peek vs = some .assign
    · simp only [if_pos hvs]
      rfl
    · simp only [if_neg hvs, pure, Except.pure]
      rcases Trailing.outcome (operators 0 (.index s i) vs) with r | ⟨e, ws⟩
      · rfl
      · dsimp only
        rcases outcome (expect .semi ws) with r | _ <;> rfl
  · next hindex =>
    rw [targetOutcome_none hassign hindex]
    rfl

/-- A statement that begins with a name is settled, though it may be read twice: the second reading
    ends no earlier than the first one. -/
theorem nameStmt_settled (s : String) (l : Nat) (ts : List Lexeme) :
    Settled (fun vs => outcome (nameStmt s l vs)) ts := by
  refine Settled.of_eq (nameStmt_ways s l) ?_
  refine .ite ?_ fun _ => .ite ?_ fun _ => ?_
  · rintro l' us rfl
    exact (exprStmt_settled us).map (Stmt.assign l s)
  · rintro l' us rfl
    refine (climb_settled 0 us).bind fun i vs _ => ?_
    dsimp only
    refine (expect_settled .rbracket vs).bind fun _ ws _ => ?_
    dsimp only
    refine .ite ?_ fun _ => ?_
    · rintro l' us rfl
      exact (exprStmt_settled us).map (Stmt.assignElement l s i)
    · refine (operators_settled 0 (.index s i) ws).bind fun e us _ => ?_
      exact (expect_settled .semi us).map fun _ => Stmt.expr l e
  · -- The name is read again, but from what follows it the reading is the same.
    refine Settled.map (Stmt.expr l) (.of_eq (fun vs => exprStmt_outcome _) ?_)
    refine Settled.bind (.of_eq (fun vs => climb_outcome 0 _) ?_) fun e us _ =>
      (expect_settled .semi us).map fun _ => e
    exact (ident_settled s l ts).bind fun a us _ => operators_settled 0 a us

/-- The header of a loop is settled at its parenthesis or where it is refused. -/
theorem header_settled (ts : List Lexeme) : Settled (fun vs => outcome (header vs)) ts := by
  refine Settled.of_eq header_outcome ?_
  refine (expect_settled .lparen ts).bind fun _ us _ => ?_
  refine (name_settled .loopVariable us).bind fun first us _ => ?_
  dsimp only
  refine .ite ?_ fun _ => ?_
  · rintro l us rfl
    refine (name_settled .valueVariable us).bind fun value us _ => ?_
    dsimp only
    refine (expect_settled .inKw us).bind fun _ us _ => ?_
    refine (climb_settled 0 us).bind fun array us _ => ?_
    exact (expect_settled .rparen us).map fun _ => Header.each first value array
  · refine (expect_settled .inKw us).bind fun _ us _ => ?_
    refine (climb_settled 0 us).bind fun start us _ => ?_
    dsimp only
    refine (expect_settled .dotDot us).bind fun _ us _ => ?_
    refine (climb_settled 0 us).bind fun stop us _ => ?_
    exact (expect_settled .rparen us).map fun _ => Header.range first start stop

theorem result_settled (ts : List Lexeme) : Settled (fun vs => outcome (result vs)) ts := by
  refine Settled.of_eq result_outcome ?_
  exact .ite (fun _ us _ => .ok none us) fun _ => (exprStmt_settled ts).map some

/-! ### Statements -/

/-- The statement at the front of a list. -/
def stmtOutcome (inLoop : Bool) : List Lexeme → Except Refusal (Stmt × List Lexeme)
  | [] => .error (unexpected (.token .rbrace) [])
  | t :: ts => outcome (stmt inLoop t ts)

/-- The statements of a block, by the token in view. -/
theorem statements_ite (inLoop : Bool) (ts : List Lexeme) :
    outcome (statements inLoop ts) =
      if peek ts = some .rbrace then .ok ([], ts.tail)
      else stmtOutcome inLoop ts >>= fun s =>
        outcome (statements inLoop s.2) >>= fun more => .ok (s.1 :: more.1, more.2) := by
  rcases ts with _ | ⟨⟨t, l⟩, ts⟩
  · exact statements_none
  · by_cases ht : t = .rbrace
    · subst ht
      exact statements_nil
    · have hne : peek (⟨t, l⟩ :: ts) ≠ some .rbrace := fun h => ht (Option.some.inj h)
      rw [if_neg hne, statements_some ht]
      rfl

/-- A jump is settled at its semicolon, or at once outside of a loop. -/
theorem jump_settled (inLoop : Bool) {keyword : Token} {l : Nat} {s : Stmt}
    (h : ∀ vs, stmtOutcome inLoop (⟨keyword, l⟩ :: vs) = outcome (jump inLoop keyword l s vs))
    (ts : List Lexeme) : Settled (stmtOutcome inLoop) (⟨keyword, l⟩ :: ts) := by
  cases inLoop with
  | true =>
    refine Settled.cons ?_ fun vs => (h vs).trans (jump_outcome ..)
    exact (expect_settled .semi ts).map fun _ => s
  | false => exact .refused (.outsideLoop keyword) fun vs => (h vs).trans (jump_outcome ..)

mutual

theorem block_settled (inLoop : Bool) (ts : List Lexeme) :
    Settled (fun vs => outcome (block inLoop vs)) ts := by
  refine Settled.of_eq (block_outcome inLoop) ?_
  refine (expect_settled .lbrace ts).bind fun _ us hopen => ?_
  have := length_lt_of_outcome hopen
  exact statements_settled inLoop us
termination_by 3 * ts.length

theorem statements_settled (inLoop : Bool) (ts : List Lexeme) :
    Settled (fun vs => outcome (statements inLoop vs)) ts := by
  refine Settled.of_eq (statements_ite inLoop) ?_
  refine .ite (fun _ us _ => .ok [] us) fun _ => ?_
  refine (stmt_settled inLoop ts).bind fun s us hs => ?_
  have : us.length < ts.length := by
    rcases ts with _ | ⟨t, ts⟩
    · cases hs
    · exact length_lt_of_outcome hs
  exact (statements_settled inLoop us).map (s :: ·)
termination_by 3 * ts.length + 2
decreasing_by all_goals omega

/-- A statement is settled, by its first token. -/
theorem stmt_settled (inLoop : Bool) (ts : List Lexeme) : Settled (stmtOutcome inLoop) ts := by
  rcases ts with _ | ⟨⟨t, l⟩, ts⟩
  · exact .atEnd (.error _) rfl
  by_cases ht : isStatementStart t = false
  · exact ((exprStmt_settled _).map (Stmt.expr l)).congr fun vs => stmt_expr_outcome ht
  cases t with
  | semi => exact (Settled.ok (Stmt.empty l) ts).cons fun vs => stmt_empty
  | ifKw =>
    refine Settled.cons ?_ fun vs => stmt_if_outcome
    refine (condition_settled ts).bind fun c us hc => ?_
    have := length_lt_of_outcome hc
    exact (block_settled inLoop us).map (Stmt.ifThen l c)
  | elseKw =>
    refine Settled.cons ?_ fun vs => stmt_else_outcome
    refine .ite (fun l' us hus => ?_) fun _ => (block_settled inLoop ts).map (Stmt.elseThen l)
    have : us.length < ts.length := hus ▸ Nat.lt_succ_self _
    refine (condition_settled us).bind fun c vs hc => ?_
    have := length_lt_of_outcome hc
    exact (block_settled inLoop vs).map (Stmt.elseIf l c)
  | whileKw =>
    refine Settled.cons ?_ fun vs => stmt_while_outcome
    refine (condition_settled ts).bind fun c us hc => ?_
    have := length_lt_of_outcome hc
    exact (block_settled true us).map (Stmt.whileLoop l c)
  | forKw =>
    refine Settled.cons ?_ fun vs => stmt_for_outcome
    refine (header_settled ts).bind fun range us hr => ?_
    have := length_lt_of_outcome hr
    exact (block_settled true us).map (loop l range)
  | returnKw =>
    refine Settled.cons ?_ fun vs => stmt_return_outcome
    exact (result_settled ts).map (Stmt.ret l)
  | breakKw => exact jump_settled inLoop (fun vs => congrArg outcome stmt_break_outcome) ts
  | continueKw => exact jump_settled inLoop (fun vs => congrArg outcome stmt_continue_outcome) ts
  | ident s => exact (nameStmt_settled s l ts).cons fun vs => congrArg outcome stmt_name
  | _ => exact absurd rfl ht
termination_by 3 * ts.length + 1
decreasing_by all_goals simp only [List.length_cons]; omega

end

/-! ### Functions -/

theorem params_ite (ts : List Lexeme) :
    outcome (params ts) =
      if peek ts = some .rparen then .ok ([], ts.tail) else outcome (moreParams ts) := by
  split
  · next h =>
    obtain ⟨l, hl⟩ := eq_cons_of_peek h
    rw [hl, params_none, List.tail_cons]
  · next h => exact params_some h

theorem moreParams_settled (ts : List Lexeme) :
    Settled (fun vs => outcome (moreParams vs)) ts := by
  refine Settled.of_eq moreParams_outcome ?_
  refine (name_settled .parameterName ts).bind fun first us hfirst => ?_
  have := length_lt_of_outcome hfirst
  refine .ite (fun l vs hvs => ?_) fun _ => (expect_settled .rparen us).map fun _ => [first]
  have : vs.length < us.length := hvs ▸ Nat.lt_succ_self _
  exact (moreParams_settled vs).map (first :: ·)
termination_by ts.length

theorem params_settled (ts : List Lexeme) : Settled (fun vs => outcome (params vs)) ts :=
  .of_eq params_ite (.ite (fun _ us _ => .ok [] us) fun _ => moreParams_settled ts)

/-- The function at the front of a list. -/
def funcOutcome : List Lexeme → Except Refusal (Func × List Lexeme)
  | [] => .error (unexpected (.token .func) [])
  | t :: ts => outcome (func t ts)

/-- A function is settled at its brace or where it is refused. -/
theorem func_settled (ts : List Lexeme) : Settled funcOutcome ts := by
  rcases ts with _ | ⟨t, ts⟩
  · exact .atEnd (.error _) rfl
  refine (expect_settled .func (t :: ts)).begin (func_outcome t) fun _ us _ => ?_
  refine (name_settled .functionName us).bind fun fname us _ => ?_
  dsimp only
  refine (expect_settled .lparen us).bind fun _ us _ => ?_
  refine (params_settled us).bind fun args us _ => ?_
  exact (block_settled false us).map fun body => Func.mk fname args body t.line

/-- The functions of a program are settled by the whole list, or by what is read until the refusal.
    -/
theorem funcs_settled (ts : List Lexeme) :
    Settled (fun vs => (funcs vs).map fun fs => (fs, [])) ts := by
  rcases ts with _ | ⟨t, ts⟩
  · exact .atEnd (.ok []) (by rw [funcs_nil]; rfl)
  have hfuncs (vs : List Lexeme) : ((funcs (t :: vs)).map fun fs => (fs, ([] : List Lexeme))) =
      funcOutcome (t :: vs) >>= fun f =>
        ((funcs f.2).map fun fs => (fs, ([] : List Lexeme))) >>= fun more =>
          .ok (f.1 :: more.1, []) := by
    rw [funcs_outcome, funcOutcome]
    rcases outcome (func t vs) with r | ⟨f, rest⟩
    · rfl
    · simp only [bind, Except.bind]
      cases funcs rest <;> rfl
  refine (func_settled (t :: ts)).begin hfuncs fun f us hf => ?_
  have : us.length < (t :: ts).length := length_lt_of_outcome hf
  dsimp only
  refine (funcs_settled us).bind fun more vs _ => ?_
  exact .atEnd (.ok (f :: more)) rfl
termination_by ts.length
decreasing_by assumption

end Reading

open Reading (SameTokens funcs_settled)

/-- A program is refused as its functions are. -/
theorem Program.ofTokens_error_iff {ts : List Lexeme} {r : Refusal} : ofTokens ts = .error r ↔
    (Reading.funcs ts).map (fun fs => (fs, ([] : List Lexeme))) = .error r := by
  rw [ofTokens]
  cases Reading.funcs ts <;> simp [Except.map]

/-- A program is refused at a token, or at the end where something is missing. At a token, the
    refusal stands: every list with the same tokens up to that one, on whatever lines, is refused
    there for the same cause. -/
theorem Program.refusal_stands {ts : List Lexeme} {r : Refusal} (h : ofTokens ts = .error r) :
    ∃ k ≤ ts.length, r = ⟨r.fault, ts.length - k⟩ ∧
      (k < ts.length → ∀ us : List Lexeme,
        (us.map (·.token)).take (k + 1) = (ts.map (·.token)).take (k + 1) →
          ofTokens us = .error ⟨r.fault, us.length - k⟩) := by
  have hfuncs := ofTokens_error_iff.1 h
  rcases funcs_settled ts with ⟨e, he⟩ | ⟨seen, t, rest, e, he⟩
  · rcases e with fault | a
    · obtain rfl := Except.error.inj (hfuncs.symm.trans he)
      exact ⟨ts.length, Nat.le_refl _, by simp, fun hk => absurd hk (Nat.lt_irrefl _)⟩
    · cases hfuncs.symm.trans he
  · rcases e with fault | a
    · obtain rfl := Except.error.inj (hfuncs.symm.trans (he rest))
      refine ⟨seen.length, by simp, by simp, fun _ us hus => ?_⟩
      -- But for its lines, the list is one that goes on from the refused token.
      have hsame : SameTokens us (seen ++ t :: us.drop (seen.length + 1)) := by
        have hseen : (us.map (·.token)).take (seen.length + 1) =
            (seen.map (·.token)) ++ [t.token] := by
          rw [hus, List.map_append, List.map_cons, List.take_append, List.length_map]
          simp [List.take_of_length_le]
        rw [SameTokens, ← List.take_append_drop (seen.length + 1) (us.map (·.token)), hseen]
        simp
      have hstands := ofTokens_error_iff.2 (he (us.drop (seen.length + 1)))
      have hleft : (t :: us.drop (seen.length + 1)).length = us.length - seen.length := by
        rw [hsame.length_eq, List.length_append, Nat.add_sub_cancel_left]
      rw [hleft] at hstands
      have hmap := ofTokens_agree hsame
      rw [hstands] at hmap
      cases hu : ofTokens us with
      | error r' =>
        rw [hu] at hmap
        exact congrArg Except.error (Except.error.inj hmap)
      | ok p => rw [hu] at hmap; cases hmap
    · cases hfuncs.symm.trans (he rest)

/-- The tokens of `func f() { x[1] 2; }`, where `2` cannot follow what is read again. -/
def unended : List Lexeme :=
  [.func, .ident "f", .lparen, .rparen, .lbrace, .ident "x", .lbracket, .intLit 1, .rbracket,
    .intLit 2, .semi, .rbrace].map (⟨·, 1⟩)

/-- The same tokens up to `2` on another line, with `= 3; }` behind them. -/
def unendedRelaid : List Lexeme :=
  (unended.take 10).map (⟨·.token, 2⟩) ++ [.assign, .intLit 3, .semi, .rbrace].map (⟨·, 3⟩)

/-- The number `2` is refused whatever follows it. -/
theorem Program.unended_stands :
    ofTokens unended = .error ⟨.expected (.token .semi) (some (.intLit 2)), 12 - 9⟩ ∧
      (unendedRelaid.map (·.token)).take 10 = (unended.map (·.token)).take 10 ∧
      ofTokens unendedRelaid = .error ⟨.expected (.token .semi) (some (.intLit 2)), 14 - 9⟩ := by
  have hrefused : ofTokens unended =
      .error ⟨.expected (.token .semi) (some (.intLit 2)), 12 - 9⟩ := by cbv
  have hsame : (unendedRelaid.map (·.token)).take 10 = (unended.map (·.token)).take 10 := rfl
  obtain ⟨k, -, hr, hstands⟩ := refusal_stands hrefused
  have hleft : 12 - 9 = 12 - k := congrArg Refusal.left hr
  obtain rfl : k = 9 := by omega
  exact ⟨hrefused, hsame, hstands (by decide) unendedRelaid hsame⟩

end PoolScript
