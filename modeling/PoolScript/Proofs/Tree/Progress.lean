import PoolScript.Proofs.Tree.Cursor
import PoolScript.Proofs.Tree.Grammar
import PoolScript.Proofs.Tree.Refusals

/-!
# Walks make progress

What a call does follows a reading, as far as the calls in it follow theirs, and these have fewer
tokens ahead or come before it in an order among the calls with the same tokens ahead (`Made`). The
six levels of operators are in this order, since reading from a level is reading from the next one
and then the operators of the level (`Reading.climb_succ`). Going back to the beginning of a
statement does no harm, since it is only an expression that is read from there (`nameStmt_follows`).

So with a depth of twelve for each token, calls come to what is read (`make_follows`). A walk that
makes a tree has moved on, not beyond the last token, and a walk over a whole list of tokens has
come to its end (`walks_advance`).
-/

namespace PoolScript

namespace Reading

open Parsed (outcome)

variable {lhs : Expr} {ts : List Lexeme}

/-! ### Levels of operators -/

/-- The operators of a level and above are those above, and then the others. -/
theorem operators_succ (level : Nat) (lhs : Expr) (ts : List Lexeme) :
    Trailing.outcome (operators level lhs ts) =
      Trailing.outcome (operators (level + 1) lhs ts) >>= fun b =>
        Trailing.outcome (operators level b.1 b.2) := by
  cases hop : operator? (level + 1) ts with
  | none =>
    rw [operators_of_none hop]
    rfl
  | some op =>
    rcases ts with _ | ⟨t, us⟩
    · cases hop
    obtain ⟨ht, hle⟩ := Grammar.operator?_eq_some.1 hop
    have hop' : operator? level (t :: us) = some op :=
      Grammar.operator?_eq_some.2 ⟨ht, Nat.le_of_succ_le hle⟩
    rw [operators_of_some hop', operators_of_some hop]
    cases hr : outcome (climb (op.level + 1) us) with
    | error r => rfl
    | ok r =>
      have := Parsed.length_lt_of_outcome hr
      exact operators_succ level (.binary op lhs r.1) r.2
termination_by ts.length
decreasing_by simp only [List.length_cons]; omega

/-- Reading from a level up is reading from the next level up, and then the operators of the
    level. -/
theorem climb_succ (level : Nat) (ts : List Lexeme) :
    outcome (climb level ts) =
      outcome (climb (level + 1) ts) >>= fun a => Trailing.outcome (operators level a.1 a.2) := by
  rw [climb_outcome, climb_outcome]
  rcases outcome (operand ts) with r | a
  · rfl
  · exact operators_succ level a.1 a.2

/-- No operator is of a level above all. -/
theorem climb_top {level : Nat} (h : Grammar.levels.length ≤ level) (ts : List Lexeme) :
    outcome (climb level ts) = outcome (operand ts) := by
  rw [climb_outcome]
  rcases outcome (operand ts) with r | ⟨a, rest⟩
  · rfl
  · exact operators_of_none (Grammar.operator?_none_of_le h (Grammar.operator?_levels rest))

end Reading

namespace Walk

open Reading (peek)
open Parsed (outcome length_lt_of_outcome)

variable {α : Type} {tokens : List Lexeme} {stop loops count limit : Nat} {ts : List Lexeme}
  {call : Calls}

theorem length_lt_of_eq_cons {t : Lexeme} {us : List Lexeme} (h : ts = t :: us) :
    us.length < ts.length :=
  h ▸ Nat.lt_succ_self _

/-! ### What is read -/

/-- The operators of just one level behind `lhs`. Nothing is read if one of a level above is
    there. -/
def operatorsReading (level : Nat) (lhs : Expr) (ts : List Lexeme) :
    Except Refusal (Expr × List Lexeme) :=
  if Reading.operator? (level + 1) ts = none then
    Trailing.outcome (Reading.operators level lhs ts)
  else .ok (lhs, ts)

/-- Where no operator of a level stands, the reading of its operators is that of the chain. -/
theorem operatorsReading_of_none {level : Nat} (h : Reading.operator? (level + 1) ts = none)
    (lhs : Expr) : operatorsReading level lhs ts =
      Trailing.outcome (Reading.operators level lhs ts) :=
  if_pos h

/-- What is read where no minus may stand. -/
def primaryReading (ts : List Lexeme) : Except Refusal (Expr × List Lexeme) :=
  if peek ts = some .minus then .error (Reading.unexpected .expression ts)
  else outcome (Reading.operand ts)

theorem primaryReading_nil : primaryReading [] = .error (Reading.unexpected .expression []) := by
  rw [primaryReading, if_neg nofun, Reading.operand]
  · rfl
  all_goals nofun

/-- An operand that starts with no minus is read as a primary expression. -/
theorem primaryReading_cons {t : Token} (ht : t ≠ .minus) (l : Nat) (us : List Lexeme) :
    primaryReading (⟨t, l⟩ :: us) = outcome (Reading.operand (⟨t, l⟩ :: us)) :=
  if_neg fun h => ht (Option.some.inj h)

/-- An operand by its first token. A minus before the magnitude of the least integer is read
    together with it. -/
theorem operand_ite (ts : List Lexeme) : outcome (Reading.operand ts) =
    if peek ts = some .minus then
      if peek ts.tail = some (.intLit Reading.leastMagnitude) then
        .ok (.int Int64.minValue, ts.tail.tail)
      else outcome (Reading.operand ts.tail) >>= fun a => .ok (Reading.negated a.1, a.2)
    else primaryReading ts := by
  split
  · next h =>
    obtain ⟨l, hl⟩ := Reading.eq_cons_of_peek h
    rw [hl]
    exact Reading.operand_minus_ite l ts.tail
  · next h => rw [primaryReading, if_neg h]

/-- Whether a walk is in a loop. -/
def inLoop (loops : Nat) : Bool :=
  decide (loops ≠ 0)

/-- The statement at the front of a list. Where there is nothing, an expression is missing. -/
def stmtReading (inLoop : Bool) : List Lexeme → Except Refusal (Stmt × List Lexeme)
  | [] => .error (Reading.unexpected .expression [])
  | t :: ts => outcome (Reading.stmt inLoop t ts)

/-- The loop on the given line, behind the word that begins it. -/
def forReading (line : Nat) (ts : List Lexeme) : Except Refusal (Stmt × List Lexeme) :=
  outcome (Reading.header ts) >>= fun range =>
    outcome (Reading.block true range.2) >>= fun body =>
      .ok (Reading.loop line range.1 body.1, body.2)

/-- Reading functions up to the end, seen as a reading that leaves nothing. -/
def funcsReading (ts : List Lexeme) : Except Refusal (List Func × List Lexeme) :=
  Reading.funcs ts >>= fun fs => .ok (fs, [])

/-- Functions are read until there is no token left. -/
theorem funcsReading_ite (ts : List Lexeme) : funcsReading ts =
    if peek ts = none then .ok ([], ts)
    else Reading.funcOutcome ts >>= fun f =>
      funcsReading f.2 >>= fun more => .ok (f.1 :: more.1, more.2) := by
  rcases ts with _ | ⟨t, ts⟩
  · rw [funcsReading, Reading.funcs_nil]
    rfl
  · rw [if_neg nofun, funcsReading, Reading.funcs_outcome, Reading.funcOutcome]
    simp only [funcsReading, bind_assoc]
    rfl

namespace Call

/-- What a call makes of the tokens `ts` in so many loops. -/
def reading : ⦃α : Type⦄ → Call α → Nat → List Lexeme → Except Refusal (α × List Lexeme)
  | _, .expr, _, ts => outcome (Reading.climb 0 ts)
  | _, .binary level, _, ts => outcome (Reading.climb level ts)
  | _, .operators level lhs, _, ts => operatorsReading level lhs ts
  | _, .unary, _, ts => outcome (Reading.operand ts)
  | _, .primary, _, ts => primaryReading ts
  | _, .moreArguments, _, ts => outcome (Reading.moreArguments ts)
  | _, .block, loops, ts => outcome (Reading.block (inLoop loops) ts)
  | _, .statements, loops, ts => outcome (Reading.statements (inLoop loops) ts)
  | _, .stmt, loops, ts => stmtReading (inLoop loops) ts
  | _, .forLoop line, _, ts => forReading line ts
  | _, .moreParams, _, ts => outcome (Reading.moreParams ts)
  | _, .func, _, ts => Reading.funcOutcome ts
  | _, .funcs, _, ts => funcsReading ts

/-- The number of loops in which a walk is after a call. -/
def loopsAfter : ⦃α : Type⦄ → Call α → Nat → List Lexeme → Nat
  | _, .func, _, _ => 0
  | _, .funcs, loops, ts => if ts = [] then loops else 0
  | _, _, loops, _ => loops

/-- The order among the calls with the same tokens ahead. Each one comes behind those with which it
    begins. -/
def order : ⦃α : Type⦄ → Call α → Nat
  | _, .unary => 1
  | _, .binary level => 2 + (6 - level)
  | _, .expr => 9
  | _, .moreArguments => 10
  | _, .stmt => 10
  | _, .statements => 11
  | _, .funcs => 1
  | _, _ => 0

/-- There are twelve kinds of calls, so an order below twelve leaves room for all of them. -/
theorem order_lt (c : Call α) : c.order < 12 := by
  cases c <;> simp only [order] <;> omega

end Call

variable (tokens stop) in
/-- Calls follow what is read, if fewer than `count` tokens are ahead, or no more than so many and
    the call comes before `limit` in the order. -/
structure Made (call : Calls) (count limit : Nat) : Prop where
  fewer : ∀ ⦃α : Type⦄ (c : Call α) {ts : List Lexeme} (loops : Nat), ts.length < count →
    Follows tokens stop (call c) ts loops (c.loopsAfter loops ts) (c.reading loops ts)
  before : ∀ ⦃α : Type⦄ (c : Call α) {ts : List Lexeme} (loops : Nat), ts.length ≤ count →
    c.order < limit →
    Follows tokens stop (call c) ts loops (c.loopsAfter loops ts) (c.reading loops ts)

namespace Made

/-- An expression is one of the calls that stand. -/
theorem expr (h : Made tokens stop call count limit) (hts : ts.length < count) :
    Follows tokens stop (call .expr) ts loops loops (outcome (Reading.climb 0 ts)) :=
  h.fewer .expr loops hts

/-- A block is one of the calls that stand. -/
theorem block (h : Made tokens stop call count limit) (hts : ts.length < count) :
    Follows tokens stop (call .block) ts loops loops
      (outcome (Reading.block (inLoop loops) ts)) :=
  h.fewer .block loops hts

end Made

/-! ### Expressions -/

/-- Above a level where no operator is in view, one of that level and above is one of that level. -/
theorem filter_level {level : Nat} (h : Reading.operator? (level + 1) ts = none) :
    ((peek ts).bind Reading.binaryOp?).filter (·.level = level) = Reading.operator? level ts := by
  rw [Reading.operator?] at h ⊢
  cases hop : (peek ts).bind Reading.binaryOp? with
  | none => rfl
  | some op =>
    rw [hop, Option.filter_eq_none_iff] at h
    have hle : ¬level + 1 ≤ op.level := by simpa using h op rfl
    have hiff : op.level = level ↔ level ≤ op.level := by omega
    simp only [Option.filter, hiff]

/-- Where an operator of a level above is in view, there is none of just the level. -/
theorem filter_level_above {level : Nat} (h : Reading.operator? (level + 1) ts ≠ none) :
    ((peek ts).bind Reading.binaryOp?).filter (·.level = level) = none := by
  rw [Reading.operator?] at h
  cases hop : (peek ts).bind Reading.binaryOp? with
  | none => rfl
  | some op =>
    rw [hop] at h
    have hle : level + 1 ≤ op.level := by
      by_contra hlt
      exact h (by simp [Option.filter, hlt])
    have hne : op.level ≠ level := by omega
    simp [Option.filter, hne]

/-- A level of binary operators follows its reading, since it calls what has a lower order. -/
theorem binary_follows (level : Nat)
    (h : Made tokens stop call ts.length (Call.binary level).order) :
    Follows tokens stop (binary call level) ts loops loops (outcome (Reading.climb level ts)) := by
  rw [binary]
  split
  · next hlevel =>
    rw [Reading.climb_succ]
    have hbefore : (Call.binary (level + 1)).order < (Call.binary level).order := by
      simp only [Call.order]
      omega
    refine (h.before (.binary (level + 1)) loops le_rfl hbefore).bind fun a us ha => ?_
    have hend : Reading.operator? (level + 1) us = none := (Grammar.climb_derives rfl hlevel ha).1
    rw [← operatorsReading_of_none hend]
    exact h.fewer (.operators level a) loops (length_lt_of_outcome ha)
  · next hlevel =>
    rw [Reading.climb_top (Nat.le_of_not_lt hlevel)]
    have hbefore : Call.unary.order < (Call.binary level).order := by
      simp only [Call.order]
      omega
    exact h.before .unary loops le_rfl hbefore

/-- The loop over the operators of a level follows its reading: each round consumes an operator. -/
theorem operators_follows (level : Nat) (lhs : Expr)
    (h : Made tokens stop call ts.length limit) :
    Follows tokens stop (operators tokens call level lhs) ts loops loops
      (operatorsReading level lhs ts) := by
  rw [operators]
  refine .current ?_
  by_cases hts : Reading.operator? (level + 1) ts = none
  · rw [operatorsReading_of_none hts, filter_level hts]
    cases hop : Reading.operator? level ts with
    | none =>
      rw [Reading.operators_of_none hop]
      exact .pure lhs ts
    | some op =>
      obtain ⟨t, us, rfl⟩ : ∃ t us, ts = t :: us := by
        rcases ts with _ | ⟨t, us⟩
        · cases hop
        · exact ⟨t, us, rfl⟩
      have hus : us.length < (t :: us).length := Nat.lt_succ_self _
      -- Reading from a level up takes the operator with its own level, which is just this one here.
      have hlevel : op.level = level := by
        obtain ⟨ht, hle⟩ := Grammar.operator?_eq_some.1 hop
        rw [Grammar.operator?_cons, ht] at hts
        have : ¬level + 1 ≤ op.level := by simpa [Option.filter] using hts
        omega
      rw [Reading.operators_of_some hop, hlevel]
      refine .advance ((h.fewer (.binary (level + 1)) loops hus).bind fun r vs hr => ?_)
      have hend : Reading.operator? (level + 1) vs = none :=
        (Grammar.climb_derives rfl (hlevel ▸ Grammar.level_lt op) hr).1
      rw [← operatorsReading_of_none hend]
      exact h.fewer (.operators level (.binary op lhs r)) loops
        ((length_lt_of_outcome hr).trans hus)
  · rw [operatorsReading, if_neg hts, filter_level_above hts]
    exact .pure lhs ts

/-- An operand follows its reading. It calls itself only after a minus was consumed. -/
theorem unary_follows (h : Made tokens stop call ts.length Call.unary.order) :
    Follows tokens stop (unary tokens call) ts loops loops (outcome (Reading.operand ts)) := by
  rw [unary, operand_ite]
  refine .eat (fun l us hus => ?_) fun _ => h.before .primary loops le_rfl (by decide)
  have hlt := length_lt_of_eq_cons hus
  rw [hus]
  refine .check (fun hleast => ?_) fun _ => (h.fewer .unary loops hlt).map Reading.negated
  obtain ⟨l', hl'⟩ := Reading.eq_cons_of_peek hleast
  rw [hl']
  exact .advance (.pure _ _)

/-- The loop over arguments follows its reading: each round consumes a comma. -/
theorem moreArguments_follows
    (h : Made tokens stop call ts.length Call.moreArguments.order) :
    Follows tokens stop (moreArguments tokens call) ts loops loops
      (outcome (Reading.moreArguments ts)) := by
  rw [moreArguments, Reading.moreArguments_outcome]
  refine (h.before .expr loops le_rfl (by decide)).bind fun a us ha => ?_
  refine .eat (fun l vs hvs => ?_) fun _ => (Follows.expect .rparen us).map fun _ => [a]
  have hlt := (length_lt_of_eq_cons hvs).trans (length_lt_of_outcome ha)
  subst hvs
  exact (h.fewer .moreArguments loops hlt).map (a :: ·)

/-- An argument list follows its reading. -/
theorem arguments_follows (h : Made tokens stop call count limit) (hts : ts.length < count) :
    Follows tokens stop (arguments tokens call) ts loops loops
      (outcome (Reading.arguments ts)) := by
  rw [arguments, Reading.arguments_ite]
  exact .check (fun hclose => .taken hclose (.pure [] _)) fun _ =>
    h.fewer .moreArguments loops hts

/-- What follows a name, a call or an access or nothing, follows its reading. -/
theorem afterName_follows (s : String) (l : Nat) (h : Made tokens stop call count limit)
    (hts : ts.length < count) :
    Follows tokens stop (afterName tokens call s) ts loops loops
      (outcome (Reading.operand (⟨.ident s, l⟩ :: ts))) := by
  rw [afterName, Reading.operand_ident]
  refine .eat (fun l' us hus => ?_) fun _ => .eat (fun l' us hus => ?_) fun _ => .pure _ ts
  · have hlt := (length_lt_of_eq_cons hus).trans hts
    rw [hus]
    exact (arguments_follows h hlt).map (Expr.call s)
  · have hlt := (length_lt_of_eq_cons hus).trans hts
    rw [hus]
    exact (h.expr hlt).bind fun a vs _ => (Follows.expect .rbracket vs).map fun _ =>
      Expr.index s a

/-- A primary expression follows its reading, by its first token. -/
theorem primary_follows (h : Made tokens stop call ts.length limit) :
    Follows tokens stop (primary tokens call) ts loops loops (primaryReading ts) := by
  rw [primary]
  refine .current ?_
  rcases ts with _ | ⟨⟨t, l⟩, us⟩
  · rw [primaryReading_nil]
    exact .unexpected .expression
  by_cases hminus : t = .minus
  · subst hminus
    exact .unexpected .expression
  have hus : us.length < (⟨t, l⟩ :: us : List Lexeme).length := Nat.lt_succ_self _
  rw [primaryReading_cons hminus]
  cases t with
  | intLit n =>
    dsimp only [peek, List.head?_cons, Option.map_some]
    split
    · next hn =>
      rw [Reading.operand_int hn]
      exact .advance (.pure _ us)
    · next hn =>
      rw [Reading.operand, if_neg hn]
      exact .refuse .integerTooLarge
  | floatLit x =>
    rw [Reading.operand_float]
    exact .advance (.pure _ us)
  | stringLit s =>
    rw [Reading.operand_str]
    exact .advance (.pure _ us)
  | trueKw =>
    rw [Reading.operand_true]
    exact .advance (.pure _ us)
  | falseKw =>
    rw [Reading.operand_false]
    exact .advance (.pure _ us)
  | lparen =>
    rw [Reading.operand_parens]
    exact .advance ((h.expr hus).bind fun a vs _ =>
      (Follows.expect .rparen vs).map fun _ => a)
  | ident s => exact .advance (afterName_follows s l h hus)
  | minus => exact absurd rfl hminus
  | _ =>
    simp only [Reading.operand]
    exact .unexpected .expression

/-! ### What stands in a statement -/

/-- A condition in parentheses follows its reading. -/
theorem condition_follows (h : Made tokens stop call count limit) (hts : ts.length ≤ count) :
    Follows tokens stop (condition tokens call) ts loops loops
      (outcome (Reading.condition ts)) := by
  rw [Reading.condition_outcome]
  refine (Follows.expect .lparen ts).bind fun _ us hopen => ?_
  have hlt : us.length < count := (length_lt_of_outcome hopen).trans_le hts
  exact (h.expr hlt).bind fun e vs _ => (Follows.expect .rparen vs).map fun _ => e

/-- A statement that is an expression follows its reading, up to its semicolon. -/
theorem exprStmt_follows
    (h : Follows tokens stop (call .expr) ts loops loops (outcome (Reading.climb 0 ts))) :
    Follows tokens stop (exprStmt tokens call) ts loops loops
      (outcome (Reading.exprStmt ts)) := by
  rw [Reading.exprStmt_outcome]
  exact h.bind fun e us _ => (Follows.expect .semi us).map fun _ => e

/-- The target of an assignment, if there is one, and the tokens that were left in any case. -/
def targetReading (s : String) (ts : List Lexeme) :
    Except Refusal (Option Reading.Target × List Lexeme) :=
  if peek ts = some .assign then .ok (some (.variable s), ts.tail)
  else if peek ts = some .lbracket then
    outcome (Reading.climb 0 ts.tail) >>= fun a =>
      outcome (Reading.expect .rbracket a.2) >>= fun close =>
        if peek close.2 = some .assign then .ok (some (.element s a.1), close.2.tail)
        else .ok (none, close.2)
  else .ok (none, ts)

/-- What is assigned to, read with its tokens left as the parser reads it. -/
theorem targetReading_eq (s : String) (ts : List Lexeme) :
    Reading.targetOutcome s ts =
      targetReading s ts >>= fun p => .ok (p.1.map fun target => (target, p.2)) := by
  rw [targetReading]
  split
  · next h =>
    obtain ⟨l, hl⟩ := Reading.eq_cons_of_peek h
    rw [hl]
    rfl
  next hassign =>
  split
  · next h =>
    obtain ⟨l, hl⟩ := Reading.eq_cons_of_peek h
    rw [hl, Reading.targetOutcome_element, List.tail_cons]
    rcases outcome (Reading.climb 0 ts.tail) with r | a
    · rfl
    simp only [bind, Except.bind]
    rcases outcome (Reading.expect .rbracket a.2) with r | close
    · rfl
    dsimp only
    split <;> rfl
  · next hindex => exact Reading.targetOutcome_none hassign hindex

/-- Reading what is assigned to gives no tokens back. -/
theorem length_le_of_targetReading {s : String} {target : Option Reading.Target}
    {us : List Lexeme} (h : targetReading s ts = .ok (target, us)) : us.length ≤ ts.length := by
  have htail (ts : List Lexeme) : ts.tail.length ≤ ts.length := (List.tail_sublist ts).length_le
  rw [targetReading] at h
  split at h
  · cases h
    exact htail ts
  split at h
  · obtain ⟨a, ha, h⟩ := Reading.bind_eq_ok h
    obtain ⟨close, hclose, h⟩ := Reading.bind_eq_ok h
    have hlt := ((length_lt_of_outcome hclose).trans (length_lt_of_outcome ha)).le.trans (htail ts)
    split at h
    · cases h
      exact (htail _).trans hlt
    · cases h
      exact hlt
  · cases h
    exact le_rfl

/-- What is assigned to follows its reading. -/
theorem target_follows (s : String) (h : Made tokens stop call count limit)
    (hts : ts.length ≤ count) :
    Follows tokens stop (target tokens call s) ts loops loops (targetReading s ts) := by
  rw [targetReading]
  refine .eat (fun l us hus => ?_) fun _ => .eat (fun l us hus => ?_) fun _ => .pure none ts
  · rw [hus]
    exact .pure _ us
  · have hlt := (length_lt_of_eq_cons hus).trans_le hts
    rw [hus]
    refine (h.expr hlt).bind fun a vs _ => (Follows.expect .rbracket vs).bind fun _ ws _ => ?_
    refine .eat (fun l xs hxs => ?_) fun _ => .pure none ws
    dsimp only
    rw [hxs]
    exact .pure _ xs

/-- The statement may be read twice, but the second time only as an expression. -/
theorem nameStmt_follows (s : String) (l : Nat)
    (h : Made tokens stop call (ts.length + 1) Call.stmt.order) :
    Follows tokens stop (nameStmt tokens call s l) (⟨.ident s, l⟩ :: ts) loops loops
      (outcome (Reading.nameStmt s l ts)) := by
  rw [Reading.nameStmt_outcome, targetReading_eq, bind_assoc]
  refine .get fun c hc =>
    .advance ((target_follows s h (Nat.le_succ _)).bind fun target us htarget => ?_)
  cases target with
  | some target =>
    have hlt := Nat.lt_succ_of_le (length_le_of_targetReading htarget)
    exact (exprStmt_follows (h.expr hlt)).map (Reading.assignment l target)
  | none =>
    -- The same tokens are ahead again, but an expression comes before a statement in the order.
    have hagain : Follows tokens stop (call .expr) (⟨.ident s, l⟩ :: ts) loops loops _ :=
      h.before .expr loops le_rfl (by decide)
    exact .back hc ((exprStmt_follows hagain).map (Stmt.expr l))

/-- The result of a function follows its reading, whether there is one or none. -/
theorem result_follows (h : Made tokens stop call count limit) (hts : ts.length < count) :
    Follows tokens stop (result tokens call) ts loops loops (outcome (Reading.result ts)) := by
  rw [Reading.result_outcome]
  exact .check (fun hsemi => .taken hsemi (.pure none _)) fun _ =>
    (exprStmt_follows (h.expr hts)).map some

/-- A jump follows its reading: the parser knows from its counter of loops what the reading knows
    from its flag. -/
theorem jump_follows (keyword : Token) (l : Nat) (s : Stmt) (ts : List Lexeme) :
    Follows tokens stop (jump tokens keyword s) (⟨keyword, l⟩ :: ts) loops loops
      (outcome (Reading.jump (inLoop loops) keyword l s ts)) := by
  rw [Reading.jump_outcome]
  refine .get fun c hc => ?_
  rw [hc.loops]
  by_cases h : loops = 0
  · rw [if_pos h, if_neg (by simp [inLoop, h])]
    exact .refuse (.outsideLoop keyword)
  · rw [if_neg h, if_pos (by simp [inLoop, h])]
    exact .advance ((Follows.expect .semi ts).map fun _ => s)

/-! ### Statements -/

/-- A statement consumes a token. -/
theorem length_lt_of_stmtReading {inLoop : Bool} {s : Stmt} {us : List Lexeme}
    (h : stmtReading inLoop ts = .ok (s, us)) : us.length < ts.length := by
  rcases ts with _ | ⟨t, ts⟩
  · cases h
  · exact length_lt_of_outcome h

/-- What is done next is done in either case. -/
theorem ite_bind {α β : Type} {p : Prop} [Decidable p] (x y : Except Refusal α)
    (f : α → Except Refusal β) : (if p then x else y) >>= f = if p then x >>= f else y >>= f :=
  apply_ite (· >>= f) p x y

/-- The statements of a block by their first token: the brace that ends them, nothing, or one more.
    -/
theorem statements_ite (inLoop : Bool) (ts : List Lexeme) :
    outcome (Reading.statements inLoop ts) =
      if peek ts = some .rbrace then .ok ([], ts.tail)
      else if peek ts = none then .error (Reading.unexpected (.token .rbrace) ts)
      else stmtReading inLoop ts >>= fun s =>
        outcome (Reading.statements inLoop s.2) >>= fun more => .ok (s.1 :: more.1, more.2) := by
  rw [Reading.statements_ite]
  rcases ts with _ | ⟨t, ts⟩
  · rfl
  · have hnone : peek (t :: ts) ≠ none := nofun
    rw [if_neg hnone]
    rfl

/-- A block follows its reading. -/
theorem block_follows (h : Made tokens stop call ts.length limit) :
    Follows tokens stop (block tokens call) ts loops loops
      (outcome (Reading.block (inLoop loops) ts)) := by
  rw [block, Reading.block_outcome]
  exact (Follows.expect .lbrace ts).bind fun _ us hopen =>
    h.fewer .statements loops (length_lt_of_outcome hopen)

/-- The loop over the statements of a block follows its reading: each round consumes a statement. -/
theorem statements_follows (h : Made tokens stop call ts.length Call.statements.order) :
    Follows tokens stop (statements tokens call) ts loops loops
      (outcome (Reading.statements (inLoop loops) ts)) := by
  rw [statements, statements_ite]
  refine .eat (fun l us hus => ?_) fun _ => ?_
  · rw [hus]
    exact .pure [] us
  refine .check (fun _ => .unexpected _) fun _ => ?_
  refine (h.before .stmt loops le_rfl (by decide)).bind fun s us hs => ?_
  exact (h.fewer .statements loops (length_lt_of_stmtReading hs)).map (s :: ·)

/-- The body of a loop follows the reading inside of a loop, and the counter is as before after it.
    -/
theorem loopBody_follows (h : Made tokens stop call count limit) (hts : ts.length < count) :
    Follows tokens stop (loopBody call) ts loops loops (outcome (Reading.block true ts)) := by
  rw [loopBody]
  rw [← bind_pure (outcome (Reading.block true ts))]
  exact .countLoops ((h.fewer .block (loops + 1) hts).bind fun body us _ =>
    .countLoops (.pure body us))

/-- A statement follows its reading, by its first token. -/
theorem stmt_follows (h : Made tokens stop call ts.length Call.stmt.order) :
    Follows tokens stop (stmt tokens call) ts loops loops (stmtReading (inLoop loops) ts) := by
  have hexpr : Follows tokens stop (exprStmt tokens call) ts loops loops _ :=
    exprStmt_follows (h.before .expr loops le_rfl (by decide))
  rw [stmt]
  refine .line (.current ?_)
  rcases ts with _ | ⟨⟨t, l⟩, us⟩
  · have hnil : stmtReading (inLoop loops) [] =
        outcome (Reading.exprStmt []) >>= fun e => .ok (Stmt.expr 0 e.1, e.2) := by
      rw [Reading.exprStmt_outcome, Reading.climb_outcome, operand_ite, if_neg nofun,
        primaryReading_nil]
      rfl
    rw [hnil]
    exact hexpr.map (Stmt.expr 0)
  have hus : us.length < (⟨t, l⟩ :: us : List Lexeme).length := Nat.lt_succ_self _
  rw [stmtReading]
  -- Whatever begins no other statement is an expression, and no token of these is looked at.
  by_cases ht : Reading.isStatementStart t = false
  · rw [Reading.stmt_expr_outcome ht]
    have hstmt := hexpr.map (Stmt.expr l)
    cases t <;> first | exact hstmt | cases ht
  cases t with
  | semi =>
    rw [Reading.stmt_empty]
    exact .advance (.pure _ us)
  | ifKw =>
    rw [Reading.stmt_if_outcome]
    refine .advance ((condition_follows h hus.le).bind fun e vs he => ?_)
    exact (h.block ((length_lt_of_outcome he).trans hus)).map (Stmt.ifThen l e)
  | elseKw =>
    rw [Reading.stmt_else_outcome]
    refine .advance (.eat (fun l' vs hvs => ?_) fun _ => (h.block hus).map (Stmt.elseThen l))
    have hvs' := (length_lt_of_eq_cons hvs).trans hus
    rw [hvs]
    refine (condition_follows h hvs'.le).bind fun e ws he => ?_
    exact (h.block ((length_lt_of_outcome he).trans hvs')).map (Stmt.elseIf l e)
  | whileKw =>
    rw [Reading.stmt_while_outcome]
    refine .advance ((condition_follows h hus.le).bind fun e vs he => ?_)
    exact (loopBody_follows h ((length_lt_of_outcome he).trans hus)).map (Stmt.whileLoop l e)
  | forKw =>
    rw [Reading.stmt_for_outcome]
    exact .advance (h.fewer (.forLoop l) loops hus)
  | returnKw =>
    rw [Reading.stmt_return_outcome]
    exact .advance ((result_follows h hus).map (Stmt.ret l))
  | breakKw =>
    rw [Reading.stmt_break_outcome]
    exact jump_follows .breakKw l _ us
  | continueKw =>
    rw [Reading.stmt_continue_outcome]
    exact jump_follows .continueKw l _ us
  | ident s =>
    rw [Reading.stmt_name]
    exact nameStmt_follows s l h
  | _ => exact absurd rfl ht

/-- A loop over a range or an array follows its reading. -/
theorem forLoop_follows (line : Nat) (h : Made tokens stop call ts.length limit) :
    Follows tokens stop (forLoop tokens call line) ts loops loops (forReading line ts) := by
  rw [forLoop, forReading, Reading.header_outcome]
  simp only [bind_assoc, ite_bind, pure_bind]
  refine (Follows.expect .lparen ts).bind fun _ us hopen => ?_
  have hlt₁ := length_lt_of_outcome hopen
  refine (Follows.name .loopVariable us).bind fun first us hfirst => ?_
  have hlt₂ := (length_lt_of_outcome hfirst).trans hlt₁
  refine .eat (fun l vs hvs => ?_) fun _ => ?_
  · have hlt₃ := (length_lt_of_eq_cons hvs).trans hlt₂
    dsimp only
    rw [hvs, List.tail_cons]
    refine (Follows.name .valueVariable vs).bind fun value ws hvalue => ?_
    have hlt₄ := (length_lt_of_outcome hvalue).trans hlt₃
    refine (Follows.expect .inKw ws).bind fun _ ws hin => ?_
    have hlt₅ := (length_lt_of_outcome hin).trans hlt₄
    refine (h.expr hlt₅).bind fun array ws harray => ?_
    have hlt₆ := (length_lt_of_outcome harray).trans hlt₅
    refine (Follows.expect .rparen ws).bind fun _ ws hclose => ?_
    have hlt₇ := (length_lt_of_outcome hclose).trans hlt₆
    exact (loopBody_follows h hlt₇).map (Stmt.forEach line first value array)
  · refine (Follows.expect .inKw us).bind fun _ ws hin => ?_
    have hlt₃ := (length_lt_of_outcome hin).trans hlt₂
    refine (h.expr hlt₃).bind fun start ws hstart => ?_
    have hlt₄ := (length_lt_of_outcome hstart).trans hlt₃
    refine (Follows.expect .dotDot ws).bind fun _ ws hdots => ?_
    have hlt₅ := (length_lt_of_outcome hdots).trans hlt₄
    refine (h.expr hlt₅).bind fun stop ws hstop => ?_
    have hlt₆ := (length_lt_of_outcome hstop).trans hlt₅
    refine (Follows.expect .rparen ws).bind fun _ ws hclose => ?_
    have hlt₇ := (length_lt_of_outcome hclose).trans hlt₆
    exact (loopBody_follows h hlt₇).map (Stmt.forRange line first start stop)

/-! ### Functions and programs -/

/-- The loop over parameters follows its reading: each round consumes a comma. -/
theorem moreParams_follows (h : Made tokens stop call ts.length limit) :
    Follows tokens stop (moreParams tokens call) ts loops loops
      (outcome (Reading.moreParams ts)) := by
  rw [moreParams, Reading.moreParams_outcome]
  refine (Follows.name .parameterName ts).bind fun first us hfirst => ?_
  refine .eat (fun l vs hvs => ?_) fun _ => (Follows.expect .rparen us).map fun _ => [first]
  have hlt := (length_lt_of_eq_cons hvs).trans (length_lt_of_outcome hfirst)
  dsimp only
  rw [hvs]
  exact (h.fewer .moreParams loops hlt).map (first :: ·)

/-- A parameter list follows its reading. -/
theorem params_follows (h : Made tokens stop call count limit) (hts : ts.length < count) :
    Follows tokens stop (params tokens call) ts loops loops (outcome (Reading.params ts)) := by
  rw [Reading.params_ite]
  exact .check (fun hclose => .taken hclose (.pure [] _)) fun _ => h.fewer .moreParams loops hts

/-- A function follows its reading. It starts outside of any loop. -/
theorem func_follows (h : Made tokens stop call ts.length limit) :
    Follows tokens stop (func tokens call) ts loops 0 (Reading.funcOutcome ts) := by
  rcases ts with _ | ⟨t, ts⟩
  · exact .line ((Follows.expect .func []).bind (f := fun _ => Reading.funcOutcome [])
      fun _ _ hnil => by cases hnil)
  rw [Reading.funcOutcome, Reading.func_outcome]
  refine .line ((Follows.expect .func (t :: ts)).bind fun _ us hfunc => ?_)
  have hlt₁ := length_lt_of_outcome hfunc
  refine (Follows.name .functionName us).bind fun fname us hname => ?_
  have hlt₂ := (length_lt_of_outcome hname).trans hlt₁
  refine (Follows.expect .lparen us).bind fun _ us hopen => ?_
  have hlt₃ := (length_lt_of_outcome hopen).trans hlt₂
  refine (params_follows h hlt₃).bind fun args us hargs => ?_
  have hlt₄ := (length_lt_of_outcome hargs).trans hlt₃
  exact .countLoops ((h.fewer .block 0 hlt₄).map fun body => Func.mk fname args body t.line)

/-- A function consumes a token. -/
theorem length_lt_of_funcOutcome {f : Func} {us : List Lexeme}
    (h : Reading.funcOutcome ts = .ok (f, us)) : us.length < ts.length := by
  rcases ts with _ | ⟨t, ts⟩
  · cases h
  · exact length_lt_of_outcome h

/-- The loop over functions follows its reading: each round consumes a function. -/
theorem funcs_follows (h : Made tokens stop call ts.length Call.funcs.order) :
    Follows tokens stop (funcs tokens call) ts loops (Call.funcs.loopsAfter loops ts)
      (funcsReading ts) := by
  rw [funcs, funcsReading_ite]
  rcases ts with _ | ⟨t, ts⟩
  · exact .check (fun _ => .pure [] []) fun hne => absurd rfl hne
  refine .check (fun hnone => by cases hnone) fun _ => ?_
  refine (h.before .func loops le_rfl (by decide)).bind fun f us hf => ?_
  have hmore := h.fewer .funcs 0 (length_lt_of_funcOutcome hf)
  simp only [Call.loopsAfter, ite_self] at hmore
  exact hmore.map (f :: ·)

/-! ### Calls up to a depth -/

/-- A call follows what is read, if those in it do. -/
theorem body_follows (c : Call α) (h : Made tokens stop call ts.length c.order) :
    Follows tokens stop (body tokens call c) ts loops (c.loopsAfter loops ts)
      (c.reading loops ts) := by
  cases c with
  | expr => exact h.before (.binary 0) loops le_rfl (by decide)
  | binary level => exact binary_follows level h
  | operators level lhs => exact operators_follows level lhs h
  | unary => exact unary_follows h
  | primary => exact primary_follows h
  | moreArguments => exact moreArguments_follows h
  | block => exact block_follows h
  | statements => exact statements_follows h
  | stmt => exact stmt_follows h
  | forLoop line => exact forLoop_follows line h
  | moreParams => exact moreParams_follows h
  | func => exact func_follows h
  | funcs => exact funcs_follows h

/-- A depth of twelve for each token and one for the order is enough. -/
theorem make_follows {depth : Nat} (c : Call α)
    (hdepth : 12 * ts.length + c.order < depth) :
    Follows tokens stop (make tokens depth c) ts loops (c.loopsAfter loops ts)
      (c.reading loops ts) := by
  -- The calls in a call are one less deep, and their tokens or their places in the order are fewer.
  induction depth generalizing α ts loops with
  | zero => exact absurd hdepth (Nat.not_lt_zero _)
  | succ depth ih =>
    refine body_follows c
      ⟨fun α c' us loops' hlt => ih c' ?_, fun α c' us loops' hle hlt => ih c' ?_⟩
    · have := c'.order_lt
      omega
    · omega

/-! ### Progress -/

/-- So deep are the calls from the cursor on at most. -/
def deepest (tokens : List Lexeme) (cur : Cursor) : Nat :=
  12 * ((tokens.drop cur.pos).length + 1)

/-- The call ends from the cursor `cur`, and whatever depth is left does not matter. It makes what a
    reading makes of the tokens from there on, and if this is a tree, the walk has taken tokens and
    is in so many loops. -/
inductive Advances (tokens : List Lexeme) (c : Call α) (cur : Cursor) (left loops : Nat)
    (r : Except Refusal (α × List Lexeme)) : Prop
  | refused {e : Refusal} : (make tokens (deepest tokens cur + left) c).run cur = some (.error e) →
      r = .error e → Advances tokens c cur left loops r
  | read {a : α} {cur' : Cursor} :
      (make tokens (deepest tokens cur + left) c).run cur = some (.ok (a, cur')) →
      r = .ok (a, tokens.drop cur'.pos) → cur.pos < cur'.pos → cur'.pos ≤ tokens.length →
      cur'.loops = loops → Advances tokens c cur left loops r

/-- A cursor stands before the tokens that its position leaves. -/
theorem stands (tokens : List Lexeme) (c : Cursor) :
    Stands tokens (c.pos + (tokens.drop c.pos).length) c (tokens.drop c.pos) c.loops :=
  ⟨rfl, rfl, rfl⟩

variable (tokens) in
/-- A call that is made with enough depth comes to its reading. -/
theorem make_comes (c : Call α) (cur : Cursor) (left : Nat) :
    Comes tokens (cur.pos + (tokens.drop cur.pos).length)
      (make tokens (deepest tokens cur + left) c) cur (c.loopsAfter cur.loops (tokens.drop cur.pos))
      (c.reading cur.loops (tokens.drop cur.pos)) := by
  refine make_follows c ?_ cur (stands tokens cur)
  have := c.order_lt
  rw [deepest]
  omega

/-- A call makes progress if its reading takes tokens. -/
theorem Advances.of_reading (c : Call α) (cur : Cursor) (left : Nat)
    (h : ∀ a us, c.reading cur.loops (tokens.drop cur.pos) = .ok (a, us) →
      us.length < (tokens.drop cur.pos).length) :
    Advances tokens c cur left (c.loopsAfter cur.loops (tokens.drop cur.pos))
      (c.reading cur.loops (tokens.drop cur.pos)) := by
  have hcomes := make_comes tokens c cur left
  generalize c.reading cur.loops (tokens.drop cur.pos) = r at hcomes h ⊢
  cases hcomes with
  | refused he => exact .refused he rfl
  | @read a rest cur' ha hs =>
    have hlt := h a rest rfl
    have hstop := hs.stop
    rw [List.length_drop] at hlt hstop
    refine .read ha (by rw [hs.ahead]) ?_ ?_ hs.loops <;> omega

/-- A primary expression consumes a token. -/
theorem length_lt_of_primaryReading {e : Expr} {us : List Lexeme}
    (h : primaryReading ts = .ok (e, us)) : us.length < ts.length := by
  rw [primaryReading] at h
  split at h
  · cases h
  · exact length_lt_of_outcome h

/-- A loop consumes a token. -/
theorem length_lt_of_forReading {line : Nat} {s : Stmt} {us : List Lexeme}
    (h : forReading line ts = .ok (s, us)) : us.length < ts.length := by
  obtain ⟨range, hrange, h⟩ := Reading.bind_eq_ok h
  obtain ⟨body, hbody, h⟩ := Reading.bind_eq_ok h
  cases h
  exact (length_lt_of_outcome hbody).trans (length_lt_of_outcome hrange)

/-- The walk over a whole list of tokens ends, with the program that the list makes or with its
    refusal. If there is a program, it has come to the end of the list. -/
theorem funcs_ends (tokens : List Lexeme) (left : Nat) :
    (∃ r, (make tokens (deepest tokens ⟨0, 0⟩ + left) .funcs).run ⟨0, 0⟩ = some (.error r) ∧
        Program.ofTokens tokens = .error r) ∨
      ∃ fs c, (make tokens (deepest tokens ⟨0, 0⟩ + left) .funcs).run ⟨0, 0⟩ = some (.ok (fs, c)) ∧
        Program.ofTokens tokens = .ok ⟨fs⟩ ∧ c.pos = tokens.length := by
  have hwalk := make_comes tokens .funcs ⟨0, 0⟩ left
  have hprogram : Program.ofTokens tokens = (funcsReading tokens).map fun p => ⟨p.1⟩ := by
    rw [Program.ofTokens, funcsReading]
    cases Reading.funcs tokens <;> rfl
  simp only [Call.reading, List.drop_zero] at hwalk
  generalize hr : funcsReading tokens = r at hwalk hprogram
  cases hwalk with
  | refused he => exact .inl ⟨_, he, hprogram⟩
  | @read fs rest c hfs hs =>
    -- Nothing is left, so the cursor is where the tokens stop.
    obtain ⟨_, -, hrest⟩ := Reading.bind_eq_ok hr
    obtain ⟨rfl, rfl⟩ := Prod.mk.inj (Except.ok.inj hrest)
    have hstop : c.pos = 0 + tokens.length := hs.stop
    exact .inr ⟨_, c, hfs, hprogram, hstop.trans (Nat.zero_add _)⟩

/-- Wherever the cursor is, each call ends, and where it makes a tree the walk has taken tokens, not
    more than there are, and is in as many loops as before, or in none behind a function. It makes
    what the reading makes that takes the tokens as a list. A walk over a whole program ends too,
    and has taken all tokens if it makes one. -/
theorem walks_advance (tokens : List Lexeme) : (∀ (cur : Cursor) (left : Nat),
      Advances tokens .func cur left 0 (Reading.funcOutcome (tokens.drop cur.pos)) ∧
      Advances tokens .block cur left cur.loops
        (outcome (Reading.block (inLoop cur.loops) (tokens.drop cur.pos))) ∧
      Advances tokens .stmt cur left cur.loops
        (stmtReading (inLoop cur.loops) (tokens.drop cur.pos)) ∧
      (∀ line, Advances tokens (.forLoop line) cur left cur.loops
        (forReading line (tokens.drop cur.pos))) ∧
      Advances tokens .expr cur left cur.loops (outcome (Reading.expr (tokens.drop cur.pos))) ∧
      (∀ level, Advances tokens (.binary level) cur left cur.loops
        (outcome (Reading.climb level (tokens.drop cur.pos)))) ∧
      Advances tokens .unary cur left cur.loops
        (outcome (Reading.operand (tokens.drop cur.pos))) ∧
      Advances tokens .primary cur left cur.loops (primaryReading (tokens.drop cur.pos))) ∧
    ∀ left, (∃ r,
        (make tokens (deepest tokens ⟨0, 0⟩ + left) .funcs).run ⟨0, 0⟩ = some (.error r) ∧
        Program.ofTokens tokens = .error r) ∨
      ∃ fs c, (make tokens (deepest tokens ⟨0, 0⟩ + left) .funcs).run ⟨0, 0⟩ = some (.ok (fs, c)) ∧
        Program.ofTokens tokens = .ok ⟨fs⟩ ∧ c.pos = tokens.length := by
  refine ⟨fun cur left => ⟨?_, ?_, ?_, fun line => ?_, ?_, fun level => ?_, ?_, ?_⟩,
    funcs_ends tokens⟩
  · exact .of_reading .func cur left fun _ _ => length_lt_of_funcOutcome
  · exact .of_reading .block cur left fun _ _ => length_lt_of_outcome
  · exact .of_reading .stmt cur left fun _ _ => length_lt_of_stmtReading
  · exact .of_reading (.forLoop line) cur left fun _ _ => length_lt_of_forReading
  · exact .of_reading .expr cur left fun _ _ => length_lt_of_outcome
  · exact .of_reading (.binary level) cur left fun _ _ => length_lt_of_outcome
  · exact .of_reading .unary cur left fun _ _ => length_lt_of_outcome
  · exact .of_reading .primary cur left fun _ _ => length_lt_of_primaryReading

end Walk

end PoolScript
