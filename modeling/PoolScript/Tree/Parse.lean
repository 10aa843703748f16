import PoolScript.Token.Scan
import PoolScript.Tree

/-!
# From tokens to trees

The grammar, read off a list of tokens from left to right with one token in view: a
reading takes tokens from the front of the list, gives the tree they make together with
the tokens it left, or stops at the first token that cannot go on what was read. Every
reading takes at least one token, and its result says so (`Parsed.shorter`); this is what
the functions recurse on.

Binary operators are read by level. A reading from the level `min` up takes an operand
and then, as long as an operator of such a level follows, the operator and what binds
more tightly to the right of it (`climb`, `operators`).

* `Program.ofTokens`, `Expr.ofTokens`: the tree of a list of tokens;
* `Program.parse`, `Expr.parse`: the tree of a source text.
-/

namespace PoolScript

/-- A token with the line it is on. -/
structure Lexeme where
  token : Token
  line : Nat

/-- The end of a reading that failed: the cause, and how many tokens were left, the
    refused one included. -/
structure Refusal where
  fault : SyntaxFault
  left : Nat
deriving DecidableEq

/-- What a reading of `ts` has made of the tokens it took, and the tokens it left. -/
structure Parsed (α : Type) (ts : List Lexeme) where
  value : α
  rest : List Lexeme
  shorter : rest.length < ts.length

/-- The same for a reading that may take no token. -/
structure Trailing (α : Type) (ts : List Lexeme) where
  value : α
  rest : List Lexeme
  notLonger : rest.length ≤ ts.length

namespace Parsed

variable {α β : Type} {ts us : List Lexeme}

/-- A reading of what another one left, seen as a reading of the whole list. -/
def after (p : Parsed α us) (h : us.length < ts.length) (f : α → β) : Parsed β ts :=
  ⟨f p.value, p.rest, Nat.lt_trans p.shorter h⟩

end Parsed

namespace Reading

/-- The token in view. -/
def peek (ts : List Lexeme) : Option Token :=
  ts.head?.map (·.token)

/-- The refusal of the token in view. -/
def refuse (fault : SyntaxFault) (ts : List Lexeme) : Refusal :=
  ⟨fault, ts.length⟩

/-- The refusal of the token in view where something else is asked for. -/
def unexpected (what : Expected) (ts : List Lexeme) : Refusal :=
  refuse (.expected what (peek ts)) ts

/-- Takes the token `t`. -/
def expect (t : Token) (ts : List Lexeme) : Except Refusal (Parsed Unit ts) :=
  match ts with
  | u :: us =>
    if u.token = t then .ok ⟨(), us, by simp⟩ else .error (unexpected (.token t) (u :: us))
  | [] => .error (unexpected (.token t) [])

/-- Takes a name, asked for as `what`. -/
def name (what : Expected) (ts : List Lexeme) : Except Refusal (Parsed String ts) :=
  match ts with
  | ⟨.ident s, _⟩ :: rest => .ok ⟨s, rest, by simp⟩
  | _ => .error (unexpected what ts)

/-- The operator that a token spells. -/
def binaryOp? : Token → Option BinOp
  | .pipePipe => some .or
  | .ampAmp => some .and
  | .eqEq => some .eq
  | .notEq => some .neq
  | .lt => some .lt
  | .ltEq => some .lte
  | .gt => some .gt
  | .gtEq => some .gte
  | .plus => some .plus
  | .minus => some .minus
  | .star => some .mul
  | .slash => some .div
  | .percent => some .mod
  | _ => none

/-- The operator in view, if it is of the level `min` or above. -/
def operator? (min : Nat) (ts : List Lexeme) : Option BinOp :=
  ((peek ts).bind binaryOp?).filter (min ≤ ·.level)

/-- A minus before an operand. Before a literal it makes the negated literal. -/
def negated : Expr → Expr
  | .int n => .int (-n)
  | .float x => .float (-x)
  | e => .neg e

/-- The size of the least integer, which as a literal has its minus in front. -/
def leastMagnitude : Nat := UInt64.size / 2

/-! ### Expressions -/

mutual

/-- Reads an expression whose operators outside parentheses are of the level `min` or
    above. -/
def climb (min : Nat) (ts : List Lexeme) : Except Refusal (Parsed Expr ts) := do
  let a ← operand ts
  have := a.shorter
  let b ← operators min a.value a.rest
  have := b.notLonger
  return ⟨b.value, b.rest, by omega⟩
termination_by (ts.length, 1)

/-- Goes on from the expression `lhs` as long as operators of the level `min` or above
    follow. -/
def operators (min : Nat) (lhs : Expr) (ts : List Lexeme) : Except Refusal (Trailing Expr ts) :=
  match ts with
  | [] => return ⟨lhs, [], Nat.le_refl _⟩
  | t :: us =>
    match operator? min (t :: us) with
    | none => return ⟨lhs, t :: us, Nat.le_refl _⟩
    | some op => do
      let r ← climb (op.level + 1) us
      have := r.shorter
      let b ← operators min (.binary op lhs r.value) r.rest
      have := b.notLonger
      return ⟨b.value, b.rest, by simp only [List.length_cons]; omega⟩
termination_by (ts.length, 0)

/-- Reads an operand: a literal, a variable, an element, a call or an expression in
    parentheses, with any number of minuses before it. -/
def operand (ts : List Lexeme) : Except Refusal (Parsed Expr ts) :=
  match ts with
  | ⟨.minus, line⟩ :: us =>
    if peek us = some (.intLit leastMagnitude) then
      return ⟨.int Int64.minValue, us.drop 1,
        by simp only [List.length_drop, List.length_cons]; omega⟩
    else do
      let a ← operand us
      return a.after (by simp) negated
  | ⟨.intLit n, line⟩ :: us =>
    if n < leastMagnitude then return ⟨.int (.ofNat n), us, by simp⟩
    else .error (refuse .integerTooLarge (⟨.intLit n, line⟩ :: us))
  | ⟨.floatLit x, _⟩ :: us => return ⟨.float x, us, by simp⟩
  | ⟨.stringLit s, _⟩ :: us => return ⟨.str s, us, by simp⟩
  | ⟨.trueKw, _⟩ :: us => return ⟨.int 1, us, by simp⟩
  | ⟨.falseKw, _⟩ :: us => return ⟨.int 0, us, by simp⟩
  | ⟨.lparen, _⟩ :: us => do
    let a ← climb 0 us
    let close ← expect .rparen a.rest
    return close.after (Nat.lt_succ_of_lt a.shorter) fun _ => a.value
  | ⟨.ident s, _⟩ :: ⟨.lparen, _⟩ :: us => do
    let args ← arguments us
    return args.after (by simp only [List.length_cons]; omega) (.call s)
  | ⟨.ident s, _⟩ :: ⟨.lbracket, _⟩ :: us => do
    let a ← climb 0 us
    have := a.shorter
    let close ← expect .rbracket a.rest
    return close.after (by simp only [List.length_cons]; omega) fun _ => .index s a.value
  | ⟨.ident s, _⟩ :: us => return ⟨.var s, us, by simp⟩
  | ts => .error (unexpected .expression ts)
termination_by (ts.length, 0)

/-- Reads the arguments of a call and the closing parenthesis. -/
def arguments (ts : List Lexeme) : Except Refusal (Parsed (List Expr) ts) :=
  match ts with
  | ⟨.rparen, _⟩ :: us => return ⟨[], us, by simp⟩
  | ts => moreArguments ts
termination_by (ts.length, 3)

/-- Reads at least one argument of a call and the closing parenthesis. -/
def moreArguments (ts : List Lexeme) : Except Refusal (Parsed (List Expr) ts) := do
  let a ← climb 0 ts
  match h : a.rest with
  | ⟨.comma, _⟩ :: us =>
    have : us.length < ts.length := by have := a.shorter; simp [h] at this; omega
    let more ← moreArguments us
    return more.after this (a.value :: ·)
  | us => do
    let close ← expect .rparen us
    return close.after (h ▸ a.shorter) fun _ => [a.value]
termination_by (ts.length, 2)

end

/-- Reads an expression. -/
def expr (ts : List Lexeme) : Except Refusal (Parsed Expr ts) :=
  climb 0 ts

/-! ### Statements -/

/-- Reads a condition in parentheses. -/
def condition (ts : List Lexeme) : Except Refusal (Parsed Expr ts) := do
  let opening ← expect .lparen ts
  let cond ← expr opening.rest
  let close ← expect .rparen cond.rest
  return close.after (Nat.lt_trans cond.shorter opening.shorter) fun _ => cond.value

/-- Reads an expression and a semicolon. -/
def exprStmt (ts : List Lexeme) : Except Refusal (Parsed Expr ts) := do
  let a ← expr ts
  let close ← expect .semi a.rest
  return close.after a.shorter fun _ => a.value

/-- The target of an assignment. -/
inductive Target where
  | variable (name : String)
  | element (name : String) (subscript : Expr)

/-- Reads the target of an assignment and the equals sign, if the statement that begins
    with the name `s`, followed by `ts`, is an assignment. A statement that turns out to be
    none is read again from its beginning, as an expression. -/
def target? (s : String) (ts : List Lexeme) : Except Refusal (Option (Parsed Target ts)) :=
  match ts with
  | ⟨.assign, _⟩ :: us => return some ⟨.variable s, us, by simp⟩
  | ⟨.lbracket, _⟩ :: us => do
    let a ← expr us
    let close ← expect .rbracket a.rest
    match h : close.rest with
    | ⟨.assign, _⟩ :: vs =>
      return some ⟨.element s a.value, vs, by
        have := a.shorter; have := close.shorter; simp [h] at this ⊢; omega⟩
    | _ => return none
  | _ => return none

/-- The statement, on the given line, that gives `target` a value. -/
def assignment (line : Nat) : Target → Expr → Stmt
  | .variable s, value => .assign line s value
  | .element s subscript, value => .assignElement line s subscript value

/-- Reads a statement that begins with the name `s`: an assignment or an expression. -/
def nameStmt (s : String) (line : Nat) (ts : List Lexeme) :
    Except Refusal (Parsed Stmt (⟨.ident s, line⟩ :: ts)) := do
  match ← target? s ts with
  | some target =>
    let value ← exprStmt target.rest
    return value.after (Nat.lt_succ_of_lt target.shorter) (assignment line target.value)
  | none =>
    let e ← exprStmt (⟨.ident s, line⟩ :: ts)
    return ⟨.expr line e.value, e.rest, e.shorter⟩

/-- What a `for` loop runs over. -/
inductive Header where
  | range (var : String) (first last : Expr)
  | each (key value : String) (array : Expr)

/-- Reads what is in parentheses after `for`. -/
def header (ts : List Lexeme) : Except Refusal (Parsed Header ts) := do
  let opening ← expect .lparen ts
  let first ← name .loopVariable opening.rest
  have h₁ : first.rest.length < ts.length := Nat.lt_trans first.shorter opening.shorter
  match h : first.rest with
  | ⟨.comma, _⟩ :: us =>
    have h₂ : us.length < ts.length := by simp [h] at h₁; omega
    let value ← name .valueVariable us
    let word ← expect .inKw value.rest
    let array ← expr word.rest
    let close ← expect .rparen array.rest
    return close.after
      (by have := array.shorter; have := word.shorter; have := value.shorter; omega)
      fun _ => .each first.value value.value array.value
  | us =>
    let word ← expect .inKw us
    let start ← expr word.rest
    let dots ← expect .dotDot start.rest
    let stop ← expr dots.rest
    let close ← expect .rparen stop.rest
    return close.after
      (by
        have := stop.shorter; have := dots.shorter; have := start.shorter; have := word.shorter
        simp [h] at h₁; omega)
      fun _ => .range first.value start.value stop.value

/-- The loop, on the given line, that a header and a body make. -/
def loop (line : Nat) : Header → List Stmt → Stmt
  | .range var first last, body => .forRange line var first last body
  | .each key value array, body => .forEach line key value array body

/-- Reads what follows `return`: an expression if the semicolon does not come at once,
    and the semicolon. -/
def result (ts : List Lexeme) : Except Refusal (Parsed (Option Expr) ts) :=
  match ts with
  | ⟨.semi, _⟩ :: us => return ⟨none, us, by simp⟩
  | ts => do
    let e ← exprStmt ts
    return ⟨some e.value, e.rest, e.shorter⟩

/-- Reads a `break` or `continue`, the token `keyword` in front of `ts`, which has to be
    in a loop. -/
def jump (inLoop : Bool) (keyword : Token) (line : Nat) (stmt : Stmt) (ts : List Lexeme) :
    Except Refusal (Parsed Stmt (⟨keyword, line⟩ :: ts)) := do
  if inLoop then
    let close ← expect .semi ts
    return close.after (by simp) fun _ => stmt
  else .error (refuse (.outsideLoop keyword) (⟨keyword, line⟩ :: ts))

mutual

/-- Reads a list of statements in braces. -/
def block (inLoop : Bool) (ts : List Lexeme) : Except Refusal (Parsed (List Stmt) ts) := do
  let opening ← expect .lbrace ts
  have := opening.shorter
  let body ← statements inLoop opening.rest
  return body.after opening.shorter id
termination_by (ts.length, 0)

/-- Reads statements and the closing brace. -/
def statements (inLoop : Bool) (ts : List Lexeme) : Except Refusal (Parsed (List Stmt) ts) :=
  match ts with
  | [] => .error (unexpected (.token .rbrace) [])
  | ⟨.rbrace, _⟩ :: us => return ⟨[], us, by simp⟩
  | t :: us => do
    let s ← stmt inLoop t us
    have := s.shorter
    let more ← statements inLoop s.rest
    return more.after s.shorter (s.value :: ·)
termination_by (ts.length, 1)

/-- Reads a statement that begins with the token `t`. -/
def stmt (inLoop : Bool) (t : Lexeme) (ts : List Lexeme) :
    Except Refusal (Parsed Stmt (t :: ts)) :=
  match t with
  | ⟨.semi, line⟩ => return ⟨.empty line, ts, by simp⟩
  | ⟨.ifKw, line⟩ => do
    let cond ← condition ts
    have := cond.shorter
    let body ← block inLoop cond.rest
    return body.after (by simp only [List.length_cons]; omega) (.ifThen line cond.value)
  | ⟨.elseKw, line⟩ =>
    match ts with
    | ⟨.ifKw, _⟩ :: us => do
      let cond ← condition us
      have := cond.shorter
      let body ← block inLoop cond.rest
      return body.after (by simp only [List.length_cons]; omega) (.elseIf line cond.value)
    | ts => do
      let body ← block inLoop ts
      return body.after (by simp) (.elseThen line)
  | ⟨.whileKw, line⟩ => do
    let cond ← condition ts
    have := cond.shorter
    let body ← block true cond.rest
    return body.after (by simp only [List.length_cons]; omega) (.whileLoop line cond.value)
  | ⟨.forKw, line⟩ => do
    let range ← header ts
    have := range.shorter
    let body ← block true range.rest
    return body.after (by simp only [List.length_cons]; omega) (loop line range.value)
  | ⟨.returnKw, line⟩ => do
    let value ← result ts
    return value.after (by simp) (.ret line)
  | ⟨.breakKw, line⟩ => jump inLoop .breakKw line (.break line) ts
  | ⟨.continueKw, line⟩ => jump inLoop .continueKw line (.continue line) ts
  | ⟨.ident s, line⟩ => nameStmt s line ts
  | ⟨t, line⟩ => do
    let e ← exprStmt (⟨t, line⟩ :: ts)
    return ⟨.expr line e.value, e.rest, e.shorter⟩
termination_by (ts.length + 1, 0)

end

/-! ### Functions and programs -/

/-- Reads at least one parameter name and the closing parenthesis. -/
def moreParams (ts : List Lexeme) : Except Refusal (Parsed (List String) ts) := do
  let first ← name .parameterName ts
  match h : first.rest with
  | ⟨.comma, _⟩ :: us =>
    have : us.length < ts.length := by have := first.shorter; simp [h] at this; omega
    let more ← moreParams us
    return more.after this (first.value :: ·)
  | us =>
    let close ← expect .rparen us
    return close.after (h ▸ first.shorter) fun _ => [first.value]
termination_by ts.length

/-- Reads the parameter names of a function and the closing parenthesis. -/
def params (ts : List Lexeme) : Except Refusal (Parsed (List String) ts) :=
  match ts with
  | ⟨.rparen, _⟩ :: us => return ⟨[], us, by simp⟩
  | ts => moreParams ts

/-- Reads a function that begins with the token `t`. -/
def func (t : Lexeme) (ts : List Lexeme) : Except Refusal (Parsed Func (t :: ts)) := do
  let word ← expect .func (t :: ts)
  let fname ← name .functionName word.rest
  let opening ← expect .lparen fname.rest
  let args ← params opening.rest
  let body ← block false args.rest
  return body.after
    (by
      have := word.shorter; have := fname.shorter; have := opening.shorter; have := args.shorter
      omega)
    fun stmts => ⟨fname.value, args.value, stmts, t.line⟩

/-- Reads functions up to the end. -/
def funcs (ts : List Lexeme) : Except Refusal (List Func) :=
  match ts with
  | [] => return []
  | t :: us => do
    let f ← func t us
    have := f.shorter
    let more ← funcs f.rest
    return f.value :: more
termination_by ts.length
decreasing_by assumption

end Reading

/-- The program that all of `ts` makes. -/
def Program.ofTokens (ts : List Lexeme) : Except Refusal Program :=
  (Reading.funcs ts).map Program.mk

/-- The expression that all of `ts` makes. -/
def Expr.ofTokens (ts : List Lexeme) : Except Refusal Expr := do
  let e ← Reading.expr ts
  match e.rest with
  | [] => return e.value
  | t :: us => .error (Reading.refuse (.afterExpression t.token) (t :: us))

/-! ### Source texts -/

/-- The tree that `read` makes of the tokens of `source`. A refused token is shown by its
    span, the end of the tokens by the end of the text. -/
def readSource {α : Type} (read : List Lexeme → Except Refusal α) (source : String) :
    Except SourceError α := do
  let tokens ← Token.scan source
  let lines := Lines.ofText source
  match read (tokens.map fun (t, span) => ⟨t, lines.line span.start⟩) with
  | .ok tree => .ok tree
  | .error r =>
    let spans := tokens.map (·.2)
    let span := spans[tokens.length - r.left]?.getD ⟨lines.size, lines.size⟩
    .error (.locate lines (.grammar r.fault) span)

/-- The program that `source` writes. -/
def Program.parse (source : String) : Except SourceError Program :=
  readSource Program.ofTokens source

/-- The expression that `source` writes. -/
def Expr.parse (source : String) : Except SourceError Expr :=
  readSource Expr.ofTokens source

end PoolScript
