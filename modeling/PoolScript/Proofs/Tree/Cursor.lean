import PoolScript.Proofs.Tree.Equations

/-!
# Reading with a cursor

The readings take lists of tokens and give the tokens that they left. Here they are written in
another way, as walks over one list of tokens. A walk moves a *cursor*, which is a position in the
list and the number of loops that it is in. It stops with a refusal, or gives a tree.

Nothing says that a walk comes to an end. The procedures call each other as they please: six levels
of operators are entered without a move, and a statement that begins with a name moves back to its
beginning if it turns out to be no assignment. So what a call does (`body`) is written for any way
to make the calls in it, and calls are made up to a given depth (`make`). A walk in which they are
deeper comes to nothing (`none`), and so does one that does not end, whatever the depth is.

A walk *follows* a reading (`Follows`) if it ends wherever these tokens are ahead, with what the
reading makes of them and the cursor at the tokens that the reading leaves. Walks that are put
together follow the readings put together in the same way (`Follows.bind`, `Follows.check`,
`Follows.eat`), and to go back is to follow a reading from where the cursor was (`Follows.back`).
-/

namespace PoolScript

/-- A position in a list of tokens, and the number of loops around it. -/
structure Cursor where
  pos : Nat
  loops : Nat

/-- What moves a cursor and gives something, stops with a refusal, or does not end. -/
abbrev Walk :=
  StateT Cursor (ExceptT Refusal Option)

namespace Walk

open Reading (peek binaryOp? negated leastMagnitude Target assignment)

variable {α : Type} (tokens : List Lexeme)

/-! ### One token -/

/-- The tokens from the cursor on. -/
def ahead : Walk (List Lexeme) := do
  return tokens.drop (← get).pos

/-- The token at the cursor. -/
def current : Walk (Option Token) := do
  return peek (← ahead tokens)

/-- The line of the token at the cursor. -/
def line : Walk Nat := do
  return ((← ahead tokens).head?.map (·.line)).getD 0

/-- Moves to the next token. -/
def advance : Walk Unit :=
  modify fun c => { c with pos := c.pos + 1 }

/-- Changes the number of loops. -/
def countLoops (f : Nat → Nat) : Walk Unit :=
  modify fun c => { c with loops := f c.loops }

/-- Refuses the token at the cursor. -/
def refuse (fault : SyntaxFault) : Walk α := do
  throw (Reading.refuse fault (← ahead tokens))

/-- Refuses the token at the cursor where something else is asked for. -/
def unexpected (what : Expected) : Walk α := do
  throw (Reading.unexpected what (← ahead tokens))

/-- Takes the token `t` if it is at the cursor, and says whether it is. -/
def eat (t : Token) : Walk Bool := do
  if (← current tokens) = some t then
    advance
    return true
  else return false

/-- Takes the token `t`. -/
def expect (t : Token) : Walk Unit := do
  if ← eat tokens t then return ()
  else unexpected tokens (.token t)

/-- Takes a name, asked for as `what`. -/
def name (what : Expected) : Walk String := do
  match ← current tokens with
  | some (.ident s) =>
    advance
    return s
  | _ => unexpected tokens what

/-! ### Calls -/

/-- What is called in a walk: the procedures that call each other, and the rounds of loops. -/
inductive Call : Type → Type
  | expr : Call Expr
  | binary (level : Nat) : Call Expr
  | operators (level : Nat) (lhs : Expr) : Call Expr
  | unary : Call Expr
  | primary : Call Expr
  | moreArguments : Call (List Expr)
  | block : Call (List Stmt)
  | statements : Call (List Stmt)
  | stmt : Call Stmt
  | forLoop (line : Nat) : Call Stmt
  | moreParams : Call (List String)
  | func : Call Func
  | funcs : Call (List Func)

/-- A way to make calls. -/
abbrev Calls :=
  ⦃α : Type⦄ → Call α → Walk α

variable (call : Calls)

/-! ### Expressions -/

/-- Reads an expression whose operators outside parentheses are of the level `level` or above. -/
def binary (level : Nat) : Walk Expr := do
  if level < 6 then
    let lhs ← call (.binary (level + 1))
    call (.operators level lhs)
  else call .unary

/-- Goes on from the expression `lhs` as long as operators of the level `level` follow. -/
def operators (level : Nat) (lhs : Expr) : Walk Expr := do
  match ((← current tokens).bind binaryOp?).filter (·.level = level) with
  | some op =>
    advance
    let rhs ← call (.binary (level + 1))
    call (.operators level (.binary op lhs rhs))
  | none => return lhs

/-- Reads an operand with any number of minuses before it. -/
def unary : Walk Expr := do
  if ← eat tokens .minus then
    if (← current tokens) = some (.intLit leastMagnitude) then
      advance
      return .int Int64.minValue
    else
      let e ← call .unary
      return negated e
  else call .primary

/-- Reads expressions with commas between them and the closing parenthesis. -/
def moreArguments : Walk (List Expr) := do
  let e ← call .expr
  if ← eat tokens .comma then
    let more ← call .moreArguments
    return e :: more
  else
    expect tokens .rparen
    return [e]

/-- Reads the arguments of a call and the closing parenthesis. -/
def arguments : Walk (List Expr) := do
  if (← current tokens) = some .rparen then
    expect tokens .rparen
    return []
  else call .moreArguments

/-- Reads what follows the name `s`: the arguments of a call, a subscript, or nothing. -/
def afterName (s : String) : Walk Expr := do
  if ← eat tokens .lparen then
    let args ← arguments tokens call
    return .call s args
  else if ← eat tokens .lbracket then
    let sub ← call .expr
    expect tokens .rbracket
    return .index s sub
  else return .var s

/-- Reads an operand with no minus before it. -/
def primary : Walk Expr := do
  match ← current tokens with
  | some (.intLit n) =>
    if n < leastMagnitude then
      advance
      return .int (.ofNat n)
    else refuse tokens .integerTooLarge
  | some (.floatLit x) =>
    advance
    return .float x
  | some (.stringLit s) =>
    advance
    return .str s
  | some .trueKw =>
    advance
    return .int 1
  | some .falseKw =>
    advance
    return .int 0
  | some .lparen =>
    advance
    let e ← call .expr
    expect tokens .rparen
    return e
  | some (.ident s) =>
    advance
    afterName tokens call s
  | _ => unexpected tokens .expression

/-! ### Statements -/

/-- Reads a condition in parentheses. -/
def condition : Walk Expr := do
  expect tokens .lparen
  let e ← call .expr
  expect tokens .rparen
  return e

/-- Reads an expression and a semicolon. -/
def exprStmt : Walk Expr := do
  let e ← call .expr
  expect tokens .semi
  return e

/-- Reads the target of an assignment to the name `s` and the equals sign, if there is one. -/
def target (s : String) : Walk (Option Target) := do
  if ← eat tokens .assign then return some (.variable s)
  else if ← eat tokens .lbracket then
    let sub ← call .expr
    expect tokens .rbracket
    if ← eat tokens .assign then return some (.element s sub)
    else return none
  else return none

/-- Reads a statement that begins with the name `s`. If it is no assignment, it is read again from
    its beginning. -/
def nameStmt (s : String) (line : Nat) : Walk Stmt := do
  let start ← get
  advance
  match ← target tokens call s with
  | some target =>
    let value ← exprStmt tokens call
    return assignment line target value
  | none =>
    modify fun c => { c with pos := start.pos }
    let e ← exprStmt tokens call
    return .expr line e

/-- Reads what follows `return`. -/
def result : Walk (Option Expr) := do
  if (← current tokens) = some .semi then
    expect tokens .semi
    return none
  else
    let e ← exprStmt tokens call
    return some e

/-- Reads a `break` or `continue`, the token `keyword`, which has to be in a loop. -/
def jump (keyword : Token) (stmt : Stmt) : Walk Stmt := do
  if (← get).loops = 0 then refuse tokens (.outsideLoop keyword)
  else
    advance
    expect tokens .semi
    return stmt

/-- Reads a list of statements in braces. -/
def block : Walk (List Stmt) := do
  expect tokens .lbrace
  call .statements

/-- Reads statements and the closing brace. -/
def statements : Walk (List Stmt) := do
  if ← eat tokens .rbrace then return []
  else if (← current tokens) = none then unexpected tokens (.token .rbrace)
  else
    let s ← call .stmt
    let more ← call .statements
    return s :: more

/-- Reads a list of statements in braces that is in one more loop. -/
def loopBody : Walk (List Stmt) := do
  countLoops (· + 1)
  let body ← call .block
  countLoops (· - 1)
  return body

/-- Reads a statement. -/
def stmt : Walk Stmt := do
  let l ← line tokens
  match ← current tokens with
  | some .semi =>
    advance
    return .empty l
  | some .ifKw =>
    advance
    let e ← condition tokens call
    let body ← call .block
    return .ifThen l e body
  | some .elseKw =>
    advance
    if ← eat tokens .ifKw then
      let e ← condition tokens call
      let body ← call .block
      return .elseIf l e body
    else
      let body ← call .block
      return .elseThen l body
  | some .whileKw =>
    advance
    let e ← condition tokens call
    let body ← loopBody call
    return .whileLoop l e body
  | some .forKw =>
    advance
    call (.forLoop l)
  | some .returnKw =>
    advance
    let value ← result tokens call
    return .ret l value
  | some .breakKw => jump tokens .breakKw (.break l)
  | some .continueKw => jump tokens .continueKw (.continue l)
  | some (.ident s) => nameStmt tokens call s l
  | _ =>
    let e ← exprStmt tokens call
    return .expr l e

/-- Reads what follows `for`: what the loop on the given line runs over, and its body. -/
def forLoop (line : Nat) : Walk Stmt := do
  expect tokens .lparen
  let first ← name tokens .loopVariable
  if ← eat tokens .comma then
    let value ← name tokens .valueVariable
    expect tokens .inKw
    let array ← call .expr
    expect tokens .rparen
    let body ← loopBody call
    return .forEach line first value array body
  else
    expect tokens .inKw
    let start ← call .expr
    expect tokens .dotDot
    let stop ← call .expr
    expect tokens .rparen
    let body ← loopBody call
    return .forRange line first start stop body

/-! ### Functions and programs -/

/-- Reads names with commas between them and the closing parenthesis. -/
def moreParams : Walk (List String) := do
  let s ← name tokens .parameterName
  if ← eat tokens .comma then
    let more ← call .moreParams
    return s :: more
  else
    expect tokens .rparen
    return [s]

/-- Reads the parameter names of a function and the closing parenthesis. -/
def params : Walk (List String) := do
  if (← current tokens) = some .rparen then
    expect tokens .rparen
    return []
  else call .moreParams

/-- Reads a function, whose body is in no loop. -/
def func : Walk Func := do
  let l ← line tokens
  expect tokens .func
  let fname ← name tokens .functionName
  expect tokens .lparen
  let args ← params tokens call
  countLoops fun _ => 0
  let body ← call .block
  return ⟨fname, args, body, l⟩

/-- Reads functions up to the end. -/
def funcs : Walk (List Func) := do
  if (← current tokens) = none then return []
  else
    let f ← call .func
    let more ← call .funcs
    return f :: more

/-! ### Calls up to a depth -/

/-- What a call does. The calls in it are made by `call`. -/
def body : Calls
  | _, .expr => call (.binary 0)
  | _, .binary level => binary call level
  | _, .operators level lhs => operators tokens call level lhs
  | _, .unary => unary tokens call
  | _, .primary => primary tokens call
  | _, .moreArguments => moreArguments tokens call
  | _, .block => block tokens call
  | _, .statements => statements tokens call
  | _, .stmt => stmt tokens call
  | _, .forLoop line => forLoop tokens call line
  | _, .moreParams => moreParams tokens call
  | _, .func => func tokens call
  | _, .funcs => funcs tokens call

/-- Makes a call in which calls are less than `depth` deep. -/
def make : (depth : Nat) → Calls
  | 0 => fun _ _ _ => ExceptT.mk none
  | depth + 1 => body tokens (make depth)

/-! ### What walks come to -/

variable {β : Type} {tokens} {stop loops loops' loops'' : Nat} {ts us : List Lexeme} {t : Token}
  {c c' : Cursor} {w : Walk α}

/-- What comes of a walk from the cursor `c`. -/
def run (w : Walk α) (c : Cursor) : Option (Except Refusal (α × Cursor)) :=
  StateT.run w c

variable (tokens stop) in
/-- From the cursor on there are the tokens `ts`, which end at `stop`. -/
structure Stands (c : Cursor) (ts : List Lexeme) (loops : Nat) : Prop where
  ahead : tokens.drop c.pos = ts
  stop : c.pos + ts.length = stop
  loops : c.loops = loops

variable (tokens stop) in
/-- The walk ends with what a reading makes, and with the cursor at the tokens that this left. -/
inductive Comes (w : Walk α) (c : Cursor) (loops : Nat) :
    Except Refusal (α × List Lexeme) → Prop
  | refused {r : Refusal} : w.run c = some (.error r) → Comes w c loops (.error r)
  | read {a : α} {rest : List Lexeme} {c' : Cursor} : w.run c = some (.ok (a, c')) →
      Stands tokens stop c' rest loops → Comes w c loops (.ok (a, rest))

variable (tokens stop) in
/-- Wherever the tokens from the cursor on are `ts`, the walk comes to what a reading makes. -/
def Follows (w : Walk α) (ts : List Lexeme) (loops loops' : Nat)
    (r : Except Refusal (α × List Lexeme)) : Prop :=
  ∀ c, Stands tokens stop c ts loops → Comes tokens stop w c loops' r

theorem run_bind_error {k : α → Walk β} {r : Refusal} (h : w.run c = some (.error r)) :
    (w >>= k).run c = some (.error r) := by
  change (w.run c >>= fun r : Except Refusal (α × Cursor) =>
    ExceptT.bindCont (fun p => k p.1 p.2) r) = some (.error r)
  rw [h]
  rfl

theorem run_bind_ok {k : α → Walk β} {a : α} (h : w.run c = some (.ok (a, c'))) :
    (w >>= k).run c = (k a).run c' := by
  change (w.run c >>= fun r : Except Refusal (α × Cursor) =>
    ExceptT.bindCont (fun p => k p.1 p.2) r) = (k a).run c'
  rw [h]
  rfl

theorem expect_ite (t : Token) (ts : List Lexeme) :
    Parsed.outcome (Reading.expect t ts) =
      if peek ts = some t then .ok ((), ts.tail)
      else .error (Reading.unexpected (.token t) ts) := by
  rcases ts with _ | ⟨⟨u, l⟩, us⟩
  · rfl
  have hpeek : peek (⟨u, l⟩ :: us) = some u := rfl
  rw [Reading.expect, hpeek]
  by_cases hu : u = t
  · rw [if_pos hu, if_pos (congrArg some hu)]
    rfl
  · rw [if_neg hu, if_neg fun h => hu (Option.some.inj h)]
    rfl

theorem Stands.next {t : Lexeme} (hc : Stands tokens stop c (t :: ts) loops) :
    Stands tokens stop { c with pos := c.pos + 1 } ts loops := by
  refine ⟨?_, ?_, hc.loops⟩
  · rw [← List.drop_drop, hc.ahead, List.drop_one, List.tail_cons]
  · have := hc.stop
    rw [List.length_cons] at this
    dsimp only
    omega

variable (tokens) in
theorem run_eat (t : Token) (c : Cursor) : (eat tokens t).run c =
    some (.ok (if peek (tokens.drop c.pos) = some t then (true, { c with pos := c.pos + 1 })
      else (false, c))) := by
  have hrun : (eat tokens t).run c = Walk.run (if peek (tokens.drop c.pos) = some t then do
      advance
      return true else return false) c := rfl
  rw [hrun]
  split <;> rfl

/-- A walk that begins with a step which ends. -/
theorem Comes.of_bind {k : α → Walk β} {a : α} {r : Except Refusal (β × List Lexeme)}
    (h : w.run c = some (.ok (a, c'))) (hk : Comes tokens stop (k a) c' loops r) :
    Comes tokens stop (w >>= k) c loops r := by
  cases hk with
  | refused hr => exact .refused ((run_bind_ok h).trans hr)
  | read hr hs => exact .read ((run_bind_ok h).trans hr) hs

namespace Follows

variable {k : α → Walk β} {x z : Except Refusal (α × List Lexeme)}
  {y : Except Refusal (β × List Lexeme)} {f : α × List Lexeme → Except Refusal (β × List Lexeme)}

/-- Two walks in a row, the second from where the first one ends. -/
theorem bind (hw : Follows tokens stop w ts loops loops' x)
    (hk : ∀ a us, x = .ok (a, us) → Follows tokens stop (k a) us loops' loops'' (f (a, us))) :
    Follows tokens stop (w >>= k) ts loops loops'' (x >>= f) := by
  intro c hc
  cases hw c hc with
  | refused hr => exact .refused (run_bind_error hr)
  | read hr hs => exact .of_bind hr (hk _ _ rfl _ hs)

theorem pure (a : α) (ts : List Lexeme) :
    Follows tokens stop (Pure.pure a) ts loops loops (.ok (a, ts)) :=
  fun _ hc => .read rfl hc

/-- A walk whose tree is put into another one. -/
theorem map (g : α → β) (hw : Follows tokens stop w ts loops loops' x) :
    Follows tokens stop (w >>= fun a => Pure.pure (g a)) ts loops loops'
      (x >>= fun p => .ok (g p.1, p.2)) :=
  hw.bind fun a us _ => pure (g a) us

theorem get {k : Cursor → Walk α}
    (h : ∀ c, Stands tokens stop c ts loops → Follows tokens stop (k c) ts loops loops' x) :
    Follows tokens stop (MonadState.get >>= k) ts loops loops' x :=
  fun c hc => .of_bind rfl (h c hc c hc)

theorem ahead {k : List Lexeme → Walk α} (h : Follows tokens stop (k ts) ts loops loops' x) :
    Follows tokens stop (Walk.ahead tokens >>= k) ts loops loops' x := by
  intro c hc
  have hrun : (Walk.ahead tokens).run c = some (.ok (ts, c)) := hc.ahead ▸ rfl
  exact .of_bind hrun (h c hc)

theorem current {k : Option Token → Walk α}
    (h : Follows tokens stop (k (peek ts)) ts loops loops' x) :
    Follows tokens stop (Walk.current tokens >>= k) ts loops loops' x := by
  intro c hc
  have hrun : (Walk.current tokens).run c = some (.ok (peek ts, c)) := hc.ahead ▸ rfl
  exact .of_bind hrun (h c hc)

theorem line {k : Nat → Walk α}
    (h : Follows tokens stop (k ((ts.head?.map (·.line)).getD 0)) ts loops loops' x) :
    Follows tokens stop (Walk.line tokens >>= k) ts loops loops' x := by
  intro c hc
  have hrun : (Walk.line tokens).run c = some (.ok ((ts.head?.map (·.line)).getD 0, c)) :=
    hc.ahead ▸ rfl
  exact .of_bind hrun (h c hc)

theorem advance {k : Unit → Walk α} {t : Lexeme}
    (h : Follows tokens stop (k ()) ts loops loops' x) :
    Follows tokens stop (Walk.advance >>= k) (t :: ts) loops loops' x :=
  fun _ hc => .of_bind rfl (h _ hc.next)

theorem countLoops {g : Nat → Nat} {k : Unit → Walk α}
    (h : Follows tokens stop (k ()) ts (g loops) loops' x) :
    Follows tokens stop (Walk.countLoops g >>= k) ts loops loops' x :=
  fun _ hc => .of_bind rfl (h _ ⟨hc.ahead, hc.stop, congrArg g hc.loops⟩)

/-- Going back to where the cursor was. -/
theorem back {k : Unit → Walk α} (hc : Stands tokens stop c ts loops)
    (h : Follows tokens stop (k ()) ts loops loops' x) :
    Follows tokens stop ((modify fun d => { d with pos := c.pos }) >>= k) us loops loops' x :=
  fun _ hd => .of_bind rfl (h _ ⟨hc.ahead, hc.stop, hd.loops⟩)

theorem refuse (fault : SyntaxFault) :
    Follows tokens stop (Walk.refuse tokens fault : Walk α) ts loops loops'
      (.error (Reading.refuse fault ts)) :=
  ahead fun _ _ => .refused rfl

theorem unexpected (what : Expected) :
    Follows tokens stop (Walk.unexpected tokens what : Walk α) ts loops loops'
      (.error (Reading.unexpected what ts)) :=
  ahead fun _ _ => .refused rfl

/-- A walk that goes two ways, by the token at the cursor. -/
theorem check {u : Option Token} {w' : Walk α}
    (hx : peek ts = u → Follows tokens stop w ts loops loops' x)
    (hz : peek ts ≠ u → Follows tokens stop w' ts loops loops' z) :
    Follows tokens stop (Walk.current tokens >>= fun v => if v = u then w else w') ts
      loops loops' (if peek ts = u then x else z) := by
  refine current ?_
  split
  · next h => exact hx h
  · next h => exact hz h

/-- A walk that goes two ways, behind a token if it is at the cursor. -/
theorem eat {w' : Walk α}
    (hx : ∀ l us, ts = ⟨t, l⟩ :: us → Follows tokens stop w us loops loops' x)
    (hz : peek ts ≠ some t → Follows tokens stop w' ts loops loops' z) :
    Follows tokens stop (Walk.eat tokens t >>= fun b => if b then w else w') ts
      loops loops' (if peek ts = some t then x else z) := by
  intro c hc
  have hrun := run_eat tokens t c
  rw [hc.ahead] at hrun
  by_cases h : peek ts = some t
  · rw [if_pos h] at hrun ⊢
    obtain ⟨l, hl⟩ := Reading.eq_cons_of_peek h
    rw [hl] at hc
    exact .of_bind hrun (hx l _ hl _ hc.next)
  · rw [if_neg h] at hrun ⊢
    exact .of_bind hrun (hz h c hc)

theorem expect (t : Token) (ts : List Lexeme) : Follows tokens stop (Walk.expect tokens t) ts loops
    loops (Parsed.outcome (Reading.expect t ts)) := by
  rw [expect_ite]
  refine eat (fun l us hus => ?_) fun _ => unexpected _
  rw [hus]
  exact pure () us

/-- Taking a token that is at the cursor. -/
theorem taken {k : Unit → Walk α} (ht : peek ts = some t)
    (h : Follows tokens stop (k ()) ts.tail loops loops' x) :
    Follows tokens stop (Walk.expect tokens t >>= k) ts loops loops' x := by
  have htaken : Follows tokens stop (Walk.expect tokens t) ts loops loops _ := expect t ts
  rw [expect_ite, if_pos ht] at htaken
  refine htaken.bind (f := fun _ => x) fun _ us hus => ?_
  obtain ⟨-, rfl⟩ := Prod.mk.inj (Except.ok.inj hus)
  exact h

theorem name (what : Expected) (ts : List Lexeme) : Follows tokens stop (Walk.name tokens what) ts
    loops loops (Parsed.outcome (Reading.name what ts)) := by
  refine current ?_
  rcases ts with _ | ⟨⟨t, l⟩, us⟩
  · exact unexpected what
  · cases t with
    | ident s => exact advance (pure s us)
    | _ => exact unexpected what

end Follows

end Walk

end PoolScript
