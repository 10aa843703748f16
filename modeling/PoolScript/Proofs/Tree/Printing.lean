import PoolScript.Number.Binary
import PoolScript.Proofs.Number.Sign
import PoolScript.Proofs.Tree.Grammar

/-!
# Trees as tokens

Every tree can be written down. An expression is put in parentheses only where it has to be:
as an operand of an operator that binds more tightly, as the right operand of one that binds
as tightly, and after a minus if it is binary. A negative literal is a minus and its magnitude.

* `Expr.tokens`, `Stmt.tokens`, `Func.tokens`, `Program.tokens`: the tokens of a tree;
* `Expr.Writable`, `Stmt.Writable`, `Program.Writable`: the trees that can be read back;
* `Expr.tokens_derives`: the grammar derives the tokens of an expression with its tree.
-/

namespace PoolScript

open Grammar

/-- The token of an operator. -/
def BinOp.token : BinOp → Token
  | lt => .lt
  | lte => .ltEq
  | gt => .gt
  | gte => .gtEq
  | eq => .eqEq
  | neq => .notEq
  | plus => .plus
  | minus => .minus
  | mul => .star
  | div => .slash
  | mod => .percent
  | and => .ampAmp
  | or => .pipePipe

theorem BinOp.mem_levels (op : BinOp) : (op.token, op) ∈ levels.getD op.level [] := by
  cases op <;> simp [levels, token, level]

/-- The tokens, in parentheses if `enclose`. -/
def enclosed (enclose : Bool) (ts : List Token) : List Token :=
  if enclose then .lparen :: (ts ++ [.rparen]) else ts

/-! ### Expressions -/

namespace Expr

/-- How tightly an expression binds: as its operator if it is binary, and more tightly than
    all operators if it is not. -/
def level : Expr → Nat
  | binary op _ _ => op.level
  | _ => levels.length

/-- Whether an expression is binary. -/
def isBinary : Expr → Bool
  | binary .. => true
  | _ => false

/-- Whether an expression is a number literal. -/
def isNumber : Expr → Bool
  | int _ | float _ => true
  | _ => false

mutual

/-- The tokens of an expression. -/
def tokens : Expr → List Token
  | int n =>
    if n < 0 then [.minus, .intLit n.toInt.natAbs] else [.intLit n.toInt.natAbs]
  | float x =>
    -- the sign is that of the bits, so that the negative zero has its minus
    if Number.Reading.signBit ≤ x.toBits.toNat then [.minus, .floatLit (-x)] else [.floatLit x]
  | str s => [.stringLit s]
  | var name => [.ident name]
  | index name e => .ident name :: .lbracket :: (e.tokens ++ [.rbracket])
  | call name args =>
    .ident name :: .lparen :: ([.comma].intercalate (phrases args) ++ [.rparen])
  | binary op a b =>
    enclosed (a.level < op.level) a.tokens ++
      op.token :: enclosed (b.level ≤ op.level) b.tokens
  | neg e => .minus :: enclosed e.isBinary e.tokens

/-- The tokens of each of the expressions. -/
def phrases : List Expr → List (List Token)
  | [] => []
  | e :: es => e.tokens :: phrases es

end

mutual

/-- No literal is a NaN, and no minus stands right over a number literal, which would be read
    as one literal. -/
def Writable : Expr → Prop
  | int _ | str _ | var _ => True
  | float x => x.isNaN = false
  | index _ e => e.Writable
  | call _ args => AllWritable args
  | binary _ a b => a.Writable ∧ b.Writable
  | neg e => e.isNumber = false ∧ e.Writable

/-- The same for each of the expressions. -/
def AllWritable : List Expr → Prop
  | [] => True
  | e :: es => e.Writable ∧ AllWritable es

end

/-- The symbol that derives an expression as it is written. -/
def symbol : Expr → Symbol
  | binary op _ _ => .binary op.level
  | _ => .unary

theorem derives_level {ts : List Token} {e : Expr} (h : Derives e.symbol ts e) :
    Derives (.binary e.level) ts e := by
  cases e with
  | binary => exact h
  | _ => exact h.unary

theorem derives_whole {ts : List Token} {e : Expr} (h : Derives e.symbol ts e) :
    Derives (.binary 0) ts e :=
  (derives_level h).looser (Nat.zero_le _)

/-- An expression in parentheses, if need be, as an operand. -/
theorem derives_enclosed {n : Nat} {enclose : Bool} {ts : List Token} {e : Expr}
    (hn : n ≤ levels.length) (hlevel : enclose = false → n ≤ e.level) (h : Derives e.symbol ts e) :
    Derives (.binary n) (enclosed enclose ts) e := by
  cases enclose with
  | true => exact (derives_whole h).parens.primary.unary.looser hn
  | false => exact (derives_level h).looser (hlevel rfl)

theorem derives_enclosed_unary {ts : List Token} {e : Expr} (h : Derives e.symbol ts e) :
    Derives .unary (enclosed e.isBinary ts) e := by
  cases e with
  | binary => exact (derives_whole h).parens.primary
  | _ => exact h

theorem tokens_int_derives (n : Int64) : Derives .unary (tokens (.int n)) (.int n) := by
  have hle := n.le_toInt
  have hlt := n.toInt_lt
  have hlimit : limit = 9223372036854775808 := rfl
  have hliteral (h : n.toInt.natAbs < limit) :
      Derives .unary [.intLit n.toInt.natAbs] (.int (.ofNat n.toInt.natAbs)) := .primary (.int h)
  rw [tokens]
  split
  · rename_i hn
    have hneg : n.toInt < 0 := Int64.lt_iff_toInt_lt.1 hn
    by_cases hmin : n.toInt = -2 ^ 63
    · obtain rfl : n = Int64.minValue := Int64.toInt_inj.1 (by rw [hmin]; decide)
      exact .least
    · have hn' : -Int64.ofNat n.toInt.natAbs = n := by
        rw [← Int64.toInt_inj, Int64.toInt_neg, Int64.toInt_ofNat_of_lt (by omega),
          Int.bmod_eq_of_le (by omega) (by omega)]
        omega
      have h := (hliteral (by omega)).minusInt
      rwa [hn'] at h
  · rename_i hn
    have hpos : ¬n.toInt < 0 := fun h => hn (Int64.lt_iff_toInt_lt.2 h)
    have hn' : Int64.ofNat n.toInt.natAbs = n := by
      rw [← Int64.toInt_inj, Int64.toInt_ofNat_of_lt (by omega)]
      omega
    have h := hliteral (by omega)
    rwa [hn'] at h

theorem tokens_float_derives (x : Float) : Derives .unary (tokens (.float x)) (.float x) := by
  rw [tokens]
  split
  · have h := (Derives.primary (.float (-x))).minusFloat
    rwa [float_neg_neg] at h
  · exact .primary (.float x)

mutual

/-- The grammar derives the tokens of an expression. -/
theorem tokens_derives : ∀ e : Expr, e.Writable → Derives e.symbol e.tokens e
  | .int n, _ => tokens_int_derives n
  | .float x, _ => tokens_float_derives x
  | .str s, _ => by
    rw [tokens]
    exact .primary (.str s)
  | .var name, _ => by
    rw [tokens]
    exact .primary (.var name)
  | .index name e, h => by
    rw [Writable] at h
    rw [tokens]
    exact .primary (derives_whole (tokens_derives e h)).index
  | .call name args, h => by
    rw [Writable] at h
    rw [tokens]
    obtain ⟨ps, hps, htokens, hargs⟩ := phrases_derive args h
    rw [← htokens]
    nth_rewrite 2 [← hargs]
    exact .primary (.call ps hps)
  | .binary op a b, h => by
    rw [Writable] at h
    rw [tokens]
    refine .binary op.mem_levels (derives_enclosed ?_ ?_ (tokens_derives a h.1))
      (derives_enclosed (level_lt op) ?_ (tokens_derives b h.2))
    · exact Nat.le_of_lt (level_lt op)
    · intro hloose
      exact Nat.le_of_not_lt (of_decide_eq_false hloose)
    · intro hloose
      exact Nat.lt_of_not_le (of_decide_eq_false hloose)
  | .neg e, h => by
    rw [Writable] at h
    rw [tokens]
    refine (derives_enclosed_unary (tokens_derives e h.2)).minus ?_ ?_
    · rintro n rfl
      exact absurd h.1 nofun
    · rintro x rfl
      exact absurd h.1 nofun

theorem phrases_derive : ∀ es : List Expr, AllWritable es → ∃ ps : List (List Token × Expr),
    (∀ p ∈ ps, Derives (.binary 0) p.1 p.2) ∧ ps.map (·.1) = phrases es ∧ ps.map (·.2) = es
  | [], _ => ⟨[], nofun, rfl, rfl⟩
  | e :: es, h => by
    rw [AllWritable] at h
    obtain ⟨ps, hps, htokens, htrees⟩ := phrases_derive es h.2
    refine ⟨(e.tokens, e) :: ps, ?_, ?_, ?_⟩
    · exact List.forall_mem_cons.2 ⟨derives_whole (tokens_derives e h.1), hps⟩
    · rw [List.map_cons, htokens, phrases]
    · rw [List.map_cons, htrees]

end

end Expr

/-! ### Statements -/

/-- The line of the first token. -/
def lineOf (ls : List Lexeme) : Nat :=
  ls.head?.elim 0 (·.line)

namespace Stmt

/-- The tokens of a statement up to its body, or all of them if it has none. -/
def heading : Stmt → List Token
  | empty _ => [.semi]
  | expr _ e => e.tokens ++ [.semi]
  | assign _ name value => .ident name :: .assign :: (value.tokens ++ [.semi])
  | assignElement _ name subscript value =>
    .ident name :: .lbracket :: (subscript.tokens ++
      .rbracket :: .assign :: (value.tokens ++ [.semi]))
  | ifThen _ cond _ => .ifKw :: .lparen :: (cond.tokens ++ [.rparen])
  | elseIf _ cond _ => .elseKw :: .ifKw :: .lparen :: (cond.tokens ++ [.rparen])
  | elseThen _ _ => [.elseKw]
  | whileLoop _ cond _ => .whileKw :: .lparen :: (cond.tokens ++ [.rparen])
  | forRange _ var first last _ =>
    .forKw :: .lparen :: .ident var :: .inKw :: (first.tokens ++
      .dotDot :: (last.tokens ++ [.rparen]))
  | forEach _ key value array _ =>
    .forKw :: .lparen :: .ident key :: .comma :: .ident value :: .inKw :: (array.tokens ++
      [.rparen])
  | ret _ none => [.returnKw, .semi]
  | ret _ (some e) => .returnKw :: (e.tokens ++ [.semi])
  | .break _ => [.breakKw, .semi]
  | .continue _ => [.continueKw, .semi]

mutual

/-- The tokens of a statement. -/
def tokens : Stmt → List Token
  | ifThen line cond body =>
    (ifThen line cond body).heading ++ .lbrace :: (tokensAll body ++ [.rbrace])
  | elseIf line cond body =>
    (elseIf line cond body).heading ++ .lbrace :: (tokensAll body ++ [.rbrace])
  | elseThen line body => (elseThen line body).heading ++ .lbrace :: (tokensAll body ++ [.rbrace])
  | whileLoop line cond body =>
    (whileLoop line cond body).heading ++ .lbrace :: (tokensAll body ++ [.rbrace])
  | forRange line var first last body =>
    (forRange line var first last body).heading ++ .lbrace :: (tokensAll body ++ [.rbrace])
  | forEach line key value array body =>
    (forEach line key value array body).heading ++ .lbrace :: (tokensAll body ++ [.rbrace])
  | s => s.heading

/-- The tokens of statements in a row. -/
def tokensAll : List Stmt → List Token
  | [] => []
  | s :: ss => s.tokens ++ tokensAll ss

end

mutual

/-- The expressions of a statement can be read back, and a `break` or `continue` is in a
    loop. -/
def Writable (inLoop : Bool) : Stmt → Prop
  | empty _ | ret _ none => True
  | expr _ e | ret _ (some e) => e.Writable
  | assign _ _ value => value.Writable
  | assignElement _ _ subscript value => subscript.Writable ∧ value.Writable
  | ifThen _ cond body | elseIf _ cond body => cond.Writable ∧ AllWritable inLoop body
  | elseThen _ body => AllWritable inLoop body
  | whileLoop _ cond body => cond.Writable ∧ AllWritable true body
  | forRange _ _ first last body => first.Writable ∧ last.Writable ∧ AllWritable true body
  | forEach _ _ _ array body => array.Writable ∧ AllWritable true body
  | .break _ | .continue _ => inLoop = true

/-- The same for each of the statements. -/
def AllWritable (inLoop : Bool) : List Stmt → Prop
  | [] => True
  | s :: ss => s.Writable inLoop ∧ AllWritable inLoop ss

end

mutual

/-- The statement whose tokens `ls` begins with: each statement in it is on the line of its
    first token. -/
def placed (ls : List Lexeme) : Stmt → Stmt
  | empty _ => empty (lineOf ls)
  | expr _ e => expr (lineOf ls) e
  | assign _ name value => assign (lineOf ls) name value
  | assignElement _ name subscript value => assignElement (lineOf ls) name subscript value
  | ifThen line cond body => ifThen (lineOf ls) cond
      (placedAll (ls.drop ((ifThen line cond body).heading.length + 1)) body)
  | elseIf line cond body => elseIf (lineOf ls) cond
      (placedAll (ls.drop ((elseIf line cond body).heading.length + 1)) body)
  | elseThen line body => elseThen (lineOf ls)
      (placedAll (ls.drop ((elseThen line body).heading.length + 1)) body)
  | whileLoop line cond body => whileLoop (lineOf ls) cond
      (placedAll (ls.drop ((whileLoop line cond body).heading.length + 1)) body)
  | forRange line var first last body => forRange (lineOf ls) var first last
      (placedAll (ls.drop ((forRange line var first last body).heading.length + 1)) body)
  | forEach line key value array body => forEach (lineOf ls) key value array
      (placedAll (ls.drop ((forEach line key value array body).heading.length + 1)) body)
  | ret _ value => ret (lineOf ls) value
  | .break _ => .break (lineOf ls)
  | .continue _ => .continue (lineOf ls)

/-- The same for statements in a row. -/
def placedAll (ls : List Lexeme) : List Stmt → List Stmt
  | [] => []
  | s :: ss => s.placed ls :: placedAll (ls.drop s.tokens.length) ss

end

end Stmt

/-! ### Functions and programs -/

namespace Func

/-- The tokens of a function up to its body. -/
def heading (f : Func) : List Token :=
  .func :: .ident f.name :: .lparen ::
    ([.comma].intercalate (f.params.map fun name => [.ident name]) ++ [.rparen])

/-- The tokens of a function. -/
def tokens (f : Func) : List Token :=
  f.heading ++ .lbrace :: (Stmt.tokensAll f.body ++ [.rbrace])

/-- The function whose tokens `ls` begins with, on the line of its first token, and so for
    each of its statements. -/
def placed (ls : List Lexeme) (f : Func) : Func :=
  { f with
    body := Stmt.placedAll (ls.drop (f.heading.length + 1)) f.body
    line := lineOf ls }

/-- The same for functions in a row. -/
def placedAll (ls : List Lexeme) : List Func → List Func
  | [] => []
  | f :: fs => f.placed ls :: placedAll (ls.drop f.tokens.length) fs

end Func

namespace Program

/-- The tokens of a program. -/
def tokens (p : Program) : List Token :=
  p.funcs.flatMap Func.tokens

/-- The expressions of a program can be read back, and each `break` and `continue` is in a
    loop. -/
def Writable (p : Program) : Prop :=
  ∀ f ∈ p.funcs, Stmt.AllWritable false f.body

/-- The program whose tokens are those of `ls`, with each function and each statement on the
    line of its first token. -/
def placed (ls : List Lexeme) (p : Program) : Program :=
  ⟨Func.placedAll ls p.funcs⟩

end Program

end PoolScript
