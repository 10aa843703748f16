import PoolScript.Number.Shortest
import PoolScript.Text.Quoted

/-!
# Tokens

The words of the script language: keywords, literals, names and punctuation. A token
can be shown the way it is spelled in a script (`Token.text`), as in the messages of
the parser, or by its name and payload (`Token.describe`), as in a listing of tokens.
-/

namespace PoolScript

/-- A word of the language. An integer literal carries its size only; a sign in front of
    it is a token of its own. -/
inductive Token where
  -- keywords
  | func | ifKw | elseKw | whileKw | forKw | inKw | returnKw | breakKw | continueKw
  | trueKw | falseKw
  -- literals and names
  | floatLit (x : Float)
  | intLit (n : Nat)
  | stringLit (s : String)
  | ident (name : String)
  -- punctuation
  | dotDot | comma | semi | lparen | rparen | lbrace | rbrace | lbracket | rbracket | assign
  -- operators
  | plus | minus | star | slash | percent
  | eqEq | notEq | ltEq | gtEq | lt | gt | ampAmp | pipePipe
deriving DecidableEq

namespace Token

/-- A float in a message: no exponent, and no point if it is whole. -/
def plainFloat : Number.Layout where
  tie := .away
  positional _ := true
  point := false
  plus := false

/-- A float in a listing: with an exponent below `1e-4` and from `1e16` on, and always
    with a point or an exponent. -/
def listedFloat : Number.Layout where
  tie := .away
  positional k := -4 ≤ k && k < 16
  point := true
  plus := false

/-- The spelling of a token. -/
def text : Token → String
  | func => "func"
  | ifKw => "if"
  | elseKw => "else"
  | whileKw => "while"
  | forKw => "for"
  | inKw => "in"
  | returnKw => "return"
  | breakKw => "break"
  | continueKw => "continue"
  | trueKw => "true"
  | falseKw => "false"
  | floatLit x => plainFloat.render x
  | intLit n => n.repr
  | stringLit s => Text.quoted s
  | ident name => name
  | dotDot => ".."
  | comma => ","
  | semi => ";"
  | lparen => "("
  | rparen => ")"
  | lbrace => "\x7b"
  | rbrace => "\x7d"
  | lbracket => "["
  | rbracket => "]"
  | assign => "="
  | plus => "+"
  | minus => "-"
  | star => "*"
  | slash => "/"
  | percent => "%"
  | eqEq => "=="
  | notEq => "!="
  | ltEq => "<="
  | gtEq => ">="
  | lt => "<"
  | gt => ">"
  | ampAmp => "&&"
  | pipePipe => "||"

/-- The name of a token's kind. -/
def kind : Token → String
  | func => "Func"
  | ifKw => "If"
  | elseKw => "Else"
  | whileKw => "While"
  | forKw => "For"
  | inKw => "In"
  | returnKw => "Return"
  | breakKw => "Break"
  | continueKw => "Continue"
  | trueKw => "True"
  | falseKw => "False"
  | floatLit _ => "FloatLit"
  | intLit _ => "IntLit"
  | stringLit _ => "StringLit"
  | ident _ => "Ident"
  | dotDot => "DotDot"
  | comma => "Comma"
  | semi => "Semi"
  | lparen => "LParen"
  | rparen => "RParen"
  | lbrace => "LBrace"
  | rbrace => "RBrace"
  | lbracket => "LBracket"
  | rbracket => "RBracket"
  | assign => "Eq"
  | plus => "Plus"
  | minus => "Minus"
  | star => "Star"
  | slash => "Slash"
  | percent => "Percent"
  | eqEq => "EqEq"
  | notEq => "NotEq"
  | ltEq => "LtEq"
  | gtEq => "GtEq"
  | lt => "Lt"
  | gt => "Gt"
  | ampAmp => "AmpAmp"
  | pipePipe => "PipePipe"

/-- The kind of a token, with its payload if it has one. -/
def describe (t : Token) : String :=
  match t with
  | floatLit x => t.kind ++ "(" ++ listedFloat.render x ++ ")"
  | intLit n => t.kind ++ "(" ++ n.repr ++ ")"
  | stringLit s => t.kind ++ "(" ++ Text.quoted s ++ ")"
  | ident name => t.kind ++ "(" ++ Text.quoted name ++ ")"
  | _ => t.kind

/-- The keywords. -/
def keywords : List Token :=
  [func, ifKw, elseKw, whileKw, forKw, inKw, returnKw, breakKw, continueKw, trueKw, falseKw]

/-- The token that a word spells: a keyword, or else a name. -/
def ofWord (word : String) : Token :=
  (keywords.find? (·.text == word)).getD (ident word)

end Token

end PoolScript
