import PoolScript.Source.Lines
import PoolScript.Token

/-!
# Errors in a source text

A source text is refused at one place for one cause: no token begins there, or the
tokens up to there cannot begin a program. The cause is kept as data and worded by one
function; the place is a span, with the line and column of its first byte.
-/

namespace PoolScript

/-- Why no token can be read. -/
inductive LexicalFault where
  /-- An integer literal of `2 ^ 64` or more, with its digits. -/
  | integerTooLarge (digits : String)
  /-- A string literal that does not end. -/
  | unterminatedString
  /-- A character that begins no token. -/
  | unexpected (c : Char)
deriving DecidableEq

namespace LexicalFault

/-- What is wrong, in words. -/
def message : LexicalFault → String
  | integerTooLarge digits => s!"integer literal out of range: {digits}"
  | unterminatedString => "unterminated string literal"
  | unexpected c => s!"unexpected character: {Text.quoted (String.singleton c)}"

end LexicalFault

/-- What the grammar asks for at some place. -/
inductive Expected where
  | token (t : Token)
  | functionName
  | parameterName
  | loopVariable
  | valueVariable
  | expression
deriving DecidableEq

namespace Expected

/-- What is asked for, in words. -/
def text : Expected → String
  | token t => s!"`{t.text}`"
  | functionName => "function name"
  | parameterName => "parameter name"
  | loopVariable => "loop variable"
  | valueVariable => "value variable"
  | expression => "expression"

end Expected

/-- Why the tokens of a text do not make a program or an expression. -/
inductive SyntaxFault where
  /-- Something else was asked for than what was found, if anything was. -/
  | expected (what : Expected) (found : Option Token)
  /-- An expression is complete and a token is left. -/
  | afterExpression (t : Token)
  /-- A `break` or `continue` that no loop encloses. -/
  | outsideLoop (keyword : Token)
  /-- An integer literal that no value has. -/
  | integerTooLarge
deriving DecidableEq

namespace SyntaxFault

/-- What is wrong, in words. -/
def message : SyntaxFault → String
  | expected what (some t) => s!"expected {what.text}, found `{t.text}`"
  | expected what none => s!"expected {what.text}, found end of input"
  | afterExpression t => s!"unexpected `{t.text}` after expression"
  | outsideLoop keyword => s!"`{keyword.text}` outside of a loop"
  | integerTooLarge => "integer literal out of range"

end SyntaxFault

/-- The cause of a refusal. -/
inductive SourceFault where
  | lexical (fault : LexicalFault)
  | grammar (fault : SyntaxFault)
deriving DecidableEq

namespace SourceFault

/-- What is wrong, in words. -/
def message : SourceFault → String
  | lexical fault => fault.message
  | grammar fault => fault.message

/-- The stage of reading that refuses the text. -/
def stage : SourceFault → String
  | lexical _ => "Lexer"
  | grammar _ => "Syntax"

end SourceFault

/-- The refusal of a source text. -/
structure SourceError where
  fault : SourceFault
  span : Span
  line : Nat
  column : Nat
deriving DecidableEq

namespace SourceError

/-- The refusal for the cause `fault` at `span` of the text indexed by `lines`. -/
def locate (lines : Lines) (fault : SourceFault) (span : Span) : SourceError :=
  let (line, column) := lines.position span.start
  { fault, span, line, column }

/-- The refusal, in words, with its place. -/
def text (e : SourceError) : String :=
  s!"{e.fault.stage} error at {e.line}:{e.column}: {e.fault.message}"

end SourceError

end PoolScript
