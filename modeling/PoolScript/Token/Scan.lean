import PoolScript.Number.Leading
import PoolScript.Source.Error

/-!
# From text to tokens

A source text is cut from left to right into pieces, each as long as it can be: blanks,
comments and tokens. Blanks and comments are dropped. A word that spells a keyword is
the keyword, and a number is an integer unless a point followed by a digit, or an
exponent, makes it a float.

* `front`: the longest piece at the front of a text, for each character it may begin
  with;
* `scan`: all tokens of a text with their spans, or the first fault.
-/

namespace PoolScript

namespace Token

/-- What a piece of the text is. -/
inductive Piece where
  /-- Blanks or a comment. -/
  | gap
  | token (t : Token)
  /-- No token: the scan stops here. -/
  | fault (f : LexicalFault)

/-- Whether `c` separates tokens. -/
def isSpace (c : Char) : Bool :=
  c = ' ' || c = '\t' || c = '\n' || c = '\r'

/-- Whether `c` may begin a name. -/
def isNameStart (c : Char) : Bool :=
  c.isAlpha || c = '_'

/-- Whether `c` may stand inside a name. -/
def isNameChar (c : Char) : Bool :=
  c.isAlphanum || c = '_'

/-! ### String literals -/

/-- What follows the opening quote of a string literal, up to the closing quote, and
    whether there is one. A backslash takes the next character along, unless that is a
    newline; a backslash that can take none along ends the scan before it. -/
def stringTail : List Char → List Char × Bool
  | [] => ([], false)
  | '"' :: _ => (['"'], true)
  | ['\\'] => ([], false)
  | '\\' :: '\n' :: _ => ([], false)
  | '\\' :: c :: cs =>
    let (tail, closed) := stringTail cs
    ('\\' :: c :: tail, closed)
  | c :: cs =>
    let (tail, closed) := stringTail cs
    (c :: tail, closed)

/-- What a backslash and the character `c` stand for. A pair without a meaning of its
    own stands for itself. -/
def escape (c : Char) : List Char :=
  match c with
  | 'n' => ['\n']
  | 't' => ['\t']
  | 'r' => ['\r']
  | '0' => ['\x00']
  | '\\' => ['\\']
  | '"' => ['"']
  | c => ['\\', c]

/-- The text that the inside of a string literal stands for. -/
def unescape : List Char → List Char
  | [] => []
  | '\\' :: c :: cs => escape c ++ unescape cs
  | c :: cs => c :: unescape cs

/-- The piece that a quote begins, where `cs` follows it. -/
def stringPiece (cs : List Char) : Piece × List Char :=
  match stringTail cs with
  | (tail, true) => (.token (.stringLit (.ofList (unescape tail.dropLast))), tail)
  | (tail, false) => (.fault .unterminatedString, tail)

/-! ### Numbers and words -/

/-- The point and the digits after it with which `cs` goes on a number, if it does. -/
def fractionTail : List Char → List Char
  | '.' :: cs =>
    let ds := cs.takeWhile Char.isDigit
    if ds = [] then [] else '.' :: ds
  | _ => []

/-- The token that the digits `whole` make without a point or an exponent. -/
def intPiece (whole : List Char) : Piece :=
  let n := Number.natOfDigits whole
  if n < UInt64.size then .token (.intLit n) else .fault (.integerTooLarge (.ofList whole))

/-- The double that a numeral stands for. -/
def floatOf (numeral : List Char) : Float :=
  ((Number.Decimal.read? numeral).map (·.toFloat)).getD 0.0

/-- The piece that the digit `c` begins, where `cs` follows it. -/
def numberPiece (c : Char) (cs : List Char) : Piece × List Char :=
  let ds := cs.takeWhile Char.isDigit
  let rest := cs.dropWhile Char.isDigit
  let fraction := fractionTail rest
  let exponent := Number.leadingExponent (rest.drop fraction.length)
  if fraction = [] ∧ exponent = [] then (intPiece (c :: ds), ds)
  else
    let tail := ds ++ fraction ++ exponent
    (.token (.floatLit (floatOf (c :: tail))), tail)

/-- The piece that the letter `c` begins, where `cs` follows it. -/
def wordPiece (c : Char) (cs : List Char) : Piece × List Char :=
  let tail := cs.takeWhile isNameChar
  (.token (ofWord (.ofList (c :: tail))), tail)

/-! ### Punctuation -/

/-- The token of two characters that `c` and `d` make. -/
def pair? (c d : Char) : Option Token :=
  match c, d with
  | '.', '.' => some dotDot
  | '=', '=' => some eqEq
  | '!', '=' => some notEq
  | '<', '=' => some ltEq
  | '>', '=' => some gtEq
  | '&', '&' => some ampAmp
  | '|', '|' => some pipePipe
  | _, _ => none

/-- The token that `c` makes alone. -/
def single? (c : Char) : Option Token :=
  match c with
  | ',' => some comma
  | ';' => some semi
  | '(' => some lparen
  | ')' => some rparen
  | '\x7b' => some lbrace
  | '\x7d' => some rbrace
  | '[' => some lbracket
  | ']' => some rbracket
  | '=' => some assign
  | '+' => some plus
  | '-' => some minus
  | '*' => some star
  | '/' => some slash
  | '%' => some percent
  | '<' => some lt
  | '>' => some gt
  | _ => none

/-- The piece that `c` begins, where `cs` follows it, if it is neither a quote, a digit
    nor a letter and begins no gap. -/
def symbolPiece (c : Char) (cs : List Char) : Piece × List Char :=
  match cs.head?.bind (pair? c) with
  | some t => (.token t, cs.take 1)
  | none =>
    match single? c with
    | some t => (.token t, [])
    | none => (.fault (.unexpected c), [])

/-! ### The front of a text -/

/-- The longest piece at the front of the text that begins with `c` and goes on with
    `cs`, and the characters of it after `c`. -/
def front (c : Char) (cs : List Char) : Piece × List Char :=
  if isSpace c then (.gap, cs.takeWhile isSpace)
  else if c = '#' ∨ (c = '/' ∧ cs.head? = some '/') then (.gap, cs.takeWhile (· ≠ '\n'))
  else if c = '"' then stringPiece cs
  else if c.isDigit then numberPiece c cs
  else if isNameStart c then wordPiece c cs
  else symbolPiece c cs

/-- How many bytes `cs` takes up. -/
def byteSize (cs : List Char) : Nat :=
  cs.foldl (fun n c => n + c.utf8Size) 0

/-- The tokens of `cs`, the first character of which is at the offset `pos`, after the
    tokens `done`. -/
def scanFrom (done : Array (Token × Span)) (pos : Nat) :
    List Char → Except (LexicalFault × Span) (Array (Token × Span))
  | [] => .ok done
  | c :: cs =>
    let (piece, tail) := front c cs
    let span : Span := ⟨pos, pos + byteSize (c :: tail)⟩
    match piece with
    | .gap => scanFrom done span.stop (cs.drop tail.length)
    | .token t => scanFrom (done.push (t, span)) span.stop (cs.drop tail.length)
    | .fault f => .error (f, span)
termination_by cs => cs.length
decreasing_by all_goals simp only [List.length_drop, List.length_cons]; omega

/-- The tokens of a source text with their spans. -/
def scan (source : String) : Except SourceError (List (Token × Span)) :=
  match scanFrom #[] 0 source.toList with
  | .ok tokens => .ok tokens.toList
  | .error (fault, span) => .error (.locate (.ofText source) (.lexical fault) span)

end Token

end PoolScript
