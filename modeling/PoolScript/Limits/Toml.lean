import PoolScript.Limits

/-!
# Limits as TOML

Limits are kept in a TOML document that sets up to three keys to integers, each on a line
of its own. Everything else that a document may have, tables, other keys and values of
other types, has no meaning for limits, so a document with any of it is refused, as one
that is malformed is.
-/

namespace PoolScript.Limits.Toml

/-! ### Lines -/

/-- The lines of a document. They end in a newline, with or without a carriage return. -/
def lines : List Char → List (List Char)
  | [] => [[]]
  | '\r' :: '\n' :: cs => [] :: lines cs
  | '\n' :: cs => [] :: lines cs
  | c :: cs =>
    match lines cs with
    | line :: rest => (c :: line) :: rest
    | [] => [[c]]

/-- The characters that may stand between the parts of a line. -/
def isSpace (c : Char) : Bool :=
  c = ' ' || c = '\t'

/-- What a comment may contain. -/
def isCommentChar (c : Char) : Bool :=
  c = '\t' || (' ' ≤ c && c ≠ '\x7f')

/-- Whether nothing is left of a line but spaces and a comment. -/
def isBlank (cs : List Char) : Bool :=
  match cs.dropWhile isSpace with
  | [] => true
  | '#' :: comment => comment.all isCommentChar
  | _ => false

/-! ### Integers -/

/-- The value of a digit to a base of at most sixteen. -/
def digit? (base : Nat) (c : Char) : Option Nat :=
  let d :=
    if c.isDigit then c.toNat - '0'.toNat
    else if 'a' ≤ c ∧ c ≤ 'f' then c.toNat - 'a'.toNat + 10
    else if 'A' ≤ c ∧ c ≤ 'F' then c.toNat - 'A'.toNat + 10
    else base
  if d < base then some d else none

/-- Reads on after the number `n`. An underscore may stand before a digit. -/
def digitsAfter (base n : Nat) : List Char → Option Nat
  | [] => some n
  | '_' :: c :: cs => (digit? base c).bind fun d => digitsAfter base (base * n + d) cs
  | c :: cs => (digit? base c).bind fun d => digitsAfter base (base * n + d) cs

/-- Reads a number that begins with a digit. -/
def digits (base : Nat) : List Char → Option Nat
  | [] => none
  | c :: cs => (digit? base c).bind fun d => digitsAfter base d cs

/-- Reads a number that begins with no needless zero. -/
def decimal : List Char → Option Nat
  | ['0'] => some 0
  | '0' :: _ => none
  | cs => digits 10 cs

/-- Reads an integer that is not negative, in sixty-four bits. -/
def integer (cs : List Char) : Option Nat :=
  let value :=
    match cs with
    | '0' :: 'x' :: cs => digits 16 cs
    | '0' :: 'o' :: cs => digits 8 cs
    | '0' :: 'b' :: cs => digits 2 cs
    | '+' :: cs => decimal cs
    | '-' :: cs => (decimal cs).filter (· = 0)
    | cs => decimal cs
  value.filter (· < UInt64.size / 2)

/-! ### Keys -/

/-- What a key may contain outside quotes. -/
def isBare (c : Char) : Bool :=
  c.isAlphanum || c = '_' || c = '-'

/-- The character of a code point. -/
def character (hex : List Char) : Option Char :=
  (hex.mapM (digit? 16)).map fun ds => .ofNat (ds.foldl (fun n d => 16 * n + d) 0)

/-- Reads a key up to its closing double quote. Of the escapes only those of code points
    can stand for what is in the name of a limit. -/
def quotedKey : List Char → Option (List Char × List Char)
  | '"' :: cs => some ([], cs)
  | '\\' :: 'u' :: h₁ :: h₂ :: h₃ :: h₄ :: cs => do
    let (key, rest) ← quotedKey cs
    return ((← character [h₁, h₂, h₃, h₄]) :: key, rest)
  | '\\' :: 'U' :: h₁ :: h₂ :: h₃ :: h₄ :: h₅ :: h₆ :: h₇ :: h₈ :: cs => do
    let (key, rest) ← quotedKey cs
    return ((← character [h₁, h₂, h₃, h₄, h₅, h₆, h₇, h₈]) :: key, rest)
  | '\\' :: _ => none
  | c :: cs => (quotedKey cs).map fun (key, rest) => (c :: key, rest)
  | [] => none

/-- Reads a key. -/
def key : List Char → Option (List Char × List Char)
  | '"' :: cs => quotedKey cs
  | '\'' :: cs =>
    match cs.dropWhile (· ≠ '\'') with
    | _ :: rest => some (cs.takeWhile (· ≠ '\''), rest)
    | [] => none
  | cs => some (cs.takeWhile isBare, cs.dropWhile isBare)

/-! ### Documents -/

/-- Reads a line that sets a key to an integer. -/
def setting (line : List Char) : Option (String × Nat) := do
  let (name, rest) ← key (line.dropWhile isSpace)
  match rest.dropWhile isSpace with
  | '=' :: rest =>
    let rest := rest.dropWhile isSpace
    let inValue (c : Char) := !isSpace c && c ≠ '#'
    let n ← integer (rest.takeWhile inValue)
    if isBlank (rest.dropWhile inValue) then some (.ofList name, n) else none
  | _ => none

/-- The keys that limits are kept under. -/
def keys : List String :=
  ["string_pool_capacity", "array_pool_capacity", "max_call_depth"]

/-- The limits of a list of settings. A limit that is not set is as ever. -/
def ofSettings (settings : List (String × Nat)) : Option Limits :=
  let names := settings.map (·.1)
  if names.Nodup ∧ ∀ name ∈ names, name ∈ keys then
    some {
      stringPool := (settings.lookup "string_pool_capacity").getD Limits.default.stringPool
      arrayPool := (settings.lookup "array_pool_capacity").getD Limits.default.arrayPool
      maxDepth := (settings.lookup "max_call_depth").getD Limits.default.maxDepth }
  else none

/-- The document without the mark of its byte order. -/
def withoutMark : List Char → List Char
  | '\ufeff' :: cs => cs
  | cs => cs

/-- The limits that a document sets. -/
def read? (text : String) : Option Limits := do
  let settings ← ((lines (withoutMark text.toList)).filter (!isBlank ·)).mapM setting
  ofSettings settings

end PoolScript.Limits.Toml
