import PoolScript.Text.Quoted

/-!
# Printed lines

What a script prints goes to a *sink* line by line. A line is handed over when its
newline is written; the beginning of a line waits until then, or until it is flushed.
When another sink takes over, what waits still goes to the one before it.
-/

namespace PoolScript

/-- A writer of lines, with the lines that its sink was given so far, and those that the
    sinks before it were given, the last of them in front. -/
structure LineWriter where
  pending : String
  lines : Array String
  earlier : List (Array String)

namespace LineWriter

/-- The writer with nothing written. -/
def empty : LineWriter :=
  ⟨"", #[], []⟩

/-- How many characters there are before the first newline of a text, if it has one. -/
def newline? (text : String) : Option Nat :=
  text.toList.findIdx? (· = '\n')

theorem lt_length_of_newline? {text : String} {n : Nat} (h : newline? text = some n) :
    n < text.toList.length := by
  obtain ⟨hn, -⟩ := List.findIdx?_eq_some_iff_getElem.1 h
  exact hn

/-- Hands lines over as long as there is a newline in what waits: the characters up to it and with
    it are taken out, and go to the sink without it. -/
def drain : LineWriter → LineWriter
  | ⟨pending, lines, earlier⟩ =>
    match _ : newline? pending with
    | some n =>
      let line := pending.toList.take (n + 1)
      drain ⟨.ofList (pending.toList.drop (n + 1)), lines.push (.ofList line.dropLast), earlier⟩
    | none => ⟨pending, lines, earlier⟩
termination_by w => w.pending.toList.length
decreasing_by
  have := lt_length_of_newline? ‹newline? pending = some n›
  simp only [String.toList_ofList, List.length_drop]
  omega

/-- Writes `text`: puts it behind what waits, and hands over the lines that have their newline. -/
def write (text : String) : LineWriter → LineWriter
  | ⟨pending, lines, earlier⟩ => drain ⟨pending ++ text, lines, earlier⟩

/-- Hands over the line that waits, unless it is empty. -/
def flush : LineWriter → LineWriter
  | ⟨pending, lines, earlier⟩ =>
    if pending.isEmpty then ⟨pending, lines, earlier⟩ else ⟨"", lines.push pending, earlier⟩

/-- Lets a new sink take over. -/
def setSink (w : LineWriter) : LineWriter :=
  match w.flush with
  | ⟨pending, lines, earlier⟩ => ⟨pending, #[], lines :: earlier⟩

/-- Takes its lines away from the sink. -/
def clear (w : LineWriter) : LineWriter :=
  { w with lines := #[] }

/-- The lines of all sinks, the first sink in front. -/
def sinks (w : LineWriter) : List (Array String) :=
  (w.lines :: w.earlier).reverse

/-- The state of the writer, in words. -/
def describe (w : LineWriter) : String :=
  "LineWriter \x7b pending: " ++ Text.quoted w.pending ++ ", .. \x7d"

end LineWriter

end PoolScript
