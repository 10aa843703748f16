import PoolScript.CommandLine.Form

/-!
# Help

The page that explains a form: what the command does, how it is called, and for each kind
of word it takes a list. In a list, the words stand in one column and their explanations
in the next.
-/

namespace PoolScript.CommandLine

/-- The text `s` filled up with blanks to `width` characters. -/
def padded (width : Nat) (s : String) : String :=
  s ++ .ofList (.replicate (width - s.length) ' ')

/-- The lines of a list. The second column begins two places after the longest word of the
    first. A list without words is not shown. -/
def list? (title : String) (rows : List (String × String)) : Option (List String) :=
  let width := (rows.map (·.1.length)).foldl max 0
  if rows.isEmpty then none
  else
    some (s!"{title}:" ::
      rows.map fun (word, about) => "  " ++ padded width word ++ "  " ++ about)

/-- A flag as it is shown: its letter or the place of one, then its name and what its value
    is called. -/
def Flag.shown (f : Flag) : String :=
  let letter := match f.letter with
    | some c => .ofList ['-', c, ',', ' ']
    | none => "    "
  let value := match f.value with
    | some v => " <" ++ v ++ ">"
    | none => ""
  letter ++ "--" ++ f.name ++ value

namespace Form

/-- Whether a form has flags beyond those that ask about the program. -/
def hasOptions (f : Form) : Bool :=
  f.flags.any fun flag => match flag.effect with
    | .help | .version => false
    | _ => true

/-- How a command is called. -/
def usage (f : Form) : String :=
  let options := if f.hasOptions then ["[OPTIONS]"] else []
  let choice := if f.choices.isEmpty then [] else ["<COMMAND>"]
  "Usage: " ++ " ".intercalate (f.call ++ options ++ f.operand.toList.map (·.1) ++ choice)

/-- The lines of the page: the paragraphs with blank lines between them. -/
def page (f : Form) : List String :=
  let lists := [list? "Commands" f.choices, list? "Arguments" f.operand.toList,
    list? "Options" (f.flags.map fun flag => (flag.shown, flag.about))]
  f.about :: "" :: f.usage :: (lists.filterMap id).flatMap ("" :: ·)

end Form

end PoolScript.CommandLine
