import PoolScript.Output

/-!
# What sinks are given

A writer of lines is written to, flushed and given new sinks in any order (`LineWriter.Act`).
Between two acts that end the line that waits, the sink is given the lines of the text that is
written meanwhile, joined: those that a newline ends at once, and what is behind the last newline,
unless it is empty, by the act that ends it.

A writer puts a text behind what waits and then looks for newlines in its buffer, which it changes
as it goes. What that comes to is said by the lines of the text (`drain_eq`), and also by a fold
over its characters (`write_eq_foldl`).

* `drain_eq`: what the loop over the buffer hands over and leaves;
* `write_eq`: what comes of writing a text;
* `write_append`: a text can be written in two parts;
* `behind_performAll`: what sinks were given before makes no difference to those after them;
* `delivers_lines`: what sinks are given, after any acts.
-/

namespace PoolScript.LineWriter

/-! ### Acts -/

/-- What can be done with a writer of lines. -/
inductive Act where
  | write (text : String)
  | flush
  | setSink

namespace Act

/-- The writer after an act. -/
def perform : Act → LineWriter → LineWriter
  | write text, w => w.write text
  | flush, w => w.flush
  | setSink, w => w.setSink

/-- Whether the act ends the line that waits. -/
def isCut : Act → Bool
  | write _ => false
  | flush | setSink => true

end Act

/-- The writer after acts, the first of which is in front. -/
def performAll (acts : List Act) (w : LineWriter) : LineWriter :=
  acts.foldl (fun w a => a.perform w) w

/-- A new writer after acts. -/
def after (acts : List Act) : LineWriter :=
  performAll acts .empty

/-! ### The lines of a text -/

/-- The lines of a text that a newline ends. -/
def ended (text : String) : List String :=
  (text.toList.splitOn '\n').dropLast.map String.ofList

/-- What is behind the last newline of a text. -/
def waiting (text : String) : String :=
  .ofList ((text.toList.splitOn '\n').getLast (List.splitOn_ne_nil _ _))

/-- The lines of a text, the last of which needs no newline if it is not empty. -/
def delivered (text : String) : List String :=
  ended text ++ if waiting text = "" then [] else [waiting text]

variable {w : LineWriter} {line text : String}

/-- No newline ends anything in a line. -/
theorem ended_of_line (h : '\n' ∉ line.toList) : ended line = [] := by
  rw [ended, List.splitOn_eq_singleton h]
  rfl

/-- All of a line waits. -/
theorem waiting_of_line (h : '\n' ∉ line.toList) : waiting line = line := by
  simp only [waiting, List.splitOn_eq_singleton h, List.getLast_singleton, String.ofList_toList]

/-- A text behind a line: the line comes first. -/
theorem splitOn_line (h : '\n' ∉ line.toList) (text : String) :
    (line ++ "\n" ++ text).toList.splitOn '\n' = line.toList :: text.toList.splitOn '\n' := by
  rw [String.toList_append, String.toList_append, List.append_assoc]
  refine (List.splitOn_append_cons_self line.toList text.toList).trans ?_
  rw [List.splitOn_eq_singleton h]
  rfl

theorem ended_append (h : '\n' ∉ line.toList) (text : String) :
    ended (line ++ "\n" ++ text) = line :: ended text := by
  rw [ended, splitOn_line h, List.dropLast_cons_of_ne_nil (List.splitOn_ne_nil _ _), List.map_cons,
    String.ofList_toList]
  rfl

theorem waiting_append (h : '\n' ∉ line.toList) (text : String) :
    waiting (line ++ "\n" ++ text) = waiting text := by
  simp only [waiting, splitOn_line h, List.getLast_cons (List.splitOn_ne_nil _ _)]

/-- A text is a line, or else a line in front of another text. -/
theorem newline?_cases (text : String) :
    ('\n' ∉ text.toList ∧ newline? text = none) ∨
      ∃ line rest, text = line ++ "\n" ++ rest ∧ '\n' ∉ line.toList ∧
        newline? text = some line.toList.length := by
  rw [newline?]
  rcases h : text.toList.findIdx? (· = '\n') with _ | n
  · refine .inl ⟨fun hmem => ?_, rfl⟩
    simpa using List.findIdx?_eq_none_iff.1 h '\n' hmem
  · obtain ⟨hn, hc, hbefore⟩ := List.findIdx?_eq_some_iff_getElem.1 h
    have hc : text.toList[n] = '\n' := of_decide_eq_true hc
    have hlength : (text.toList.take n).length = n := List.length_take_of_le (Nat.le_of_lt hn)
    refine .inr ⟨.ofList (text.toList.take n), .ofList (text.toList.drop (n + 1)), ?_, ?_, ?_⟩
    · have hsplit : text.toList = text.toList.take n ++ '\n' :: text.toList.drop (n + 1) := by
        rw [← hc, List.getElem_cons_drop, List.take_append_drop]
      simpa [← String.toList_inj] using hsplit
    · rw [String.toList_ofList, List.mem_iff_getElem]
      rintro ⟨i, hi, hl⟩
      rw [hlength] at hi
      rw [List.getElem_take] at hl
      exact hbefore i hi (decide_eq_true hl)
    · rw [String.toList_ofList, hlength]

/-- What is true of lines, and of a text with another line in front, is true of all texts. -/
theorem lines_induction {motive : String → Prop} (line : ∀ line, '\n' ∉ line.toList → motive line)
    (cons : ∀ line text, '\n' ∉ line.toList → motive text → motive (line ++ "\n" ++ text))
    (text : String) : motive text := by
  induction hn : text.toList.length using Nat.strongRecOn generalizing text with
  | ind n ih =>
    subst hn
    rcases newline?_cases text with ⟨hline, -⟩ | ⟨l, rest, rfl, hl, -⟩
    · exact line text hline
    · refine cons l rest hl (ih _ ?_ rest rfl)
      simp only [String.toList_append, List.length_append]
      exact Nat.lt_add_of_pos_left (Nat.add_pos_right _ Nat.one_pos)

/-- A text is cut at its newlines whether it is looked at as a whole or in two parts. -/
theorem ended_waiting (s t : String) :
    ended (s ++ t) = ended s ++ ended (waiting s ++ t) ∧
      waiting (s ++ t) = waiting (waiting s ++ t) := by
  induction s using lines_induction with
  | line line h => exact ⟨by rw [ended_of_line h, waiting_of_line h, List.nil_append],
      by rw [waiting_of_line h]⟩
  | cons line s h ih =>
    rw [String.append_assoc, ended_append h, ended_append h, waiting_append h, waiting_append h,
      ih.1, ih.2, List.cons_append]
    exact ⟨rfl, rfl⟩

/-! ### Writing -/

/-- The line that waits has no newline. -/
def Waits (w : LineWriter) : Prop :=
  '\n' ∉ w.pending.toList

variable {lines : Array String} {earlier : List (Array String)}

/-- There is nothing to hand over in a line. -/
theorem drain_of_line (h : '\n' ∉ line.toList) :
    drain ⟨line, lines, earlier⟩ = ⟨line, lines, earlier⟩ := by
  rw [drain]
  split
  · next n hn =>
    rcases newline?_cases line with ⟨-, hnone⟩ | ⟨l, rest, rfl, -, -⟩
    · cases hnone.symm.trans hn
    · simp at h
  · rfl

/-- The loop hands over the first line and goes on behind it. -/
theorem drain_append (h : '\n' ∉ line.toList) (text : String) :
    drain ⟨line ++ "\n" ++ text, lines, earlier⟩ = drain ⟨text, lines.push line, earlier⟩ := by
  rw [drain]
  split
  · next n hn =>
    rcases newline?_cases (line ++ "\n" ++ text) with ⟨hl, -⟩ | ⟨l, rest, he, hl, hsome⟩
    · simp at hl
    · -- The newline that is found is the one behind `line`.
      have hlines := congrArg (List.head? ∘ List.splitOn '\n' ∘ String.toList) he
      simp only [Function.comp_apply, splitOn_line h, splitOn_line hl, List.head?_cons,
        Option.some_inj] at hlines
      have hall : (line ++ "\n" ++ text).toList = line.toList ++ '\n' :: text.toList := by simp
      have htaken : (line ++ "\n" ++ text).toList.take (line.toList.length + 1) =
          line.toList ++ ['\n'] := by
        rw [hall, List.take_length_add_append]
        rfl
      have hrest : (line ++ "\n" ++ text).toList.drop (line.toList.length + 1) = text.toList := by
        rw [hall, List.drop_length_add_append]
        rfl
      cases hsome.symm.trans hn
      dsimp only
      rw [← hlines, htaken, hrest, List.dropLast_concat, String.ofList_toList, String.ofList_toList]
  · next hnone =>
    rcases newline?_cases (line ++ "\n" ++ text) with ⟨hl, -⟩ | ⟨l, rest, -, -, hsome⟩
    · simp at hl
    · cases hsome.symm.trans hnone

/-- The loop over the buffer hands over the lines that a newline ends, and leaves the rest. -/
theorem drain_eq (text : String) (lines : Array String) (earlier : List (Array String)) :
    drain ⟨text, lines, earlier⟩ = ⟨waiting text, lines ++ (ended text).toArray, earlier⟩ := by
  induction text using lines_induction generalizing lines with
  | line line h => rw [drain_of_line h, waiting_of_line h, ended_of_line h, Array.append_empty]
  | cons line text h ih =>
    rw [drain_append h, ih, waiting_append h, ended_append h]
    simp

/-- The sink is given the lines that a newline ends, the first of which begins with what waited. -/
theorem write_eq (text : String) (w : LineWriter) :
    w.write text =
      ⟨waiting (w.pending ++ text), w.lines ++ (ended (w.pending ++ text)).toArray, w.earlier⟩ :=
  drain_eq ..

theorem write_append (s t : String) (w : LineWriter) : w.write (s ++ t) = (w.write s).write t := by
  obtain ⟨hended, hwaiting⟩ := ended_waiting (w.pending ++ s) t
  rw [write_eq, write_eq, write_eq, ← String.append_assoc, hended, hwaiting]
  simp

/-- No newline waits after a text was written. -/
theorem waits_write (text : String) (w : LineWriter) : (w.write text).Waits := by
  rw [write_eq, Waits]
  generalize w.pending ++ text = text
  induction text using lines_induction with
  | line line h => exact (waiting_of_line h).symm ▸ h
  | cons line text h ih => exact (waiting_append h text).symm ▸ ih

/-! ### Writing by the character -/

/-- Writes one character: a newline hands over what waits, any other character waits with it. -/
def put : LineWriter → Char → LineWriter
  | ⟨pending, lines, earlier⟩, c =>
    if c = '\n' then ⟨"", lines.push pending, earlier⟩ else ⟨pending.push c, lines, earlier⟩

/-- To write one character is one step of the fold. -/
theorem write_singleton (h : w.Waits) (c : Char) : w.write (.singleton c) = w.put c := by
  rw [write_eq, put]
  split
  · next hc =>
    have htext : w.pending ++ String.singleton c = w.pending ++ "\n" ++ "" := by
      rw [hc, String.append_empty]
      rfl
    rw [htext, waiting_append h, ended_append h, waiting_of_line List.not_mem_nil,
      ended_of_line List.not_mem_nil]
    simp
  · next hc =>
    have htext : w.pending ++ String.singleton c = w.pending.push c := rfl
    have hline : '\n' ∉ (w.pending.push c).toList := by simpa [Waits, Ne.symm hc] using h
    rw [htext, waiting_of_line hline, ended_of_line hline, Array.append_empty]

theorem write_empty (h : w.Waits) : w.write "" = w := by
  rw [write_eq, String.append_empty, waiting_of_line h, ended_of_line h, Array.append_empty]

/-- Where no newline waits, the buffer and its loop do what writing by the character does. -/
theorem write_eq_foldl (hw : w.Waits) (text : String) : w.write text = text.toList.foldl put w := by
  obtain ⟨cs, rfl⟩ : ∃ cs, text = .ofList cs := ⟨text.toList, String.ofList_toList.symm⟩
  rw [String.toList_ofList]
  induction cs generalizing w with
  | nil => exact write_empty hw
  | cons c cs ih =>
    have htext : String.ofList (c :: cs) = .singleton c ++ .ofList cs := by simp
    rw [htext, write_append, ih (waits_write _ w), write_singleton hw, List.foldl_cons]

/-- To flush hands over what waits, if it is not empty. -/
theorem flush_eq (w : LineWriter) :
    w.flush = ⟨"", w.lines ++ (if w.pending = "" then #[] else #[w.pending]), w.earlier⟩ := by
  obtain ⟨pending, lines, earlier⟩ := w
  by_cases h : pending = "" <;> simp [flush, h]

/-- A new sink begins with nothing. What waited went to the one before. -/
theorem setSink_eq (w : LineWriter) :
    w.setSink = ⟨"", #[], w.flush.lines :: w.earlier⟩ := by
  rw [setSink, flush_eq]

/-! ### After any acts -/

theorem performAll_append (acts acts' : List Act) (w : LineWriter) :
    performAll (acts ++ acts') w = performAll acts' (performAll acts w) :=
  List.foldl_append

/-- Texts written one after another are as good as one text. -/
theorem performAll_writes (hw : w.Waits) (texts : List String) :
    performAll (texts.map .write) w = w.write (String.join texts) := by
  induction texts generalizing w with
  | nil => exact (write_empty hw).symm
  | cons text texts ih =>
    rw [String.join_cons, write_append, ← ih (waits_write text w)]
    rfl

theorem after_append (acts acts' : List Act) :
    after (acts ++ acts') = performAll acts' (after acts) :=
  performAll_append acts acts' .empty

/-- Whatever was done, no newline waits. -/
theorem waits_after (acts : List Act) : (after acts).Waits := by
  rw [after]
  generalize hw : empty = w
  have hwaits : w.Waits := by
    subst hw
    simp [Waits, empty]
  clear hw
  induction acts generalizing w with
  | nil => exact hwaits
  | cons a acts ih =>
    refine ih _ ?_
    cases a with
    | write text => exact waits_write text w
    | flush => simp [Act.perform, flush_eq, Waits]
    | setSink => simp [Act.perform, setSink_eq, Waits]

/-- After an act that ends the line that waits, nothing waits. -/
theorem pending_after {acts : List Act} (h : ∀ a ∈ acts.getLast?, a.isCut) :
    (after acts).pending = "" := by
  rcases List.eq_nil_or_concat acts with rfl | ⟨acts, a, rfl⟩
  · rfl
  · rw [List.concat_eq_append, after_append]
    cases a with
    | write => simp [Act.isCut] at h
    | flush => exact congrArg pending (flush_eq _)
    | setSink => exact congrArg pending (setSink_eq _)

/-! ### Sinks -/

/-- The writer as it is when there were other sinks before. -/
def behind (earlier : List (Array String)) (w : LineWriter) : LineWriter :=
  { w with earlier := w.earlier ++ earlier }

/-- Writing does not look at what earlier sinks were given. -/
theorem behind_write (earlier : List (Array String)) (text : String) (w : LineWriter) :
    (w.behind earlier).write text = (w.write text).behind earlier := by
  rw [write_eq, write_eq]
  rfl

/-- What sinks were given before makes no difference to those after them. -/
theorem behind_performAll (earlier : List (Array String)) (acts : List Act) (w : LineWriter) :
    performAll acts (w.behind earlier) = (performAll acts w).behind earlier := by
  induction acts generalizing w with
  | nil => rfl
  | cons a acts ih =>
    have hstep : a.perform (w.behind earlier) = (a.perform w).behind earlier := by
      cases a with
      | write text => exact behind_write earlier text w
      | flush =>
        simp only [Act.perform, flush_eq]
        rfl
      | setSink =>
        simp only [Act.perform, setSink_eq, flush_eq]
        rfl
    exact (congrArg (performAll acts) hstep).trans (ih _)

/-- Earlier sinks stay in front of the others. -/
theorem sinks_behind (earlier : List (Array String)) (w : LineWriter) :
    (w.behind earlier).sinks = earlier.reverse ++ w.sinks := by
  simp [sinks, behind]

/-- A sink that takes over is given what it would be given by a new writer. -/
theorem sinks_after_setSink (acts later : List Act) :
    (after (acts ++ .setSink :: later)).sinks =
      (after (acts ++ [.setSink])).sinks.dropLast ++ (after later).sinks := by
  have hset : after (acts ++ [.setSink]) =
      behind ((after acts).flush.lines :: (after acts).earlier) .empty := by
    rw [after_append]
    exact setSink_eq (after acts)
  rw [List.append_cons, after_append, hset, behind_performAll, sinks_behind, sinks_behind]
  simp [after, sinks, empty]

/-! ### What is delivered -/

/-- What comes of writing `texts`, after acts that leave nothing waiting. -/
structure Delivers (acts : List Act) (texts : List String) : Prop where
  /-- The sink has been given the lines that a newline ended, and what is behind it waits. -/
  written : after (acts ++ texts.map .write) =
    ⟨waiting (.join texts), (after acts).lines ++ (ended (.join texts)).toArray,
      (after acts).earlier⟩
  /-- If the writer is flushed then, the sink is given what waits, unless that is empty. -/
  flushed : after (acts ++ texts.map .write ++ [.flush]) =
    ⟨"", (after acts).lines ++ (delivered (.join texts)).toArray, (after acts).earlier⟩
  /-- So it is if another sink takes over, which has been given nothing. -/
  replaced : after (acts ++ texts.map .write ++ [.setSink]) =
    ⟨"", #[], ((after acts).lines ++ (delivered (.join texts)).toArray) :: (after acts).earlier⟩

/-- The text between two cuts is delivered in its lines. -/
theorem delivers {acts : List Act} (h : ∀ a ∈ acts.getLast?, a.isCut) (texts : List String) :
    Delivers acts texts := by
  have hwritten : after (acts ++ texts.map .write) =
      ⟨waiting (.join texts), (after acts).lines ++ (ended (.join texts)).toArray,
        (after acts).earlier⟩ := by
    rw [after_append, performAll_writes (waits_after acts), write_eq, pending_after h,
      String.empty_append]
  have hflushed : (after (acts ++ texts.map .write)).flush =
      ⟨"", (after acts).lines ++ (delivered (.join texts)).toArray, (after acts).earlier⟩ := by
    rw [flush_eq, hwritten, delivered]
    split <;> simp_all
  refine ⟨hwritten, ?_, ?_⟩
  · rw [after_append]
    exact hflushed
  · have hset : after (acts ++ texts.map .write ++ [.setSink]) =
        (after (acts ++ texts.map .write)).setSink := after_append ..
    rw [hset, setSink_eq, hflushed, hwritten]

/-- A writer gives its sinks the lines of what is written, none of them twice and in their order.
    What waits has no newline. It does not matter how a text is cut into what is written at a time.
    From one act that ends the line that waits to the next, the sink is given the lines of all that
    is written, and a sink that takes over is given nothing of what was written before. -/
theorem delivers_lines (acts : List Act) :
    '\n' ∉ (after acts).pending.toList ∧
    (∀ texts texts', String.join texts = String.join texts' →
      after (acts ++ texts.map .write) = after (acts ++ texts'.map .write)) ∧
    ((∀ a ∈ acts.getLast?, a.isCut) → ∀ texts, Delivers acts texts) ∧
    ∀ later, (after (acts ++ .setSink :: later)).sinks =
      (after (acts ++ [.setSink])).sinks.dropLast ++ (after later).sinks := by
  refine ⟨waits_after acts, fun texts texts' h => ?_, delivers, sinks_after_setSink acts⟩
  simp only [after_append, performAll_writes (waits_after acts), h]

/-- Lines that are cut in their middle, an empty one, and one that another sink takes over from. -/
theorem delivers_lines_cut :
    (∀ a ∈ [Act.write "x", .setSink].getLast?, a.isCut) ∧
      after ([.write "x", .setSink] ++ ["a\nb", "c\n\nd"].map .write ++ [.setSink]) =
        ⟨"", #[], [#["a", "bc", "", "d"], #["x"]]⟩ := by
  have hcut : ∀ a ∈ [Act.write "x", .setSink].getLast?, a.isCut := by
    simp [Act.isCut]
  have hlines : delivered (.join ["a\nb", "c\n\nd"]) = ["a", "bc", "", "d"] := by decide
  have hbefore : after [.write "x", .setSink] = ⟨"", #[], [#["x"]]⟩ := by
    refine (setSink_eq (empty.write "x")).trans ?_
    rw [flush_eq, write_eq]
    rfl
  have h := ((delivers_lines [.write "x", .setSink]).2.2.1 hcut ["a\nb", "c\n\nd"]).replaced
  rw [hlines, hbefore] at h
  exact ⟨hcut, h⟩

end PoolScript.LineWriter
