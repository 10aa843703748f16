import PoolScript.Proofs.Heap.Domain
import PoolScript.Proofs.Number.Leading
import PoolScript.Proofs.Session.Range
import PoolScript.Proofs.Session.Serving

/-!
# Integers read back from texts

The sum of an empty text and an integer is the text of the integer, and the sum of zero and this
text is the integer again (`Machine.readBack_ends`). While that is computed there are two strings
more, and in the end there is nothing more than before. So a session comes from the expression
`0 + ("" + n)` to the integer `n`, wherever it comes to the expression with room for two strings
(`Session.reads_back`).
-/

namespace PoolScript

namespace Heap

variable {heap heap' : Heap} {a : Handle} {s : String}

theorem str_eq_ok : heap.str a = .ok s ↔ heap.strings.get? a = some s := by
  rw [str]
  split
  · next ht => rw [ht, Except.ok.injEq, Option.some.injEq]
  · next ht => simp [ht]

/-- A string can be made as long as there is room for it. -/
theorem exists_allocString (hw : heap.strings.WellFormed)
    (hroom : heap.liveStrings < heap.strings.capacity) (text : String) :
    ∃ h strings, heap.allocString text = (.ok (.str h), ⟨strings, heap.cells⟩) ∧
      heap.strings.Allocated text h strings ∧ strings.capacity = heap.strings.capacity := by
  obtain ⟨strings, cells⟩ := heap
  rcases hw.alloc_cases text with ⟨h, strings', ha, hal⟩ | ⟨-, hfull⟩
  · refine ⟨h, strings', ?_, hal, hal.capacity⟩
    rw [allocString, ha]
    rfl
  · exact absurd hfull hroom.ne

/-- An integer behind a new text is one more new text, and the first one is given back. -/
theorem binary_text_int {strings : Pool String} (hal : heap.strings.Allocated s a strings)
    (hw : heap.strings.WellFormed) (hroom : strings.live < strings.capacity) (sign : NaNSign)
    (n : Int64) : ∃ b heap',
      binary sign .plus (.str a) (.int n) ⟨strings, heap.cells⟩ = (.ok (.str b), heap') ∧
      heap'.str b = .ok (s ++ Scalar.text (.int n)) ∧
      heap.SameEntries (heap'.release (.str b)) := by
  have ha : strings.entry? a = some ⟨s, 1, false⟩ := by rw [hal.entry?, Function.update_self]
  have hw : (Heap.mk strings heap.cells).strings.WellFormed := hal.wellFormed hw
  obtain ⟨b, strings', hb, hbl, -⟩ := exists_allocString hw hroom (s ++ Scalar.text (.int n))
  -- The new string was made while the first one was there, so they are in two slots.
  have hba : b ≠ a := by
    rintro rfl
    cases hbl.vacant.symm.trans ha
  refine ⟨b, release (.str a) ⟨strings', heap.cells⟩, ?_, ?_, ?_⟩
  · have hs : str ⟨strings, heap.cells⟩ a = .ok s :=
      str_eq_ok.2 (Pool.get?_eq_some.2 ⟨1, false, ha⟩)
    have hsum : operate sign .plus (.str a) (.int n) ⟨strings, heap.cells⟩ =
        (.ok (.str b), ⟨strings', heap.cells⟩) := by
      rw [operate, concat, hs]
      · exact hb
      · rintro _ ⟨⟩
    rw [binary, hsum]
    dsimp only
    rw [releaseAll_pair, release_number rfl]
  · have ha' : strings'.entry? a = some ⟨s, 1, false⟩ := by
      rw [hbl.entry?, Function.update_of_ne hba.symm, ha]
    rw [str_eq_ok, release_str, Pool.get?_eq_some]
    refine ⟨1, false, ?_⟩
    rw [Pool.entry?_release_once ha', Function.update_of_ne hba, hbl.entry?, Function.update_self]
  · have hmade : heap.Makes (.str a) ⟨strings, heap.cells⟩ := .string hal
    rw [← releaseAll_pair]
    exact hmade.releaseAll (.string hbl)

/-- Zero and the text of an integer are the integer, and the text is given back. -/
theorem binary_zero_text {n : Int64} (hs : heap.str a = .ok (Scalar.text (.int n)))
    (sign : NaNSign) :
    heap.binary sign .plus (.int 0) (.str a) = (.ok (.int n), heap.release (.str a)) := by
  have hread : Number.leadingInt (Scalar.text (.int n)) = n := by
    have := Number.leadingInt_text n (t := "") nofun
    rwa [String.append_empty] at this
  have hsum : heap.operate sign .plus (.int 0) (.str a) = (.ok (.int n), heap) := by
    rw [operate, hs, Except.map, hread, Int64.zero_add]
  have hzero : heap.release (.int 0) = heap := release_number rfl heap
  rw [binary, hsum]
  dsimp only
  rw [releaseAll_pair, hzero]

end Heap

/-- The expression `0 + ("" + e)`. -/
def readBack (e : Expr) : Expr :=
  .binary .plus (.int 0) (.binary .plus (.str "") e)

namespace Machine

variable {code : Code} {s : State} {e : Expr} {n : Int64}

/-- The expression is the integer `n`, as a literal or as a variable that holds it. -/
inductive IsInt (frames : List Frame) (n : Int64) : Expr → Prop
  | literal : IsInt frames n (.int n)
  | named {name : String} {frame : Frame} {below : List Frame} :
      frames = frame :: below → frame.get? name = some (.int n) → IsInt frames n (.var name)

theorem IsInt.evaluate (h : IsInt s.frames n e) (k : Cont .value) :
    evaluate code e k s = (.value (.int n) k, s) := by
  cases h with
  | literal => rfl
  | @named name frame below hs hn =>
    obtain ⟨heap, frames, out, journal⟩ := s
    obtain rfl := hs
    simp only [Machine.evaluate, State.load, hn]
    rfl

/-- A new string is made by one step. -/
theorem step_str {heap heap' : Heap} {frames : List Frame} {out : LineWriter}
    {journal : List String} {text : String} {v : Value}
    (h : heap.allocString text = (.ok v, heap')) (k : Cont .value) :
    step code (.eval (.str text) k) ⟨heap, frames, out, journal⟩ =
      (.value v k, ⟨heap', frames, out, journal⟩) := by
  rw [step, Machine.evaluate, State.onHeap, h]
  rfl

/-- An operator is applied by one step. -/
theorem step_operator {heap heap' : Heap} {frames : List Frame} {out : LineWriter}
    {journal : List String} {op : BinOp} {lhs rhs v : Value}
    (h : heap.binary code.platform.nanSign op lhs rhs = (.ok v, heap')) (k : Cont .value) :
    step code (.value rhs (.operator op lhs k)) ⟨heap, frames, out, journal⟩ =
      (.value v k, ⟨heap', frames, out, journal⟩) := by
  rw [step, receive, State.onHeap, h]
  rfl

/-- The expression `0 + ("" + e)` is the integer that `e` is, and there is nothing more than before
    in the end. -/
theorem readBack_ends {k : Cont .value} (he : IsInt s.frames n e)
    (hw : s.heap.strings.WellFormed) (hroom : s.heap.liveStrings + 2 ≤ s.heap.strings.capacity) :
    ∃ heap, after code 9 (.eval (readBack e) k, s) =
        (.value (.int n) k, ⟨heap, s.frames, s.out, s.journal⟩) ∧
      s.heap.SameEntries heap := by
  obtain ⟨heap, frames, out, journal⟩ := s
  obtain ⟨a, strings, ha, hal, hcapacity⟩ := Heap.exists_allocString hw (by omega) ""
  have hlive : strings.live = heap.liveStrings + 1 := hal.live
  obtain ⟨b, heap', hb, hs, hsame⟩ :=
    Heap.binary_text_int hal hw (by rw [hlive, hcapacity]; exact hroom) code.platform.nanSign n
  rw [String.empty_append] at hs
  have hempty : after code 5 (.eval (readBack e) k, ⟨heap, frames, out, journal⟩) =
      (.value (.str a) (.rightOperand .plus e (.operator .plus (.int 0) k)),
        ⟨⟨strings, heap.cells⟩, frames, out, journal⟩) := by
    rw [after_succ]
    exact step_str ha _
  have htext : after code 8 (.eval (readBack e) k, ⟨heap, frames, out, journal⟩) =
      (.value (.str b) (.operator .plus (.int 0) k), ⟨heap', frames, out, journal⟩) := by
    have hint : after code 7 (.eval (readBack e) k, ⟨heap, frames, out, journal⟩) =
        (.value (.int n) (.operator .plus (.str a) (.operator .plus (.int 0) k)),
          ⟨⟨strings, heap.cells⟩, frames, out, journal⟩) := by
      rw [after_add code 5 2, hempty]
      exact he.evaluate (s := ⟨⟨strings, heap.cells⟩, frames, out, journal⟩) _
    rw [after_succ, hint]
    exact step_operator hb _
  refine ⟨heap'.release (.str b), ?_, hsame⟩
  rw [after_succ, htext]
  exact step_operator (Heap.binary_zero_text hs _) k

end Machine

namespace Session

open Number

variable {program : Program} {limits : Limits} {code : Code}

theorem Calling.inCall_evolves {name : String} {args : List Value} {s : Session} {state : State}
    (h : Calling program limits s.code name args state) (n : Nat) :
    (Session.new program limits).state.heap.Evolves (s.inCall name args state n).2.heap :=
  (h.evolves.trans (Machine.call_becomes .refl ..).evolves).trans (Machine.after_evolves ..)

/-- The strings of a configuration that occurs are in a well-formed pool. -/
theorem Occurs.strings {p : Control × State} (h : Occurs program limits code p) :
    p.2.heap.strings.WellFormed := by
  have hevolves : (Session.new program limits).state.heap.Evolves p.2.heap := by
    cases h with
    | run h n => exact Calling.inCall_evolves (.run h) n
    | call h name args n => exact Calling.inCall_evolves (.call name args h) n
  exact hevolves.strings.wellFormed (Heap.wellFormed_empty ..).1

/-- What is read at the front of a text is what its sign and digits write, modulo `2 ^ 64`. The text
    of an integer is read back whatever other than a digit follows it, so `0 + ("" + e)` is the
    integer that `e` is, wherever a session comes to it with room for two strings. -/
theorem reads_back (program : Program) (limits : Limits) :
    (∀ s : String, (∃ blanks sign ds rest, Front s.toList blanks sign ds rest) ∧
      ∀ blanks sign ds rest, Front s.toList blanks sign ds rest →
        (leadingInt s).toInt = (written sign ds).bmod (2 ^ 64)) ∧
    (∀ (n : Int64) (t : String), (∀ c ∈ t.toList.head?, c.isDigit = false) →
      leadingInt (Scalar.text (.int n) ++ t) = n) ∧
    ∀ {code : Code} {e : Expr} {n : Int64} {k : Cont .value} {s : State},
      Occurs program limits code (.eval (readBack e) k, s) → Machine.IsInt s.frames n e →
      s.heap.liveStrings + 2 ≤ s.heap.strings.capacity →
      ∃ steps heap, Machine.after code steps (.eval (readBack e) k, s) =
          (.value (.int n) k, ⟨heap, s.frames, s.out, s.journal⟩) ∧
        s.heap.SameEntries heap := by
  refine ⟨fun s => ⟨exists_front s.toList, fun blanks sign ds rest h => ?_⟩,
    fun n t ht => leadingInt_text n ht, fun h he hroom => ?_⟩
  · rw [h.leadingInt, Int64.toInt_ofInt]
    rfl
  · obtain ⟨heap, hafter, hsame⟩ := Machine.readBack_ends he h.strings hroom
    exact ⟨9, heap, hafter, hsame⟩

/-- A script that reads the least integer back. -/
def rereading : Program :=
  ⟨[⟨"main", [], [.assign 1 "n" (readBack (.int Int64.minValue))], 1⟩]⟩

/-- A session with the script after one step. -/
def rereadingAt : Control × State :=
  (Session.new rereading .default).inCall "main" [] (Session.new rereading .default).cleared 1

theorem rereadingAt_begins : rereadingAt = (.eval (readBack (.int Int64.minValue))
    (.assign "n" (.sequence 1 .absent [] (.result .halt))), rereadingAt.2) := by
  have h : rereadingAt.1 = .eval (readBack (.int Int64.minValue))
      (.assign "n" (.sequence 1 .absent [] (.result .halt))) := by cbv
  exact Prod.ext h rfl

/-- Digits in a text, the least integer before some text, and the script. -/
theorem rereading_reads_back :
    Front " -12 x".toList [' '] ['-'] ['1', '2'] [' ', 'x'] ∧
    (leadingInt " -12 x").toInt = -12 ∧
    leadingInt (Scalar.text (.int Int64.minValue) ++ " x") = Int64.minValue ∧
    ∃ steps heap, Machine.after (Session.new rereading .default).code steps rereadingAt =
        (.value (.int Int64.minValue) (.assign "n" (.sequence 1 .absent [] (.result .halt))),
          ⟨heap, rereadingAt.2.frames, rereadingAt.2.out, rereadingAt.2.journal⟩) ∧
      rereadingAt.2.heap.SameEntries heap := by
  obtain ⟨hfront, htext, hsession⟩ := reads_back rereading .default
  have h : Front " -12 x".toList [' '] ['-'] ['1', '2'] [' ', 'x'] := by
    constructor <;> simp [IsSign, Text.isBlank, Text.blanks]
  have hoccurs : Occurs rereading .default (Session.new rereading .default).code rereadingAt :=
    .run (Reached.new .plain) 1
  refine ⟨h, (hfront _).2 _ _ _ _ h, htext _ _ (by simp), ?_⟩
  rw [rereadingAt_begins] at hoccurs ⊢
  exact hsession hoccurs .literal (by decide +kernel)

end Session

end PoolScript
