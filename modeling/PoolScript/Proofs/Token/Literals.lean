import PoolScript.Proofs.Token.Longest

/-!
# Literals

Every text can be written as a string literal: each character as itself or as its escape if it has
one, a quote and a backslash always as their escapes (`Written`). Whatever way it is written, the
literal is one token that spans all of it and stands for the text (`scan_string`).

Digits with any number of minuses before them are a token for each minus and one for the digits,
of whatever length, as long as their value is below `2 ^ 64` (`scan_minuses`).
-/

namespace PoolScript.Token

open scoped Computability

/-! ### String literals -/

/-- The escapes: what follows the backslash, and the character that the two stand for. -/
def escapes : List (Char × Char) :=
  [('n', '\n'), ('t', '\t'), ('r', '\r'), ('0', '\x00'), ('\\', '\\'), ('"', '"')]

/-- The text is written like this inside of a string literal. -/
inductive Written : List Char → List Char → Prop
  | nil : Written [] []
  | itself {c : Char} {text w : List Char} : c ≠ '"' → c ≠ '\\' → Written text w →
      Written (c :: text) (c :: w)
  | escape {e c : Char} {text w : List Char} : (e, c) ∈ escapes → Written text w →
      Written (c :: text) ('\\' :: e :: w)

variable {text w : List Char}

theorem exists_written (text : List Char) : ∃ w, Written text w := by
  induction text with
  | nil => exact ⟨[], .nil⟩
  | cons c text ih =>
    obtain ⟨w, hw⟩ := ih
    by_cases hc : (c, c) ∈ escapes
    · exact ⟨_, .escape hc hw⟩
    · refine ⟨_, .itself ?_ ?_ hw⟩
      all_goals
        rintro rfl
        exact hc (by decide)

theorem escape_of_mem : ∀ p ∈ escapes, p.1 ≠ '\n' ∧ escape p.1 = [p.2] := by
  decide

theorem unescape_cons {c : Char} (hc : c ≠ '\\') : unescape (c :: w) = c :: unescape w := by
  rw [unescape]
  exact fun _ _ h => absurd h hc

/-- What is written is made of whole characters and stands for the text. -/
theorem unescape_of_written (h : Written text w) :
    w ∈ (plain + escaped)∗ ∧ unescape w = text := by
  induction h with
  | nil => exact ⟨Language.nil_mem_kstar _, rfl⟩
  | itself hquote hslash _ ih =>
    have hitem := mem_plain_add_escaped.2 (.inl ⟨_, hquote, hslash, rfl⟩)
    exact ⟨append_mem_kstar hitem ih.1, by rw [unescape_cons hslash, ih.2]⟩
  | escape he _ ih =>
    obtain ⟨hline, hescape⟩ := escape_of_mem _ he
    have hitem := mem_plain_add_escaped.2 (.inr ⟨_, hline, rfl⟩)
    refine ⟨append_mem_kstar hitem ih.1, ?_⟩
    rw [unescape, hescape, ih.2, List.singleton_append]

/-- Every text can be written as a string literal, and however it is written, the literal is one
    token that stands for it. -/
theorem scan_string (s : String) : (∃ w, Written s.toList w) ∧
    ∀ w, Written s.toList w →
      scan (.ofList ('"' :: (w ++ ['"']))) =
        .ok [(.stringLit s, ⟨0, (String.ofList ('"' :: (w ++ ['"']))).utf8ByteSize⟩)] := by
  refine ⟨exists_written s.toList, fun w hw => ?_⟩
  obtain ⟨hw, hs⟩ := unescape_of_written hw
  have hstring : '"' :: (w ++ ['"']) ∈ strings :=
    cons_mem_one_mul.2 ⟨rfl, Language.append_mem_mul hw ⟨'"', rfl, rfl⟩⟩
  have hmatches := Matches.string hstring
  rw [List.tail_cons, List.dropLast_concat, hs, String.ofList_toList] at hmatches
  exact Matches.scan (by rwa [String.toList_ofList])

theorem scan_string_mimicked :
    Written ['\\', 'n', '\n', '"', '#'] ['\\', '\\', 'n', '\n', '\\', '"', '#'] ∧
      scan "\"\\\\n\n\\\"#\"" = .ok [(.stringLit "\\n\n\"#", ⟨0, 9⟩)] := by
  have hw : Written ['\\', 'n', '\n', '"', '#'] ['\\', '\\', 'n', '\n', '\\', '"', '#'] :=
    .escape (by decide) (.itself (by decide) (by decide) (.itself (by decide) (by decide)
      (.escape (by decide) (.itself (by decide) (by decide) .nil))))
  exact ⟨hw, (scan_string "\\n\n\"#").2 _ hw⟩

/-! ### Integer literals -/

variable {ds cs : List Char}

theorem front_minus (cs : List Char) : front '-' cs = (.token .minus, []) := by
  have hpair : cs.head?.bind (pair? '-') = none := by
    cases cs <;> simp [pair?]
  rw [front_kind (p := (· = '-')) rfl rfl, if_neg (by decide), if_neg (by decide),
    symbolPiece, hpair]
  rfl

/-- Minuses are tokens of their own, whatever follows them. -/
theorem exists_pieces_minuses (m pos : Nat) (cs : List Char) : ∃ tokens,
    Pieces pos (List.replicate m '-' ++ cs) tokens (pos + m) cs ∧
      tokens.map (·.1) = List.replicate m .minus := by
  induction m generalizing pos with
  | zero => exact ⟨[], .done, rfl⟩
  | succ m ih =>
    obtain ⟨tokens, hpieces, htokens⟩ := ih (pos + 1)
    have hlongest : Longest (['-'] ++ (List.replicate m '-' ++ cs)) ['-'] (.token .minus) :=
      longest_of_front (front_minus _) trivial
    rw [Nat.add_assoc, Nat.add_comm 1 m] at hpieces
    have hall : Pieces pos (['-'] ++ (List.replicate m '-' ++ cs))
        ((.minus, ⟨pos, pos + 1⟩) :: tokens) (pos + (m + 1)) cs := .token hlongest hpieces
    refine ⟨_, hall, ?_⟩
    rw [List.map_cons, htokens, List.replicate_succ]

/-- Digits with minuses before them are a token for each minus and one for the digits, unless
    these make an integer that is too large. -/
theorem scan_minuses (h : ds ∈ digits) (m : Nat) :
    let source : String := .ofList (List.replicate m '-' ++ ds)
    (Number.natOfDigits ds < UInt64.size → ∃ tokens, scan source = .ok tokens ∧
      tokens.map (·.1) = List.replicate m .minus ++ [.intLit (Number.natOfDigits ds)]) ∧
    (UInt64.size ≤ Number.natOfDigits ds → ∃ span, scan source =
      .error (.locate (.ofText source) (.lexical (.integerTooLarge (.ofList ds))) span)) := by
  intro source
  obtain ⟨minuses, hpieces, hminuses⟩ := exists_pieces_minuses m 0 ds
  have hlongest : Longest (ds ++ []) ds (intPiece ds) := (matches_intPiece h).longest
  have hscan : scanFrom #[] 0 source.toList = scanFrom minuses.toArray m (ds ++ []) := by
    rw [String.toList_ofList, hpieces.scanFrom, Array.empty_append, Nat.zero_add, List.append_nil]
  have hdigits := scanFrom_longest minuses.toArray m hlongest
  constructor
  · intro hn
    rw [intPiece, if_pos hn] at hdigits
    refine ⟨minuses ++ [(.intLit (Number.natOfDigits ds), ⟨m, m + byteSize ds⟩)], ?_, ?_⟩
    · rw [scan_eq_ok, hscan, hdigits]
      simp [scanFrom]
    · rw [List.map_append, hminuses]
      rfl
  · intro hn
    rw [intPiece, if_neg (Nat.not_lt.2 hn)] at hdigits
    exact ⟨⟨m, m + byteSize ds⟩, by rw [scan, hscan, hdigits]⟩

end PoolScript.Token
