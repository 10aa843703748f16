import Mathlib.Computability.Language
import PoolScript.Proofs.Token.Layout

/-!
# The patterns of tokens

What may stand in a source text is given by patterns: languages of words, built from kinds of
characters by union, sequence and repetition. A word that matches a pattern is blank, a comment, a
token, or an integer literal that is too large (`Matches`). A keyword is spelled like a name and is
none, so a word matches one pattern at most (`Matches.unique`).

The scanner knows no patterns; it looks for the end of a piece by its first character. The two
agree: whatever follows a word that matches, it is read to its end, as what it matches or as a part
of a longer piece (`Matches.reaches`), and the piece that is read matches (`front_matches`).
-/

namespace PoolScript.Token

open scoped Computability

/-! ### Languages of words -/

/-- The words of one character of a kind. -/
def one (p : Char → Bool) : Language Char := {w | ∃ c, p c = true ∧ w = [c]}

/-- The words of at least one character, all of a kind. -/
def run (p : Char → Bool) : Language Char := one p * (one p)∗

variable {p : Char → Bool} {c d : Char} {cs ds fs xs w tail rest : List Char} {l : Language Char}
  {t : Token} {q : Piece}

theorem mem_one : w ∈ one p ↔ ∃ c, p c = true ∧ w = [c] :=
  Iff.rfl

/-- A word of a kind of character and a pattern starts with such a character. -/
theorem mem_one_mul : w ∈ one p * l ↔ ∃ c v, p c = true ∧ v ∈ l ∧ w = c :: v := by
  rw [Language.mem_mul]
  constructor
  · rintro ⟨_, ⟨c, hc, rfl⟩, v, hv, rfl⟩
    exact ⟨c, v, hc, hv, rfl⟩
  · rintro ⟨c, v, hc, hv, rfl⟩
    exact ⟨[c], ⟨c, hc, rfl⟩, v, hv, rfl⟩

theorem cons_mem_one_mul : c :: cs ∈ one p * l ↔ p c = true ∧ cs ∈ l := by
  rw [mem_one_mul]
  constructor
  · rintro ⟨d, v, hd, hv, h⟩
    obtain ⟨rfl, rfl⟩ := List.cons.inj h
    exact ⟨hd, hv⟩
  · rintro ⟨hc, hcs⟩
    exact ⟨c, cs, hc, hcs, rfl⟩

/-- A repetition of a kind of character asks for that kind everywhere in the word. -/
theorem mem_kstar_one : w ∈ (one p)∗ ↔ ∀ c ∈ w, p c = true := by
  rw [Language.mem_kstar]
  constructor
  · rintro ⟨ws, rfl, hws⟩ c hc
    obtain ⟨v, hv, hcv⟩ := List.mem_flatten.1 hc
    obtain ⟨d, hd, rfl⟩ := hws v hv
    obtain rfl := List.mem_singleton.1 hcv
    exact hd
  · intro h
    refine ⟨w.map fun c => [c], (List.flatMap_singleton' w).symm, fun v hv => ?_⟩
    obtain ⟨c, hc, rfl⟩ := List.mem_map.1 hv
    exact ⟨c, h c hc, rfl⟩

theorem cons_mem_run : c :: cs ∈ run p ↔ p c = true ∧ ∀ d ∈ cs, p d = true := by
  rw [run, cons_mem_one_mul, mem_kstar_one]

/-- A run is a word that is not empty and has one kind of character. -/
theorem mem_run : w ∈ run p ↔ w ≠ [] ∧ ∀ c ∈ w, p c = true := by
  cases w with
  | nil => simp [run, mem_one_mul]
  | cons c cs => simp [cons_mem_run]

/-- What is in front of a word made of parts is one more part. -/
theorem append_mem_kstar {v : List Char} (hv : v ∈ l) (hw : w ∈ l∗) : v ++ w ∈ l∗ :=
  have ⟨ws, hws, hl⟩ := Language.mem_kstar.1 hw
  Language.mem_kstar.2 ⟨v :: ws, by rw [hws, List.flatten_cons], List.forall_mem_cons.2 ⟨hv, hl⟩⟩

/-! ### The patterns -/

/-- Digits. -/
def digits : Language Char := run Char.isDigit

/-- A point and digits. -/
def fraction : Language Char := one (· = '.') * digits

/-- The letter `e` of either case, a sign if need be, and digits. -/
def exponent : Language Char :=
  one (fun c => c = 'e' || c = 'E') * ((1 + one fun c => c = '+' || c = '-') * digits)

/-- Digits with a point among them, an exponent behind them, or both. -/
def floats : Language Char := digits * fraction * (1 + exponent) + digits * exponent

/-- A character of a string literal that stands for itself. -/
def plain : Language Char := one fun c => c ≠ '"' && c ≠ '\\'

/-- A backslash and the character it takes along. -/
def escaped : Language Char := one (· = '\\') * one (· ≠ '\n')

/-- Text in quotes, in which each backslash takes the next character along. -/
def strings : Language Char := one (· = '"') * ((plain + escaped)∗ * one (· = '"'))

/-- A letter or underscore, and any number of these and digits. -/
def names : Language Char := one isNameStart * (one isNameChar)∗

/-- Blanks, or a comment. -/
def gaps : Language Char :=
  run isSpace + one (· = '/') * (one (· = '/') * (one (· ≠ '\n'))∗) +
    one (· = '#') * (one (· ≠ '\n'))∗

/-- The tokens that are spelled with neither letters nor digits nor quotes. -/
def symbols : List Token :=
  [dotDot, comma, semi, lparen, rparen, lbrace, rbrace, lbracket, rbracket, assign, plus, minus,
    star, slash, percent, eqEq, notEq, ltEq, gtEq, lt, gt, ampAmp, pipePipe]

/-- The word matches a pattern, and this is what it is. A word that is spelled like a keyword is the
    keyword. -/
inductive Matches : List Char → Piece → Prop
  | gap {w : List Char} (h : w ∈ gaps) : Matches w .gap
  | keyword {t : Token} (h : t ∈ keywords) : Matches t.text.toList (.token t)
  | symbol {t : Token} (h : t ∈ symbols) : Matches t.text.toList (.token t)
  | float {w : List Char} (h : w ∈ floats) : Matches w (.token (.floatLit (floatOf w)))
  | int {w : List Char} (h : w ∈ digits) (hn : Number.natOfDigits w < UInt64.size) :
      Matches w (.token (.intLit (Number.natOfDigits w)))
  | tooLarge {w : List Char} (h : w ∈ digits) (hn : UInt64.size ≤ Number.natOfDigits w) :
      Matches w (.fault (.integerTooLarge (.ofList w)))
  | string {w : List Char} (h : w ∈ strings) :
      Matches w (.token (.stringLit (.ofList (unescape w.tail.dropLast))))
  | name {w : List Char} (h : w ∈ names) (hw : ∀ t ∈ keywords, t.text.toList ≠ w) :
      Matches w (.token (.ident (.ofList w)))

/-- Whether a piece may be what a word is, and is no fault for want of a word that matches. -/
def Piece.Matched : Piece → Prop
  | .fault .unterminatedString | .fault (.unexpected _) => False
  | _ => True

/-! ### Parts of words -/

/-- The digits of a numeral: at least one, and nothing else. -/
theorem mem_digits : w ∈ digits ↔ w ≠ [] ∧ ∀ c ∈ w, c.isDigit = true :=
  mem_run

theorem mem_fraction : w ∈ fraction ↔ ∃ ds ∈ digits, w = '.' :: ds := by
  simp [fraction, mem_one_mul]

/-- The sign of an exponent, which may be left out. -/
theorem mem_sign : w ∈ (1 + one fun c => c = '+' || c = '-' : Language Char) ↔
    w = [] ∨ w = ['+'] ∨ w = ['-'] := by
  rw [Language.mem_add, Language.mem_one]
  refine or_congr_right ⟨?_, ?_⟩
  · rintro ⟨c, hc, rfl⟩
    simpa using hc
  · rintro (rfl | rfl)
    exacts [⟨'+', rfl, rfl⟩, ⟨'-', rfl, rfl⟩]

/-- An exponent, taken apart into its letter, its sign and its digits. -/
theorem mem_exponent : w ∈ exponent ↔ ∃ e s ds, (e = 'e' ∨ e = 'E') ∧
    (s = [] ∨ s = ['+'] ∨ s = ['-']) ∧ ds ∈ digits ∧ w = e :: (s ++ ds) := by
  rw [exponent, mem_one_mul]
  constructor
  · rintro ⟨e, v, he, hv, rfl⟩
    obtain ⟨s, hs, ds, hds, rfl⟩ := Language.mem_mul.1 hv
    exact ⟨e, s, ds, by simpa using he, mem_sign.1 hs, hds, rfl⟩
  · rintro ⟨e, s, ds, he, hs, hds, rfl⟩
    exact ⟨e, s ++ ds, by simpa using he,
      Language.mem_mul.2 ⟨s, mem_sign.2 hs, ds, hds, rfl⟩, rfl⟩

/-- A float is a number with a fraction or an exponent. -/
theorem mem_floats : w ∈ floats ↔ ∃ ds fs xs, ds ∈ digits ∧ fs ∈ 1 + fraction ∧
    xs ∈ 1 + exponent ∧ ¬(fs = [] ∧ xs = []) ∧ w = ds ++ fs ++ xs := by
  -- Neither a fraction nor an exponent is empty, so that one of them is there shows in the word.
  have hfraction : [] ∉ fraction := by simp [mem_fraction]
  have hexponent : [] ∉ exponent := by simp [mem_exponent]
  rw [floats, Language.mem_add]
  constructor
  · rintro (h | h)
    · obtain ⟨v, hv, xs, hxs, rfl⟩ := Language.mem_mul.1 h
      obtain ⟨ds, hds, fs, hfs, rfl⟩ := Language.mem_mul.1 hv
      have hne : ¬(fs = [] ∧ xs = []) := fun hnil => hfraction (hnil.1 ▸ hfs)
      exact ⟨ds, fs, xs, hds, (Language.mem_add ..).2 (.inr hfs), hxs, hne, rfl⟩
    · obtain ⟨ds, hds, xs, hxs, rfl⟩ := Language.mem_mul.1 h
      have hne : ¬(([] : List Char) = [] ∧ xs = []) := fun hnil => hexponent (hnil.2 ▸ hxs)
      exact ⟨ds, [], xs, hds, (Language.mem_add ..).2 (.inl rfl),
        (Language.mem_add ..).2 (.inr hxs), hne, by rw [List.append_nil]⟩
  · rintro ⟨ds, fs, xs, hds, hfs, hxs, hne, rfl⟩
    obtain rfl | hfs := (Language.mem_add ..).1 hfs
    · obtain rfl | hxs := (Language.mem_add ..).1 hxs
      · exact absurd ⟨rfl, rfl⟩ hne
      · rw [List.append_nil]
        exact .inr (Language.append_mem_mul hds hxs)
    · exact .inl (Language.append_mem_mul (Language.append_mem_mul hds hfs) hxs)

/-- The characters of a name are tested as the scanner tests them: the first, then the others. -/
theorem mem_names : w ∈ names ↔
    w.head?.any isNameStart = true ∧ w.tail.all isNameChar = true := by
  cases w with
  | nil => simp [names, mem_one_mul]
  | cons c cs => simp [names, cons_mem_one_mul, mem_kstar_one]

/-- What a piece of a string literal is: a plain character, or an escape within its line. -/
theorem mem_plain_add_escaped : w ∈ plain + escaped ↔
    (∃ c, c ≠ '"' ∧ c ≠ '\\' ∧ w = [c]) ∨ ∃ c, c ≠ '\n' ∧ w = ['\\', c] := by
  rw [Language.mem_add]
  refine or_congr ?_ ?_
  · simp [plain, mem_one, and_assoc]
  · simp [escaped, mem_one_mul, mem_one]

/-! ### Strings -/

/-- The tail of a literal goes on after a plain character. -/
theorem stringTail_plain (hquote : c ≠ '"') (hslash : c ≠ '\\') :
    stringTail (c :: cs) = (c :: (stringTail cs).1, (stringTail cs).2) := by
  rw [stringTail]
  · exact hquote
  · exact fun hc => absurd hc hslash
  · exact fun _ hc => absurd hc hslash
  · exact fun _ _ hc => absurd hc hslash

/-- The tail of a literal goes on after an escape, whatever is escaped. -/
theorem stringTail_escaped (hc : c ≠ '\n') :
    stringTail ('\\' :: c :: cs) = ('\\' :: c :: (stringTail cs).1, (stringTail cs).2) := by
  rw [stringTail]
  exact hc

/-- A string literal goes on to the quote that stands behind whole characters. -/
theorem stringTail_append (h : w ∈ (plain + escaped)∗) (rest : List Char) :
    stringTail (w ++ '"' :: rest) = (w ++ ['"'], true) := by
  obtain ⟨ws, rfl, hws⟩ := Language.mem_kstar.1 h
  clear h
  induction ws with
  | nil => rfl
  | cons v ws ih =>
    obtain ⟨hv, hitems⟩ := List.forall_mem_cons.1 hws
    specialize ih hitems
    rw [List.flatten_cons]
    obtain ⟨c, hquote, hslash, rfl⟩ | ⟨c, hc, rfl⟩ := mem_plain_add_escaped.1 hv
    · rw [List.append_assoc, List.singleton_append, stringTail_plain hquote hslash, ih]
      rfl
    · rw [List.append_assoc, List.cons_append, List.singleton_append, stringTail_escaped hc, ih]
      rfl

/-- What stands before the quote that ends a string literal are whole characters. -/
theorem stringTail_closed (h : stringTail cs = (tail, true)) :
    ∃ w ∈ (plain + escaped)∗, tail = w ++ ['"'] := by
  fun_induction stringTail cs generalizing tail with
  | case1 => cases h
  | case2 cs =>
    cases h
    exact ⟨[], Language.nil_mem_kstar _, rfl⟩
  | case3 => cases h
  | case4 => cases h
  | case5 c cs hc tail' closed heq ih =>
    cases h
    obtain ⟨w, hw, rfl⟩ := ih heq
    have hv := mem_plain_add_escaped.2 (.inr ⟨c, hc, rfl⟩)
    exact ⟨'\\' :: c :: w, append_mem_kstar hv hw, rfl⟩
  | case6 c cs hquote hend _ hpair tail' closed heq ih =>
    cases h
    obtain ⟨w, hw, rfl⟩ := ih heq
    -- The rule comes last, after those for a backslash.
    have hslash : c ≠ '\\' := by
      intro hc
      cases cs with
      | nil => exact hend hc rfl
      | cons d ds => exact hpair d ds hc rfl
    have hv := mem_plain_add_escaped.2 (.inl ⟨c, hquote, hslash, rfl⟩)
    exact ⟨c :: w, append_mem_kstar hv hw, rfl⟩

/-! ### Numbers -/

/-- Without a point there is no fraction. -/
theorem fractionTail_of_ne (h : ∀ c ∈ cs.head?, c ≠ '.') : fractionTail cs = [] := by
  rcases cs with _ | ⟨c, cs⟩
  · rfl
  · simp [fractionTail, h c rfl]

/-- A fraction goes on as long as there are digits. -/
theorem fractionTail_append (h : fs ∈ fraction) (rest : List Char) :
    fractionTail (fs ++ rest) = fs ++ rest.takeWhile Char.isDigit := by
  obtain ⟨ds, hds, rfl⟩ := mem_fraction.1 h
  obtain ⟨hne, hdigits⟩ := mem_digits.1 hds
  have hrun : (ds ++ rest).takeWhile Char.isDigit = ds ++ rest.takeWhile Char.isDigit :=
    List.takeWhile_append_of_pos hdigits
  rw [List.cons_append, fractionTail, hrun, if_neg (List.append_ne_nil_of_left_ne_nil hne _)]
  rfl

/-- What is read as a fraction is one, or nothing. -/
theorem fractionTail_mem (cs : List Char) : fractionTail cs ∈ 1 + fraction := by
  rw [Language.mem_add, Language.mem_one]
  obtain h | ⟨ds, hne, hdigits, h, -⟩ := fractionTail_cases cs
  · exact .inl h
  · exact .inr (mem_fraction.2 ⟨ds, mem_digits.2 ⟨hne, hdigits⟩, h⟩)

theorem signOf_cases (cs : List Char) : signOf cs = [] ∨ signOf cs = ['+'] ∨ signOf cs = ['-'] := by
  rcases cs with _ | ⟨c, cs⟩
  · exact .inl rfl
  by_cases hc : c = '+' ∨ c = '-'
  · rcases hc with rfl | rfl
    exacts [.inr (.inl rfl), .inr (.inr rfl)]
  · exact .inl (by simp [signOf, hc])

/-- An exponent goes on as long as there are digits. -/
theorem leadingExponent_append (h : xs ∈ exponent) (rest : List Char) :
    Number.leadingExponent (xs ++ rest) = xs ++ rest.takeWhile Char.isDigit := by
  obtain ⟨e, s, ds, he, hs, hds, rfl⟩ := mem_exponent.1 h
  obtain ⟨hne, hdigits⟩ := mem_digits.1 hds
  have hhead : ∀ x ∈ (ds ++ rest).head?, x.isDigit = true := by
    obtain ⟨d, ds, rfl⟩ := List.exists_cons_of_ne_nil hne
    intro x hx
    cases hx
    exact hdigits d List.mem_cons_self
  have hself : signOf s = s := by
    rcases hs with rfl | rfl | rfl <;> rfl
  have hsign : signOf (s ++ (ds ++ rest)) = s := by
    have := signOf_append s hhead
    rwa [hself] at this
  have hfound : ((s ++ (ds ++ rest)).drop (signOf (s ++ (ds ++ rest))).length).takeWhile
      Char.isDigit = ds ++ rest.takeWhile Char.isDigit := by
    rw [hsign, List.drop_left, List.takeWhile_append_of_pos hdigits]
  rw [List.cons_append, List.append_assoc,
    leadingExponent_cons he hfound (List.append_ne_nil_of_left_ne_nil hne _), hsign]
  simp only [List.cons_append, List.append_assoc]

/-- What is read as an exponent is one, or nothing. -/
theorem leadingExponent_mem (cs : List Char) : Number.leadingExponent cs ∈ 1 + exponent := by
  rw [Language.mem_add, Language.mem_one]
  obtain h | ⟨e, xs, ds, rfl, he, hne, hds⟩ := leadingExponent_cases cs
  · exact .inl h
  · have hdigits : ∀ d ∈ ds, d.isDigit = true := fun d hd => List.mem_takeWhile_imp (hds ▸ hd)
    rw [leadingExponent_cons he hds hne]
    exact .inr (mem_exponent.2
      ⟨e, signOf xs, ds, he, signOf_cases xs, mem_digits.2 ⟨hne, hdigits⟩, rfl⟩)

/-- Neither a digit nor a point begins an exponent. -/
theorem exponent_head? (h : xs ∈ exponent) (rest : List Char) :
    ∀ x ∈ (xs ++ rest).head?, x.isDigit = false ∧ x ≠ '.' := by
  obtain ⟨e, s, ds, he, -, -, rfl⟩ := mem_exponent.1 h
  intro x hx
  cases hx
  rcases he with rfl | rfl <;> decide

/-- No digit begins a fraction. -/
theorem fraction_head? (h : fs ∈ fraction) (rest : List Char) :
    ∀ x ∈ (fs ++ rest).head?, x.isDigit = false := by
  obtain ⟨ds, -, rfl⟩ := mem_fraction.1 h
  intro x hx
  cases hx
  rfl

/-- The parts of the number that goes on with `cs` behind its first digit. -/
structure Parts (cs ds fs xs : List Char) : Prop where
  digits : cs.takeWhile Char.isDigit = ds
  fraction : fractionTail (cs.dropWhile Char.isDigit) = fs
  exponent : Number.leadingExponent ((cs.dropWhile Char.isDigit).drop fs.length) = xs

/-- What follows the first digit of a number can always be taken apart. -/
theorem exists_parts (cs : List Char) : ∃ ds fs xs, Parts cs ds fs xs :=
  ⟨_, _, _, rfl, rfl, rfl⟩

/-- What a number is read as, told by its parts: an integer if there is no fraction and no exponent.
    -/
theorem Parts.numberPiece (h : Parts cs ds fs xs) (c : Char) : numberPiece c cs =
    (if fs = [] ∧ xs = [] then intPiece (c :: ds)
      else .token (.floatLit (floatOf (c :: (ds ++ fs ++ xs)))), ds ++ fs ++ xs) :=
  numberPiece_eq c h.digits rfl h.fraction h.exponent

/-- The parts are at the front. -/
theorem Parts.leads (h : Parts cs ds fs xs) : ds ++ fs ++ xs <+: cs := by
  have hfs := (fractionTail_settled (cs.dropWhile Char.isDigit)).1
  have hxs := (leadingExponent_settled ((cs.dropWhile Char.isDigit).drop fs.length)).1
  rw [h.fraction] at hfs
  rw [h.exponent] at hxs
  have hcs : ds ++ (fs ++ (cs.dropWhile Char.isDigit).drop fs.length) = cs := by
    rw [List.prefix_iff_eq_append.1 hfs, ← h.digits, List.takeWhile_append_dropWhile]
  rw [← hcs, List.append_assoc]
  exact (List.prefix_append_right_inj _).2 ((List.prefix_append_right_inj _).2 hxs)

/-- Behind digits: more digits, and the other parts may follow. -/
theorem parts_digits (hds : ∀ d ∈ ds, d.isDigit = true) (rest : List Char) : ∃ more fs xs,
    Parts (ds ++ rest) (ds ++ more) fs xs := by
  obtain ⟨ds', fs, xs, h⟩ := exists_parts (ds ++ rest)
  exact ⟨rest.takeWhile Char.isDigit, fs, xs, List.takeWhile_append_of_pos hds, h.fraction,
    h.exponent⟩

/-- Behind a fraction: more digits, and an exponent may follow. -/
theorem parts_fraction (hds : ∀ d ∈ ds, d.isDigit = true) (hfs : fs ∈ fraction)
    (rest : List Char) : ∃ more xs, Parts (ds ++ fs ++ rest) ds (fs ++ more) xs := by
  rw [List.append_assoc]
  have hdrop : (ds ++ (fs ++ rest)).dropWhile Char.isDigit = fs ++ rest :=
    dropWhile_run hds (fraction_head? hfs rest)
  refine ⟨rest.takeWhile Char.isDigit, _, takeWhile_run hds (fraction_head? hfs rest), ?_, rfl⟩
  rw [hdrop, fractionTail_append hfs]

/-- Behind an exponent: more digits. -/
theorem parts_exponent (hds : ∀ d ∈ ds, d.isDigit = true) (hfs : fs ∈ 1 + fraction)
    (hxs : xs ∈ exponent) (rest : List Char) :
    ∃ more, Parts (ds ++ fs ++ xs ++ rest) ds fs (xs ++ more) := by
  have hhead := exponent_head? hxs rest
  -- There is no fraction but the one that stands before the exponent.
  have hfraction : (∀ x ∈ (fs ++ (xs ++ rest)).head?, x.isDigit = false) ∧
      fractionTail (fs ++ (xs ++ rest)) = fs := by
    obtain rfl | hfs := (Language.mem_add ..).1 hfs
    · exact ⟨fun x hx => (hhead x hx).1, fractionTail_of_ne fun x hx => (hhead x hx).2⟩
    · have hnone : ([] ++ (xs ++ rest)).takeWhile Char.isDigit = [] :=
        takeWhile_run (by simp) fun x hx => (hhead x hx).1
      refine ⟨fraction_head? hfs _, ?_⟩
      rw [fractionTail_append hfs, ← List.nil_append (xs ++ rest), hnone, List.append_nil]
  have hdrop : (ds ++ (fs ++ (xs ++ rest))).dropWhile Char.isDigit = fs ++ (xs ++ rest) :=
    dropWhile_run hds hfraction.1
  rw [List.append_assoc, List.append_assoc]
  refine ⟨rest.takeWhile Char.isDigit, takeWhile_run hds hfraction.1, ?_, ?_⟩
  · rw [hdrop, hfraction.2]
  · rw [hdrop, List.drop_left, leadingExponent_append hxs]

/-- With more text behind a number, its parts are found again, and more may belong to them. -/
theorem exists_parts_append (hds : ∀ d ∈ ds, d.isDigit = true) (hfs : fs ∈ 1 + fraction)
    (hxs : xs ∈ 1 + exponent) (rest : List Char) : ∃ ds' fs' xs' more,
      Parts (ds ++ fs ++ xs ++ rest) ds' fs' xs' ∧
        ds' ++ fs' ++ xs' = ds ++ fs ++ xs ++ more ∧
        (more = [] → ds' = ds ∧ fs' = fs ∧ xs' = xs) := by
  -- Only the last part that there is can go on, and only parts that there are not can follow it.
  obtain rfl | hexponent := (Language.mem_add ..).1 hxs
  · obtain rfl | hfraction := (Language.mem_add ..).1 hfs
    · obtain ⟨more, fs, xs, h⟩ := parts_digits hds rest
      refine ⟨_, _, _, more ++ fs ++ xs, by simpa using h, by simp, fun hmore => ?_⟩
      obtain ⟨rfl, rfl, rfl⟩ : more = [] ∧ fs = [] ∧ xs = [] := by simpa using hmore
      exact ⟨List.append_nil ds, rfl, rfl⟩
    · obtain ⟨more, xs, h⟩ := parts_fraction hds hfraction rest
      refine ⟨_, _, _, more ++ xs, by simpa using h, by simp, fun hmore => ?_⟩
      obtain ⟨rfl, rfl⟩ := List.append_eq_nil_iff.1 hmore
      exact ⟨rfl, List.append_nil fs, rfl⟩
  · obtain ⟨more, h⟩ := parts_exponent hds hfs hexponent rest
    refine ⟨_, _, _, more, h, by simp, fun hmore => ?_⟩
    exact ⟨rfl, rfl, by rw [hmore, List.append_nil]⟩

/-! ### Reading a word -/

/-- The piece is read off the word that begins with `c` and goes on with `tail`, whatever follows
    it, unless a longer piece is read. -/
def Reaches (read : List Char → Piece × List Char) (tail : List Char) (q : Piece) : Prop :=
  ∀ rest, ∃ q' more, read (tail ++ rest) = (q', tail ++ more) ∧ q'.Matched ∧ (more = [] → q' = q)

/-- An integer is read as something, be it as too large. -/
theorem intPiece_matched (whole : List Char) : (intPiece whole).Matched := by
  unfold intPiece
  dsimp only
  split <;> trivial

/-- A run of characters of one kind goes on with these characters. -/
theorem takeWhile_reaches {read : List Char → Piece × List Char} (word : List Char → Piece)
    (hread : ∀ rest, read (tail ++ rest) =
      (word ((tail ++ rest).takeWhile p), (tail ++ rest).takeWhile p))
    (hword : ∀ tail, (word tail).Matched) (h : ∀ c ∈ tail, p c = true) :
    Reaches read tail (word tail) := by
  intro rest
  refine ⟨_, rest.takeWhile p, ?_, hword (tail ++ rest.takeWhile p), fun hmore => ?_⟩
  · rw [hread, List.takeWhile_append_of_pos h]
  · rw [hmore, List.append_nil]

/-- A number is read to the end of its parts, or beyond it. -/
theorem numberPiece_reaches (hds : ∀ d ∈ ds, d.isDigit = true) (hfs : fs ∈ 1 + fraction)
    (hxs : xs ∈ 1 + exponent) : Reaches (numberPiece c) (ds ++ fs ++ xs)
      (if fs = [] ∧ xs = [] then intPiece (c :: ds)
        else .token (.floatLit (floatOf (c :: (ds ++ fs ++ xs))))) := by
  intro rest
  obtain ⟨ds', fs', xs', more, hparts, htail, hself⟩ := exists_parts_append hds hfs hxs rest
  refine ⟨_, more, by rw [hparts.numberPiece, htail], ?_, ?_⟩
  · split
    exacts [intPiece_matched _, trivial]
  · intro hmore
    obtain ⟨rfl, rfl, rfl⟩ := hself hmore
    rw [hmore, List.append_nil]

/-- A string literal is read to the quote that closes it. -/
theorem stringPiece_reaches (h : w ∈ (plain + escaped)∗) :
    Reaches stringPiece (w ++ ['"']) (.token (.stringLit (.ofList (unescape w)))) := by
  refine fun rest => ⟨_, [], ?_, ?_, fun _ => rfl⟩
  · rw [List.append_assoc, List.singleton_append, stringPiece, stringTail_append h]
    simp only [List.dropLast_concat, List.append_nil]
  · trivial

/-- A character that begins no other word than a symbol or, if it is a slash, a comment. -/
structure Mark (c : Char) : Prop where
  space : isSpace c = false
  hash : c ≠ '#'
  quote : c ≠ '"'
  digit : c.isDigit = false
  name : isNameStart c = false

/-- A symbol has one character or two, and is found by them. -/
theorem symbols_cases : ∀ t ∈ symbols,
    (∃ c, t.text.toList = [c] ∧ single? c = some t) ∨
      ∃ c d, t.text.toList = [c, d] ∧ pair? c d = some t := by
  simp [symbols, text, single?, pair?]

/-- What one character is read as is a symbol with that text. -/
theorem single?_cases (h : single? c = some t) : t ∈ symbols ∧ t.text.toList = [c] ∧ Mark c := by
  unfold single? at h
  split at h <;> cases h
  all_goals exact ⟨by decide, rfl, rfl, by decide, by decide, rfl, rfl⟩

/-- What two characters are read as is a symbol with that text, and no comment starts so. -/
theorem pair?_cases (h : pair? c d = some t) :
    t ∈ symbols ∧ t.text.toList = [c, d] ∧ c ≠ '/' ∧ Mark c := by
  unfold pair? at h
  split at h <;> cases h
  all_goals exact ⟨by decide, rfl, by decide, rfl, by decide, by decide, rfl, rfl⟩

/-- A mark that starts no comment is read as a symbol. -/
theorem front_mark (hc : Mark c) (h : ¬(c = '/' ∧ cs.head? = some '/')) :
    front c cs = symbolPiece c cs := by
  have hspace : ¬isSpace c = true := by simp [hc.space]
  have hcomment : ¬(c = '#' ∨ (c = '/' ∧ cs.head? = some '/')) := by
    rintro (hhash | hslash)
    exacts [hc.hash hhash, h hslash]
  have hdigit : ¬c.isDigit = true := by simp [hc.digit]
  have hname : ¬isNameStart c = true := by simp [hc.name]
  rw [front, if_neg hspace, if_neg hcomment, if_neg hc.quote, if_neg hdigit, if_neg hname]

/-- Neither a gap nor a string literal begins with a character of a kind without these. -/
theorem front_kind (hc : p c = true)
    (hp : [' ', '\t', '\n', '\r', '#', '/', '"'].any p = false) : front c cs =
      if c.isDigit then numberPiece c cs
      else if isNameStart c then wordPiece c cs else symbolPiece c cs := by
  have hne : ∀ d ∈ [' ', '\t', '\n', '\r', '#', '/', '"'], c ≠ d := by
    rintro d hd rfl
    exact List.any_eq_false.1 hp c hd hc
  simp only [List.forall_mem_cons] at hne
  simp [front, isSpace, hne]

theorem front_digit (hc : c.isDigit = true) : front c cs = numberPiece c cs := by
  rw [front_kind hc rfl, if_pos hc]

/-- No name starts with a digit, so numbers and names are told apart by their first character. -/
theorem not_isDigit_of_isNameStart (hc : isNameStart c = true) : ¬c.isDigit = true := by
  obtain hc | rfl : c.isAlpha = true ∨ c = '_' := by simpa [isNameStart] using hc
  · intro hdigit
    -- The digits stand before all letters.
    have hle : c.val ≤ '9'.val := of_decide_eq_true (Bool.and_eq_true_iff.1 hdigit).2
    have hge : 'A'.val ≤ c.val := by
      rcases Bool.or_eq_true_iff.1 hc with hupper | hlower
      · have hbounds : 'A'.val ≤ c.val ∧ c.val ≤ 'Z'.val := of_decide_eq_true hupper
        exact hbounds.1
      · have hlow : 'a'.val ≤ c.val := of_decide_eq_true (Bool.and_eq_true_iff.1 hlower).1
        exact UInt32.le_trans (by decide) hlow
    exact absurd (UInt32.le_trans hge hle) (by decide)
  · decide

theorem front_name (hc : isNameStart c = true) : front c cs = wordPiece c cs := by
  rw [front_kind hc rfl, if_neg (not_isDigit_of_isNameStart hc), if_pos hc]

/-- A comment runs to the end of its line, whichever way it starts. -/
theorem front_comment (h : c = '#' ∨ (c = '/' ∧ cs.head? = some '/')) :
    front c cs = (.gap, cs.takeWhile (· ≠ '\n')) := by
  have hspace : ¬isSpace c = true := by
    rcases h with rfl | ⟨rfl, -⟩ <;> decide
  rw [front, if_neg hspace, if_pos h]

/-- A symbol of two characters is read as that or as a part of something longer. -/
theorem front_pair_reaches (h : pair? c d = some t) : Reaches (front c) [d] (.token t) := by
  obtain ⟨-, -, hslash, hmark⟩ := pair?_cases h
  intro rest
  refine ⟨_, [], ?_, ?_, fun _ => rfl⟩
  · rw [front_mark hmark fun hc => hslash hc.1]
    simp [symbolPiece, h]
  · trivial

/-- A symbol of one character is read as that or as a part of something longer. -/
theorem front_single_reaches (h : single? c = some t) : Reaches (front c) [] (.token t) := by
  obtain ⟨-, -, hmark⟩ := single?_cases h
  intro rest
  rw [List.nil_append]
  -- More is read if a second slash makes it a comment, or a second character another symbol.
  by_cases hcomment : c = '/' ∧ rest.head? = some '/'
  · refine ⟨_, _, front_comment (.inr hcomment), ?_, fun hmore => ?_⟩
    · trivial
    · rcases rest with _ | ⟨d, ds⟩
      · cases hcomment.2
      · obtain rfl := Option.some.inj hcomment.2
        cases hmore
  · rw [front_mark hmark hcomment, symbolPiece, h]
    cases hpair : rest.head?.bind (pair? c) with
    | none => exact ⟨_, [], rfl, trivial, fun _ => rfl⟩
    | some u =>
      refine ⟨_, _, rfl, trivial, fun hmore => ?_⟩
      rcases rest with _ | ⟨d, ds⟩
      · cases hpair
      · cases hmore

/-- Blanks and comments are read to their end, or beyond it. -/
theorem front_gap_reaches (h : c :: tail ∈ gaps) : Reaches (front c) tail .gap := by
  have hmatched : Piece.gap.Matched := trivial
  rw [gaps, Language.mem_add, Language.mem_add] at h
  rcases h with (h | h) | h
  · obtain ⟨hc, htail⟩ := cons_mem_run.1 h
    refine takeWhile_reaches (fun _ => .gap) (fun rest => ?_) (fun _ => hmatched) htail
    rw [front, if_pos hc]
  · obtain ⟨hc, htail⟩ := cons_mem_one_mul.1 h
    obtain ⟨d, line, hd, hline, rfl⟩ := mem_one_mul.1 htail
    have hc : c = '/' := of_decide_eq_true hc
    have hd : d = '/' := of_decide_eq_true hd
    have hall : ∀ x ∈ d :: line, decide (x ≠ '\n') = true :=
      List.forall_mem_cons.2 ⟨by rw [hd]; decide, mem_kstar_one.1 hline⟩
    refine takeWhile_reaches (fun _ => .gap) (fun rest => ?_) (fun _ => hmatched) hall
    exact front_comment (.inr ⟨hc, congrArg some hd⟩)
  · obtain ⟨hc, htail⟩ := cons_mem_one_mul.1 h
    refine takeWhile_reaches (fun _ => .gap) (fun rest => ?_) (fun _ => hmatched)
      (mem_kstar_one.1 htail)
    exact front_comment (.inl (of_decide_eq_true hc))

/-- A name or a keyword is read to its end, or as a part of a longer one. -/
theorem front_name_reaches (h : c :: tail ∈ names) :
    Reaches (front c) tail (.token (ofWord (.ofList (c :: tail)))) := by
  obtain ⟨hc, htail⟩ := cons_mem_one_mul.1 h
  refine takeWhile_reaches (fun tail => .token (ofWord (.ofList (c :: tail)))) (fun rest => ?_)
    (fun _ => ?_) (mem_kstar_one.1 htail)
  · exact front_name hc
  · trivial

theorem front_number_reaches (hds : c :: ds ∈ digits) (hfs : fs ∈ 1 + fraction)
    (hxs : xs ∈ 1 + exponent) : Reaches (front c) (ds ++ fs ++ xs)
      (if fs = [] ∧ xs = [] then intPiece (c :: ds)
        else .token (.floatLit (floatOf (c :: (ds ++ fs ++ xs))))) := by
  obtain ⟨hc, hds⟩ := cons_mem_run.1 hds
  have hfront : front c = numberPiece c := funext fun _ => front_digit hc
  rw [hfront]
  exact numberPiece_reaches hds hfs hxs

theorem front_int_reaches (h : c :: tail ∈ digits) :
    Reaches (front c) tail (intPiece (c :: tail)) := by
  have hreaches := front_number_reaches h ((Language.mem_add ..).2 (.inl rfl))
    ((Language.mem_add ..).2 (.inl rfl))
  rwa [if_pos ⟨rfl, rfl⟩, List.append_nil, List.append_nil] at hreaches

/-- Every keyword is spelled like a name, and is what its spelling is read as. -/
theorem keyword_text : ∀ t ∈ keywords, t.text.toList ∈ names ∧ ofWord t.text = t := by
  simp only [mem_names]
  decide

/-- A word that spells no keyword is an identifier. -/
theorem ofWord_of_ne (h : ∀ t ∈ keywords, t.text.toList ≠ w) :
    ofWord (.ofList w) = .ident (.ofList w) := by
  have hnone : keywords.find? (·.text == String.ofList w) = none := by
    rw [List.find?_eq_none]
    intro t ht htext
    exact h t ht (by rw [eq_of_beq htext, String.toList_ofList])
  rw [ofWord, hnone]
  rfl

/-- A word is read to its end whatever follows it, as what it matches or as a longer piece. -/
theorem Matches.reaches (h : Matches (c :: tail) q) : Reaches (front c) tail q := by
  -- A keyword or a symbol is given by its spelling, and its first character is not in sight.
  generalize hw : c :: tail = w at h
  induction h with
  | gap h => exact front_gap_reaches (hw ▸ h)
  | keyword h =>
    obtain ⟨hname, htoken⟩ := keyword_text _ h
    have hreaches := front_name_reaches (hw ▸ hname)
    rwa [hw, String.ofList_toList, htoken] at hreaches
  | symbol h =>
    obtain ⟨d, htext, hd⟩ | ⟨d, e, htext, hd⟩ := symbols_cases _ h
    · obtain ⟨rfl, rfl⟩ := List.cons.inj (hw.trans htext)
      exact front_single_reaches hd
    · obtain ⟨rfl, rfl⟩ := List.cons.inj (hw.trans htext)
      exact front_pair_reaches hd
  | float h =>
    obtain ⟨ds, fs, xs, hds, hfs, hxs, hne, rfl⟩ := mem_floats.1 h
    obtain ⟨d, ds, rfl⟩ := List.exists_cons_of_ne_nil (mem_digits.1 hds).1
    rw [List.cons_append, List.cons_append] at hw ⊢
    obtain ⟨rfl, rfl⟩ := List.cons.inj hw
    have hreaches := front_number_reaches hds hfs hxs
    rwa [if_neg hne] at hreaches
  | int h hn =>
    have hreaches := front_int_reaches (hw ▸ h)
    rwa [hw, intPiece, if_pos hn] at hreaches
  | tooLarge h hn =>
    have hreaches := front_int_reaches (hw ▸ h)
    rwa [hw, intPiece, if_neg (Nat.not_lt.2 hn)] at hreaches
  | string h =>
    obtain ⟨d, v, hd, hv, rfl⟩ := mem_one_mul.1 h
    obtain ⟨rfl, rfl⟩ := List.cons.inj hw
    obtain rfl : c = '"' := of_decide_eq_true hd
    obtain ⟨inner, hinner, _, ⟨d, hd, rfl⟩, rfl⟩ := Language.mem_mul.1 hv
    obtain rfl : d = '"' := of_decide_eq_true hd
    have hreaches := stringPiece_reaches hinner
    rwa [List.tail_cons, List.dropLast_concat]
  | name h hn =>
    have hreaches := front_name_reaches (hw ▸ h)
    rwa [hw, ofWord_of_ne hn] at hreaches

/-! ### What is read matches -/

theorem matches_intPiece (h : w ∈ digits) : Matches w (intPiece w) := by
  unfold intPiece
  dsimp only
  split
  · next hn => exact .int h hn
  · next hn => exact .tooLarge h (Nat.not_lt.1 hn)

/-- Whatever a word is read as, keyword or identifier, it matches as that. -/
theorem matches_ofWord (h : w ∈ names) : Matches w (.token (ofWord (.ofList w))) := by
  by_cases hw : ∃ t ∈ keywords, t.text.toList = w
  · obtain ⟨t, ht, rfl⟩ := hw
    rw [String.ofList_toList, (keyword_text t ht).2]
    exact .keyword ht
  · have hne : ∀ t ∈ keywords, t.text.toList ≠ w := fun t ht htext => hw ⟨t, ht, htext⟩
    rw [ofWord_of_ne hne]
    exact .name h hne

/-- What is read of a number is what is read as a number by the patterns. -/
theorem numberPiece_matches (hc : c.isDigit = true) (h : numberPiece c cs = (q, tail)) :
    tail <+: cs ∧ Matches (c :: tail) q := by
  obtain ⟨ds, fs, xs, hparts⟩ := exists_parts cs
  rw [hparts.numberPiece] at h
  obtain ⟨rfl, rfl⟩ := Prod.mk.inj h
  refine ⟨hparts.leads, ?_⟩
  have hds : c :: ds ∈ digits :=
    cons_mem_run.2 ⟨hc, fun d hd => List.mem_takeWhile_imp (hparts.digits ▸ hd)⟩
  split
  · next hnil =>
    rw [hnil.1, hnil.2, List.append_nil, List.append_nil]
    exact matches_intPiece hds
  · next hne =>
    exact .float (mem_floats.2 ⟨c :: ds, fs, xs, hds, hparts.fraction ▸ fractionTail_mem _,
      hparts.exponent ▸ leadingExponent_mem _, hne, rfl⟩)

/-- What is read of a string literal, if it is closed, matches the pattern of literals. -/
theorem stringPiece_matches (h : stringPiece cs = (q, tail)) (hq : q.Matched) :
    tail <+: cs ∧ Matches ('"' :: tail) q := by
  unfold stringPiece at h
  split at h
  · next tail' hs =>
    cases h
    obtain ⟨v, hv, rfl⟩ := stringTail_closed hs
    refine ⟨(stringTail_settled hs).1, ?_⟩
    have hmem : '"' :: (v ++ ['"']) ∈ strings :=
      cons_mem_one_mul.2 ⟨rfl, Language.append_mem_mul hv ⟨'"', rfl, rfl⟩⟩
    exact .string hmem
  · cases h
    exact hq.elim

/-- What is read as a symbol matches its text. -/
theorem symbolPiece_matches (h : symbolPiece c cs = (q, tail)) (hq : q.Matched) :
    tail <+: cs ∧ Matches (c :: tail) q := by
  unfold symbolPiece at h
  split at h
  · next t ht =>
    obtain ⟨rfl, rfl⟩ := Prod.mk.inj h
    rcases cs with _ | ⟨d, ds⟩
    · cases ht
    · obtain ⟨hmem, htext, -, -⟩ := pair?_cases ht
      exact ⟨List.take_prefix 1 _, htext ▸ .symbol hmem⟩
  · split at h
    · next t ht =>
      obtain ⟨rfl, rfl⟩ := Prod.mk.inj h
      obtain ⟨hmem, htext, -⟩ := single?_cases ht
      exact ⟨List.nil_prefix, htext ▸ .symbol hmem⟩
    · cases h
      exact hq.elim

/-- What is read at the front of a text is at its front and matches. -/
theorem front_matches (h : front c cs = (q, tail)) (hq : q.Matched) :
    tail <+: cs ∧ Matches (c :: tail) q := by
  unfold front at h
  split at h
  · next hc =>
    cases h
    have hmem : c :: cs.takeWhile isSpace ∈ run isSpace :=
      cons_mem_run.2 ⟨hc, fun d hd => List.mem_takeWhile_imp hd⟩
    exact ⟨List.takeWhile_prefix _, .gap (.inl (.inl hmem))⟩
  split at h
  · next hc =>
    cases h
    refine ⟨List.takeWhile_prefix _, .gap ?_⟩
    rcases hc with rfl | ⟨rfl, hhead⟩
    · have hline := mem_kstar_one.2 fun d (hd : d ∈ cs.takeWhile (· ≠ '\n')) =>
        List.mem_takeWhile_imp hd
      exact .inr (cons_mem_one_mul.2 ⟨rfl, hline⟩)
    · obtain ⟨ds, rfl⟩ := List.head?_eq_some_iff.1 hhead
      have hline := mem_kstar_one.2 fun d (hd : d ∈ ds.takeWhile (· ≠ '\n')) =>
        List.mem_takeWhile_imp hd
      exact .inl (.inr (cons_mem_one_mul.2 ⟨rfl, cons_mem_one_mul.2 ⟨rfl, hline⟩⟩))
  split at h
  · next hc =>
    subst hc
    exact stringPiece_matches h hq
  split at h
  · next hc => exact numberPiece_matches hc h
  split at h
  · next hc =>
    cases h
    exact ⟨List.takeWhile_prefix _, matches_ofWord (cons_mem_one_mul.2
      ⟨hc, mem_kstar_one.2 fun d hd => List.mem_takeWhile_imp hd⟩)⟩
  · exact symbolPiece_matches h hq

theorem ne_nil_of_mem_names (h : w ∈ names) : w ≠ [] := by
  obtain ⟨_, _, -, -, rfl⟩ := mem_one_mul.1 h
  exact List.cons_ne_nil _ _

/-- Nothing is read as a piece: no pattern has the empty word. -/
theorem Matches.ne_nil (h : Matches w q) : w ≠ [] := by
  cases h with
  | gap h =>
    rcases h with (h | h) | h
    all_goals
      obtain ⟨_, _, -, -, rfl⟩ := mem_one_mul.1 h
      exact List.cons_ne_nil _ _
  | keyword h => exact ne_nil_of_mem_names (keyword_text _ h).1
  | symbol h =>
    obtain ⟨_, htext, -⟩ | ⟨_, _, htext, -⟩ := symbols_cases _ h
    all_goals
      rw [htext]
      exact List.cons_ne_nil _ _
  | float h =>
    obtain ⟨ds, fs, xs, hds, -, -, -, rfl⟩ := mem_floats.1 h
    exact List.append_ne_nil_of_left_ne_nil
      (List.append_ne_nil_of_left_ne_nil (mem_digits.1 hds).1 fs) xs
  | int h => exact (mem_digits.1 h).1
  | tooLarge h => exact (mem_digits.1 h).1
  | string h =>
    obtain ⟨_, _, -, -, rfl⟩ := mem_one_mul.1 h
    exact List.cons_ne_nil _ _
  | name h => exact ne_nil_of_mem_names h

/-- A word that matches is read, if it is the whole text. -/
theorem Matches.front (h : Matches (c :: tail) q) : front c tail = (q, tail) := by
  obtain ⟨q', more, hread, hq, hself⟩ := h.reaches []
  rw [List.append_nil] at hread
  have hmore : more = [] := by
    have := (front_matches hread hq).1.length_le
    rw [List.length_append] at this
    exact List.eq_nil_of_length_eq_zero (by omega)
  rw [hread, hmore, hself hmore, List.append_nil]

/-- A word matches one pattern at most. -/
theorem Matches.unique {q' : Piece} (h : Matches w q) (h' : Matches w q') : q = q' := by
  obtain ⟨c, tail, rfl⟩ := List.exists_cons_of_ne_nil h.ne_nil
  exact (Prod.mk.inj (h.front.symm.trans h'.front)).1

end PoolScript.Token
