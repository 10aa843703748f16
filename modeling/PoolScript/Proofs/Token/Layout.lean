import Mathlib.Data.List.TakeWhile
import PoolScript.Token.Scan

/-!
# Words and gaps

A source text that can be scanned is cut into *words*, which are the spellings of its tokens, and
gaps between them (`Cut`). A word is read as its token whatever follows it, as long as that is
nothing or begins with a blank (`front_settled`): no number, no operator and no comment reaches
across a blank, and what looks like a comment inside a string literal ends with the literal.

So the text can be laid out anew (`Relaid`): its words in their order, with any *gap* after each
of them, that is, blanks and comments that begin with a blank, and any *filler* before the first
one. It is scanned into the same tokens again.

* `cut_of_scanFrom`, `scanFrom_of_cut`: the words of a text, and that its tokens are the spans of
  its words;
* `scan_relaid`: a text that is laid out anew has the same tokens.
-/

namespace PoolScript.Token

/-! ### Layout -/

/-- Blanks and comments, each comment with the newline that ends it. -/
inductive Filler : List Char → Prop
  | nil : Filler []
  | space {c : Char} {cs : List Char} : isSpace c = true → Filler cs → Filler (c :: cs)
  | comment {mark line cs : List Char} : mark = ['#'] ∨ mark = ['/', '/'] → '\n' ∉ line →
      Filler cs → Filler (mark ++ line ++ '\n' :: cs)

/-- Nothing, or a text that begins with a blank. -/
def Apart (cs : List Char) : Prop :=
  ∀ c ∈ cs.head?, isSpace c = true

/-- Blanks and comments that begin with a blank. -/
structure Gap (cs : List Char) : Prop where
  filler : Filler cs
  apart : Apart cs
  ne_nil : cs ≠ []

/-- The words in a row, with a gap after each but perhaps the last one. -/
inductive Spread : List (List Char) → List Char → Prop
  | nil : Spread [] []
  | last {w gap : List Char} : gap = [] ∨ Gap gap → Spread [w] (w ++ gap)
  | cons {w gap cs : List Char} {ws : List (List Char)} : Gap gap → Spread ws cs →
      Spread (w :: ws) (w ++ (gap ++ cs))

/-- The characters of `cs` that begin within the span, the first of `cs` at the offset `pos`. -/
def covered (span : Span) (pos : Nat) : List Char → List Char
  | [] => []
  | c :: cs =>
    let rest := covered span (pos + c.utf8Size) cs
    if span.start ≤ pos ∧ pos < span.stop then c :: rest else rest

/-- The text `source'` has the spellings that the tokens have in `source`, in their order, with
    a gap after each but perhaps the last one and any filler before them. -/
def Relaid (source : String) (tokens : List (Token × Span)) (source' : String) : Prop :=
  ∃ before cs, Filler before ∧
    Spread (tokens.map fun t => covered t.2 0 source.toList) cs ∧ source'.toList = before ++ cs

/-! ### Runs of characters -/

variable {α : Type} {c d : Char} {cs tail rest rest₀ w text before : List Char} {t : Token}
  {pos : Nat}
  {ws : List (Token × List Char)} {p : Char → Bool}

/-- A run of characters of one kind ends where the kind ends. -/
theorem takeWhile_run {xs ys : List Char} (hx : ∀ x ∈ xs, p x = true)
    (hy : ∀ y ∈ ys.head?, p y = false) : (xs ++ ys).takeWhile p = xs := by
  rw [List.takeWhile_append_of_pos hx]
  rcases ys with _ | ⟨y, ys⟩
  · simp
  · simp [hy y rfl]

/-- A run of a kind of character is dropped if something else follows it. -/
theorem dropWhile_run {xs ys : List Char} (hx : ∀ x ∈ xs, p x = true)
    (hy : ∀ y ∈ ys.head?, p y = false) : (xs ++ ys).dropWhile p = ys := by
  rw [List.dropWhile_append_of_pos hx]
  rcases ys with _ | ⟨y, ys⟩
  · rfl
  · simp [hy y rfl]

/-- There are four blanks. -/
theorem isSpace_cases (h : isSpace c = true) : c = ' ' ∨ c = '\t' ∨ c = '\n' ∨ c = '\r' := by
  simpa [isSpace, or_assoc] using h

/-- A blank is not of another kind. -/
theorem Apart.kind (hr : Apart rest) (hp : p ' ' = false ∧ p '\t' = false ∧ p '\n' = false ∧
    p '\r' = false) : ∀ c ∈ rest.head?, p c = false := by
  intro c hc
  rcases isSpace_cases (hr c hc) with rfl | rfl | rfl | rfl
  exacts [hp.1, hp.2.1, hp.2.2.1, hp.2.2.2]

theorem Apart.digit (hr : Apart rest) : ∀ c ∈ rest.head?, c.isDigit = false :=
  hr.kind (by decide)

/-! ### Words are read whatever follows -/

/-- The tail of a word is at the front of what follows its first character, and is found there as
    long as a blank or nothing follows it. -/
structure Settled (read : List Char → α × List Char) (cs : List Char) (a : α)
    (tail : List Char) : Prop where
  front : tail <+: cs
  found : ∀ rest, Apart rest → read (tail ++ rest) = (a, tail)

/-- The end of a string literal is found by what stands before it. -/
theorem stringTail_settled (h : stringTail cs = (tail, true)) :
    tail <+: cs ∧ ∀ rest, stringTail (tail ++ rest) = (tail, true) := by
  fun_induction stringTail cs generalizing tail with
  | case1 => cases h
  | case2 cs =>
    cases h
    exact ⟨⟨cs, rfl⟩, fun rest => rfl⟩
  | case3 => cases h
  | case4 => cases h
  | case5 c cs hc tail' closed heq ih =>
    cases h
    obtain ⟨⟨rest₀, rfl⟩, hfound⟩ := ih heq
    refine ⟨⟨rest₀, rfl⟩, fun rest => ?_⟩
    rw [List.cons_append, List.cons_append, stringTail, hfound]
    exact hc
  | case6 c cs hquote hend _ hpair tail' closed heq ih =>
    cases h
    obtain ⟨⟨rest₀, rfl⟩, hfound⟩ := ih heq
    have hslash : c ≠ '\\' := by
      intro hc
      cases hcs : tail' ++ rest₀ with
      | nil => exact hend hc hcs
      | cons d ds => exact hpair d ds hc hcs
    refine ⟨⟨rest₀, rfl⟩, fun rest => ?_⟩
    rw [List.cons_append, stringTail, hfound]
    · exact hquote
    · exact fun hc => absurd hc hslash
    · exact fun _ hc => absurd hc hslash
    · exact fun _ _ hc => absurd hc hslash

/-- A string literal ends at its quote, whatever follows. -/
theorem stringPiece_settled (h : stringPiece cs = (.token t, tail)) :
    Settled stringPiece cs (.token t) tail := by
  unfold stringPiece at h
  split at h
  · next tail' hs =>
    cases h
    obtain ⟨hfront, hfound⟩ := stringTail_settled hs
    refine ⟨hfront, fun rest _ => ?_⟩
    rw [stringPiece, hfound]
  · cases h

/-- A fraction is a point and digits, or it is not there. -/
theorem fractionTail_cases (cs : List Char) : fractionTail cs = [] ∨
    ∃ ds, ds ≠ [] ∧ (∀ d ∈ ds, d.isDigit = true) ∧ fractionTail cs = '.' :: ds ∧
      '.' :: ds <+: cs := by
  rcases cs with _ | ⟨c, cs⟩
  · exact .inl rfl
  by_cases hc : c = '.'
  · subst hc
    by_cases hds : cs.takeWhile Char.isDigit = []
    · exact .inl (if_pos hds)
    · refine .inr ⟨_, hds, fun d hd => List.mem_takeWhile_imp hd, if_neg hds, ?_⟩
      exact (List.prefix_cons_inj _).2 (List.takeWhile_prefix _)
  · exact .inl (by simp [fractionTail, hc])

/-- The sign at the front of an exponent, if there is one. -/
def signOf (cs : List Char) : List Char :=
  (cs.takeWhile fun c => c = '+' ∨ c = '-').take 1

/-- A sign is read off the front. -/
theorem signOf_leads (cs : List Char) : signOf cs <+: cs :=
  (List.take_prefix 1 _).trans (List.takeWhile_prefix _)

/-- The sign of an exponent is found as long as digits follow it. -/
theorem signOf_append (cs : List Char) {xs : List Char} (hx : ∀ x ∈ xs.head?, x.isDigit = true) :
    signOf (signOf cs ++ xs) = signOf cs := by
  have hnone : signOf xs = [] := by
    rcases xs with _ | ⟨x, xs⟩
    · rfl
    · have hdigit := hx x rfl
      have hsign : ¬(x = '+' ∨ x = '-') := by
        rintro (rfl | rfl) <;> exact absurd hdigit (by decide)
      simp [signOf, hsign]
  rcases cs with _ | ⟨s, cs⟩
  · exact hnone
  · by_cases hs : s = '+' ∨ s = '-'
    · have hself : signOf (s :: cs) = [s] := by simp [signOf, hs]
      rw [hself]
      simp [signOf, hs]
    · have hself : signOf (s :: cs) = [] := by simp [signOf, hs]
      rw [hself]
      exact hnone

/-- An exponent needs a digit behind its letter and its sign. -/
theorem leadingExponent_cons (he : c = 'e' ∨ c = 'E') {ds : List Char}
    (hds : (cs.drop (signOf cs).length).takeWhile Char.isDigit = ds) (hne : ds ≠ []) :
    Number.leadingExponent (c :: cs) = c :: (signOf cs ++ ds) := by
  simp only [Number.leadingExponent, if_pos he]
  rw [← signOf, hds, if_neg hne, List.cons_append]

/-- There is no exponent, or a letter, perhaps a sign, and digits. -/
theorem leadingExponent_cases (cs : List Char) : Number.leadingExponent cs = [] ∨
    ∃ e xs ds, cs = e :: xs ∧ (e = 'e' ∨ e = 'E') ∧ ds ≠ [] ∧
      (xs.drop (signOf xs).length).takeWhile Char.isDigit = ds := by
  rcases cs with _ | ⟨e, xs⟩
  · exact .inl rfl
  by_cases he : e = 'e' ∨ e = 'E'
  · by_cases hne : (xs.drop (signOf xs).length).takeWhile Char.isDigit = []
    · refine .inl ?_
      simp only [Number.leadingExponent, if_pos he]
      rw [← signOf, if_pos hne]
    · exact .inr ⟨e, xs, _, rfl, he, hne, rfl⟩
  · exact .inl (by simp only [Number.leadingExponent, if_neg he])

/-- Behind a gap there is no exponent. -/
theorem leadingExponent_apart (hr : Apart rest) : Number.leadingExponent rest = [] := by
  rcases leadingExponent_cases rest with h | ⟨e, xs, _, rfl, he, -⟩
  · exact h
  · have hspace := hr e rfl
    rcases he with rfl | rfl <;> exact absurd hspace (by decide)

/-- An exponent is at the front, and is found there as long as a blank or nothing follows it. -/
theorem leadingExponent_settled (cs : List Char) :
    Number.leadingExponent cs <+: cs ∧ ∀ rest, Apart rest →
      Number.leadingExponent (Number.leadingExponent cs ++ rest) = Number.leadingExponent cs := by
  rcases leadingExponent_cases cs with h | ⟨e, xs, ds, rfl, he, hne, hds⟩
  · rw [h]
    exact ⟨List.nil_prefix, fun rest hr => leadingExponent_apart hr⟩
  rw [leadingExponent_cons he hds hne]
  constructor
  · have hfront : signOf xs ++ ds <+: signOf xs ++ xs.drop (signOf xs).length :=
      (List.prefix_append_right_inj _).2 (hds ▸ List.takeWhile_prefix _)
    rw [List.prefix_iff_eq_append.1 (signOf_leads xs)] at hfront
    exact (List.prefix_cons_inj e).2 hfront
  · intro rest hr
    have hdigits : ∀ d ∈ ds, d.isDigit = true := fun d hd =>
      List.mem_takeWhile_imp (hds ▸ hd)
    have hhead : ∀ x ∈ (ds ++ rest).head?, x.isDigit = true := by
      rcases ds with _ | ⟨d, ds⟩
      · exact absurd rfl hne
      · intro x hx
        cases hx
        exact hdigits d List.mem_cons_self
    have hsign : signOf (signOf xs ++ (ds ++ rest)) = signOf xs := signOf_append xs hhead
    have hfound : ((signOf xs ++ (ds ++ rest)).drop
        (signOf (signOf xs ++ (ds ++ rest))).length).takeWhile Char.isDigit = ds := by
      rw [hsign, List.drop_left, takeWhile_run hdigits hr.digit]
    rw [List.cons_append, List.append_assoc, leadingExponent_cons he hfound hne, hsign]

/-- Neither a digit nor a point begins what may follow the fraction of a number. -/
theorem exponent_head (cs : List Char) (hr : Apart rest) :
    ∀ x ∈ (Number.leadingExponent cs ++ rest).head?, x.isDigit = false ∧ x ≠ '.' := by
  rcases leadingExponent_cases cs with h | ⟨e, xs, ds, rfl, he, hne, hds⟩
  · rw [h]
    intro x hx
    rcases isSpace_cases (hr x hx) with rfl | rfl | rfl | rfl <;> decide
  · rw [leadingExponent_cons he hds hne]
    intro x hx
    cases hx
    rcases he with rfl | rfl <;> decide

/-- A fraction is at the front, and is found there whatever follows its digits. -/
theorem fractionTail_settled (cs : List Char) : fractionTail cs <+: cs ∧
    ∀ ys : List Char, (∀ y ∈ ys.head?, y.isDigit = false ∧ y ≠ '.') →
      fractionTail (fractionTail cs ++ ys) = fractionTail cs ∧
        ∀ y ∈ (fractionTail cs ++ ys).head?, y.isDigit = false := by
  have hnone (ys : List Char) (hys : ∀ y ∈ ys.head?, y.isDigit = false ∧ y ≠ '.') :
      fractionTail ys = [] := by
    rcases ys with _ | ⟨y, ys⟩
    · rfl
    · simp [fractionTail, (hys y rfl).2]
  rcases fractionTail_cases cs with h | ⟨ds, hne, hdigits, h, hfront⟩
  · rw [h]
    exact ⟨List.nil_prefix, fun ys hys => ⟨hnone ys hys, fun y hy => (hys y hy).1⟩⟩
  · rw [h]
    refine ⟨hfront, fun ys hys => ⟨?_, ?_⟩⟩
    · have hds : (ds ++ ys).takeWhile Char.isDigit = ds :=
        takeWhile_run hdigits fun y hy => (hys y hy).1
      simp only [fractionTail, List.cons_append, hds, if_neg hne]
    · intro y hy
      cases hy
      rfl

/-- What a number is read as, told by its digits, its fraction and its exponent. -/
theorem numberPiece_eq (c : Char) {cs ds xs fraction exponent : List Char}
    (hds : cs.takeWhile Char.isDigit = ds) (hxs : cs.dropWhile Char.isDigit = xs)
    (hfraction : fractionTail xs = fraction)
    (hexponent : Number.leadingExponent (xs.drop fraction.length) = exponent) :
    numberPiece c cs =
      (if fraction = [] ∧ exponent = [] then intPiece (c :: ds)
        else .token (.floatLit (floatOf (c :: (ds ++ fraction ++ exponent)))),
      ds ++ fraction ++ exponent) := by
  simp only [numberPiece, hds, hxs, hfraction, hexponent]
  split
  · next h => rw [h.1, h.2, List.append_nil, List.append_nil]
  · rfl

/-- A number ends before a gap. -/
theorem numberPiece_settled (h : numberPiece c cs = (.token t, tail)) :
    Settled (numberPiece c) cs (.token t) tail := by
  generalize hds : cs.takeWhile Char.isDigit = ds at *
  generalize hxs : cs.dropWhile Char.isDigit = xs at *
  generalize hf : fractionTail xs = fraction at *
  generalize hx : Number.leadingExponent (xs.drop fraction.length) = exponent at *
  rw [numberPiece_eq c hds hxs hf hx] at h
  obtain ⟨ht, rfl⟩ := Prod.mk.inj h
  obtain ⟨hffront, hffound⟩ := fractionTail_settled xs
  obtain ⟨hxfront, hxfound⟩ := leadingExponent_settled (xs.drop fraction.length)
  rw [hf] at hffront hffound
  rw [hx] at hxfront hxfound
  constructor
  · have hcs : ds ++ (fraction ++ xs.drop fraction.length) = cs := by
      rw [List.prefix_iff_eq_append.1 hffront, ← hds, ← hxs, List.takeWhile_append_dropWhile]
    rw [← hcs, List.append_assoc]
    exact (List.prefix_append_right_inj _).2 ((List.prefix_append_right_inj _).2 hxfront)
  · intro rest hr
    have hhead := hx ▸ exponent_head (xs.drop fraction.length) hr
    obtain ⟨hfound, hdigit⟩ := hffound (exponent ++ rest) hhead
    have hdigits : ∀ d ∈ ds, d.isDigit = true := fun d hd =>
      List.mem_takeWhile_imp (hds ▸ hd)
    have hassoc : ds ++ fraction ++ exponent ++ rest = ds ++ (fraction ++ (exponent ++ rest)) := by
      simp only [List.append_assoc]
    rw [hassoc, numberPiece_eq c (takeWhile_run hdigits hdigit) (dropWhile_run hdigits hdigit)
      hfound (by rw [List.drop_left, hxfound rest hr]), ht]

/-- A name or a keyword ends before a gap. -/
theorem wordPiece_settled (h : wordPiece c cs = (.token t, tail)) :
    Settled (wordPiece c) cs (.token t) tail := by
  obtain ⟨ht, rfl⟩ := Prod.mk.inj h
  refine ⟨List.takeWhile_prefix _, fun rest hr => ?_⟩
  have htail : (cs.takeWhile isNameChar ++ rest).takeWhile isNameChar = cs.takeWhile isNameChar :=
    takeWhile_run (fun d hd => List.mem_takeWhile_imp hd) (hr.kind (by decide))
  rw [wordPiece, htail, ht]

/-- No operator of two characters reaches across a gap. -/
theorem pair?_space (c : Char) (hr : Apart rest) : rest.head?.bind (pair? c) = none := by
  rcases rest with _ | ⟨d, ds⟩
  · rfl
  · rcases isSpace_cases (hr d rfl) with rfl | rfl | rfl | rfl <;> simp [pair?]

/-- A symbol ends before a gap. -/
theorem symbolPiece_settled (h : symbolPiece c cs = (.token t, tail)) :
    Settled (symbolPiece c) cs (.token t) tail := by
  unfold symbolPiece at h
  split at h
  · next u hu =>
    obtain ⟨hd, rfl⟩ := Prod.mk.inj h
    rcases cs with _ | ⟨d, ds⟩
    · cases hu
    · refine ⟨List.take_prefix 1 _, fun rest _ => ?_⟩
      have hpair : pair? c d = some u := hu
      simp [symbolPiece, hpair, hd]
  · split at h
    · next u hu =>
      obtain ⟨hd, rfl⟩ := Prod.mk.inj h
      refine ⟨List.nil_prefix, fun rest hr => ?_⟩
      rw [List.nil_append, symbolPiece, pair?_space c hr, hu]
      exact Prod.ext hd rfl
    · cases h

theorem symbolPiece_slash (cs : List Char) : symbolPiece '/' cs = (.token slash, []) := by
  have hpair : cs.head?.bind (pair? '/') = none := by
    cases cs <;> simp [pair?]
  rw [symbolPiece, hpair]
  rfl

/-- A word is read as its token whatever follows, as long as a blank or nothing follows it. -/
theorem front_settled (h : front c cs = (.token t, tail)) :
    Settled (front c) cs (.token t) tail := by
  unfold front at h
  split at h
  · cases h
  next hspace =>
  split at h
  · cases h
  next hcomment =>
  -- What follows the word does not make it a comment.
  have hcomment' {rest : List Char} (hr : Apart rest) (htail : c = '/' → tail = []) :
      ¬(c = '#' ∨ (c = '/' ∧ (tail ++ rest).head? = some '/')) := by
    rintro (hc | ⟨hc, hhead⟩)
    · exact hcomment (.inl hc)
    · rw [htail hc, List.nil_append] at hhead
      exact absurd (hr '/' hhead) (by decide)
  split at h
  · next hquote =>
    have hs := stringPiece_settled h
    refine ⟨hs.front, fun rest hr => ?_⟩
    have := hcomment' hr fun hc => absurd (hquote.symm.trans hc) (by decide)
    rw [front, if_neg hspace, if_neg this, if_pos hquote, hs.found rest hr]
  next hquote =>
  split at h
  · next hdigit =>
    have hs := numberPiece_settled h
    refine ⟨hs.front, fun rest hr => ?_⟩
    have := hcomment' hr fun hc => absurd (hc ▸ hdigit) (by decide)
    rw [front, if_neg hspace, if_neg this, if_neg hquote, if_pos hdigit, hs.found rest hr]
  next hdigit =>
  split at h
  · next hname =>
    have hs := wordPiece_settled h
    refine ⟨hs.front, fun rest hr => ?_⟩
    have := hcomment' hr fun hc => absurd (hc ▸ hname) (by decide)
    rw [front, if_neg hspace, if_neg this, if_neg hquote, if_neg hdigit, if_pos hname,
      hs.found rest hr]
  next hname =>
  have hs := symbolPiece_settled h
  refine ⟨hs.front, fun rest hr => ?_⟩
  have := hcomment' hr fun hc => by
    subst hc
    rw [symbolPiece_slash] at h
    exact (Prod.mk.inj h).2.symm
  rw [front, if_neg hspace, if_neg this, if_neg hquote, if_neg hdigit, if_neg hname,
    hs.found rest hr]

/-! ### Cutting a text -/

/-- The text is cut into these words, each of them with its token, and gaps. -/
inductive Cut : List Char → List (Token × List Char) → Prop
  | nil : Cut [] []
  | gap {c : Char} {cs tail : List Char} {ws : List (Token × List Char)} :
      front c cs = (.gap, tail) → Cut (cs.drop tail.length) ws → Cut (c :: cs) ws
  | word {c : Char} {cs tail : List Char} {t : Token} {ws : List (Token × List Char)} :
      front c cs = (.token t, tail) → Cut (cs.drop tail.length) ws →
      Cut (c :: cs) ((t, c :: tail) :: ws)

/-- The size of a text is the sum of the sizes of its characters. -/
theorem byteSize_cons (c : Char) (cs : List Char) :
    byteSize (c :: cs) = c.utf8Size + byteSize cs := by
  have hfrom (n : Nat) : cs.foldl (fun n c => n + c.utf8Size) n = n + byteSize cs := by
    rw [byteSize]
    induction cs generalizing n with
    | nil => rfl
    | cons d ds ih => rw [List.foldl_cons, List.foldl_cons, ih, ih (0 + _)]; omega
  rw [byteSize, List.foldl_cons, hfrom, Nat.zero_add]

/-- A span covers of two pieces what it covers of each. -/
theorem covered_append (span : Span) (pos : Nat) (xs ys : List Char) :
    covered span pos (xs ++ ys) = covered span pos xs ++ covered span (pos + byteSize xs) ys := by
  induction xs generalizing pos with
  | nil => rfl
  | cons x xs ih =>
    rw [List.cons_append, covered, covered, ih, byteSize_cons, Nat.add_assoc]
    split <;> rfl

/-- A span covers nothing of a piece that lies before or behind it. -/
theorem covered_eq_nil {span : Span} {pos : Nat} {xs : List Char}
    (h : pos + byteSize xs ≤ span.start ∨ span.stop ≤ pos) : covered span pos xs = [] := by
  induction xs generalizing pos with
  | nil => rfl
  | cons x xs ih =>
    have hx := x.utf8Size_pos
    rw [byteSize_cons] at h
    rw [covered, if_neg (by omega)]
    exact ih (by omega)

/-- A span covers the whole of a piece that lies inside of it. -/
theorem covered_eq_self {span : Span} {pos : Nat} {xs : List Char} (hstart : span.start ≤ pos)
    (hstop : pos + byteSize xs ≤ span.stop) : covered span pos xs = xs := by
  induction xs generalizing pos with
  | nil => rfl
  | cons x xs ih =>
    have hx := x.utf8Size_pos
    rw [byteSize_cons] at hstop
    rw [covered, if_pos ⟨hstart, by omega⟩, ih (by omega) (by omega)]

/-- An integer is no gap. -/
theorem intPiece_ne_gap (whole : List Char) : intPiece whole ≠ .gap := by
  unfold intPiece
  dsimp only
  split <;> exact nofun

/-- A gap is read off the front. -/
theorem front_gap (h : front c cs = (.gap, tail)) : tail <+: cs := by
  unfold front at h
  split at h
  · cases h
    exact List.takeWhile_prefix _
  split at h
  · cases h
    exact List.takeWhile_prefix _
  split at h
  · unfold stringPiece at h
    split at h <;> cases h
  split at h
  · rw [numberPiece_eq c rfl rfl rfl rfl] at h
    have hgap := (Prod.mk.inj h).1
    split at hgap
    · exact absurd hgap (intPiece_ne_gap _)
    · cases hgap
  split at h
  · cases h
  unfold symbolPiece at h
  split at h
  · cases h
  · split at h <;> cases h

/-- What is covered behind a piece is found without the piece. -/
theorem covered_all_behind {new : List (Token × Span)} (hfront : tail <+: cs)
    (hstart : ∀ t ∈ new, pos + byteSize (c :: tail) ≤ t.2.start) :
    new.map (fun t => (t.1, covered t.2 pos (c :: cs))) = new.map fun t =>
      (t.1, covered t.2 (pos + byteSize (c :: tail)) (cs.drop tail.length)) := by
  refine List.map_congr_left fun t ht => ?_
  have hcs : c :: cs = c :: tail ++ cs.drop tail.length := by
    rw [List.cons_append, List.prefix_iff_eq_append.1 hfront]
  rw [hcs, covered_append, covered_eq_nil (.inl (hstart t ht)), List.nil_append]

/-- A text that can be scanned is cut into the words that its tokens span. -/
theorem cut_of_scanFrom {done tokens : Array (Token × Span)}
    (h : scanFrom done pos cs = .ok tokens) : ∃ new : List (Token × Span),
      tokens.toList = done.toList ++ new ∧ (∀ t ∈ new, pos ≤ t.2.start) ∧
        Cut cs (new.map fun t => (t.1, covered t.2 pos cs)) := by
  fun_induction scanFrom done pos cs generalizing tokens with
  | case1 done =>
    cases h
    exact ⟨[], (List.append_nil _).symm, nofun, .nil⟩
  | case2 done pos c cs tail span hf =>
    rename_i ih
    obtain ⟨new, htokens, hstart, hcut⟩ := ih h
    refine ⟨new, htokens, fun t ht => (Nat.le_add_right ..).trans (hstart t ht), .gap hf ?_⟩
    rwa [covered_all_behind (front_gap hf) hstart]
  | case3 done pos c cs tail span t hf =>
    rename_i ih
    obtain ⟨new, htokens, hstart, hcut⟩ := ih h
    have hfront := (front_settled hf).front
    have hself : covered span pos (c :: cs) = c :: tail := by
      rw [← List.prefix_iff_eq_append.1 hfront, ← List.cons_append, covered_append,
        covered_eq_self (Nat.le_refl _) (Nat.le_refl _), covered_eq_nil (.inr (Nat.le_refl _)),
        List.append_nil]
    refine ⟨(t, span) :: new, ?_, ?_, ?_⟩
    · rw [htokens, Array.toList_push, List.append_assoc]
      rfl
    · intro u hu
      rcases List.mem_cons.1 hu with rfl | hu
      · exact Nat.le_refl _
      · exact (Nat.le_add_right ..).trans (hstart u hu)
    · rw [List.map_cons, hself, covered_all_behind hfront hstart]
      exact .word hf hcut
  | case4 => cases h

/-- A text that is cut into words is scanned into their tokens. -/
theorem scanFrom_of_cut (done : Array (Token × Span)) (pos : Nat) (h : Cut cs ws) :
    ∃ tokens, scanFrom done pos cs = .ok tokens ∧
      tokens.toList.map (·.1) = done.toList.map (·.1) ++ ws.map (·.1) := by
  induction h generalizing done pos with
  | nil => exact ⟨done, by rw [scanFrom], by simp⟩
  | gap hf _ ih =>
    obtain ⟨tokens, hscan, htokens⟩ := ih done _
    refine ⟨tokens, ?_, htokens⟩
    rw [scanFrom, hf]
    exact hscan
  | word hf _ ih =>
    obtain ⟨tokens, hscan, htokens⟩ := ih (done.push (_, ⟨pos, _⟩)) _
    refine ⟨tokens, ?_, ?_⟩
    · rw [scanFrom, hf]
      exact hscan
    · rw [htokens]
      simp

/-! ### Laying out a text anew -/

/-- The word is read as the token as long as a blank or nothing follows it. -/
def Spells (t : Token) (w : List Char) : Prop :=
  ∃ c tail, w = c :: tail ∧ ∀ rest, Apart rest → front c (tail ++ rest) = (.token t, tail)

/-- Each word of a cut spells its token. -/
theorem Cut.spells (h : Cut cs ws) : ∀ w ∈ ws, Spells w.1 w.2 := by
  induction h with
  | nil => exact nofun
  | gap _ _ ih => exact ih
  | word hf _ ih =>
    intro w hw
    rcases List.mem_cons.1 hw with rfl | hw
    · exact ⟨_, _, rfl, (front_settled hf).found⟩
    · exact ih w hw

/-- A blank in front of a text is a gap, or belongs to the one that is there. -/
theorem Cut.space (hc : isSpace c = true) (h : Cut cs ws) : Cut (c :: cs) ws := by
  have hf : front c cs = (.gap, cs.takeWhile isSpace) := by
    rw [front, if_pos hc]
  refine .gap hf ?_
  rcases cs with _ | ⟨d, ds⟩
  · exact h
  · by_cases hd : isSpace d = true
    · have hfd : front d ds = (.gap, ds.takeWhile isSpace) := by
        rw [front, if_pos hd]
      rw [List.takeWhile_cons_of_pos hd, List.length_cons, List.drop_succ_cons]
      cases h with
      | gap hf' h =>
        obtain ⟨-, rfl⟩ := Prod.mk.inj (hfd.symm.trans hf')
        exact h
      | word hf' _ => cases hfd.symm.trans hf'
    · rwa [List.takeWhile_cons_of_neg hd]

/-- A gap in front of a cut is passed over. -/
theorem Cut.gap_append (hf : front c (tail ++ rest) = (.gap, tail)) (h : Cut rest ws) :
    Cut (c :: (tail ++ rest)) ws :=
  .gap hf (by rwa [List.drop_left])

/-- A comment and its newline are a gap, and what follows it is cut as it was. -/
theorem Cut.comment {mark line : List Char} (hmark : mark = ['#'] ∨ mark = ['/', '/'])
    (hline : '\n' ∉ line) (h : Cut cs ws) : Cut (mark ++ line ++ '\n' :: cs) ws := by
  have hnewline : Cut ('\n' :: cs) ws := h.space rfl
  have hrun {xs : List Char} (hxs : '\n' ∉ xs) :
      (xs ++ '\n' :: cs).takeWhile (· ≠ '\n') = xs :=
    takeWhile_run (fun x hx => decide_eq_true fun hn => hxs (hn ▸ hx)) (by simp)
  rcases hmark with rfl | rfl
  · have hf : front '#' (line ++ '\n' :: cs) = (.gap, line) := by
      rw [front, if_neg (by decide), if_pos (.inl rfl), hrun hline]
    exact hnewline.gap_append hf
  · have hline' : '\n' ∉ '/' :: line := by simpa using hline
    have hf : front '/' ('/' :: line ++ '\n' :: cs) = (.gap, '/' :: line) := by
      rw [front, if_neg (by decide), if_pos (.inr ⟨rfl, rfl⟩), hrun hline']
    exact hnewline.gap_append hf

/-- A filler in front of a cut is passed over. -/
theorem Cut.filler (hb : Filler before) (h : Cut cs ws) : Cut (before ++ cs) ws := by
  induction hb with
  | nil => exact h
  | space hc _ ih => exact ih.space hc
  | comment hmark hline _ ih =>
    rw [List.append_assoc, List.cons_append]
    exact ih.comment hmark hline

/-- A word in front of a cut is one more word, if something sets it apart. -/
theorem Spells.cut (hs : Spells t w) (hr : Apart rest) (h : Cut rest ws) :
    Cut (w ++ rest) ((t, w) :: ws) := by
  obtain ⟨c, tail, rfl, hf⟩ := hs
  refine .word (hf rest hr) (show Cut ((tail ++ rest).drop tail.length) ws from ?_)
  rwa [List.drop_left]

/-- Words with gaps between them are cut into these words again. -/
theorem Spread.cut {words : List (List Char)} (h : Spread words text) :
    ∀ ws : List (Token × List Char), ws.map (·.2) = words → (∀ w ∈ ws, Spells w.1 w.2) →
      Cut text ws := by
  induction h with
  | nil =>
    intro ws hws _
    rw [List.map_eq_nil_iff.1 hws]
    exact .nil
  | @last _ gap hgap =>
    intro ws hws hspells
    obtain ⟨w, rfl, rfl⟩ := List.map_eq_singleton_iff.1 hws
    have hw := hspells w List.mem_cons_self
    rcases hgap with rfl | hgap
    · exact hw.cut nofun .nil
    · have hnil : Cut gap [] := List.append_nil gap ▸ Cut.nil.filler hgap.filler
      exact hw.cut hgap.apart hnil
  | @cons _ gap cs _ hgap _ ih =>
    intro ws hws hspells
    obtain ⟨w, ws, rfl, rfl, htail⟩ := List.map_eq_cons_iff.1 hws
    obtain ⟨hw, hspells⟩ := List.forall_mem_cons.1 hspells
    have hapart : Apart (gap ++ cs) := by
      obtain ⟨c, gap, rfl⟩ := List.exists_cons_of_ne_nil hgap.ne_nil
      exact hgap.apart
    exact hw.cut hapart ((ih ws htail hspells).filler hgap.filler)

/-- A text is scanned from its beginning with no token read. -/
theorem scan_eq_ok {source : String} {tokens : List (Token × Span)} :
    scan source = .ok tokens ↔ scanFrom #[] 0 source.toList = .ok tokens.toArray := by
  rw [scan]
  cases scanFrom #[] 0 source.toList with
  | error r => simp
  | ok ts => simp [← Array.toList_inj]

/-- A text that is laid out anew has the same tokens. -/
theorem scan_relaid {source source' : String} {tokens : List (Token × Span)}
    (h : scan source = .ok tokens) (hr : Relaid source tokens source') :
    ∃ tokens', scan source' = .ok tokens' ∧ tokens'.map (·.1) = tokens.map (·.1) := by
  obtain ⟨before, cs, hbefore, hspread, hsource'⟩ := hr
  obtain ⟨new, hnew, -, hcut⟩ := cut_of_scanFrom (scan_eq_ok.1 h)
  obtain rfl : tokens = new := hnew
  have hcut' := hspread.cut _ (by rw [List.map_map]; rfl) hcut.spells
  obtain ⟨tokens', hscan, htokens⟩ := scanFrom_of_cut #[] 0 (hcut'.filler hbefore)
  refine ⟨tokens'.toList, ?_, ?_⟩
  · rw [scan_eq_ok, hsource', hscan]
  · rw [htokens, List.map_map]
    rfl

end PoolScript.Token
