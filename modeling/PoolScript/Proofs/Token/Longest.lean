import PoolScript.Proofs.Token.Patterns

/-!
# The longest match

A source text is split from left to right into words, each of them the longest at its place that
matches a pattern (`Longest`, `Pieces`), until it is at its end, or no word matches, or an integer
literal is too large (`Stuck`). This is what the scanner does (`scan_longest`): its tokens are the
words among them that are no gaps, and a text is refused where the words end.

The offsets of a text are counted in bytes. The spans of the tokens stand in their order without
overlap, each covers a word that matches its token, and what is between them is made of gaps
(`Tiled`).
-/

namespace PoolScript.Token

open scoped Computability

variable {c : Char} {cs tail rest w : List Char} {q : Piece} {t : Token} {pos stop : Nat}
  {tokens : List (Token × Span)}

/-! ### The longest word -/

/-- The word is the longest at the front of the text that matches a pattern, and this is what it
    is. -/
structure Longest (text w : List Char) (q : Piece) : Prop where
  leads : w <+: text
  word : Matches w q
  longest : ∀ v q', v <+: text → Matches v q' → v.length ≤ w.length

/-- A text is read at least as far as a word at its front goes. -/
theorem Matches.read (h : Matches w q) (hw : w <+: c :: cs) : ∃ tail more q', w = c :: tail ∧
    Token.front c cs = (q', tail ++ more) ∧ q'.Matched ∧ (more = [] → q' = q) := by
  obtain rfl | ⟨tail, rfl, rest, rfl⟩ := List.prefix_cons_iff.1 hw
  · exact absurd rfl h.ne_nil
  · obtain ⟨q', more, hread, hq, hself⟩ := h.reaches rest
    exact ⟨tail, more, q', rfl, hread, hq, hself⟩

theorem longest_of_front (h : front c cs = (q, tail)) (hq : q.Matched) :
    Longest (c :: cs) (c :: tail) q := by
  obtain ⟨hfront, hword⟩ := front_matches h hq
  refine ⟨(List.prefix_cons_inj c).2 hfront, hword, fun v q' hv hmatches => ?_⟩
  obtain ⟨tail', more, q'', rfl, hread, -, -⟩ := hmatches.read hv
  obtain ⟨-, rfl⟩ := Prod.mk.inj (h.symm.trans hread)
  simp

/-- A word that is the whole text is the longest one. -/
theorem Matches.longest (h : Matches w q) : Longest (w ++ []) w q := by
  refine ⟨List.prefix_append w [], h, fun v q' hv _ => ?_⟩
  rw [List.append_nil] at hv
  exact hv.length_le

theorem Longest.read (h : Longest (c :: cs) w q) : ∃ tail, w = c :: tail ∧
    Token.front c cs = (q, tail) := by
  obtain ⟨tail, more, q', rfl, hread, hq, hself⟩ := h.word.read h.leads
  -- What is read matches, so it is no longer than the longest word.
  have hlongest := longest_of_front hread hq
  have hlength := h.longest _ _ hlongest.leads hlongest.word
  obtain rfl : more = [] := by
    rw [List.length_cons, List.length_cons, List.length_append] at hlength
    exact List.eq_nil_of_length_eq_zero (by omega)
  rw [List.append_nil, hself rfl] at hread
  exact ⟨tail, rfl, hread⟩

/-! ### Splitting a text -/

/-- The text at the offset `pos` begins with words, each of them the longest that matches, with
    `rest` behind them at the offset `stop`. The tokens among them have the spans of their
    words. -/
inductive Pieces : Nat → List Char → List (Token × Span) → Nat → List Char → Prop
  | done {pos : Nat} {rest : List Char} : Pieces pos rest [] pos rest
  | gap {pos stop : Nat} {w cs rest : List Char} {tokens : List (Token × Span)} :
      Longest (w ++ cs) w .gap → Pieces (pos + byteSize w) cs tokens stop rest →
      Pieces pos (w ++ cs) tokens stop rest
  | token {pos stop : Nat} {w cs rest : List Char} {t : Token} {tokens : List (Token × Span)} :
      Longest (w ++ cs) w (.token t) → Pieces (pos + byteSize w) cs tokens stop rest →
      Pieces pos (w ++ cs) ((t, ⟨pos, pos + byteSize w⟩) :: tokens) stop rest

/-- No word at the front of the text matches, or the longest one is an integer literal that is
    too large. -/
inductive Stuck : List Char → Prop
  | unmatched {cs : List Char} : cs ≠ [] → (∀ w q, w <+: cs → ¬Matches w q) → Stuck cs
  | tooLarge {cs w : List Char} {digits : String} :
      Longest cs w (.fault (.integerTooLarge digits)) → Stuck cs

theorem Piece.matched_or_fault (q : Piece) : q.Matched ∨ ∃ f, q = .fault f := by
  cases q with
  | gap => exact .inl trivial
  | token t => exact .inl trivial
  | fault f => exact .inr ⟨f, rfl⟩

/-- A text with a fault at its front is stuck. -/
theorem stuck_of_front {f : LexicalFault} (h : front c cs = (.fault f, tail)) :
    Stuck (c :: cs) := by
  by_cases hq : (Piece.fault f).Matched
  · cases f with
    | integerTooLarge digits => exact .tooLarge (longest_of_front h hq)
    | unterminatedString => exact hq.elim
    | unexpected c => exact hq.elim
  · refine .unmatched (List.cons_ne_nil c cs) fun w q hw hmatches => ?_
    obtain ⟨_, _, q', -, hread, hq', -⟩ := hmatches.read hw
    obtain ⟨rfl, -⟩ := Prod.mk.inj (h.symm.trans hread)
    exact hq hq'

/-- A longest word is scanned, and the scan goes on behind it. -/
theorem scanFrom_longest (done : Array (Token × Span)) (pos : Nat) :
    Longest (w ++ cs) w q → scanFrom done pos (w ++ cs) =
      match q with
      | .gap => scanFrom done (pos + byteSize w) cs
      | .token t => scanFrom (done.push (t, ⟨pos, pos + byteSize w⟩)) (pos + byteSize w) cs
      | .fault f => .error (f, ⟨pos, pos + byteSize w⟩) := by
  intro h
  obtain ⟨c, tail, rfl⟩ := List.exists_cons_of_ne_nil h.word.ne_nil
  obtain ⟨_, heq, hread⟩ := h.read
  obtain ⟨-, rfl⟩ := List.cons.inj heq
  have hdrop : (tail ++ cs).drop tail.length = cs := List.drop_left
  rw [List.cons_append, scanFrom, show front c (tail ++ cs) = (q, tail) from hread]
  cases q <;> simp only [hdrop]

/-- Words that a text begins with are scanned one after the other. -/
theorem Pieces.scanFrom (h : Pieces pos cs tokens stop rest) (done : Array (Token × Span)) :
    Token.scanFrom done pos cs = Token.scanFrom (done ++ tokens.toArray) stop rest := by
  induction h generalizing done with
  | done => rw [Array.append_empty]
  | gap hw _ ih => rw [scanFrom_longest done _ hw, ih]
  | token hw _ ih =>
    rw [scanFrom_longest done _ hw, List.toArray_cons, ← Array.append_assoc, ← Array.push_eq_append]
    exact ih _

theorem Stuck.scanFrom (h : Stuck cs) (done : Array (Token × Span)) (pos : Nat) :
    ∃ f stop, Token.scanFrom done pos cs = .error (f, ⟨pos, stop⟩) := by
  cases h with
  | unmatched hne hnone =>
    obtain ⟨c, cs, rfl⟩ := List.exists_cons_of_ne_nil hne
    generalize hf : front c cs = front at *
    obtain ⟨q, tail⟩ := front
    obtain hq | ⟨f, rfl⟩ := q.matched_or_fault
    · have hw := longest_of_front hf hq
      exact absurd hw.word (hnone _ _ hw.leads)
    · exact ⟨f, _, by rw [Token.scanFrom, hf]⟩
  | tooLarge hw =>
    obtain ⟨rest, rfl⟩ := hw.leads
    exact ⟨_, _, scanFrom_longest done pos hw⟩

/-- Every text is split into words to its end, or to where there is none. -/
theorem exists_pieces (pos : Nat) (cs : List Char) : ∃ tokens stop rest,
    Pieces pos cs tokens stop rest ∧ (rest = [] ∨ Stuck rest) := by
  -- No word is empty, so what is behind the first one is shorter.
  induction hn : cs.length using Nat.strong_induction_on generalizing pos cs with
  | _ n ih =>
  rcases cs with _ | ⟨c, cs⟩
  · exact ⟨[], pos, [], .done, .inl rfl⟩
  generalize hf : front c cs = front at *
  obtain ⟨q, tail⟩ := front
  by_cases hfault : ∃ f, q = .fault f
  · obtain ⟨f, rfl⟩ := hfault
    exact ⟨[], pos, c :: cs, .done, .inr (stuck_of_front hf)⟩
  · have hw := longest_of_front hf (q.matched_or_fault.resolve_right hfault)
    obtain ⟨rest, hrest⟩ := hw.leads
    rw [← hrest] at hw hn ⊢
    have hlt : rest.length < n := by
      rw [← hn, List.length_append, List.length_cons]
      omega
    obtain ⟨tokens, stop, last, hpieces, hlast⟩ := ih _ hlt (pos + byteSize (c :: tail)) rest rfl
    cases q with
    | gap => exact ⟨tokens, stop, last, .gap hw hpieces, hlast⟩
    | token t => exact ⟨_, stop, last, .token hw hpieces, hlast⟩
    | fault f => exact absurd ⟨f, rfl⟩ hfault

/-! ### The spans of the tokens -/

/-- The spans before, between and behind the tokens, from the offset `pos` to `stop`. -/
def between (pos : Nat) : List (Token × Span) → Nat → List Span
  | [], stop => [⟨pos, stop⟩]
  | (_, span) :: tokens, stop => ⟨pos, span.start⟩ :: between span.stop tokens stop

/-- The spans of the tokens stand in their order without overlap from `pos` to `stop`, the first
    character of `cs` at `pos`. Each covers a word that matches its token, and what is between
    them is made of gaps. -/
structure Tiled (pos : Nat) (cs : List Char) (tokens : List (Token × Span)) (stop : Nat) :
    Prop where
  le : pos ≤ stop
  nonempty : ∀ t ∈ tokens, t.2.start < t.2.stop
  within : ∀ t ∈ tokens, pos ≤ t.2.start ∧ t.2.stop ≤ stop
  ordered : tokens.Pairwise fun t u => t.2.stop ≤ u.2.start
  covers : ∀ t ∈ tokens, Matches (covered t.2 pos cs) (.token t.1)
  between : ∀ span ∈ between pos tokens stop, covered span pos cs ∈ gaps∗

theorem byteSize_append (xs ys : List Char) : byteSize (xs ++ ys) = byteSize xs + byteSize ys := by
  induction xs with
  | nil => exact (Nat.zero_add _).symm
  | cons x xs ih => rw [List.cons_append, byteSize_cons, byteSize_cons, ih, Nat.add_assoc]

theorem byteSize_toList (s : String) : byteSize s.toList = s.utf8ByteSize := by
  have hchars (cs : List Char) : byteSize cs = (String.ofList cs).utf8ByteSize := by
    induction cs with
    | nil => rfl
    | cons c cs ih =>
      rw [byteSize_cons, ih, String.ofList_cons, String.utf8ByteSize_append,
        String.utf8ByteSize_singleton]
  rw [hchars, String.ofList_toList]

theorem byteSize_pos (h : w ≠ []) : 0 < byteSize w := by
  obtain ⟨c, cs, rfl⟩ := List.exists_cons_of_ne_nil h
  rw [byteSize_cons]
  exact Nat.add_pos_left c.utf8Size_pos _

/-- Where a split begins decides only where its first span begins. -/
theorem exists_between (tokens : List (Token × Span)) (stop : Nat) :
    ∃ first spans, (first = stop ∨ ∃ t ∈ tokens, first = t.2.start) ∧
      ∀ pos, between pos tokens stop = ⟨pos, first⟩ :: spans := by
  rcases tokens with _ | ⟨⟨t, span⟩, tokens⟩
  · exact ⟨stop, [], .inl rfl, fun pos => rfl⟩
  · exact ⟨span.start, _, .inr ⟨_, List.mem_cons_self, rfl⟩, fun pos => rfl⟩

theorem between_start {span : Span} (h : span ∈ between pos tokens stop) :
    span.start = pos ∨ ∃ t ∈ tokens, span.start = t.2.stop := by
  induction tokens generalizing pos with
  | nil =>
    obtain rfl := List.mem_singleton.1 h
    exact .inl rfl
  | cons t tokens ih =>
    rcases List.mem_cons.1 h with rfl | h
    · exact .inl rfl
    · rcases ih h with h | ⟨u, hu, h⟩
      · exact .inr ⟨t, List.mem_cons_self, h⟩
      · exact .inr ⟨u, List.mem_cons_of_mem t hu, h⟩

theorem covered_behind {span : Span} (h : pos + byteSize w ≤ span.start) :
    covered span pos (w ++ cs) = covered span (pos + byteSize w) cs := by
  rw [covered_append, covered_eq_nil (.inl h), List.nil_append]

/-- It does not matter how far before the text a span begins. -/
theorem covered_from {start start' : Nat} (h : start ≤ pos) (h' : start' ≤ pos) :
    covered ⟨start, stop⟩ pos cs = covered ⟨start', stop⟩ pos cs := by
  induction cs generalizing pos with
  | nil => rfl
  | cons c cs ih =>
    have htail : covered ⟨start, stop⟩ (pos + c.utf8Size) cs =
        covered ⟨start', stop⟩ (pos + c.utf8Size) cs :=
      ih (Nat.le_add_right_of_le h) (Nat.le_add_right_of_le h')
    simp only [covered, h, h', true_and, htail]

namespace Tiled

theorem done : Tiled pos cs [] pos where
  le := Nat.le_refl pos
  nonempty := nofun
  within := nofun
  ordered := .nil
  covers := nofun
  between := by
    intro span hspan
    obtain rfl := List.mem_singleton.1 hspan
    rw [covered_eq_nil (.inr (Nat.le_refl pos))]
    exact Language.nil_mem_kstar gaps

theorem start_le (h : Tiled pos cs tokens stop) {span : Span}
    (hspan : span ∈ Token.between pos tokens stop) : pos ≤ span.start := by
  rcases between_start hspan with heq | ⟨t, ht, heq⟩
  · exact heq.ge
  · have := h.within t ht
    have := h.nonempty t ht
    omega

theorem gap (hw : w ∈ gaps) (h : Tiled (pos + byteSize w) cs tokens stop) :
    Tiled pos (w ++ cs) tokens stop where
  le := (Nat.le_add_right ..).trans h.le
  nonempty := h.nonempty
  within t ht := ⟨(Nat.le_add_right ..).trans (h.within t ht).1, (h.within t ht).2⟩
  ordered := h.ordered
  covers t ht := covered_behind (h.within t ht).1 ▸ h.covers t ht
  between := by
    obtain ⟨first, spans, hfirst, hbetween⟩ := exists_between tokens stop
    have hle : pos + byteSize w ≤ first := by
      rcases hfirst with rfl | ⟨t, ht, rfl⟩
      exacts [h.le, (h.within t ht).1]
    have hspans := h.between
    have hstart (span : Span) : span ∈ Token.between (pos + byteSize w) tokens stop →
        pos + byteSize w ≤ span.start := h.start_le
    rw [hbetween] at hspans hstart ⊢
    -- The gap joins the first span between the tokens, and the other ones are behind it.
    obtain ⟨hhead, htail⟩ := List.forall_mem_cons.1 hspans
    refine List.forall_mem_cons.2 ⟨?_, fun span hspan => ?_⟩
    · rw [covered_append, covered_eq_self (Nat.le_refl pos) hle,
        covered_from (Nat.le_add_right ..) (Nat.le_refl _)]
      exact append_mem_kstar hw hhead
    · rw [covered_behind (hstart span (List.mem_cons_of_mem _ hspan))]
      exact htail span hspan

theorem token (hw : Matches w (.token t)) (h : Tiled (pos + byteSize w) cs tokens stop) :
    Tiled pos (w ++ cs) ((t, ⟨pos, pos + byteSize w⟩) :: tokens) stop where
  le := (Nat.le_add_right ..).trans h.le
  nonempty := List.forall_mem_cons.2
    ⟨Nat.lt_add_of_pos_right (byteSize_pos hw.ne_nil), h.nonempty⟩
  within := List.forall_mem_cons.2 ⟨⟨Nat.le_refl pos, h.le⟩, fun t ht =>
    ⟨(Nat.le_add_right ..).trans (h.within t ht).1, (h.within t ht).2⟩⟩
  ordered := .cons (fun t ht => (h.within t ht).1) h.ordered
  covers := by
    refine List.forall_mem_cons.2 ⟨?_, fun t ht => covered_behind (h.within t ht).1 ▸ h.covers t ht⟩
    rwa [covered_append, covered_eq_self (Nat.le_refl _) (Nat.le_refl _),
      covered_eq_nil (.inr (Nat.le_refl _)), List.append_nil]
  between := by
    refine List.forall_mem_cons.2 ⟨?_, fun span hspan => ?_⟩
    · rw [covered_eq_nil (.inr (Nat.le_refl pos))]
      exact Language.nil_mem_kstar gaps
    · rw [covered_behind (h.start_le hspan)]
      exact h.between span hspan

end Tiled

theorem Matches.gap_mem (h : Matches w .gap) : w ∈ gaps := by
  cases h with
  | gap h => exact h

theorem Pieces.tiled (h : Pieces pos cs tokens stop rest) : Tiled pos cs tokens stop := by
  induction h with
  | done => exact .done
  | gap hw _ ih => exact ih.gap hw.word.gap_mem
  | token hw _ ih => exact ih.token hw.word

theorem Pieces.stop_add (h : Pieces pos cs tokens stop rest) :
    stop + byteSize rest = pos + byteSize cs := by
  induction h with
  | done => rfl
  | gap _ _ ih => rw [ih, byteSize_append, Nat.add_assoc]
  | token _ _ ih => rw [ih, byteSize_append, Nat.add_assoc]

/-! ### Scanning -/

/-- A text is scanned just when it is split to its end, and its tokens are the words that are no
    gaps. -/
theorem scan_ok_iff {source : String} : scan source = .ok tokens ↔
    Pieces 0 source.toList tokens source.utf8ByteSize [] := by
  rw [scan_eq_ok]
  constructor
  · intro h
    obtain ⟨words, stop, rest, hpieces, hend⟩ := exists_pieces 0 source.toList
    -- The split that there is goes to the end, since the text would be refused if it did not.
    rw [hpieces.scanFrom, Array.empty_append] at h
    rcases hend with rfl | hstuck
    · have hstop := hpieces.stop_add
      rw [scanFrom] at h
      obtain rfl : words = tokens := congrArg Array.toList (Except.ok.inj h)
      rw [byteSize_toList, Nat.zero_add] at hstop
      exact hstop ▸ hpieces
    · obtain ⟨f, stop', herror⟩ := hstuck.scanFrom words.toArray stop
      cases herror.symm.trans h
  · intro h
    rw [h.scanFrom, scanFrom, Array.empty_append]

/-- A text that is one word is one token that spans all of it. -/
theorem Matches.scan {source : String} (h : Matches source.toList (.token t)) :
    scan source = .ok [(t, ⟨0, source.utf8ByteSize⟩)] := by
  have hpieces : Pieces 0 (source.toList ++ []) _ _ [] := .token h.longest .done
  rw [List.append_nil, byteSize_toList, Nat.zero_add] at hpieces
  exact scan_ok_iff.2 hpieces

/-- A text is refused just where the words end that it is split into. -/
theorem scan_error_iff {source : String} : (∃ e, scan source = .error e ∧ e.span.start = pos) ↔
    ∃ tokens rest, Pieces 0 source.toList tokens pos rest ∧ Stuck rest := by
  have hscan {tokens : List (Token × Span)} {stop : Nat} {rest : List Char}
      (hpieces : Pieces 0 source.toList tokens stop rest) (hstuck : Stuck rest) :
      ∃ e, scan source = .error e ∧ e.span.start = stop := by
    obtain ⟨f, stop', herror⟩ := hstuck.scanFrom tokens.toArray stop
    refine ⟨.locate (.ofText source) (.lexical f) ⟨stop, stop'⟩, ?_, rfl⟩
    rw [scan, hpieces.scanFrom, Array.empty_append, herror]
  constructor
  · rintro ⟨e, he, rfl⟩
    obtain ⟨words, stop, rest, hpieces, rfl | hstuck⟩ := exists_pieces 0 source.toList
    · have hok : scan source = .ok words := by
        rw [scan_eq_ok, hpieces.scanFrom, scanFrom, Array.empty_append]
      cases hok.symm.trans he
    · obtain ⟨e', he', hstop⟩ := hscan hpieces hstuck
      obtain rfl : e' = e := Except.error.inj (he'.symm.trans he)
      exact ⟨words, rest, hstop ▸ hpieces, hstuck⟩
  · rintro ⟨words, rest, hpieces, hstuck⟩
    exact hscan hpieces hstuck

/-- The tokens of a text are its longest words from left to right, their spans in order and with
    nothing but gaps between them. A text is refused where no word matches or an integer literal
    is too large. -/
theorem scan_longest (source : String) :
    (∀ tokens, scan source = .ok tokens ↔
      Pieces 0 source.toList tokens source.utf8ByteSize []) ∧
    (∀ tokens, scan source = .ok tokens →
      Tiled 0 source.toList tokens source.utf8ByteSize) ∧
    ∀ pos, (∃ e, scan source = .error e ∧ e.span.start = pos) ↔
      ∃ tokens rest, Pieces 0 source.toList tokens pos rest ∧ Stuck rest :=
  ⟨fun _ => scan_ok_iff, fun _ h => (scan_ok_iff.1 h).tiled, fun _ => scan_error_iff⟩

theorem scan_longest_range :
    Pieces 0 "1..4".toList [(.intLit 1, ⟨0, 1⟩), (.dotDot, ⟨1, 3⟩), (.intLit 4, ⟨3, 4⟩)] 4 [] ∧
      scan "1..4" = .ok [(.intLit 1, ⟨0, 1⟩), (.dotDot, ⟨1, 3⟩), (.intLit 4, ⟨3, 4⟩)] ∧
      Tiled 0 "1..4".toList [(.intLit 1, ⟨0, 1⟩), (.dotDot, ⟨1, 3⟩), (.intLit 4, ⟨3, 4⟩)] 4 := by
  have hone : Longest (['1'] ++ ['.', '.', '4']) ['1'] (.token (.intLit 1)) :=
    longest_of_front rfl trivial
  have hdots : Longest (['.', '.'] ++ ['4']) ['.', '.'] (.token .dotDot) :=
    longest_of_front rfl trivial
  have hfour : Longest (['4'] ++ []) ['4'] (.token (.intLit 4)) := longest_of_front rfl trivial
  have hpieces : Pieces 0 "1..4".toList
      [(.intLit 1, ⟨0, 1⟩), (.dotDot, ⟨1, 3⟩), (.intLit 4, ⟨3, 4⟩)] 4 [] :=
    .token hone (.token hdots (.token hfour .done))
  have hscan := ((scan_longest "1..4").1 _).2 hpieces
  exact ⟨hpieces, hscan, (scan_longest "1..4").2.1 _ hscan⟩

end PoolScript.Token
