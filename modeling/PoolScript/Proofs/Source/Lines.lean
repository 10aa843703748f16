import PoolScript.Proofs.Token.Longest

/-!
# Lines and offsets

The line index of a text tells the line of an offset by a search among the offsets at which lines
begin. As these are in ascending order, the search finds how many of them are not behind the offset
(`search_eq`), and that is one more than there are newlines before it (`countP_begins`).

The lines themselves are what is between the newlines. Their spans follow one another, with a byte
between each and the next one (`spans`), and they are those that the index gives (`span?_ofText`).

* `agrees_with_text`: lines, columns and spans are those of the text.
-/

namespace PoolScript

open Token (byteSize byteSize_cons byteSize_append byteSize_toList)

/-- The text `t` is what the span covers of the text `source`. -/
def Span.Covers (span : Span) (source t : String) : Prop :=
  ∃ before behind, source = before ++ t ++ behind ∧
    span = ⟨before.utf8ByteSize, before.utf8ByteSize + t.utf8ByteSize⟩

namespace Lines

/-! ### Bytes -/

/-- The bytes of a text. -/
def bytes (text : String) : List UInt8 :=
  text.toByteArray.data.toList

/-- The byte of a newline. -/
def newline : UInt8 := 10

/-- The bytes of characters. -/
def encoded (cs : List Char) : List UInt8 :=
  cs.flatMap String.utf8EncodeChar

/-- The bytes of a text are those of its characters. -/
theorem bytes_eq (text : String) : bytes text = encoded text.toList := by
  obtain ⟨cs, rfl⟩ : ∃ cs, text = .ofList cs := ⟨text.toList, String.ofList_toList.symm⟩
  rw [bytes, String.toByteArray_ofList, String.toList_ofList]
  simp [List.utf8Encode, encoded]

/-- No other character has the byte of a newline. -/
theorem newline_notMem {c : Char} (h : c ≠ '\n') : newline ∉ String.utf8EncodeChar c := by
  have hc : c.val.toNat ≠ 10 := fun he => h (Char.ext (UInt32.toNat_inj.1 he))
  have byte (n : Nat) (hn : n % 256 ≠ 10) : newline ≠ UInt8.ofNat n := by
    intro he
    have := congrArg UInt8.toNat he
    rw [UInt8.toNat_ofNat'] at this
    exact hn this.symm
  -- A code of several bytes has none below 128.
  simp only [String.utf8EncodeChar]
  repeat' split
  all_goals
    simp only [List.mem_cons, List.not_mem_nil, or_false, not_or]
    repeat' constructor
    all_goals exact byte _ (by omega)

/-! ### Where lines begin -/

variable {pos o s : Nat} {cs : List Char}

/-- What is behind a newline is behind the beginning. -/
theorem lt_of_mem (h : s ∈ afterNewlines pos cs) : pos < s := by
  induction cs generalizing pos with
  | nil => exact absurd h List.not_mem_nil
  | cons c cs ih =>
    rw [afterNewlines] at h
    split at h
    · rcases List.mem_cons.1 h with rfl | h
      · exact Nat.lt_succ_self pos
      · exact Nat.lt_of_succ_lt (ih h)
    · exact Nat.lt_of_le_of_lt (Nat.le_add_right ..) (ih h)

theorem pairwise_afterNewlines (pos : Nat) (cs : List Char) :
    (afterNewlines pos cs).Pairwise (· < ·) := by
  induction cs generalizing pos with
  | nil => exact .nil
  | cons c cs ih =>
    rw [afterNewlines]
    split
    · exact .cons (fun s hs => lt_of_mem hs) (ih _)
    · exact ih _

/-- There are no more lines than bytes. -/
theorem length_afterNewlines_le (pos : Nat) (cs : List Char) :
    (afterNewlines pos cs).length ≤ byteSize cs := by
  induction cs generalizing pos with
  | nil => exact Nat.le_refl _
  | cons c cs ih =>
    have hc := c.utf8Size_pos
    rw [afterNewlines, byteSize_cons]
    split
    · have := ih (pos + 1)
      rw [List.length_cons]
      omega
    · have := ih (pos + c.utf8Size)
      omega

/-- As many lines begin behind a newline before an offset as there are newlines before it. -/
theorem countP_afterNewlines (pos o : Nat) (cs : List Char) :
    (afterNewlines pos cs).countP (· ≤ o) = ((encoded cs).take (o - pos)).count newline := by
  induction cs generalizing pos with
  | nil => simp [afterNewlines, encoded]
  | cons c cs ih =>
    have hencoded : encoded (c :: cs) = String.utf8EncodeChar c ++ encoded cs := List.flatMap_cons
    rw [afterNewlines, hencoded, List.take_append, String.length_utf8EncodeChar, List.count_append]
    split
    · next hc =>
      subst hc
      have hbyte : String.utf8EncodeChar '\n' = [newline] := by decide
      have hsize : ('\n').utf8Size = 1 := by decide
      rw [List.countP_cons, ih, hbyte, hsize, Nat.sub_sub, Nat.add_comm]
      congr 1
      by_cases ho : pos + 1 ≤ o
      · obtain ⟨k, hk⟩ := Nat.exists_eq_add_of_le' (Nat.sub_pos_of_lt ho)
        rw [hk]
        simp [ho]
      · rw [Nat.sub_eq_zero_of_le (by omega)]
        simp [ho]
    · next hc =>
      have hnone : ((String.utf8EncodeChar c).take (o - pos)).count newline = 0 :=
        List.count_eq_zero.2 fun hm => newline_notMem hc (List.mem_of_mem_take hm)
      rw [ih, hnone, Nat.zero_add, Nat.sub_sub]

/-- The offsets at which the lines of a text begin. -/
def begins (cs : List Char) : List Nat :=
  0 :: afterNewlines 0 cs

/-- Lines begin in ascending order. -/
theorem pairwise_begins (cs : List Char) : (begins cs).Pairwise (· < ·) :=
  .cons (fun _ hs => lt_of_mem hs) (pairwise_afterNewlines 0 cs)

/-- One more line begins at or before an offset than there are newlines before it. -/
theorem countP_begins (o : Nat) (cs : List Char) :
    (begins cs).countP (· ≤ o) = 1 + ((encoded cs).take o).count newline := by
  rw [begins, List.countP_cons, countP_afterNewlines, Nat.sub_zero, Nat.add_comm]
  simp

/-! ### Searching -/

/-- In ascending order, those that are not behind an offset come first. -/
theorem lt_countP_iff {xs : List Nat} (hs : xs.Pairwise (· < ·)) {i x y : Nat}
    (hy : xs[i]? = some y) : i < xs.countP (· ≤ x) ↔ y ≤ x := by
  induction xs generalizing i with
  | nil => cases hy
  | cons a xs ih =>
    obtain ⟨ha, hs⟩ := List.pairwise_cons.1 hs
    rw [List.countP_cons]
    cases i with
    | zero =>
      obtain rfl := Option.some.inj hy
      by_cases hle : a ≤ x
      · simp [hle]
      · have hnone : xs.countP (· ≤ x) = 0 :=
          List.countP_eq_zero.2 fun b hb => by simpa using Nat.lt_trans (Nat.not_le.1 hle) (ha b hb)
        simp [hle, hnone]
    | succ i =>
      rw [List.getElem?_cons_succ] at hy
      have hlt := ha y (List.mem_of_getElem? hy)
      have hi := ih hs hy
      by_cases hle : a ≤ x
      · simpa [hle] using hi
      · have hbehind : ¬y ≤ x := by omega
        have hafter := mt hi.1 hbehind
        simp only [hle, hbehind, decide_false, Bool.false_eq_true, if_false, iff_false]
        omega

/-- How many of the numbers are not greater than `x`, by where the search for it ends. -/
def Search.count : Search → Nat
  | .found i => i + 1
  | .missing i => i

/-- The search finds how many of the numbers are not greater than `x`. -/
theorem search_eq {xs : Array Nat} (hs : xs.toList.Pairwise (· < ·)) {x lo hi : Nat}
    (hlo : lo ≤ xs.toList.countP (· ≤ x)) (hhi : xs.toList.countP (· ≤ x) ≤ hi)
    (hsize : hi ≤ xs.size) : (search xs x lo hi).count = xs.toList.countP (· ≤ x) := by
  have at_mid {mid : Nat} (hmid : mid < xs.size) :
      mid < xs.toList.countP (· ≤ x) ↔ xs[mid]?.getD 0 ≤ x := by
    refine lt_countP_iff hs ?_
    simp [hmid]
  fun_induction search xs x lo hi with
  | case1 lo hi hlt mid y heq =>
    -- The number itself is the last one that is not greater.
    have hmid : mid < xs.size := by omega
    have hbefore := (at_mid hmid).2 heq.le
    refine Nat.le_antisymm hbefore (Nat.le_of_not_lt fun hafter => ?_)
    have hnext : mid + 1 < xs.size :=
      Nat.lt_of_lt_of_le hafter (List.countP_le_length.trans Array.length_toList.le)
    have hle := (at_mid hnext).1 hafter
    have hlt := List.pairwise_iff_getElem.1 hs mid (mid + 1) (by simpa) (by simpa)
      (Nat.lt_succ_self mid)
    have hy : y = xs[mid] := by simp [y, hmid]
    simp only [hnext, getElem?_pos, Option.getD_some] at hle
    simp only [Array.getElem_toList] at hlt
    omega
  | case2 lo hi hlt mid y hne hless ih =>
    have hbefore := (at_mid (by omega)).2 hless.le
    exact ih hbefore hhi hsize
  | case3 lo hi hlt mid y hne hless ih =>
    have hafter : ¬mid < xs.toList.countP (· ≤ x) :=
      mt (at_mid (by omega)).1 (by omega)
    exact ih hlo (Nat.le_of_not_lt hafter) (by omega)
  | case4 lo hi hlt => exact Nat.le_antisymm hlo (hhi.trans (Nat.le_of_not_lt hlt))

variable {text : String}

theorem toList_starts (text : String) : (ofText text).starts.toList = begins text.toList := rfl

/-- No more lines begin up to an offset than there are bytes. -/
theorem countP_starts_le (text : String) (o : Nat) :
    (ofText text).starts.toList.countP (· ≤ o) ≤ 1 + text.utf8ByteSize := by
  refine List.countP_le_length.trans ?_
  have := length_afterNewlines_le 0 text.toList
  rw [byteSize_toList] at this
  rw [toList_starts, begins, List.length_cons]
  omega

/-- Offsets below the bound are exact in thirty-two bits. -/
theorem word_eq {n : Nat} (h : n < 2 ^ 32) : word n = n :=
  Nat.mod_eq_of_lt h

/-- The line of an offset is how many lines begin at or before it. -/
theorem line_eq_countP (h : text.utf8ByteSize < 2 ^ 32 - 1) (o : Nat) :
    (ofText text).line o = (begins text.toList).countP (· ≤ o) := by
  have hsearch : (search (ofText text).starts o 0 (ofText text).starts.size).count =
      (ofText text).starts.toList.countP (· ≤ o) :=
    search_eq (pairwise_begins text.toList) (Nat.zero_le _)
      (List.countP_le_length.trans Array.length_toList.le) (Nat.le_refl _)
  have hle := countP_starts_le text o
  have hpos := countP_begins o text.toList
  rw [toList_starts] at hsearch hle
  rw [line]
  split
  · next i hi =>
    rw [hi] at hsearch
    rw [word_eq (by simp only [Search.count] at hsearch; omega)]
    exact hsearch
  · next i hi =>
    rw [hi] at hsearch
    simp only [Search.count] at hsearch
    rw [word_eq (by omega)]
    omega

/-! ### Spans -/

/-- The spans of lines, the first of which begins at the offset `pos`, with a newline between each
    and the next one. -/
def spans (pos : Nat) : List (List Char) → List Span
  | [] => []
  | l :: ls => ⟨pos, pos + byteSize l⟩ :: spans (pos + byteSize l + 1) ls

/-- The spans of lines start where lines begin. -/
theorem starts_spans (pos : Nat) (cs : List Char) :
    (spans pos (cs.splitOn '\n')).map Span.start = pos :: afterNewlines pos cs := by
  induction cs generalizing pos with
  | nil => rfl
  | cons c cs ih =>
    rw [List.splitOn_cons_eq_if_modifyHead, afterNewlines]
    by_cases hc : c = '\n'
    · rw [if_pos (beq_iff_eq.2 hc), if_pos hc, spans, List.map_cons, ← ih]
      rfl
    · rw [if_neg (mt beq_iff_eq.1 hc), if_neg hc]
      obtain ⟨l, ls, hls⟩ := List.exists_cons_of_ne_nil (List.splitOn_ne_nil '\n' cs)
      have ih := ih (pos + c.utf8Size)
      rw [hls, spans, List.map_cons, List.cons.injEq] at ih
      rw [hls, List.modifyHead_cons, spans, List.map_cons, byteSize_cons, ← Nat.add_assoc, ih.2]

/-- A span ends where the next one begins, but for the newline between them, or else at the end. -/
theorem spans_next {ls : List (List Char)} {i : Nat} {span : Span}
    (h : (spans pos ls)[i]? = some span) :
    span.start ≤ span.stop ∧
      (∀ next, (spans pos ls)[i + 1]? = some next → next.start = span.stop + 1) ∧
      ((spans pos ls)[i + 1]? = none → span.stop = pos + byteSize (['\n'].intercalate ls)) := by
  induction ls generalizing pos i with
  | nil => cases h
  | cons l ls ih =>
    cases i with
    | zero =>
      obtain rfl := Option.some.inj h
      refine ⟨Nat.le_add_right .., ?_, ?_⟩
      · intro next hnext
        cases ls with
        | nil => cases hnext
        | cons l' ls =>
          obtain rfl := Option.some.inj hnext
          rfl
      · intro hnone
        cases ls with
        | nil => rw [List.intercalate_singleton]
        | cons l' ls => cases hnone
    -- Further behind, the lines are those behind the first newline.
    | succ i =>
      obtain ⟨hle, hnext, hlast⟩ := ih h
      refine ⟨hle, hnext, fun hnone => ?_⟩
      cases ls with
      | nil => cases h
      | cons l' ls =>
        rw [hlast hnone, List.intercalate_cons_cons, byteSize_append, byteSize_append]
        have hsize : byteSize ['\n'] = 1 := by decide
        omega

/-- The spans of the lines of a text. -/
def lineSpans (text : String) : List Span :=
  spans 0 (text.toList.splitOn '\n')

theorem starts_lineSpans (text : String) :
    (lineSpans text).map Span.start = begins text.toList :=
  starts_spans 0 text.toList

theorem count_ofText (text : String) : (ofText text).count = (lineSpans text).length := by
  rw [count, ← Array.length_toList, toList_starts, ← starts_lineSpans, List.length_map]

theorem starts_getElem? (text : String) (i : Nat) :
    (ofText text).starts[i]? = ((lineSpans text)[i]?).map Span.start := by
  rw [← Array.getElem?_toList, toList_starts, ← starts_lineSpans, List.getElem?_map]

/-- The index gives the spans of the lines. -/
theorem span?_ofText (text : String) (i : Nat) :
    (ofText text).span? (i + 1) = (lineSpans text)[i]? := by
  rw [span?, starts_getElem?, starts_getElem?, Option.map_map]
  cases hspan : (lineSpans text)[i]? with
  | none => rfl
  | some span =>
    obtain ⟨hle, hnext, hlast⟩ := spans_next hspan
    rw [Option.map_some, Function.comp]
    cases hn : (lineSpans text)[i + 1]? with
    | none =>
      have hstop := hlast hn
      rw [List.intercalate_splitOn, byteSize_toList, Nat.zero_add] at hstop
      have hsize : (ofText text).size = span.stop := hstop.symm
      simp only [Option.map_none, hsize, Nat.max_eq_left hle]
    | some next =>
      have hstart := hnext next hn
      simp only [Option.map_some, hstart, Nat.add_sub_cancel, Nat.max_eq_left hle]

/-- A span covers its line. -/
theorem spans_covers {ls : List (List Char)} {i : Nat} {span : Span} (before : List Char)
    (h : (spans (byteSize before) ls)[i]? = some span) :
    ∃ l, ls[i]? = some l ∧
      span.Covers (.ofList (before ++ ['\n'].intercalate ls)) (.ofList l) := by
  have size (cs : List Char) : (String.ofList cs).utf8ByteSize = byteSize cs := by
    rw [← byteSize_toList, String.toList_ofList]
  induction ls generalizing before i with
  | nil => cases h
  | cons l ls ih =>
    cases i with
    | zero =>
      obtain rfl := Option.some.inj h
      refine ⟨l, rfl, .ofList before, ?_⟩
      rw [size, size]
      cases ls with
      | nil => exact ⟨"", by simp, rfl⟩
      | cons l' ls =>
        refine ⟨.ofList ('\n' :: ['\n'].intercalate (l' :: ls)), ?_, rfl⟩
        simp [← String.toList_inj, List.intercalate_cons_cons]
    -- The first line and its newline are before all the others.
    | succ i =>
      cases ls with
      | nil => cases h
      | cons l' ls =>
        have hpos : byteSize before + byteSize l + 1 = byteSize (before ++ l ++ ['\n']) := by
          rw [byteSize_append, byteSize_append]
          rfl
        rw [spans, List.getElem?_cons_succ, hpos] at h
        obtain ⟨t, ht, hcovers⟩ := ih (before ++ l ++ ['\n']) h
        refine ⟨t, ht, ?_⟩
        rwa [List.intercalate_cons_cons, ← List.append_assoc, ← List.append_assoc]

/-- Each line has a span. -/
theorem length_spans (pos : Nat) (ls : List (List Char)) : (spans pos ls).length = ls.length := by
  induction ls generalizing pos with
  | nil => rfl
  | cons l ls ih => exact congrArg (· + 1) (ih _)

/-! ### Lines of offsets -/

/-- The line of an offset is told by the newlines before it. -/
theorem line_eq_count (h : text.utf8ByteSize < 2 ^ 32 - 1) (o : Nat) :
    (ofText text).line o = 1 + ((bytes text).take o).count newline := by
  rw [line_eq_countP h, countP_begins, bytes_eq]

/-- A line begins at or before an offset if enough newlines are before that. -/
theorem le_count_iff {i : Nat} {span : Span} (hspan : (lineSpans text)[i]? = some span) (o : Nat) :
    i ≤ ((bytes text).take o).count newline ↔ span.start ≤ o := by
  have hbegin : (begins text.toList)[i]? = some span.start := by
    rw [← starts_lineSpans, List.getElem?_map, hspan]
    rfl
  rw [← lt_countP_iff (pairwise_begins text.toList) hbegin, countP_begins, bytes_eq, Nat.add_comm,
    Nat.lt_succ_iff]

/-- Fewer newlines are before an offset than there are lines. -/
theorem count_lt (text : String) (o : Nat) :
    ((bytes text).take o).count newline < (lineSpans text).length := by
  have hle := List.countP_le_length (p := fun x => decide (x ≤ o)) (l := begins text.toList)
  rw [countP_begins, ← bytes_eq, ← starts_lineSpans, List.length_map] at hle
  omega

/-- The line that an offset is on begins at or before it, and the next one behind it. -/
theorem span_of_offset (h : text.utf8ByteSize < 2 ^ 32 - 1) (o : Nat) :
    ∃ i span, (ofText text).line o = i + 1 ∧ (lineSpans text)[i]? = some span ∧ span.start ≤ o ∧
      ∀ next, (lineSpans text)[i + 1]? = some next → o < next.start := by
  have hspan := List.getElem?_eq_getElem (count_lt text o)
  refine ⟨_, _, (line_eq_count h o).trans (Nat.add_comm ..), hspan, ?_, fun next hnext => ?_⟩
  · exact (le_count_iff hspan o).1 (Nat.le_refl _)
  · exact Nat.lt_of_not_le (mt (le_count_iff hnext o).2 (Nat.not_succ_le_self _))

/-- A line begins at the text's beginning or behind a newline. -/
theorem newline_before {i : Nat} {span : Span} (hspan : (lineSpans text)[i]? = some span) :
    span.start = 0 ∨ (bytes text)[span.start - 1]? = some newline := by
  refine (Nat.eq_zero_or_pos span.start).imp_right fun hpos => ?_
  obtain ⟨k, hk⟩ := Nat.exists_eq_add_of_le' hpos
  have hat := (le_count_iff hspan (k + 1)).2 hk.le
  have hbefore := mt (le_count_iff hspan k).1 (by omega)
  rw [List.take_add_one, List.count_append] at hat
  have hone : 0 < (bytes text)[k]?.toList.count newline := by omega
  rw [hk, Nat.add_sub_cancel]
  exact Option.mem_toList.1 (List.count_pos_iff.1 hone)

/-- There is no newline between the beginning of an offset's line and the offset. -/
theorem newline_notMem_before (h : text.utf8ByteSize < 2 ^ 32 - 1) {o i : Nat} {span : Span}
    (hline : (ofText text).line o = i + 1) (hspan : (lineSpans text)[i]? = some span)
    (hle : span.start ≤ o) : newline ∉ ((bytes text).take o).drop span.start := by
  have hat := (le_count_iff hspan span.start).2 (Nat.le_refl _)
  rw [line_eq_count h] at hline
  have hsplit := congrArg (List.count newline)
    (List.take_append_drop span.start ((bytes text).take o))
  rw [List.count_append, List.take_take, Nat.min_eq_left hle] at hsplit
  exact List.count_eq_zero.1 (by omega)

/-- The pieces of a text between newlines hold none. -/
theorem newline_notMem_piece {cs l : List Char} (hl : l ∈ cs.splitOn '\n') : '\n' ∉ l := by
  induction cs generalizing l with
  | nil =>
    obtain rfl := List.mem_singleton.1 hl
    exact List.not_mem_nil
  | cons c cs ih =>
    rw [List.splitOn_cons_eq_if_modifyHead] at hl
    split at hl
    · rcases List.mem_cons.1 hl with rfl | hl
      · exact List.not_mem_nil
      · exact ih hl
    · next hc =>
      obtain ⟨l', ls, hls⟩ := List.exists_cons_of_ne_nil (List.splitOn_ne_nil '\n' cs)
      rw [hls] at ih hl
      rcases List.mem_cons.1 hl with rfl | hl
      · refine fun hmem => (List.mem_cons.1 hmem).elim (fun he => hc ?_) (ih List.mem_cons_self)
        exact beq_iff_eq.2 he.symm
      · exact ih (List.mem_cons_of_mem _ hl)

/-! ### The index and the text -/

/-- The lines, columns and spans that an index tells are those of a text. -/
structure Agrees (l : Lines) (text : String) : Prop where
  /-- The line of an offset is told by the newlines before it. -/
  line : ∀ o < 2 ^ 32 - 1, l.line o = 1 + ((bytes text).take o).count newline
  /-- The column of an offset is counted from where its line begins. -/
  position : ∀ o < 2 ^ 32 - 1, ∃ span, l.span? (l.line o) = some span ∧ span.start ≤ o ∧
    (span.start = 0 ∨ (bytes text)[span.start - 1]? = some newline) ∧
    newline ∉ ((bytes text).take o).drop span.start ∧
    l.position o = (l.line o, o - span.start + 1)
  /-- There is a span for each line, and for no other number. -/
  exists_span : ∀ n, (∃ span, l.span? n = some span) ↔ 1 ≤ n ∧ n ≤ l.count
  /-- The spans cover the pieces of the text between newlines. -/
  texts : ∃ ts : List String, ts.length = l.count ∧ "\n".intercalate ts = text ∧
    ∀ i t, ts[i]? = some t →
      '\n' ∉ t.toList ∧ ∃ span, l.span? (i + 1) = some span ∧ span.Covers text t
  /-- An offset within the text is within its line. -/
  within : ∀ o ≤ text.utf8ByteSize,
    ∃ span, l.span? (l.line o) = some span ∧ span.start ≤ o ∧ o ≤ span.stop

/-- The line and the column of an offset, told by the newlines before it. -/
theorem position_ofText (h : text.utf8ByteSize < 2 ^ 32 - 1) {o : Nat} (ho : o < 2 ^ 32 - 1) :
    ∃ span, (ofText text).span? ((ofText text).line o) = some span ∧ span.start ≤ o ∧
      (span.start = 0 ∨ (bytes text)[span.start - 1]? = some newline) ∧
      newline ∉ ((bytes text).take o).drop span.start ∧
      (ofText text).position o = ((ofText text).line o, o - span.start + 1) := by
  obtain ⟨i, span, hline, hspan, hle, -⟩ := span_of_offset h o
  refine ⟨span, ?_, hle, newline_before hspan, newline_notMem_before h hline hspan hle, ?_⟩
  · rw [hline, span?_ofText, hspan]
  · have hstart : (ofText text).starts[i]? = some span.start := by
      rw [starts_getElem?, hspan]
      rfl
    rw [position, hline, Nat.add_sub_cancel, hstart, Option.getD_some, word_eq (by omega)]

/-- The lines are numbered from one on. -/
theorem exists_span_iff (text : String) (n : Nat) :
    (∃ span, (ofText text).span? n = some span) ↔ 1 ≤ n ∧ n ≤ (ofText text).count := by
  cases n with
  | zero =>
    refine ⟨?_, fun h => absurd h.1 (Nat.not_succ_le_zero 0)⟩
    rintro ⟨_, ⟨⟩⟩
  | succ i =>
    rw [span?_ofText, count_ofText, ← Option.isSome_iff_exists, isSome_getElem?]
    exact ⟨fun h => ⟨Nat.succ_pos i, h⟩, fun h => h.2⟩

/-- What the spans cover are the lines of the text, in their order. -/
theorem texts_ofText (text : String) :
    ∃ ts : List String, ts.length = (ofText text).count ∧ "\n".intercalate ts = text ∧
      ∀ i t, ts[i]? = some t →
        '\n' ∉ t.toList ∧ ∃ span, (ofText text).span? (i + 1) = some span ∧ span.Covers text t := by
  refine ⟨(text.toList.splitOn '\n').map .ofList, ?_, ?_, fun i t ht => ?_⟩
  · rw [List.length_map, count_ofText, lineSpans, length_spans]
  · have hnewline : ("\n" : String).toList = ['\n'] := by decide
    rw [← String.toList_inj, String.toList_intercalate, List.map_map, hnewline]
    simp only [Function.comp_def, String.toList_ofList, List.map_id_fun', id,
      List.intercalate_splitOn]
  · rw [List.getElem?_map, Option.map_eq_some_iff] at ht
    obtain ⟨l, hl, rfl⟩ := ht
    refine ⟨?_, ?_⟩
    · rw [String.toList_ofList]
      exact newline_notMem_piece (List.mem_of_getElem? hl)
    · have hlt : i < (lineSpans text).length := by
        rw [lineSpans, length_spans]
        exact (List.getElem?_eq_some_iff.1 hl).1
      have hspan := List.getElem?_eq_getElem hlt
      obtain ⟨l', hl', hcovers⟩ := spans_covers [] hspan
      obtain rfl : l = l' := Option.some.inj (hl.symm.trans hl')
      refine ⟨_, (span?_ofText text i).trans hspan, ?_⟩
      rwa [List.nil_append, List.intercalate_splitOn, String.ofList_toList] at hcovers

/-- An offset in the text lies in the span of its line. -/
theorem within_ofText (h : text.utf8ByteSize < 2 ^ 32 - 1) {o : Nat}
    (ho : o ≤ text.utf8ByteSize) : ∃ span, (ofText text).span? ((ofText text).line o) = some span ∧
      span.start ≤ o ∧ o ≤ span.stop := by
  obtain ⟨i, span, hline, hspan, hle, hbehind⟩ := span_of_offset h o
  refine ⟨span, by rw [hline, span?_ofText, hspan], hle, ?_⟩
  obtain ⟨-, hnext, hlast⟩ := spans_next hspan
  cases hn : (lineSpans text)[i + 1]? with
  | none =>
    rw [hlast hn, List.intercalate_splitOn, byteSize_toList, Nat.zero_add]
    exact ho
  | some next =>
    have hlt := hbehind next hn
    rw [hnext next hn] at hlt
    exact Nat.le_of_lt_succ hlt

/-- The lines, columns and spans of a text's index are those of the text. -/
theorem agrees_with_text (text : String) (h : text.utf8ByteSize < 2 ^ 32 - 1) :
    (ofText text).Agrees text where
  line o _ := line_eq_count h o
  position _ ho := position_ofText h ho
  exists_span := exists_span_iff text
  texts := texts_ofText text
  within _ ho := within_ofText h ho

/-- A text of four lines, the second and the last of which are empty. -/
theorem agrees_with_short_text :
    ("à\n\nb\n" : String).utf8ByteSize < 2 ^ 32 - 1 ∧ (ofText "à\n\nb\n").Agrees "à\n\nb\n" ∧
      (ofText "à\n\nb\n").count = 4 ∧ (ofText "à\n\nb\n").line 5 = 3 := by
  have hsize : ("à\n\nb\n" : String).utf8ByteSize < 2 ^ 32 - 1 := by decide
  have hagrees := agrees_with_text "à\n\nb\n" hsize
  refine ⟨hsize, hagrees, by decide, ?_⟩
  rw [hagrees.line 5 (by decide)]
  decide

end Lines

end PoolScript
