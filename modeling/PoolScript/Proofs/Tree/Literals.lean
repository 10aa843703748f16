import PoolScript.Operator
import PoolScript.Proofs.Token.Literals
import PoolScript.Proofs.Tree.Layout

/-!
# Integer literals at the limits

An integer literal is a run of digits, however long, perhaps with minuses before it. It is read as
an integer as long as its size is below `2 ^ 63`, and with a minus before it also if its size is
`2 ^ 63`. Else it is refused: from `2 ^ 64` on as a token, below that by the reading
(`Expr.parse_limits`). The integer is what the evaluator makes of the size when it changes its sign
once for each minus, so it makes no difference whether a minus is part of the literal.

The text of every integer is read as this integer.
-/

namespace PoolScript

open Reading

/-- What comes of `v` when its sign is changed `m` times. -/
def Heap.negateTimes (heap : Heap) (v : Value) : Nat → Except Fault Value × Heap
  | 0 => (.ok v, heap)
  | m + 1 =>
    match heap.negateTimes v m with
    | (.ok w, heap) => heap.negate w
    | (.error f, heap) => (.error f, heap)

theorem Heap.negateTimes_int (heap : Heap) (n : Int64) (m : Nat) :
    heap.negateTimes (.int n) m = (.ok (.int ((- ·)^[m] n)), heap) := by
  induction m with
  | zero => rfl
  | succ m ih =>
    rw [negateTimes, ih, Function.iterate_succ_apply']
    rfl

namespace Reading

variable {ls : List Lexeme} {m v : Nat}

/-- The tokens are `m` minuses and the literal of size `v`. -/
def IsLiteral (m v : Nat) (ls : List Lexeme) : Prop :=
  ls.map (·.token) = List.replicate m .minus ++ [.intLit v]

theorem IsLiteral.zero (h : IsLiteral 0 v ls) : ∃ line, ls = [⟨.intLit v, line⟩] := by
  obtain ⟨⟨t, line⟩, rfl, rfl⟩ := List.map_eq_singleton_iff.1 h
  exact ⟨line, rfl⟩

theorem IsLiteral.succ (h : IsLiteral (m + 1) v ls) :
    ∃ line us, ls = ⟨.minus, line⟩ :: us ∧ IsLiteral m v us := by
  obtain ⟨⟨t, line⟩, us, rfl, rfl, hus⟩ := List.map_eq_cons_iff.1 h
  exact ⟨line, us, rfl, hus⟩

/-- The literal of the least integer stands right behind its minus. -/
theorem IsLiteral.peek_eq_least (h : IsLiteral m v ls) :
    peek ls = some (.intLit leastMagnitude) ↔ m = 0 ∧ v = leastMagnitude := by
  cases m with
  | zero =>
    obtain ⟨line, rfl⟩ := h.zero
    simp [peek]
  | succ m =>
    obtain ⟨line, us, rfl, -⟩ := h.succ
    simp [peek]

/-- A literal within the limits is read as its size with the sign changed once for each minus. -/
theorem operand_literal (h : IsLiteral m v ls)
    (hv : v < leastMagnitude ∨ v = leastMagnitude ∧ 0 < m) :
    Parsed.outcome (operand ls) = .ok (.int ((- ·)^[m] (.ofNat v)), []) := by
  induction m generalizing ls with
  | zero =>
    obtain ⟨line, rfl⟩ := h.zero
    exact operand_int (by omega)
  | succ m ih =>
    obtain ⟨line, us, rfl, hus⟩ := h.succ
    -- Only the minus right before the digits can make them the least integer.
    by_cases hleast : m = 0 ∧ v = leastMagnitude
    · rw [operand_least (hus.peek_eq_least.2 hleast)]
      obtain ⟨rfl, rfl⟩ := hleast
      obtain ⟨line', rfl⟩ := hus.zero
      rfl
    · rw [operand_minus (mt hus.peek_eq_least.1 hleast), ih hus (by omega),
        Function.iterate_succ_apply']
      rfl

/-- A literal beyond the limits is refused. -/
theorem operand_literal_refused (h : IsLiteral m v ls) (hv : leastMagnitude ≤ v)
    (hm : v = leastMagnitude → m = 0) : ∃ left,
      Parsed.outcome (operand ls) = .error ⟨.integerTooLarge, left⟩ := by
  induction m generalizing ls with
  | zero =>
    obtain ⟨line, rfl⟩ := h.zero
    refine ⟨1, ?_⟩
    rw [operand, if_neg (Nat.not_lt.2 hv)]
    rfl
  | succ m ih =>
    obtain ⟨line, us, rfl, hus⟩ := h.succ
    have hleast : ¬(m = 0 ∧ v = leastMagnitude) := fun hleast => by
      have := hm hleast.2
      omega
    obtain ⟨left, hleft⟩ := ih hus (by omega)
    refine ⟨left, ?_⟩
    rw [operand_minus (mt hus.peek_eq_least.1 hleast), hleft]
    rfl

end Reading

namespace Expr

variable {ls : List Lexeme} {ds : List Char} {m : Nat}

theorem ofTokens_operand {e : Expr} (h : Parsed.outcome (operand ls) = .ok (e, [])) :
    ofTokens ls = .ok e := by
  rw [ofTokens_eq_ok, climb_outcome, h]
  exact operators_of_none rfl

theorem ofTokens_refused {r : Refusal} (h : Parsed.outcome (operand ls) = .error r) :
    ofTokens ls = .error r := by
  have hclimb : Parsed.outcome (climb 0 ls) = .error r := by
    rw [climb_outcome, h]
    rfl
  rw [ofTokens, expr]
  cases hread : climb 0 ls with
  | error r' =>
    rw [hread] at hclimb
    cases hclimb
    rfl
  | ok a =>
    rw [hread] at hclimb
    cases hclimb

/-- The text of `m` minuses and the digits. -/
def literalText (m : Nat) (ds : List Char) : String :=
  .ofList (List.replicate m '-' ++ ds)

theorem exists_literal (h : ds ∈ Token.digits) (m : Nat)
    (hv : Number.natOfDigits ds < UInt64.size) :
    ∃ tokens, Token.scan (literalText m ds) = .ok tokens ∧
      IsLiteral m (Number.natOfDigits ds) (lexemes (literalText m ds) tokens) := by
  obtain ⟨tokens, hscan, htokens⟩ := (Token.scan_minuses h m).1 hv
  refine ⟨tokens, hscan, ?_⟩
  rw [IsLiteral, ← htokens, lexemes, List.map_map]
  rfl

/-- Within the limits, a literal is its size with the sign changed once for each minus. -/
theorem parse_literal (h : ds ∈ Token.digits) (hv : Number.natOfDigits ds < leastMagnitude ∨
    Number.natOfDigits ds = leastMagnitude ∧ 0 < m) :
    parse (literalText m ds) = .ok (.int ((- ·)^[m] (.ofNat (Number.natOfDigits ds)))) := by
  have hsize : leastMagnitude < UInt64.size := by decide
  obtain ⟨tokens, hscan, hliteral⟩ := exists_literal h m (by omega)
  rw [parse, readSource_of_scan hscan, ofTokens_operand (operand_literal hliteral hv)]

/-- Beyond the limits, a literal is refused by the reading if it is a token at all. -/
theorem parse_literal_refused (h : ds ∈ Token.digits) (hv : leastMagnitude ≤ Number.natOfDigits ds)
    (hm : Number.natOfDigits ds = leastMagnitude → m = 0)
    (hsize : Number.natOfDigits ds < UInt64.size) :
    ∃ e, parse (literalText m ds) = .error e ∧ e.fault = .grammar .integerTooLarge := by
  obtain ⟨tokens, hscan, hliteral⟩ := exists_literal h m hsize
  obtain ⟨left, hleft⟩ := operand_literal_refused hliteral hv hm
  rw [parse, readSource_of_scan hscan, ofTokens_refused hleft]
  exact ⟨_, rfl, rfl⟩

theorem parse_literal_unscanned (h : ds ∈ Token.digits)
    (hv : UInt64.size ≤ Number.natOfDigits ds) : ∃ e, parse (literalText m ds) = .error e ∧
      e.fault = .lexical (.integerTooLarge (.ofList ds)) := by
  obtain ⟨span, hscan⟩ := (Token.scan_minuses h m).2 hv
  rw [parse, readSource, literalText, hscan]
  exact ⟨_, rfl, rfl⟩

theorem natOfDigits_toDigits (n : Nat) : Number.natOfDigits (Nat.toDigits 10 n) = n :=
  Nat.ofDigitChars_toDigits (by decide) (by decide)

theorem toDigits_mem_digits (n : Nat) : Nat.toDigits 10 n ∈ Token.digits :=
  Token.mem_digits.2 ⟨Nat.toDigits_ne_nil, fun _ hc =>
    Nat.isDigit_of_mem_toDigits (by decide) (by decide) hc⟩

/-- The text of an integer is read as the integer. -/
theorem parse_text (n : Int64) : parse (Scalar.text (.int n)) = .ok (.int n) := by
  have hle := n.le_toInt
  have hlt := n.toInt_lt
  have hleast : leastMagnitude = 2 ^ 63 := by decide
  have hself := Int64.ofInt_toInt n
  rw [Scalar.text]
  cases hn : n.toInt with
  | ofNat k =>
    have hk : n.toInt = k := hn
    have h := parse_literal (m := 0) (toDigits_mem_digits k)
      (.inl (by rw [natOfDigits_toDigits]; omega))
    rw [natOfDigits_toDigits] at h
    rw [← hself, hk, Int64.ofInt_eq_ofNat]
    exact h
  | negSucc k =>
    have hk : n.toInt = -(k + 1 : Nat) := hn
    have h := parse_literal (m := 1) (toDigits_mem_digits (k + 1))
      (by rw [natOfDigits_toDigits]; omega)
    rw [natOfDigits_toDigits] at h
    have htext : toString (Int.negSucc k) = literalText 1 (Nat.toDigits 10 (k + 1)) := by
      rw [literalText, List.replicate_one, String.ofList_append]
      rfl
    rw [htext, ← hself, hk, ← Int64.neg_ofNat]
    exact h

/-- What is made of digits with `m` minuses before them. -/
structure ReadsLiteral (m : Nat) (ds : List Char) (read : Except SourceError Expr) : Prop where
  unsigned : m = 0 → Number.natOfDigits ds < 2 ^ 63 →
    ∃ n, read = .ok (.int n) ∧ n.toInt = Number.natOfDigits ds
  unread : m = 0 → 2 ^ 63 ≤ Number.natOfDigits ds → Number.natOfDigits ds < 2 ^ 64 →
    ∃ e, read = .error e ∧ e.fault = .grammar .integerTooLarge
  unscanned : m = 0 → 2 ^ 64 ≤ Number.natOfDigits ds →
    ∃ e, read = .error e ∧ e.fault = .lexical (.integerTooLarge (.ofList ds))
  signed : 1 ≤ m → ((∃ n, read = .ok (.int n)) ↔ Number.natOfDigits ds ≤ 2 ^ 63)
  folded : ∀ n, read = .ok (.int n) → ∀ heap : Heap,
    heap.negateTimes (.int (.ofNat (Number.natOfDigits ds))) m = (.ok (.int n), heap)

/-- A literal is read within the limits and else refused, and changing signs while reading is the
    same as changing them in the evaluator. The text of every integer is within the limits. -/
theorem parse_limits :
    (∀ ds ∈ Token.digits, ∀ m, ReadsLiteral m ds (parse (literalText m ds))) ∧
      ∀ n : Int64, parse (Scalar.text (.int n)) = .ok (.int n) := by
  refine ⟨fun ds hds m => ?_, parse_text⟩
  have hleast : leastMagnitude = 2 ^ 63 := by decide
  have hsize : UInt64.size = 2 ^ 64 := rfl
  have hread (n : Int64) (h : parse (literalText m ds) = .ok (.int n)) :
      (Number.natOfDigits ds < leastMagnitude ∨ Number.natOfDigits ds = leastMagnitude ∧ 0 < m) ∧
        n = (- ·)^[m] (.ofNat (Number.natOfDigits ds)) := by
    -- An integer is read only within the limits, for beyond them the text is refused.
    by_cases hv : Number.natOfDigits ds < leastMagnitude ∨
        Number.natOfDigits ds = leastMagnitude ∧ 0 < m
    · exact ⟨hv, Expr.int.inj (Except.ok.inj (h.symm.trans (parse_literal hds hv)))⟩
    by_cases hlt : Number.natOfDigits ds < UInt64.size
    · obtain ⟨e, he, -⟩ := parse_literal_refused (m := m) hds (by omega) (by omega) hlt
      cases h.symm.trans he
    · obtain ⟨e, he, -⟩ := parse_literal_unscanned (m := m) hds (Nat.not_lt.1 hlt)
      cases h.symm.trans he
  constructor
  · rintro rfl hv
    exact ⟨_, parse_literal hds (.inl (by omega)), Int64.toInt_ofNat_of_lt hv⟩
  · rintro rfl hv hlt
    exact parse_literal_refused hds (by omega) (fun _ => rfl) (by omega)
  · rintro rfl hv
    exact parse_literal_unscanned hds (by omega)
  · intro hm
    refine ⟨fun ⟨n, hn⟩ => ?_, fun hv => ⟨_, parse_literal hds (by omega)⟩⟩
    have := (hread n hn).1
    omega
  · intro n hn heap
    rw [Heap.negateTimes_int, ← (hread n hn).2]

theorem parse_limits_least : "9223372036854775808".toList ∈ Token.digits ∧
    Number.natOfDigits "9223372036854775808".toList = 2 ^ 63 ∧
    ∃ n, parse "--9223372036854775808" = .ok (.int n) := by
  have hds : "9223372036854775808".toList ∈ Token.digits :=
    Token.mem_digits.2 ⟨by simp, by simp⟩
  have hv : Number.natOfDigits "9223372036854775808".toList = 2 ^ 63 := by decide
  have htext : literalText 2 "9223372036854775808".toList = "--9223372036854775808" := by decide
  have hread := ((parse_limits.1 _ hds 2).signed (by decide)).2 hv.le
  exact ⟨hds, hv, htext ▸ hread⟩

end Expr

end PoolScript
