import PoolScript.Proofs.Number.Numeral
import PoolScript.Proofs.Tree.Literals

/-!
# Integers at the front of texts

Every text begins with blanks, at most one sign, and digits, each of these as many as there are
(`Front`), and what comes then is none of their business. The integer at the front of the text is
what the digits and the sign write (`written`), reduced modulo `2 ^ 64`: to wrap around at each
digit and to change the sign after that is the same as to reduce once (`Front.leadingInt`).

So the text of an integer is read back as the integer, whatever stands behind it, as long as that
does not begin with a digit (`leadingInt_text`). The digits of the least integer are beyond the
greatest one. They are read as the least integer, and its negative is itself.
-/

namespace PoolScript.Number

variable {cs blanks sign ds rest : List Char} {s : String}

/-- How a text begins: blanks, a sign if need be, and digits, each as many as there are. -/
structure Front (cs blanks sign ds rest : List Char) : Prop where
  text : cs = blanks ++ (sign ++ (ds ++ rest))
  blank : ∀ c ∈ blanks, Text.isBlank c = true
  unblank : ∀ c ∈ (sign ++ (ds ++ rest)).head?, Text.isBlank c = false
  sign : IsSign sign (ds ++ rest)
  digit : ∀ d ∈ ds, d.isDigit = true
  undigit : ∀ c ∈ rest.head?, c.isDigit = false

/-- The integer that a sign and digits write. -/
def written (sign ds : List Char) : Int :=
  if sign = ['-'] then -natOfDigits ds else natOfDigits ds

/-! ### How a text begins -/

theorem head?_dropWhile_eq_false {p : Char → Bool} (cs : List Char) :
    ∀ c ∈ (cs.dropWhile p).head?, p c = false := by
  intro c hc
  have := List.head?_dropWhile_not p cs
  rw [hc] at this
  simpa using this

/-- Every text begins so. -/
theorem exists_front (cs : List Char) : ∃ blanks sign ds rest, Front cs blanks sign ds rest := by
  have hcs : Token.signOf (Text.dropBlanks cs) ++ unsigned (Text.dropBlanks cs) =
      Text.dropBlanks cs := signOf_append_unsigned _
  generalize hbehind : unsigned (Text.dropBlanks cs) = behind at *
  have hsplit : behind.takeWhile Char.isDigit ++ behind.dropWhile Char.isDigit = behind :=
    List.takeWhile_append_dropWhile
  refine ⟨cs.takeWhile Text.isBlank, Token.signOf (Text.dropBlanks cs),
    behind.takeWhile Char.isDigit, behind.dropWhile Char.isDigit, ?_, ?_, ?_, ?_, ?_, ?_⟩
  · rw [hsplit, hcs, Text.dropBlanks, List.takeWhile_append_dropWhile]
  · exact fun c hc => List.mem_takeWhile_imp hc
  · rw [hsplit, hcs]
    exact head?_dropWhile_eq_false cs
  · rw [hsplit, ← hbehind]
    exact isSign_signOf _
  · exact fun d hd => List.mem_takeWhile_imp hd
  · exact head?_dropWhile_eq_false behind

/-! ### What is read there -/

/-- Wrapping around at each digit is wrapping around once. -/
theorem foldl_wrap (ds : List Char) (n : Nat) :
    ds.foldl (fun n c => n * 10 + .ofNat (digitValue c)) (Int64.ofNat n) =
      .ofNat (ds.foldl (fun n c => 10 * n + digitValue c) n) := by
  induction ds generalizing n with
  | nil => rfl
  | cons d ds ih =>
    -- One step of the loop is the same step on numbers without a bound, reduced.
    have hstep : Int64.ofNat n * 10 + .ofNat (digitValue d) = .ofNat (10 * n + digitValue d) := by
      rw [Int64.ofNat_add, Int64.ofNat_mul, Int64.mul_comm]
      rfl
    rw [List.foldl_cons, List.foldl_cons, hstep, ih]

theorem Front.dropBlanks (h : Front cs blanks sign ds rest) :
    Text.dropBlanks cs = sign ++ (ds ++ rest) := by
  rw [h.text]
  exact Token.dropWhile_run h.blank h.unblank

theorem Front.takeSign (h : Front cs blanks sign ds rest) :
    takeSign (sign ++ (ds ++ rest)) = (decide (sign = ['-']), ds ++ rest) := by
  rw [takeSign_eq, h.sign.signOf_append, h.sign.unsigned_append]

/-- The integer at the front is what is written there, reduced modulo `2 ^ 64`. -/
theorem Front.leadingInt (h : Front s.toList blanks sign ds rest) :
    leadingInt s = .ofInt (written sign ds) := by
  have hdigits : (ds ++ rest).takeWhile Char.isDigit = ds := Token.takeWhile_run h.digit h.undigit
  have hfold : ds.foldl (fun n c => n * 10 + .ofNat (digitValue c)) (0 : Int64) =
      .ofNat (natOfDigits ds) := foldl_wrap ds 0
  simp only [Number.leadingInt, h.dropBlanks, h.takeSign, hdigits, hfold, written,
    decide_eq_true_eq]
  split
  · rw [Int64.neg_ofNat]
  · rw [Int64.ofInt_eq_ofNat]

/-! ### Reading integers back -/

theorem isBlank_eq_false_of_isDigit {c : Char} (hc : c.isDigit = true) :
    Text.isBlank c = false := by
  obtain ⟨hlo, hhi⟩ : '0'.toNat ≤ c.toNat ∧ c.toNat ≤ '9'.toNat := Char.isDigit_iff_toNat.1 hc
  have hout : ∀ r ∈ Text.blanks, ¬(r.1 ≤ c.toNat ∧ c.toNat ≤ r.2) := by
    have hr : ∀ r ∈ Text.blanks, r.2 < '0'.toNat ∨ '9'.toNat < r.1 := by decide
    intro r hmem
    have := hr r hmem
    omega
  simpa [Text.isBlank] using hout

/-- The text of an integer is a sign and digits. -/
theorem text_int (n : Int64) : ∃ sign ds, (Scalar.text (.int n)).toList = sign ++ ds ∧
    (sign = [] ∨ sign = ['-']) ∧ ds ∈ Token.digits ∧ written sign ds = n.toInt := by
  rw [Scalar.text]
  cases n.toInt with
  | ofNat k =>
    refine ⟨[], Nat.toDigits 10 k, String.toList_ofList, .inl rfl, Expr.toDigits_mem_digits k, ?_⟩
    rw [written, if_neg (by decide), Expr.natOfDigits_toDigits]
    rfl
  | negSucc k =>
    refine ⟨['-'], Nat.toDigits 10 (k + 1), ?_, .inr rfl, Expr.toDigits_mem_digits _, ?_⟩
    · have htext : toString (Int.negSucc k) = .ofList ('-' :: Nat.toDigits 10 (k + 1)) := by
        rw [← List.singleton_append, String.ofList_append]
        rfl
      rw [htext, String.toList_ofList]
      rfl
    · rw [written, if_pos rfl, Expr.natOfDigits_toDigits]
      rfl

/-- The text of an integer is read back whatever follows it, as long as that is not a digit. -/
theorem leadingInt_text (n : Int64) {t : String} (ht : ∀ c ∈ t.toList.head?, c.isDigit = false) :
    leadingInt (Scalar.text (.int n) ++ t) = n := by
  obtain ⟨sign, ds, htext, hsign, hds, hn⟩ := text_int n
  obtain ⟨hne, hdigits⟩ := Token.mem_digits.1 hds
  obtain ⟨d, ds, rfl⟩ := List.exists_cons_of_ne_nil hne
  have hd : d.isDigit = true := hdigits d List.mem_cons_self
  have hunsigned : d ≠ '+' ∧ d ≠ '-' := by
    constructor <;> (rintro rfl; exact absurd hd (by decide))
  have hfront : Front (Scalar.text (.int n) ++ t).toList [] sign (d :: ds) t.toList := by
    refine ⟨?_, fun _ hc => (List.not_mem_nil hc).elim, ?_, ?_, hdigits, ht⟩
    · rw [String.toList_append, htext, List.append_assoc, List.nil_append]
    · rintro c hc
      rcases hsign with rfl | rfl
      · obtain rfl := Option.some.inj hc
        exact isBlank_eq_false_of_isDigit hd
      · obtain rfl := Option.some.inj hc
        decide
    · rcases hsign with rfl | rfl
      · refine .inl ⟨rfl, fun c hc => ?_⟩
        obtain rfl := Option.some.inj hc
        exact hunsigned
      · exact .inr (.inr rfl)
  rw [hfront.leadingInt, hn, Int64.ofInt_toInt]

end PoolScript.Number
