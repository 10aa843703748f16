import PoolScript.Proofs.Token.Patterns

/-!
# Numerals at the front of texts

A numeral is a sign if need be, digits with at most one point among, before or after them, and
possibly an exponent (`numerals`). These are the texts that are read as decimal numbers
(`Decimal.read?_isSome_iff`).

The numeral at the front of a text is the longest of those there: a mantissa (`leadingMantissa`),
which goes on as long as there are digits or a first point, and an exponent behind it if there is a
whole one (`leadingNumeral_longest`). So the double at the front of a text is the one that this
numeral writes, and zero only takes the place of a numeral where there is none
(`leadingFloat_longest`).
-/

namespace PoolScript.Number

open Token

variable {cs w m xs ds es rest sign : List Char}

/-! ### Numerals -/

/-- Digits with at most one point among, before or after them. -/
def mantissas : Language Char :=
  digits * (1 + one (· = '.') * (1 + digits)) + one (· = '.') * digits

/-- A sign if need be, a mantissa, and possibly an exponent. -/
def numerals : Language Char :=
  (1 + one fun c => c = '+' || c = '-') * mantissas * (1 + exponent)

/-- The word is the longest one of the language at the front of the text. -/
structure LongestPrefix (l : Language Char) (text w : List Char) : Prop where
  mem : w ∈ l
  leads : w <+: text
  greatest : ∀ v ∈ l, v <+: text → v.length ≤ w.length

/-- The point at the front of a text and the digits behind it, unless there are no digits at all,
    neither there nor in `whole`. -/
def fractionBehind (whole cs : List Char) : List Char :=
  match cs with
  | '.' :: cs =>
    let ds := cs.takeWhile Char.isDigit
    if whole = [] ∧ ds = [] then [] else '.' :: ds
  | _ => []

/-- The mantissa at the front of a text, empty if there is none. -/
def leadingMantissa (cs : List Char) : List Char :=
  let whole := cs.takeWhile Char.isDigit
  whole ++ fractionBehind whole (cs.dropWhile Char.isDigit)

/-! ### Signs -/

/-- The text behind the sign at its front. -/
def unsigned (cs : List Char) : List Char :=
  cs.drop (signOf cs).length

/-- A sign, or nothing if there is none in front of what follows. -/
def IsSign (sign rest : List Char) : Prop :=
  sign = [] ∧ (∀ c ∈ rest.head?, c ≠ '+' ∧ c ≠ '-') ∨ sign = ['+'] ∨ sign = ['-']

theorem isSign_of_head? (h : sign = [] ∨ sign = ['+'] ∨ sign = ['-'])
    (hrest : ∀ c ∈ rest.head?, c ≠ '+' ∧ c ≠ '-') : IsSign sign rest :=
  h.imp_left fun hnil => ⟨hnil, hrest⟩

theorem IsSign.signOf_append (h : IsSign sign rest) : signOf (sign ++ rest) = sign := by
  obtain ⟨rfl, hrest⟩ | rfl | rfl := h
  · rcases rest with _ | ⟨c, rest⟩
    · rfl
    · obtain ⟨hplus, hminus⟩ := hrest c rfl
      simp [signOf, hplus, hminus]
  · rfl
  · rfl

theorem IsSign.unsigned_append (h : IsSign sign rest) : unsigned (sign ++ rest) = rest := by
  rw [unsigned, h.signOf_append, List.drop_left]

theorem signOf_append_unsigned (cs : List Char) : signOf cs ++ unsigned cs = cs :=
  List.prefix_iff_eq_append.1 (signOf_leads cs)

theorem isSign_signOf (cs : List Char) : IsSign (signOf cs) (unsigned cs) := by
  rcases cs with _ | ⟨c, cs⟩
  · exact .inl ⟨rfl, nofun⟩
  by_cases hc : c = '+' ∨ c = '-'
  · rcases hc with rfl | rfl
    exacts [.inr (.inl rfl), .inr (.inr rfl)]
  · have hnone : signOf (c :: cs) = [] := by simp [signOf, hc]
    rw [unsigned, hnone]
    refine .inl ⟨rfl, fun d hd => ?_⟩
    obtain rfl := Option.some.inj hd
    exact not_or.1 hc

theorem takeSign_eq (cs : List Char) : takeSign cs = (decide (signOf cs = ['-']), unsigned cs) := by
  conv_lhs => rw [← signOf_append_unsigned cs]
  obtain ⟨hsign, hhead⟩ | hsign | hsign := isSign_signOf cs
  · rw [hsign, List.nil_append]
    refine takeSign.eq_3 _ (fun rest hrest => ?_) fun rest hrest => ?_
    · exact (hhead '-' (by rw [hrest]; rfl)).2 rfl
    · exact (hhead '+' (by rw [hrest]; rfl)).1 rfl
  · rw [hsign]
    rfl
  · rw [hsign]
    rfl

/-! ### Mantissas and exponents -/

theorem mem_mantissas : w ∈ mantissas ↔ w ∈ digits ∨ ∃ ds es, (∀ d ∈ ds, d.isDigit = true) ∧
    (∀ d ∈ es, d.isDigit = true) ∧ ¬(ds = [] ∧ es = []) ∧ w = ds ++ '.' :: es := by
  rw [mantissas, Language.mem_add, Language.mem_mul]
  constructor
  · rintro (⟨ds, hds, v, hv, rfl⟩ | h)
    · obtain ⟨hne, hdigit⟩ := mem_digits.1 hds
      obtain rfl | hv := (Language.mem_add ..).1 hv
      · exact .inl (by rwa [List.append_nil])
      obtain ⟨c, es, hc, hes, rfl⟩ := mem_one_mul.1 hv
      obtain rfl : c = '.' := of_decide_eq_true hc
      have hes : ∀ d ∈ es, d.isDigit = true := by
        obtain rfl | hes := (Language.mem_add ..).1 hes
        · exact fun d hd => (List.not_mem_nil hd).elim
        · exact (mem_digits.1 hes).2
      exact .inr ⟨ds, es, hdigit, hes, fun h => hne h.1, rfl⟩
    · obtain ⟨c, es, hc, hes, rfl⟩ := mem_one_mul.1 h
      obtain rfl : c = '.' := of_decide_eq_true hc
      obtain ⟨hne, hdigit⟩ := mem_digits.1 hes
      exact .inr ⟨[], es, fun d hd => (List.not_mem_nil hd).elim, hdigit, fun h => hne h.2, rfl⟩
  · rintro (h | ⟨ds, es, hds, hes, hne, rfl⟩)
    · exact .inl ⟨w, h, [], (Language.mem_add ..).2 (.inl rfl), List.append_nil w⟩
    by_cases hnil : ds = []
    · subst hnil
      have hes : es ∈ digits := mem_digits.2 ⟨fun h => hne ⟨rfl, h⟩, hes⟩
      exact .inr (cons_mem_one_mul.2 ⟨rfl, hes⟩)
    · have hes : es ∈ 1 + digits := by
        by_cases h : es = []
        · exact (Language.mem_add ..).2 (.inl h)
        · exact (Language.mem_add ..).2 (.inr (mem_digits.2 ⟨h, hes⟩))
      have htail : '.' :: es ∈ 1 + one (· = '.') * (1 + digits) :=
        (Language.mem_add ..).2 (.inr (cons_mem_one_mul.2 ⟨rfl, hes⟩))
      exact .inl ⟨ds, mem_digits.2 ⟨hnil, hds⟩, _, htail, rfl⟩

theorem ne_nil_of_mem_mantissas (h : w ∈ mantissas) : w ≠ [] := by
  rcases mem_mantissas.1 h with h | ⟨ds, es, -, -, -, rfl⟩
  · exact (mem_digits.1 h).1
  · exact List.append_ne_nil_of_right_ne_nil _ (List.cons_ne_nil _ _)

theorem mem_numerals : w ∈ numerals ↔ ∃ sign m xs, (sign = [] ∨ sign = ['+'] ∨ sign = ['-']) ∧
    m ∈ mantissas ∧ xs ∈ 1 + exponent ∧ w = sign ++ (m ++ xs) := by
  rw [numerals, mul_assoc, Language.mem_mul]
  constructor
  · rintro ⟨sign, hsign, v, hv, rfl⟩
    obtain ⟨m, hm, xs, hxs, rfl⟩ := Language.mem_mul.1 hv
    exact ⟨sign, m, xs, mem_sign.1 hsign, hm, hxs, rfl⟩
  · rintro ⟨sign, m, xs, hsign, hm, hxs, rfl⟩
    exact ⟨sign, mem_sign.2 hsign, _, Language.append_mem_mul hm hxs, rfl⟩

theorem ne_nil_of_mem_numerals (h : w ∈ numerals) : w ≠ [] := by
  obtain ⟨sign, m, xs, -, hm, -, rfl⟩ := mem_numerals.1 h
  exact List.append_ne_nil_of_right_ne_nil _
    (List.append_ne_nil_of_left_ne_nil (ne_nil_of_mem_mantissas hm) _)

/-! ### The mantissa at the front -/

/-- Behind the digits at the front there is a point, or something else. -/
theorem point_or_ne (cs : List Char) : (∃ rest, cs = '.' :: rest) ∨ ∀ c ∈ cs.head?, c ≠ '.' := by
  rcases cs with _ | ⟨c, rest⟩
  · exact .inr nofun
  by_cases hc : c = '.'
  · exact .inl ⟨rest, by rw [hc]⟩
  · refine .inr fun d hd => ?_
    obtain rfl := Option.some.inj hd
    exact hc

theorem leadingMantissa_of_point (h : cs.dropWhile Char.isDigit = '.' :: rest) :
    leadingMantissa cs =
      if cs.takeWhile Char.isDigit = [] ∧ rest.takeWhile Char.isDigit = [] then []
      else cs.takeWhile Char.isDigit ++ '.' :: rest.takeWhile Char.isDigit := by
  simp only [leadingMantissa, fractionBehind, h]
  split
  · next hnil => rw [hnil.1, List.append_nil]
  · rfl

theorem leadingMantissa_of_ne (h : ∀ c ∈ (cs.dropWhile Char.isDigit).head?, c ≠ '.') :
    leadingMantissa cs = cs.takeWhile Char.isDigit := by
  rw [leadingMantissa, fractionBehind, List.append_nil]
  intro rest hrest
  exact h '.' (by rw [hrest]; rfl) rfl

/-- The mantissa at the front is there, and it is one if it is not empty. -/
theorem leadingMantissa_spec (cs : List Char) :
    (leadingMantissa cs = [] ∨ leadingMantissa cs ∈ mantissas) ∧ leadingMantissa cs <+: cs := by
  have hdigits : ∀ d ∈ cs.takeWhile Char.isDigit, d.isDigit = true :=
    fun d hd => List.mem_takeWhile_imp hd
  obtain ⟨rest, h⟩ | h := point_or_ne (cs.dropWhile Char.isDigit)
  · rw [leadingMantissa_of_point h]
    split
    · exact ⟨.inl rfl, List.nil_prefix⟩
    · next hne =>
      have hfraction : ∀ d ∈ rest.takeWhile Char.isDigit, d.isDigit = true :=
        fun d hd => List.mem_takeWhile_imp hd
      refine ⟨.inr (mem_mantissas.2 (.inr ⟨_, _, hdigits, hfraction, hne, rfl⟩)), ?_⟩
      have hcs : cs.takeWhile Char.isDigit ++ '.' :: rest = cs := by
        rw [← h, List.takeWhile_append_dropWhile]
      have hleads : cs.takeWhile Char.isDigit ++ '.' :: rest.takeWhile Char.isDigit <+:
          cs.takeWhile Char.isDigit ++ '.' :: rest :=
        (List.prefix_append_right_inj _).2
          ((List.prefix_cons_inj _).2 (List.takeWhile_prefix _))
      rwa [hcs] at hleads
  · rw [leadingMantissa_of_ne h]
    refine ⟨?_, List.takeWhile_prefix _⟩
    by_cases hnil : cs.takeWhile Char.isDigit = []
    · exact .inl hnil
    · exact .inr (mem_mantissas.2 (.inl (mem_digits.2 ⟨hnil, hdigits⟩)))

/-- A mantissa goes on as long as there are digits, or a first point. -/
theorem leadingMantissa_append (h : m ∈ mantissas) (rest : List Char) :
    ∃ more, leadingMantissa (m ++ rest) = m ++ more ∧
      ((∀ c ∈ rest.head?, c.isDigit = false ∧ c ≠ '.') → more = []) := by
  have hstop (hrest : ∀ c ∈ rest.head?, c.isDigit = false ∧ c ≠ '.') :
      rest.takeWhile Char.isDigit = [] ∧ rest.dropWhile Char.isDigit = rest := by
    have htake : ([] ++ rest).takeWhile Char.isDigit = [] :=
      takeWhile_run nofun fun c hc => (hrest c hc).1
    have hdrop : ([] ++ rest).dropWhile Char.isDigit = rest :=
      dropWhile_run nofun fun c hc => (hrest c hc).1
    exact ⟨htake, hdrop⟩
  rcases mem_mantissas.1 h with h | ⟨ds, es, hds, hes, hne, rfl⟩
  -- Behind digits alone there may be more digits, and then a point with digits behind it.
  · obtain ⟨hne, hdigits⟩ := mem_digits.1 h
    have htake : (m ++ rest).takeWhile Char.isDigit = m ++ rest.takeWhile Char.isDigit :=
      List.takeWhile_append_of_pos hdigits
    have hdrop : (m ++ rest).dropWhile Char.isDigit = rest.dropWhile Char.isDigit :=
      List.dropWhile_append_of_pos hdigits
    obtain ⟨after, hpoint⟩ | hpoint := point_or_ne (rest.dropWhile Char.isDigit)
    · rw [leadingMantissa_of_point (hdrop.trans hpoint), htake, List.append_assoc,
        if_neg fun hnil => hne (List.append_eq_nil_iff.1 hnil.1).1]
      refine ⟨_, rfl, fun hrest => ?_⟩
      rw [(hstop hrest).2] at hpoint
      exact absurd rfl (hrest '.' (by rw [hpoint]; rfl)).2
    · rw [leadingMantissa_of_ne (hdrop ▸ hpoint), htake]
      exact ⟨_, rfl, fun hrest => (hstop hrest).1⟩
  -- Behind a point there may be only more digits.
  · have htake : (ds ++ '.' :: (es ++ rest)).takeWhile Char.isDigit = ds :=
      takeWhile_run hds (by rintro _ ⟨⟩; rfl)
    have hdrop : (ds ++ '.' :: (es ++ rest)).dropWhile Char.isDigit = '.' :: (es ++ rest) :=
      dropWhile_run hds (by rintro _ ⟨⟩; rfl)
    have hmore : (es ++ rest).takeWhile Char.isDigit = es ++ rest.takeWhile Char.isDigit :=
      List.takeWhile_append_of_pos hes
    rw [List.append_assoc, List.cons_append, leadingMantissa_of_point hdrop, htake, hmore,
      if_neg fun hnil => hne ⟨hnil.1, (List.append_eq_nil_iff.1 hnil.2).1⟩]
    exact ⟨_, by rw [List.append_assoc, List.cons_append], fun hrest => (hstop hrest).1⟩

/-! ### The numeral at the front -/

theorem leadingNumeral_eq (cs : List Char) : leadingNumeral cs =
    if leadingMantissa (unsigned cs) = [] then []
    else signOf cs ++ (leadingMantissa (unsigned cs) ++
      leadingExponent ((unsigned cs).drop (leadingMantissa (unsigned cs)).length)) := by
  have hcs : (unsigned cs).takeWhile Char.isDigit ++ (unsigned cs).dropWhile Char.isDigit =
      unsigned cs := List.takeWhile_append_dropWhile
  have hself : leadingNumeral cs =
      let whole := (unsigned cs).takeWhile Char.isDigit
      let after := (unsigned cs).dropWhile Char.isDigit
      let fraction := fractionBehind whole after
      if whole = [] ∧ fraction = [] then []
      else signOf cs ++ whole ++ fraction ++ leadingExponent (after.drop fraction.length) := rfl
  rw [hself, leadingMantissa]
  generalize (unsigned cs).takeWhile Char.isDigit = whole at *
  generalize (unsigned cs).dropWhile Char.isDigit = after at *
  simp only [← hcs, List.append_eq_nil_iff, List.append_assoc, List.length_append,
    List.drop_append, Nat.add_sub_cancel_left, List.drop_eq_nil_of_le (Nat.le_add_right ..),
    List.nil_append]

/-- No sign begins a mantissa. -/
theorem mantissas_head? (h : m ∈ mantissas) (rest : List Char) :
    ∀ c ∈ (m ++ rest).head?, c ≠ '+' ∧ c ≠ '-' := by
  have hdigit {d : Char} (hd : d.isDigit = true) : d ≠ '+' ∧ d ≠ '-' := by
    constructor <;> (rintro rfl; exact absurd hd (by decide))
  rintro c hc
  rcases mem_mantissas.1 h with h | ⟨_ | ⟨d, ds⟩, es, hds, -, -, rfl⟩
  · obtain ⟨hne, hdigits⟩ := mem_digits.1 h
    obtain ⟨d, ds, rfl⟩ := List.exists_cons_of_ne_nil hne
    obtain rfl := Option.some.inj hc
    exact hdigit (hdigits d List.mem_cons_self)
  · obtain rfl := Option.some.inj hc
    decide
  · obtain rfl := Option.some.inj hc
    exact hdigit (hds d List.mem_cons_self)

/-- What may follow a mantissa in a numeral does not belong to it. -/
theorem mem_one_add_exponent_head? (h : xs ∈ 1 + exponent) :
    ∀ c ∈ xs.head?, c.isDigit = false ∧ c ≠ '.' := by
  obtain rfl | h := (Language.mem_add ..).1 h
  · exact nofun
  · have := exponent_head? h []
    rwa [List.append_nil] at this

/-- Behind a sign, a mantissa and an exponent that there are, more digits may follow, or also a
    fraction or an exponent that there is not. -/
theorem leadingNumeral_append (hw : w ∈ numerals) (rest : List Char) :
    w <+: leadingNumeral (w ++ rest) := by
  obtain ⟨sign, m, xs, hsign, hm, hxs, rfl⟩ := mem_numerals.1 hw
  have hs : IsSign sign (m ++ (xs ++ rest)) := isSign_of_head? hsign (mantissas_head? hm _)
  obtain ⟨more, hmore, hnil⟩ := leadingMantissa_append hm (xs ++ rest)
  simp only [List.append_assoc]
  rw [leadingNumeral_eq, hs.unsigned_append, hs.signOf_append, hmore,
    if_neg (List.append_ne_nil_of_left_ne_nil (ne_nil_of_mem_mantissas hm) _),
    List.prefix_append_right_inj, List.append_assoc, List.prefix_append_right_inj]
  obtain rfl | hexponent := (Language.mem_add ..).1 hxs
  · exact List.nil_prefix
  -- An exponent begins with a letter, so the mantissa stops before it.
  · rw [hnil (exponent_head? hexponent rest), List.append_nil, List.nil_append, List.drop_left,
      leadingExponent_append hexponent]
    exact List.prefix_append ..

/-- The numeral at the front is there, and it is one if it is not empty. -/
theorem leadingNumeral_spec (cs : List Char) :
    (leadingNumeral cs = [] ∨ leadingNumeral cs ∈ numerals) ∧ leadingNumeral cs <+: cs := by
  rw [leadingNumeral_eq]
  split
  · exact ⟨.inl rfl, List.nil_prefix⟩
  · next hne =>
    obtain ⟨hmem, hleads⟩ := leadingMantissa_spec (unsigned cs)
    refine ⟨.inr (mem_numerals.2 ⟨_, _, _, signOf_cases cs, hmem.resolve_left hne,
      leadingExponent_mem _, rfl⟩), ?_⟩
    have hexponent := (leadingExponent_settled
      ((unsigned cs).drop (leadingMantissa (unsigned cs)).length)).1
    rw [← List.prefix_append_right_inj (leadingMantissa (unsigned cs)),
      List.prefix_iff_eq_append.1 hleads, ← List.prefix_append_right_inj (signOf cs),
      signOf_append_unsigned] at hexponent
    exact hexponent

/-- The numeral at the front is the longest one there, if there is any. -/
theorem leadingNumeral_longest (hw : w ∈ numerals) (hleads : w <+: cs) :
    LongestPrefix numerals cs (leadingNumeral cs) := by
  have hgreatest (v : List Char) (hv : v ∈ numerals) (hvcs : v <+: cs) :
      v <+: leadingNumeral cs := by
    obtain ⟨rest, rfl⟩ := hvcs
    exact leadingNumeral_append hv rest
  obtain ⟨hmem, hfront⟩ := leadingNumeral_spec cs
  have hne : leadingNumeral cs ≠ [] := by
    intro hnil
    have := hgreatest w hw hleads
    rw [hnil, List.prefix_nil] at this
    exact ne_nil_of_mem_numerals hw this
  exact ⟨hmem.resolve_left hne, hfront, fun v hv hvcs => (hgreatest v hv hvcs).length_le⟩

/-! ### Reading numerals -/

theorem readExponent?_isSome_iff : (Decimal.readExponent? xs).isSome ↔ xs ∈ 1 + exponent := by
  rw [Language.mem_add, Language.mem_one]
  rcases xs with _ | ⟨e, cs⟩
  · exact iff_of_true rfl (.inl rfl)
  have hread : (Decimal.readExponent? (e :: cs)).isSome ↔
      (e = 'e' ∨ e = 'E') ∧ unsigned cs ∈ digits := by
    rw [Decimal.readExponent?, takeSign_eq, mem_digits, ← List.all_eq_true]
    dsimp only
    by_cases he : e = 'e' ∨ e = 'E'
    · rw [if_pos he]
      by_cases hds : unsigned cs ≠ [] ∧ (unsigned cs).all Char.isDigit = true
      · rw [if_pos hds]
        exact iff_of_true rfl ⟨he, hds⟩
      · rw [if_neg hds]
        exact iff_of_false Bool.false_ne_true fun h => hds h.2
    · rw [if_neg he]
      exact iff_of_false Bool.false_ne_true fun h => he h.1
  rw [hread, or_iff_right (List.cons_ne_nil _ _), mem_exponent]
  constructor
  · rintro ⟨he, hds⟩
    refine ⟨e, signOf cs, unsigned cs, he, signOf_cases cs, hds, ?_⟩
    rw [signOf_append_unsigned]
  · rintro ⟨_, s, ds, he, hs, hds, hcs⟩
    obtain ⟨rfl, rfl⟩ := List.cons.inj hcs
    have hhead := mantissas_head? (mem_mantissas.2 (.inl hds)) []
    rw [List.append_nil] at hhead
    exact ⟨he, by rwa [(isSign_of_head? hs hhead).unsigned_append]⟩

/-- A number is read if there is a mantissa behind the sign and nothing but an exponent behind
    that. -/
theorem read?_isSome (w : List Char) : (Decimal.read? w).isSome ↔
    leadingMantissa (unsigned w) ≠ [] ∧
      (Decimal.readExponent? ((unsigned w).drop (leadingMantissa (unsigned w)).length)).isSome := by
  rw [Decimal.read?, takeSign_eq]
  dsimp only
  generalize unsigned w = cs
  have hcs : cs.takeWhile Char.isDigit ++ cs.dropWhile Char.isDigit = cs :=
    List.takeWhile_append_dropWhile
  have hdrop {xs ys : List Char} (h : xs ++ ys = cs) : cs.drop xs.length = ys := by
    rw [← h, List.drop_left]
  obtain ⟨rest, h⟩ | h := point_or_ne (cs.dropWhile Char.isDigit)
  · have hrest : cs.drop (cs.takeWhile Char.isDigit ++ '.' :: rest.takeWhile Char.isDigit).length =
        rest.dropWhile Char.isDigit := by
      refine hdrop ?_
      rw [List.append_assoc, List.cons_append, List.takeWhile_append_dropWhile, ← h, hcs]
    rw [leadingMantissa_of_point h]
    simp only [h]
    split
    · simp
    · rw [hrest, Option.isSome_map]
      simp
  · rw [leadingMantissa_of_ne h, hdrop hcs]
    split
    · next hpoint => exact absurd rfl (h '.' (by rw [hpoint]; rfl))
    · dsimp only
      split
      · next hnil => simp [hnil.1]
      · next hne =>
        have hwhole : cs.takeWhile Char.isDigit ≠ [] := fun hnil => hne ⟨hnil, rfl⟩
        rw [Option.isSome_map]
        simp [hwhole]

/-- The texts that are read as decimal numbers are the numerals. -/
theorem read?_isSome_iff : (Decimal.read? w).isSome ↔ w ∈ numerals := by
  rw [read?_isSome, readExponent?_isSome_iff]
  constructor
  · rintro ⟨hne, hxs⟩
    obtain ⟨hmem, hleads⟩ := leadingMantissa_spec (unsigned w)
    refine mem_numerals.2 ⟨_, _, _, signOf_cases w, hmem.resolve_left hne, hxs, ?_⟩
    rw [List.prefix_iff_eq_append.1 hleads, signOf_append_unsigned]
  · intro hw
    obtain ⟨sign, m, xs, hsign, hm, hxs, rfl⟩ := mem_numerals.1 hw
    obtain ⟨more, hmore, hnil⟩ := leadingMantissa_append hm xs
    rw [hnil (mem_one_add_exponent_head? hxs), List.append_nil] at hmore
    rw [(isSign_of_head? hsign (mantissas_head? hm _)).unsigned_append, hmore, List.drop_left]
    exact ⟨ne_nil_of_mem_mantissas hm, hxs⟩

/-- The text that is read as the double at the front of a text is the longest numeral there behind
    the blanks, and it can be read. Where there is no numeral, the double is zero. -/
theorem leadingFloat_longest (s : String) :
    (∃ d, LongestPrefix numerals (Text.dropBlanks s.toList)
        (leadingNumeral (Text.dropBlanks s.toList)) ∧
      Decimal.read? (leadingNumeral (Text.dropBlanks s.toList)) = some d ∧
      leadingFloat s = d.toFloat) ∨
    ((∀ w ∈ numerals, ¬w <+: Text.dropBlanks s.toList) ∧
      leadingNumeral (Text.dropBlanks s.toList) = [] ∧ leadingFloat s = 0.0) := by
  by_cases h : ∃ w ∈ numerals, w <+: Text.dropBlanks s.toList
  · obtain ⟨w, hw, hleads⟩ := h
    have hlongest := leadingNumeral_longest hw hleads
    obtain ⟨d, hd⟩ := Option.isSome_iff_exists.1 (read?_isSome_iff.2 hlongest.mem)
    refine .inl ⟨d, hlongest, hd, ?_⟩
    -- A numeral is not empty, so that it is read.
    rw [leadingFloat]
    split
    · next hnil =>
      rw [hnil] at hd
      cases hd
    · rw [hd]
  · have hnone : ∀ w ∈ numerals, ¬w <+: Text.dropBlanks s.toList :=
      fun w hw hleads => h ⟨w, hw, hleads⟩
    obtain ⟨hmem, hfront⟩ := leadingNumeral_spec (Text.dropBlanks s.toList)
    have hnil : leadingNumeral (Text.dropBlanks s.toList) = [] :=
      hmem.resolve_right fun hw => hnone _ hw hfront
    refine .inr ⟨hnone, hnil, ?_⟩
    rw [leadingFloat, hnil]

end PoolScript.Number
