import PoolScript.Proofs.Tree.Readings

/-!
# The grammar of expressions

The grammar is stratified: six levels of binary operators, all associative to the left, then
the minus, then literals, variables, elements, calls and parentheses. `Derives` gives its
derivations, each with the tree it makes. The reading of a list of tokens succeeds with a
tree if and only if the grammar derives the list with that tree (`Expr.ofTokens_grammar`).

* That a derivation is read goes by induction on it: after a derived phrase the reading has
  made its tree and goes on with what follows (`Derives.reads`).
* That what is read is derived goes along the recursion of the readings. The loop over the
  operators keeps a derivation of its left operand, at a level at which no operator follows.
-/

namespace PoolScript

namespace Grammar

/-- The binary operators by level, the loosest first, with the tokens that spell them. -/
def levels : List (List (Token × BinOp)) :=
  [[(.pipePipe, .or)],
   [(.ampAmp, .and)],
   [(.eqEq, .eq), (.notEq, .neq)],
   [(.lt, .lt), (.ltEq, .lte), (.gt, .gt), (.gtEq, .gte)],
   [(.plus, .plus), (.minus, .minus)],
   [(.star, .mul), (.slash, .div), (.percent, .mod)]]

/-- The magnitude of the least integer. All other integers have a smaller one. -/
def limit : Nat := Nat.pow 2 63

/-- The nonterminal symbols: binary expressions from a level up, operands with minuses
    before them, and operands without. -/
inductive Symbol where
  | binary (level : Nat)
  | unary
  | primary

/-- The derivations of the grammar, with the tree that each makes. A minus before a number
    literal makes the negated literal. The magnitude `limit` is derived in one place only,
    as the literal right after a minus. -/
inductive Derives : Symbol → List Token → Expr → Prop
  | tighter {n : Nat} {ts : List Token} {e : Expr} (h : Derives (.binary (n + 1)) ts e) :
      Derives (.binary n) ts e
  | binary {n : Nat} {t : Token} {op : BinOp} {ts us : List Token} {a b : Expr}
      (hop : (t, op) ∈ levels.getD n []) (ha : Derives (.binary n) ts a)
      (hb : Derives (.binary (n + 1)) us b) :
      Derives (.binary n) (ts ++ t :: us) (.binary op a b)
  | unary {ts : List Token} {e : Expr} (h : Derives .unary ts e) :
      Derives (.binary levels.length) ts e
  | minusInt {ts : List Token} {n : Int64} (h : Derives .unary ts (.int n)) :
      Derives .unary (.minus :: ts) (.int (-n))
  | minusFloat {ts : List Token} {x : Float} (h : Derives .unary ts (.float x)) :
      Derives .unary (.minus :: ts) (.float (-x))
  | minus {ts : List Token} {e : Expr} (h : Derives .unary ts e) (hint : ∀ n, e ≠ .int n)
      (hfloat : ∀ x, e ≠ .float x) : Derives .unary (.minus :: ts) (.neg e)
  | least : Derives .unary [.minus, .intLit limit] (.int Int64.minValue)
  | primary {ts : List Token} {e : Expr} (h : Derives .primary ts e) : Derives .unary ts e
  | int {n : Nat} (h : n < limit) : Derives .primary [.intLit n] (.int (.ofNat n))
  | float (x : Float) : Derives .primary [.floatLit x] (.float x)
  | str (s : String) : Derives .primary [.stringLit s] (.str s)
  | true : Derives .primary [.trueKw] (.int 1)
  | false : Derives .primary [.falseKw] (.int 0)
  | var (name : String) : Derives .primary [.ident name] (.var name)
  | call {name : String} (args : List (List Token × Expr))
      (h : ∀ a ∈ args, Derives (.binary 0) a.1 a.2) :
      Derives .primary
        (.ident name :: .lparen :: ([.comma].intercalate (args.map (·.1)) ++ [.rparen]))
        (.call name (args.map (·.2)))
  | index {name : String} {ts : List Token} {e : Expr} (h : Derives (.binary 0) ts e) :
      Derives .primary (.ident name :: .lbracket :: (ts ++ [.rbracket])) (.index name e)
  | parens {ts : List Token} {e : Expr} (h : Derives (.binary 0) ts e) :
      Derives .primary (.lparen :: (ts ++ [.rparen])) e

/-! ### Operators and first tokens -/

/-- The table of levels has each operator where its level says. -/
theorem mem_levels {n : Nat} {t : Token} {op : BinOp} :
    (t, op) ∈ levels.getD n [] ↔ Reading.binaryOp? t = some op ∧ op.level = n := by
  constructor
  · intro h
    by_cases hn : n < levels.length
    · have table : ∀ n < levels.length, ∀ p ∈ levels.getD n [],
          Reading.binaryOp? p.1 = some p.2 ∧ p.2.level = n := by decide
      exact table n hn (t, op) h
    · rw [List.getD_eq_getElem?_getD, List.getElem?_eq_none (Nat.le_of_not_lt hn)] at h
      exact absurd h List.not_mem_nil
  · rintro ⟨ht, rfl⟩
    cases t <;> simp only [Reading.binaryOp?, reduceCtorEq, Option.some.injEq] at ht <;>
      subst ht <;> decide

/-- There is a level for each operator. -/
theorem level_lt (op : BinOp) : op.level < levels.length := by
  cases op <;> decide

/-- The first tokens of expressions. -/
def Starts : Token → Prop
  | .minus | .floatLit _ | .stringLit _ | .trueKw | .falseKw | .ident _ | .lparen => True
  | .intLit n => n < limit
  | _ => False

/-- What is derived begins with a token that can begin an expression. -/
theorem Derives.starts {s : Symbol} {ts : List Token} {e : Expr} (h : Derives s ts e) :
    ∃ t us, ts = t :: us ∧ Starts t := by
  induction h with
  | tighter _ ih | unary _ ih | primary _ ih => exact ih
  | binary _ _ _ ih _ =>
    obtain ⟨t, us, rfl, ht⟩ := ih
    exact ⟨t, _, List.cons_append .., ht⟩
  | int h => exact ⟨_, _, rfl, h⟩
  | _ => exact ⟨_, _, rfl, trivial⟩

/-- What is derived at a level is derived at each looser one. -/
theorem Derives.looser {m n : Nat} {ts : List Token} {e : Expr} (hmn : m ≤ n)
    (h : Derives (.binary n) ts e) : Derives (.binary m) ts e := by
  induction hmn with
  | refl => exact h
  | step _ ih => exact ih h.tighter

theorem negated_eq_neg {e : Expr} (hint : ∀ n, e ≠ .int n) (hfloat : ∀ x, e ≠ .float x) :
    Reading.negated e = .neg e := by
  unfold Reading.negated
  split
  · exact absurd rfl (hint _)
  · exact absurd rfl (hfloat _)
  · rfl

/-- A minus can stand before what is derived as an operand. -/
theorem Derives.negated {ts : List Token} {e : Expr} (h : Derives .unary ts e) :
    Derives .unary (.minus :: ts) (Reading.negated e) := by
  unfold Reading.negated
  split
  · exact h.minusInt
  · exact h.minusFloat
  · rename_i hint hfloat
    exact h.minus hint hfloat

/-! ### What is derived is read -/

open Reading

variable {rest : List Lexeme}

/-- Nothing in view goes on from an expression to the left, at the level `n` or above. -/
structure Ends (n : Nat) (rest : List Lexeme) : Prop where
  operator : operator? n rest = none
  paren : peek rest ≠ some .lparen
  bracket : peek rest ≠ some .lbracket

theorem operator?_cons {n : Nat} {t : Lexeme} {us : List Lexeme} :
    operator? n (t :: us) = (binaryOp? t.token).filter (n ≤ ·.level) := rfl

/-- No operator at a level and above is none at a higher level and above. -/
theorem operator?_none_of_le {m n : Nat} (h : m ≤ n) (hm : operator? m rest = none) :
    operator? n rest = none := by
  simp only [operator?, Option.filter_eq_none_iff, decide_eq_true_eq] at hm ⊢
  intro op hop hn
  exact hm op hop (Nat.le_trans h hn)

/-- The operator in view is that of the token, if its level is high enough. -/
theorem operator?_eq_some {n : Nat} {op : BinOp} {t : Lexeme} {us : List Lexeme} :
    operator? n (t :: us) = some op ↔ binaryOp? t.token = some op ∧ n ≤ op.level := by
  rw [operator?_cons, Option.filter_eq_some_iff, decide_eq_true_eq]

theorem Ends.mono {m n : Nat} (h : m ≤ n) (hm : Ends m rest) : Ends n rest :=
  ⟨operator?_none_of_le h hm.operator, hm.paren, hm.bracket⟩

/-- An operator ends the expressions of a higher level. -/
theorem Ends.operator_cons {t : Lexeme} {op : BinOp} (ht : binaryOp? t.token = some op) :
    Ends (op.level + 1) (t :: rest) := by
  refine ⟨?_, ?_, ?_⟩
  · rw [operator?_cons, ht]
    simp [Option.filter]
  · rintro h
    obtain h : t.token = .lparen := by simpa [peek] using h
    simp [h, binaryOp?] at ht
  · rintro h
    obtain h : t.token = .lbracket := by simpa [peek] using h
    simp [h, binaryOp?] at ht

/-- What the reading of a phrase comes to, whatever ends it. -/
def Symbol.Reads : Symbol → List Lexeme → Expr → Prop
  | .binary n, ls, e => ∀ rest, Ends (n + 1) rest → ∀ min ≤ n,
      Parsed.outcome (climb min (ls ++ rest)) = Trailing.outcome (operators min e rest)
  | .unary, ls, e | .primary, ls, e => ∀ rest, peek rest ≠ some .lparen →
      peek rest ≠ some .lbracket → Parsed.outcome (operand (ls ++ rest)) = .ok (e, rest)

/-- The magnitude that the parser treats apart is that of the grammar. -/
theorem leastMagnitude_eq : leastMagnitude = limit := by decide

theorem peek_append {ls : List Lexeme} {t : Token} (h : (ls.map (·.token)).head? = some t) :
    peek (ls ++ rest) = some t := by
  rcases ls with _ | ⟨l, ls⟩
  · simp at h
  · exact h

/-- A whole expression, up to a token that closes it. -/
theorem Symbol.Reads.whole {ls : List Lexeme} {e : Expr} (h : (Symbol.binary 0).Reads ls e)
    (hrest : Ends 0 rest) : Parsed.outcome (climb 0 (ls ++ rest)) = .ok (e, rest) := by
  rw [h rest (hrest.mono (Nat.zero_le _)) 0 (Nat.le_refl _), operators_of_none hrest.operator]

/-- A token that is no operator and opens nothing ends an expression. -/
theorem ends_cons {t : Lexeme} (h : binaryOp? t.token = none) (hp : t.token ≠ .lparen)
    (hb : t.token ≠ .lbracket) (n : Nat) : Ends n (t :: rest) := by
  refine ⟨?_, ?_, ?_⟩
  · rw [operator?_cons, h]
    rfl
  · simpa [peek] using hp
  · simpa [peek] using hb

/-- Derived arguments with commas between them are read, up to the parenthesis. -/
theorem moreArguments_reads (line : Nat) :
    ∀ (args : List (List Token × Expr)) (ls : List Lexeme), args ≠ [] →
      (∀ a ∈ args, ∀ ls : List Lexeme, ls.map (·.token) = a.1 → (Symbol.binary 0).Reads ls a.2) →
      ls.map (·.token) = [Token.comma].intercalate (args.map (·.1)) →
      Parsed.outcome (moreArguments (ls ++ ⟨.rparen, line⟩ :: rest)) =
        .ok (args.map (·.2), rest)
  | [], _, h, _, _ => absurd rfl h
  | [a], ls, _, h, hls => by
    have hend : Ends 0 (⟨.rparen, line⟩ :: rest) := ends_cons rfl (by simp) (by simp) 0
    have ha := (h a (List.mem_singleton.2 rfl) ls (by simpa using hls)).whole hend
    rw [moreArguments_outcome, ha]
    simp only [bind, Except.bind]
    rw [if_neg (by simp [peek]), expect_self]
    rfl
  | a :: b :: args, ls, _, h, hls => by
    rw [List.map_cons, List.map_cons, List.intercalate_cons_cons, List.append_assoc,
      List.map_eq_append_iff] at hls
    obtain ⟨as, cbs, rfl, has, hcbs⟩ := hls
    obtain ⟨⟨_, l⟩, bs, rfl, rfl, hbs⟩ := List.map_eq_cons_iff.1 hcbs
    have hend : Ends 0 (⟨.comma, l⟩ :: (bs ++ ⟨.rparen, line⟩ :: rest)) :=
      ends_cons rfl (by simp) (by simp) 0
    have ha := (h a List.mem_cons_self as has).whole hend
    have hmore := moreArguments_reads line (b :: args) bs (List.cons_ne_nil _ _)
      (fun c hc => h c (List.mem_cons_of_mem _ hc)) hbs
    rw [List.append_assoc, List.cons_append, moreArguments_outcome, ha]
    simp only [bind, Except.bind]
    rw [if_pos (by simp [peek]), List.tail_cons, hmore]
    rfl

theorem arguments_reads (line : Nat) (args : List (List Token × Expr)) (ls : List Lexeme)
    (hd : ∀ a ∈ args, Derives (.binary 0) a.1 a.2)
    (h : ∀ a ∈ args, ∀ ls : List Lexeme, ls.map (·.token) = a.1 → (Symbol.binary 0).Reads ls a.2)
    (hls : ls.map (·.token) = [Token.comma].intercalate (args.map (·.1))) :
    Parsed.outcome (arguments (ls ++ ⟨.rparen, line⟩ :: rest)) = .ok (args.map (·.2), rest) := by
  rcases args with _ | ⟨a, args⟩
  · obtain rfl : ls = [] := by simpa using hls
    exact arguments_none
  · obtain ⟨t, us, ht, hstarts⟩ := (hd a List.mem_cons_self).starts
    have hpeek : peek (ls ++ ⟨.rparen, line⟩ :: rest) = some t := by
      refine peek_append ?_
      rw [hls]
      rcases args with _ | ⟨b, args⟩
      · simp [ht]
      · simp [List.intercalate_cons_cons, ht]
    have hclose : peek (ls ++ ⟨.rparen, line⟩ :: rest) ≠ some .rparen := by
      rw [hpeek]
      rintro ⟨⟩
      exact hstarts
    rw [arguments_some hclose, moreArguments_reads line _ _ (List.cons_ne_nil _ _) h hls]

/-- A minus and a derived operand are read as one. -/
theorem minus_reads {ts : List Token} {e : Expr} (h : Derives .unary ts e) {ls : List Lexeme}
    (hls : ls.map (·.token) = .minus :: ts)
    (ih : ∀ ls : List Lexeme, ls.map (·.token) = ts → Symbol.unary.Reads ls e)
    (hparen : peek rest ≠ some .lparen) (hbracket : peek rest ≠ some .lbracket) :
    Parsed.outcome (operand (ls ++ rest)) = .ok (negated e, rest) := by
  obtain ⟨⟨_, line⟩, us, rfl, rfl, hus⟩ := List.map_eq_cons_iff.1 hls
  obtain ⟨t, vs, rfl, ht⟩ := h.starts
  have hpeek : peek (us ++ rest) ≠ some (.intLit leastMagnitude) := by
    rw [peek_append (t := t) (by rw [hus]; rfl)]
    -- No operand begins with the magnitude of the least integer.
    rintro ⟨⟩
    have hlt : leastMagnitude < limit := ht
    exact absurd leastMagnitude_eq (Nat.ne_of_lt hlt)
  rw [List.cons_append, operand_minus hpeek, ih us hus rest hparen hbracket]
  rfl

/-- After a derived phrase, the reading has made its tree. -/
theorem Derives.reads {s : Symbol} {ts : List Token} {e : Expr} (h : Derives s ts e) :
    ∀ ls : List Lexeme, ls.map (·.token) = ts → s.Reads ls e := by
  induction h with
  | @tighter n ts e _ ih =>
    intro ls hls rest hrest min hmin
    exact ih ls hls rest (hrest.mono (Nat.le_succ _)) min (Nat.le_succ_of_le hmin)
  | @binary n t op ts us a b hop _ _ iha ihb =>
    intro ls hls rest hrest min hmin
    obtain ⟨ht, rfl⟩ := mem_levels.1 hop
    obtain ⟨as, bs, rfl, has, hbs⟩ := List.map_eq_append_iff.1 hls
    obtain ⟨l, bs, rfl, hl, hbs⟩ := List.map_eq_cons_iff.1 hbs
    have hl : binaryOp? l.token = some op := hl ▸ ht
    -- The right operand is read to its end, since the level above it leaves no operator of its own.
    have hb : Parsed.outcome (climb (op.level + 1) (bs ++ rest)) = .ok (b, rest) := by
      rw [ihb bs hbs rest (hrest.mono (Nat.le_succ _)) _ (Nat.le_refl _),
        operators_of_none hrest.operator]
    rw [List.append_assoc, List.cons_append, iha as has _ (.operator_cons hl) min hmin,
      operators_of_some (operator?_eq_some.2 ⟨hl, hmin⟩), hb]
    rfl
  | unary _ ih =>
    intro ls hls rest hrest min _
    rw [climb_outcome, ih ls hls rest hrest.paren hrest.bracket]
    rfl
  -- A minus before a literal makes the negated literal, before all else a negation.
  | minusInt h ih | minusFloat h ih =>
    intro ls hls rest hparen hbracket
    exact minus_reads h hls ih hparen hbracket
  | @minus ts e h hint hfloat ih =>
    intro ls hls rest hparen hbracket
    rw [minus_reads h hls ih hparen hbracket, negated_eq_neg hint hfloat]
  | least =>
    intro ls hls rest _ _
    obtain ⟨⟨_, l⟩, us, rfl, rfl, hus⟩ := List.map_eq_cons_iff.1 hls
    obtain ⟨⟨_, l'⟩, vs, rfl, rfl, hvs⟩ := List.map_eq_cons_iff.1 hus
    obtain rfl := List.map_eq_nil_iff.1 hvs
    exact operand_least rfl
  | primary _ ih => exact ih
  | int h =>
    intro ls hls rest _ _
    obtain ⟨⟨_, l⟩, rfl, rfl⟩ := List.map_eq_singleton_iff.1 hls
    exact operand_int h
  | float x =>
    intro ls hls rest _ _
    obtain ⟨⟨_, l⟩, rfl, rfl⟩ := List.map_eq_singleton_iff.1 hls
    exact operand_float x
  | str s =>
    intro ls hls rest _ _
    obtain ⟨⟨_, l⟩, rfl, rfl⟩ := List.map_eq_singleton_iff.1 hls
    exact operand_str s
  | true =>
    intro ls hls rest _ _
    obtain ⟨⟨_, l⟩, rfl, rfl⟩ := List.map_eq_singleton_iff.1 hls
    exact operand_true
  | false =>
    intro ls hls rest _ _
    obtain ⟨⟨_, l⟩, rfl, rfl⟩ := List.map_eq_singleton_iff.1 hls
    exact operand_false
  | var name =>
    intro ls hls rest hparen hbracket
    obtain ⟨⟨_, l⟩, rfl, rfl⟩ := List.map_eq_singleton_iff.1 hls
    exact operand_var hparen hbracket
  | call args h ih =>
    intro ls hls rest _ _
    obtain ⟨⟨_, l⟩, us, rfl, rfl, hus⟩ := List.map_eq_cons_iff.1 hls
    obtain ⟨⟨_, l'⟩, vs, rfl, rfl, hvs⟩ := List.map_eq_cons_iff.1 hus
    obtain ⟨ws, cs, rfl, hws, hcs⟩ := List.map_eq_append_iff.1 hvs
    obtain ⟨⟨_, line⟩, rfl, rfl⟩ := List.map_eq_singleton_iff.1 hcs
    rw [List.cons_append, List.cons_append, List.append_assoc, operand_call]
    rw [List.singleton_append, arguments_reads line args ws h ih hws]
    rfl
  | index _ ih =>
    intro ls hls rest _ _
    obtain ⟨⟨_, l⟩, us, rfl, rfl, hus⟩ := List.map_eq_cons_iff.1 hls
    obtain ⟨⟨_, l'⟩, vs, rfl, rfl, hvs⟩ := List.map_eq_cons_iff.1 hus
    obtain ⟨ws, cs, rfl, hws, hcs⟩ := List.map_eq_append_iff.1 hvs
    obtain ⟨⟨_, line⟩, rfl, rfl⟩ := List.map_eq_singleton_iff.1 hcs
    rw [List.cons_append, List.cons_append, List.append_assoc, operand_index,
      List.singleton_append, (ih ws hws).whole (ends_cons rfl (by simp) (by simp) 0)]
    simp only [bind, Except.bind]
    rw [expect_self]
  | parens _ ih =>
    intro ls hls rest _ _
    obtain ⟨⟨_, l⟩, us, rfl, rfl, hus⟩ := List.map_eq_cons_iff.1 hls
    obtain ⟨ws, cs, rfl, hws, hcs⟩ := List.map_eq_append_iff.1 hus
    obtain ⟨⟨_, line⟩, rfl, rfl⟩ := List.map_eq_singleton_iff.1 hcs
    rw [List.cons_append, List.append_assoc, operand_parens,
      List.singleton_append, (ih ws hws).whole (ends_cons rfl (by simp) (by simp) 0)]
    simp only [bind, Except.bind]
    rw [expect_self]

/-! ### What is read is derived -/

/-- There is no operator above the last level. -/
theorem operator?_levels (ts : List Lexeme) : operator? levels.length ts = none := by
  rw [operator?, Option.filter_eq_none_iff]
  intro op _ h
  exact absurd (level_lt op) (Nat.not_lt.2 (of_decide_eq_true h))

mutual

/-- What is read as a chain of operators is derived at its level, and no operator of that level
    follows. -/
theorem climb_derives {n min : Nat} {ts rest : List Lexeme} {e : Expr} (hn : ts.length = n)
    (hmin : min ≤ levels.length) (h : Parsed.outcome (climb min ts) = .ok (e, rest)) :
    operator? min rest = none ∧
      ∃ us, ts = us ++ rest ∧ Derives (.binary min) (us.map (·.token)) e := by
  rw [climb_outcome] at h
  obtain ⟨⟨a, vs⟩, ha, hloop⟩ := bind_eq_ok h
  have hvs := Parsed.length_lt_of_outcome ha
  obtain ⟨us, rfl, hus⟩ := operand_derives rfl ha
  have hend : operator? (levels.length + 1) vs = none :=
    operator?_none_of_le (Nat.le_succ _) (operator?_levels vs)
  obtain ⟨hnone, ws, rfl, hws⟩ := operators_derives rfl hmin hus.unary hend hloop
  refine ⟨hnone, us ++ ws, (List.append_assoc ..).symm, ?_⟩
  rwa [List.map_append]
termination_by 4 * n + 1
decreasing_by all_goals simp only [List.length_append] at *; omega

/-- The loop over the operators keeps a derivation of its left operand. No operator of a
    higher level follows, so that the operand of the next one may be of the same level. -/
theorem operators_derives {n min k : Nat} {us : List Token} {ts rest : List Lexeme} {lhs e : Expr}
    (hn : ts.length = n) (hmin : min ≤ k) (hlhs : Derives (.binary k) us lhs)
    (hts : operator? (k + 1) ts = none)
    (h : Trailing.outcome (operators min lhs ts) = .ok (e, rest)) :
    operator? min rest = none ∧
      ∃ vs, ts = vs ++ rest ∧ Derives (.binary min) (us ++ vs.map (·.token)) e := by
  rcases hop : operator? min ts with _ | op
  · rw [operators_of_none hop] at h
    obtain ⟨rfl, rfl⟩ := Prod.mk.inj (Except.ok.inj h)
    exact ⟨hop, [], rfl, by simpa using hlhs.looser hmin⟩
  · rcases ts with _ | ⟨t, ts⟩
    · simp [operator?, peek] at hop
    · rw [operators_of_some hop] at h
      obtain ⟨ht, hle⟩ := operator?_eq_some.1 hop
      obtain ⟨⟨r, ws⟩, hr, hloop⟩ := bind_eq_ok h
      have hws := Parsed.length_lt_of_outcome hr
      have hk : op.level ≤ k := by
        rw [operator?_cons, ht] at hts
        simpa [Option.filter, Nat.lt_succ_iff] using hts
      obtain ⟨hend, bs, rfl, hbs⟩ := climb_derives rfl (level_lt op) hr
      have hbin : Derives (.binary op.level) (us ++ t.token :: bs.map (·.token))
          (.binary op lhs r) := .binary (mem_levels.2 ⟨ht, rfl⟩) (hlhs.looser hk) hbs
      obtain ⟨hnone, vs, rfl, hvs⟩ := operators_derives rfl hle hbin hend hloop
      exact ⟨hnone, t :: bs ++ vs, by simp, by simpa using hvs⟩
termination_by 4 * n
decreasing_by all_goals simp only [List.length_append, List.length_cons] at *; omega

/-- What is read as an operand is derived as one. -/
theorem operand_derives {n : Nat} {ts rest : List Lexeme} {e : Expr}
    (hn : ts.length = n) (h : Parsed.outcome (operand ts) = .ok (e, rest)) :
    ∃ us, ts = us ++ rest ∧ Derives .unary (us.map (·.token)) e := by
  have hcase := h
  unfold operand at hcase
  split at hcase
  -- The cases are those of the reading. Here it is a minus, before the least integer or before an
  -- operand.
  case h_1 line us =>
    by_cases hpeek : peek us = some (.intLit leastMagnitude)
    · rw [operand_least hpeek] at h
      obtain ⟨rfl, rfl⟩ := Prod.mk.inj (Except.ok.inj h)
      obtain ⟨⟨t, l⟩, us, rfl, rfl⟩ : ∃ t vs, us = t :: vs ∧ t.token = .intLit leastMagnitude := by
        rcases us with _ | ⟨t, us⟩
        · simp [peek] at hpeek
        · exact ⟨t, us, rfl, by simpa [peek] using hpeek⟩
      exact ⟨[⟨.minus, line⟩, ⟨.intLit leastMagnitude, l⟩], rfl, .least⟩
    · rw [operand_minus hpeek] at h
      obtain ⟨⟨a, vs⟩, ha, hok⟩ := bind_eq_ok h
      obtain ⟨rfl, rfl⟩ := Prod.mk.inj (Except.ok.inj hok)
      obtain ⟨ws, rfl, hws⟩ := operand_derives rfl ha
      exact ⟨⟨.minus, line⟩ :: ws, rfl, hws.negated⟩
  case h_2 n line us =>
    split at hcase
    · rename_i hn
      obtain ⟨rfl, rfl⟩ := Prod.mk.inj (Except.ok.inj hcase)
      exact ⟨[⟨.intLit n, line⟩], rfl, .primary (.int (leastMagnitude_eq ▸ hn))⟩
    · simp at hcase
  case h_3 x line us =>
    obtain ⟨rfl, rfl⟩ := Prod.mk.inj (Except.ok.inj hcase)
    exact ⟨[⟨.floatLit x, line⟩], rfl, .primary (.float x)⟩
  case h_4 s line us =>
    obtain ⟨rfl, rfl⟩ := Prod.mk.inj (Except.ok.inj hcase)
    exact ⟨[⟨.stringLit s, line⟩], rfl, .primary (.str s)⟩
  case h_5 line us =>
    obtain ⟨rfl, rfl⟩ := Prod.mk.inj (Except.ok.inj hcase)
    exact ⟨[⟨.trueKw, line⟩], rfl, .primary .true⟩
  case h_6 line us =>
    obtain ⟨rfl, rfl⟩ := Prod.mk.inj (Except.ok.inj hcase)
    exact ⟨[⟨.falseKw, line⟩], rfl, .primary .false⟩
  -- Here an expression in parentheses, then a call and an element of an array.
  case h_7 line us =>
    rw [operand_parens] at h
    obtain ⟨⟨a, vs⟩, ha, hthen⟩ := bind_eq_ok h
    obtain ⟨⟨_, ws⟩, hclose, hok⟩ := bind_eq_ok hthen
    obtain ⟨rfl, rfl⟩ := Prod.mk.inj (Except.ok.inj hok)
    obtain ⟨line', rfl⟩ := expect_eq_ok hclose
    obtain ⟨-, as, rfl, has⟩ := climb_derives rfl (Nat.zero_le _) ha
    exact ⟨⟨.lparen, line⟩ :: (as ++ [⟨.rparen, line'⟩]), by simp,
      by simpa using .primary has.parens⟩
  case h_8 s line line' us =>
    rw [operand_call] at h
    obtain ⟨⟨args, vs⟩, hargs, hok⟩ := bind_eq_ok h
    obtain ⟨rfl, rfl⟩ := Prod.mk.inj (Except.ok.inj hok)
    obtain ⟨as, line'', rfl, args, hd, rfl, has⟩ := arguments_derives rfl hargs
    refine ⟨⟨.ident s, line⟩ :: ⟨.lparen, line'⟩ :: (as ++ [⟨.rparen, line''⟩]), by simp, ?_⟩
    simpa [has] using .primary (.call args hd)
  case h_9 s line line' us =>
    rw [operand_index] at h
    obtain ⟨⟨a, vs⟩, ha, hthen⟩ := bind_eq_ok h
    obtain ⟨⟨_, ws⟩, hclose, hok⟩ := bind_eq_ok hthen
    obtain ⟨rfl, rfl⟩ := Prod.mk.inj (Except.ok.inj hok)
    obtain ⟨line'', rfl⟩ := expect_eq_ok hclose
    obtain ⟨-, as, rfl, has⟩ := climb_derives rfl (Nat.zero_le _) ha
    exact ⟨⟨.ident s, line⟩ :: ⟨.lbracket, line'⟩ :: (as ++ [⟨.rbracket, line''⟩]), by simp,
      by simpa using .primary has.index⟩
  case h_10 s line us _ _ =>
    obtain ⟨rfl, rfl⟩ := Prod.mk.inj (Except.ok.inj hcase)
    exact ⟨[⟨.ident s, line⟩], rfl, .primary (.var s)⟩
  case h_11 => simp at hcase
termination_by 4 * n
decreasing_by all_goals simp only [List.length_cons] at hn; omega

/-- What is read as the arguments of a call are derived expressions with commas between them. -/
theorem arguments_derives {n : Nat} {ts rest : List Lexeme} {es : List Expr}
    (hn : ts.length = n) (h : Parsed.outcome (arguments ts) = .ok (es, rest)) :
    ∃ us line, ts = us ++ ⟨.rparen, line⟩ :: rest ∧ ∃ args : List (List Token × Expr),
      (∀ a ∈ args, Derives (.binary 0) a.1 a.2) ∧ es = args.map (·.2) ∧
        us.map (·.token) = [Token.comma].intercalate (args.map (·.1)) := by
  have hcase := h
  unfold arguments at hcase
  split at hcase
  · rename_i line us
    obtain ⟨rfl, rfl⟩ := Prod.mk.inj (Except.ok.inj hcase)
    exact ⟨[], line, rfl, [], nofun, rfl, rfl⟩
  · obtain ⟨us, line, hts, args, -, hargs⟩ := moreArguments_derives rfl hcase
    exact ⟨us, line, hts, args, hargs⟩
termination_by 4 * n + 3
decreasing_by omega

theorem moreArguments_derives {n : Nat} {ts rest : List Lexeme} {es : List Expr}
    (hn : ts.length = n) (h : Parsed.outcome (moreArguments ts) = .ok (es, rest)) :
    ∃ us line, ts = us ++ ⟨.rparen, line⟩ :: rest ∧ ∃ args : List (List Token × Expr),
      args ≠ [] ∧ (∀ a ∈ args, Derives (.binary 0) a.1 a.2) ∧ es = args.map (·.2) ∧
        us.map (·.token) = [Token.comma].intercalate (args.map (·.1)) := by
  rw [moreArguments_outcome] at h
  obtain ⟨⟨a, vs⟩, ha, htail⟩ := bind_eq_ok h
  have hvs := Parsed.length_lt_of_outcome ha
  obtain ⟨-, us, rfl, hus⟩ := climb_derives rfl (Nat.zero_le _) ha
  dsimp only at htail
  split at htail
  · rename_i hcomma
    rcases vs with _ | ⟨⟨t, l⟩, vs⟩
    · simp [peek] at hcomma
    · obtain rfl : t = .comma := by simpa [peek] using hcomma
      obtain ⟨⟨more, ws⟩, hmore, hok⟩ := bind_eq_ok htail
      obtain ⟨rfl, rfl⟩ := Prod.mk.inj (Except.ok.inj hok)
      obtain ⟨ms, line, hms, args, hne, hargs, rfl, hmap⟩ := moreArguments_derives rfl hmore
      obtain rfl : vs = ms ++ ⟨.rparen, line⟩ :: ws := hms
      refine ⟨us ++ ⟨.comma, l⟩ :: ms, line, by simp, (us.map (·.token), a) :: args,
        List.cons_ne_nil _ _, ?_, rfl, ?_⟩
      · exact List.forall_mem_cons.2 ⟨hus, hargs⟩
      · rw [List.map_append, List.map_cons, hmap, List.map_cons,
          List.intercalate_cons_of_ne_nil (by simpa using hne)]
        simp
  · obtain ⟨⟨_, ws⟩, hclose, hok⟩ := bind_eq_ok htail
    obtain ⟨line, rfl⟩ := expect_eq_ok hclose
    obtain ⟨rfl, rfl⟩ := Prod.mk.inj (Except.ok.inj hok)
    exact ⟨us, line, rfl, [(us.map (·.token), a)], List.cons_ne_nil _ _, by simpa using hus, rfl,
      by simp⟩
termination_by 4 * n + 2
decreasing_by all_goals simp only [List.length_append, List.length_cons, List.tail_cons] at *; omega

end

end Grammar

open Grammar Reading

/-- An expression is read from a list of tokens if and only if the grammar derives the list
    with it. So no list has two trees, and every list outside the grammar is refused. -/
theorem Expr.ofTokens_grammar (ls : List Lexeme) :
    (∀ e, Expr.ofTokens ls = .ok e ↔ Derives (.binary 0) (ls.map (·.token)) e) ∧
      (∀ e e', Derives (.binary 0) (ls.map (·.token)) e →
        Derives (.binary 0) (ls.map (·.token)) e' → e = e') ∧
      ((¬∃ e, Derives (.binary 0) (ls.map (·.token)) e) ↔ ∃ r, Expr.ofTokens ls = .error r) := by
  have hiff (e : Expr) :
      Expr.ofTokens ls = .ok e ↔ Derives (.binary 0) (ls.map (·.token)) e := by
    rw [Expr.ofTokens_eq_ok]
    constructor
    · intro h
      obtain ⟨-, us, hus, hd⟩ := climb_derives rfl (Nat.zero_le _) h
      rwa [hus, List.append_nil]
    · intro h
      have hread : Parsed.outcome (climb 0 (ls ++ [])) = .ok (e, []) :=
        (h.reads ls rfl).whole ⟨rfl, nofun, nofun⟩
      rwa [List.append_nil] at hread
  refine ⟨hiff, ?_, ?_⟩
  · intro e e' he he'
    exact Except.ok.inj (((hiff e).2 he).symm.trans ((hiff e').2 he'))
  · constructor
    · intro h
      rcases hr : Expr.ofTokens ls with r | e
      · exact ⟨r, rfl⟩
      · exact absurd ⟨e, (hiff e).1 hr⟩ h
    · rintro ⟨r, hr⟩ ⟨e, he⟩
      rw [(hiff e).2 he] at hr
      exact absurd hr nofun

end PoolScript
