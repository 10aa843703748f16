import PoolScript.Proofs.Tree.Printing

/-!
# What is written is read back

The tokens of a program, on whatever lines they stand, are read as the program itself, with
each function and each statement on the line of its first token (`Program.ofTokens_tokens`).
The induction is on the tree; what it says of an expression is that the grammar derives its
tokens, and a derived expression is read up to a token that closes it.

A statement that begins with a name is the one place where the reading looks further ahead. It
takes an expression for an assignment only if an equals sign follows the name, or the name
with its subscript, and in no expression it does (`Derives.noTarget`).
-/

namespace PoolScript

open Grammar Reading

namespace Grammar

/-! ### Expressions that begin with a name -/

/-- What follows a name does not make it the target of an assignment: no equals sign follows,
    neither at once nor after a subscript. -/
structure NoTarget (ts : List Token) : Prop where
  atOnce : ts.head? ≠ some .assign
  element : ∀ us, ts = .lbracket :: us → ∃ vs e ws,
    us = vs ++ .rbracket :: ws ∧ Derives (.binary 0) vs e ∧ ws.head? ≠ some .assign

theorem head?_append_ne {ts us : List Token} {t : Token} (h : ts.head? ≠ some .assign)
    (ht : t ≠ .assign) : (ts ++ t :: us).head? ≠ some .assign := by
  rcases ts with _ | ⟨t', ts⟩
  · simpa using ht
  · exact h

/-- What follows an expression does not make it the target of an assignment. -/
theorem NoTarget.append {ts us : List Token} {t : Token} (h : NoTarget ts) (hassign : t ≠ .assign)
    (hbracket : t ≠ .lbracket) : NoTarget (ts ++ t :: us) := by
  refine ⟨head?_append_ne h.atOnce hassign, ?_⟩
  intro vs hvs
  rcases ts with _ | ⟨t', ts⟩
  · exact absurd (List.cons.inj hvs).1 hbracket
  · obtain ⟨rfl, rfl⟩ := List.cons.inj hvs
    obtain ⟨as, e, ws, rfl, hd, hws⟩ := h.element ts rfl
    exact ⟨as, e, ws ++ t :: us, by simp, hd, head?_append_ne hws hassign⟩

theorem Derives.noTarget {s : Symbol} {ts : List Token} {e : Expr} (h : Derives s ts e) :
    ∀ {name us}, ts = .ident name :: us → NoTarget us := by
  induction h with
  | tighter _ ih | unary _ ih | primary _ ih => exact ih
  -- The name is in the left operand, and what follows that one is an operator, which is no
  -- assignment.
  | @binary n t op ts us a b hop ha _ ih _ =>
    intro name vs hvs
    obtain ⟨t', ts, rfl, -⟩ := ha.starts
    obtain ⟨rfl, rfl⟩ := List.cons.inj hvs
    have ht := (mem_levels.1 hop).1
    refine (ih rfl).append ?_ ?_
    · rintro rfl
      exact absurd ht nofun
    · rintro rfl
      exact absurd ht nofun
  | var name =>
    intro name us hus
    obtain ⟨-, rfl⟩ := List.cons.inj hus
    exact ⟨nofun, nofun⟩
  | call args _ _ =>
    intro name us hus
    obtain ⟨-, rfl⟩ := List.cons.inj hus
    exact ⟨nofun, nofun⟩
  -- An element is read as a target would be, but for the assignment behind it.
  | @index name ts e h _ =>
    intro name us hus
    obtain ⟨-, rfl⟩ := List.cons.inj hus
    refine ⟨nofun, ?_⟩
    intro vs hvs
    obtain ⟨-, rfl⟩ := List.cons.inj hvs
    exact ⟨ts, e, [], rfl, h, nofun⟩
  | _ => exact nofun

end Grammar

namespace Reading

variable {inLoop : Bool} {l l' : Nat} {e : Expr} {ls rest : List Lexeme}

theorem peek_eq_head? (ls : List Lexeme) : peek ls = (ls.map (·.token)).head? := by
  rw [peek, List.head?_map]

/-! ### Expressions in statements -/

variable {ts us : List Lexeme}

/-- An expression is read up to a token that is no operator and opens nothing. -/
theorem climb_reads {t : Token} (l : Nat) (h : Derives (.binary 0) (ls.map (·.token)) e)
    (ht : binaryOp? t = none) (hp : t ≠ .lparen) (hb : t ≠ .lbracket)
    (hts : ts = ls ++ ⟨t, l⟩ :: rest) :
    Parsed.outcome (climb 0 ts) = .ok (e, ⟨t, l⟩ :: rest) :=
  hts ▸ (h.reads ls rfl).whole (ends_cons ht hp hb 0)

theorem exprStmt_reads (l : Nat) (h : Derives (.binary 0) (ls.map (·.token)) e)
    (hts : ts = ls ++ ⟨.semi, l⟩ :: rest) : Parsed.outcome (exprStmt ts) = .ok (e, rest) :=
  exprStmt_of_climb (climb_reads l h rfl nofun nofun hts)

theorem condition_reads (l l' : Nat) (h : Derives (.binary 0) (ls.map (·.token)) e)
    (hts : ts = ⟨.lparen, l⟩ :: (ls ++ ⟨.rparen, l'⟩ :: rest)) :
    Parsed.outcome (condition ts) = .ok (e, rest) :=
  hts ▸ condition_of_climb (climb_reads l' h rfl nofun nofun rfl)

/-- Two bounds are read up to the dots and the closing parenthesis. -/
theorem header_reads_range {as bs : List Lexeme} {a b : Expr} {var : String}
    (l₁ l₂ l₃ l₄ l₅ : Nat) (ha : Derives (.binary 0) (as.map (·.token)) a)
    (hb : Derives (.binary 0) (bs.map (·.token)) b)
    (hts : ts = ⟨.lparen, l₁⟩ :: ⟨.ident var, l₂⟩ :: ⟨.inKw, l₃⟩ :: (as ++
      ⟨.dotDot, l₄⟩ :: (bs ++ ⟨.rparen, l₅⟩ :: rest))) :
    Parsed.outcome (header ts) = .ok (.range var a b, rest) :=
  hts ▸ header_range (climb_reads l₄ ha rfl nofun nofun rfl) (climb_reads l₅ hb rfl nofun nofun rfl)

theorem header_reads_each {as : List Lexeme} {a : Expr} {key value : String}
    (l₁ l₂ l₃ l₄ l₅ l₆ : Nat) (ha : Derives (.binary 0) (as.map (·.token)) a)
    (hts : ts = ⟨.lparen, l₁⟩ :: ⟨.ident key, l₂⟩ :: ⟨.comma, l₃⟩ :: ⟨.ident value, l₄⟩ ::
      ⟨.inKw, l₅⟩ :: (as ++ ⟨.rparen, l₆⟩ :: rest)) :
    Parsed.outcome (header ts) = .ok (.each key value a, rest) :=
  hts ▸ header_each (climb_reads l₆ ha rfl nofun nofun rfl)

/-- What begins no other statement is read as an expression. -/
theorem stmt_expr {t : Lexeme} {ts : List Lexeme} (ht : Starts t.token)
    (hname : ∀ name, t.token ≠ .ident name)
    (h : Parsed.outcome (exprStmt (t :: ts)) = .ok (e, rest)) :
    Parsed.outcome (stmt inLoop t ts) = .ok (.expr t.line e, rest) := by
  obtain ⟨⟨_, _, _⟩, hp, rfl, rfl⟩ := Parsed.outcome_eq_ok h
  obtain ⟨t, l⟩ := t
  rw [stmt]
  · simp only [bind, Except.bind, hp]
    rfl
  case x_8 =>
    rintro name rfl
    exact hname name rfl
  all_goals
    rintro rfl
    exact ht

/-- An expression and a semicolon are read as a statement. -/
theorem stmt_reads_expr (h : Derives (.binary 0) (ls.map (·.token)) e) :
    ∃ t us, ls = t :: us ∧ t.token ≠ .rbrace ∧
      Parsed.outcome (stmt inLoop t (us ++ ⟨.semi, l⟩ :: rest)) = .ok (.expr t.line e, rest) := by
  obtain ⟨t, us, hts, hstarts⟩ := h.starts
  obtain ⟨⟨t, line⟩, us, rfl, rfl, rfl⟩ := List.map_eq_cons_iff.1 hts
  have hexpr : Parsed.outcome (exprStmt (⟨t, line⟩ :: (us ++ ⟨.semi, l⟩ :: rest))) =
      .ok (e, rest) := exprStmt_reads l h rfl
  refine ⟨⟨t, line⟩, us, rfl, ?_, ?_⟩
  · rintro rfl
    exact hstarts
  by_cases hname : ∃ name, t = .ident name
  · obtain ⟨name, rfl⟩ := hname
    have htarget : NoTarget ((us ++ ⟨.semi, l⟩ :: rest).map (·.token)) := by
      rw [List.map_append, List.map_cons]
      exact (h.noTarget rfl).append nofun nofun
    rw [stmt_name]
    refine nameStmt_expr ?_ ?_ hexpr
    · rw [peek_eq_head?]
      exact htarget.atOnce
    · intro l' vs hvs
      rw [hvs] at htarget
      obtain ⟨as, k, ws, hws, hd, hassign⟩ := htarget.element _ rfl
      obtain ⟨as, cs, rfl, rfl, hcs⟩ := List.map_eq_append_iff.1 hws
      obtain ⟨⟨_, l''⟩, ws, rfl, rfl, rfl⟩ := List.map_eq_cons_iff.1 hcs
      refine ⟨k, l'', ws, climb_reads l'' hd rfl nofun nofun rfl, ?_⟩
      rwa [peek_eq_head?]
  · exact stmt_expr hstarts (fun name h => hname ⟨name, h⟩) hexpr

/-! ### Statements -/

/-- A heading and a body in braces, found in the tokens they make. -/
theorem split_body {heading ts : List Token}
    (h : ls.map (·.token) = heading ++ .lbrace :: (ts ++ [.rbrace])) :
    ∃ hs l bs l', ls = hs ++ ⟨.lbrace, l⟩ :: (bs ++ [⟨.rbrace, l'⟩]) ∧
      hs.map (·.token) = heading ∧ bs.map (·.token) = ts := by
  obtain ⟨hs, ks, rfl, hhs, hks⟩ := List.map_eq_append_iff.1 h
  obtain ⟨⟨_, l⟩, ms, rfl, rfl, hms⟩ := List.map_eq_cons_iff.1 hks
  obtain ⟨bs, cs, rfl, hbs, hcs⟩ := List.map_eq_append_iff.1 hms
  obtain ⟨⟨_, l'⟩, rfl, rfl⟩ := List.map_eq_singleton_iff.1 hcs
  exact ⟨hs, l, bs, l', rfl, hhs, hbs⟩

/-- The body of a statement is read, after its heading, from where its tokens are. -/
theorem block_reads {heading : List Token} {body : List Stmt}
    (h : ls.map (·.token) = heading ++ .lbrace :: (Stmt.tokensAll body ++ [.rbrace]))
    (hbody : ∀ (bs : List Lexeme) l, bs.map (·.token) = Stmt.tokensAll body →
      Parsed.outcome (statements inLoop (bs ++ ⟨.rbrace, l⟩ :: rest)) =
        .ok (Stmt.placedAll (bs ++ ⟨.rbrace, l⟩ :: rest) body, rest)) :
    ∃ hs l bs, ls = hs ++ ⟨.lbrace, l⟩ :: bs ∧ hs.map (·.token) = heading ∧
      Parsed.outcome (block inLoop (⟨.lbrace, l⟩ :: (bs ++ rest))) =
        .ok (Stmt.placedAll ((ls ++ rest).drop (heading.length + 1)) body, rest) := by
  obtain ⟨hs, l, bs, l', rfl, rfl, hbs⟩ := split_body h
  refine ⟨hs, l, bs ++ [⟨.rbrace, l'⟩], rfl, rfl, ?_⟩
  have hdrop : ((hs ++ ⟨.lbrace, l⟩ :: (bs ++ [⟨.rbrace, l'⟩]) ++ rest : List Lexeme)).drop
      ((hs.map (·.token)).length + 1) = bs ++ ⟨.rbrace, l'⟩ :: rest := by
    simp [List.drop_append]
  rw [hdrop]
  refine block_of_statements ?_
  rw [List.append_assoc]
  exact hbody bs l' hbs

/-- What can be written is derived by the grammar. -/
theorem derives_of_tokens {ts : List Token} (hw : e.Writable) (hts : ts = e.tokens) :
    Derives (.binary 0) ts e :=
  hts ▸ Expr.derives_whole (Expr.tokens_derives e hw)

/-- The tokens of `s` are read as a statement in a loop, or not in a loop, whatever follows. -/
def Reads (inLoop : Bool) (s : Stmt) : Prop :=
  ∀ ls rest : List Lexeme, ls.map (·.token) = s.tokens → ∃ t us, ls = t :: us ∧
    t.token ≠ .rbrace ∧
      Parsed.outcome (stmt inLoop t (us ++ rest)) = .ok (s.placed (ls ++ rest), rest)

/-- The tokens of `ss` are read as statements in a row, up to the closing brace. -/
def ReadsAll (inLoop : Bool) (ss : List Stmt) : Prop :=
  ∀ (ls rest : List Lexeme) (l : Nat), ls.map (·.token) = Stmt.tokensAll ss →
    Parsed.outcome (statements inLoop (ls ++ ⟨.rbrace, l⟩ :: rest)) =
      .ok (Stmt.placedAll (ls ++ ⟨.rbrace, l⟩ :: rest) ss, rest)

/-- A list of tokens in parentheses. -/
theorem split_parens {ts : List Token} (h : ls.map (·.token) = .lparen :: (ts ++ [.rparen])) :
    ∃ l cs l', ls = ⟨.lparen, l⟩ :: (cs ++ [⟨.rparen, l'⟩]) ∧ cs.map (·.token) = ts := by
  obtain ⟨⟨_, l⟩, ms, rfl, rfl, hms⟩ := List.map_eq_cons_iff.1 h
  obtain ⟨cs, xs, rfl, hcs, hxs⟩ := List.map_eq_append_iff.1 hms
  obtain ⟨⟨_, l'⟩, rfl, rfl⟩ := List.map_eq_singleton_iff.1 hxs
  exact ⟨l, cs, l', rfl, hcs⟩

/-- An expression and the token after it. -/
theorem split_last {ts : List Token} {t : Token} (h : ls.map (·.token) = ts ++ [t]) :
    ∃ es l, ls = es ++ [⟨t, l⟩] ∧ es.map (·.token) = ts := by
  obtain ⟨es, xs, rfl, hes, hxs⟩ := List.map_eq_append_iff.1 h
  obtain ⟨⟨_, l⟩, rfl, rfl⟩ := List.map_eq_singleton_iff.1 hxs
  exact ⟨es, l, rfl, hes⟩

section

variable {line : Nat} {cond : Expr} {body : List Stmt}

theorem ifThen_reads (hc : cond.Writable) (hbody : ReadsAll inLoop body) :
    Reads inLoop (.ifThen line cond body) := by
  intro ls rest hls
  rw [Stmt.tokens] at hls
  obtain ⟨hs, l, bs, rfl, hhs, hblock⟩ := block_reads hls fun bs => hbody bs rest
  obtain ⟨⟨_, l₁⟩, ps, rfl, rfl, hps⟩ := List.map_eq_cons_iff.1 hhs
  obtain ⟨l₂, cs, l₃, rfl, hcs⟩ := split_parens hps
  exact ⟨_, _, rfl, nofun,
    stmt_if (condition_reads l₂ l₃ (derives_of_tokens hc hcs) (by simp)) hblock⟩

theorem elseIf_reads (hc : cond.Writable) (hbody : ReadsAll inLoop body) :
    Reads inLoop (.elseIf line cond body) := by
  intro ls rest hls
  rw [Stmt.tokens] at hls
  obtain ⟨hs, l, bs, rfl, hhs, hblock⟩ := block_reads hls fun bs => hbody bs rest
  obtain ⟨⟨_, l₀⟩, is, rfl, rfl, his⟩ := List.map_eq_cons_iff.1 hhs
  obtain ⟨⟨_, l₁⟩, ps, rfl, rfl, hps⟩ := List.map_eq_cons_iff.1 his
  obtain ⟨l₂, cs, l₃, rfl, hcs⟩ := split_parens hps
  exact ⟨_, _, rfl, nofun,
    stmt_elseIf (condition_reads l₂ l₃ (derives_of_tokens hc hcs) (by simp)) hblock⟩

theorem elseThen_reads (hbody : ReadsAll inLoop body) : Reads inLoop (.elseThen line body) := by
  intro ls rest hls
  rw [Stmt.tokens] at hls
  obtain ⟨hs, l, bs, rfl, hhs, hblock⟩ := block_reads hls fun bs => hbody bs rest
  obtain ⟨⟨_, l₁⟩, rfl, rfl⟩ := List.map_eq_singleton_iff.1 hhs
  exact ⟨_, _, rfl, nofun, stmt_else nofun hblock⟩

theorem whileLoop_reads (hc : cond.Writable) (hbody : ReadsAll true body) :
    Reads inLoop (.whileLoop line cond body) := by
  intro ls rest hls
  rw [Stmt.tokens] at hls
  obtain ⟨hs, l, bs, rfl, hhs, hblock⟩ := block_reads hls fun bs => hbody bs rest
  obtain ⟨⟨_, l₁⟩, ps, rfl, rfl, hps⟩ := List.map_eq_cons_iff.1 hhs
  obtain ⟨l₂, cs, l₃, rfl, hcs⟩ := split_parens hps
  exact ⟨_, _, rfl, nofun,
    stmt_while (condition_reads l₂ l₃ (derives_of_tokens hc hcs) (by simp)) hblock⟩

theorem forRange_reads {var : String} {first last : Expr} (ha : first.Writable)
    (hb : last.Writable) (hbody : ReadsAll true body) :
    Reads inLoop (.forRange line var first last body) := by
  intro ls rest hls
  rw [Stmt.tokens] at hls
  obtain ⟨hs, l, bs, rfl, hhs, hblock⟩ := block_reads hls fun bs => hbody bs rest
  obtain ⟨⟨_, l₁⟩, ps, rfl, rfl, hps⟩ := List.map_eq_cons_iff.1 hhs
  obtain ⟨⟨_, l₂⟩, ns, rfl, rfl, hns⟩ := List.map_eq_cons_iff.1 hps
  obtain ⟨⟨_, l₃⟩, is, rfl, rfl, his⟩ := List.map_eq_cons_iff.1 hns
  obtain ⟨⟨_, l₄⟩, es, rfl, rfl, hes⟩ := List.map_eq_cons_iff.1 his
  obtain ⟨as, ds, rfl, has, hds⟩ := List.map_eq_append_iff.1 hes
  obtain ⟨⟨_, l₅⟩, cs, rfl, rfl, hcs⟩ := List.map_eq_cons_iff.1 hds
  obtain ⟨cs, l₆, rfl, hlast⟩ := split_last hcs
  exact ⟨_, _, rfl, nofun, stmt_for (header_reads_range l₂ l₃ l₄ l₅ l₆ (derives_of_tokens ha has)
    (derives_of_tokens hb hlast) (by simp)) hblock⟩

theorem forEach_reads {key value : String} {array : Expr} (ha : array.Writable)
    (hbody : ReadsAll true body) : Reads inLoop (.forEach line key value array body) := by
  intro ls rest hls
  rw [Stmt.tokens] at hls
  obtain ⟨hs, l, bs, rfl, hhs, hblock⟩ := block_reads hls fun bs => hbody bs rest
  obtain ⟨⟨_, l₁⟩, ps, rfl, rfl, hps⟩ := List.map_eq_cons_iff.1 hhs
  obtain ⟨⟨_, l₂⟩, ks, rfl, rfl, hks⟩ := List.map_eq_cons_iff.1 hps
  obtain ⟨⟨_, l₃⟩, cs, rfl, rfl, hcs⟩ := List.map_eq_cons_iff.1 hks
  obtain ⟨⟨_, l₄⟩, vs, rfl, rfl, hvs⟩ := List.map_eq_cons_iff.1 hcs
  obtain ⟨⟨_, l₅⟩, is, rfl, rfl, his⟩ := List.map_eq_cons_iff.1 hvs
  obtain ⟨⟨_, l₆⟩, es, rfl, rfl, hes⟩ := List.map_eq_cons_iff.1 his
  obtain ⟨as, l₇, rfl, has⟩ := split_last hes
  exact ⟨_, _, rfl, nofun, stmt_for (header_reads_each l₂ l₃ l₄ l₅ l₆ l₇
    (derives_of_tokens ha has) (by simp)) hblock⟩

theorem assign_reads {name : String} {value : Expr} (hv : value.Writable) :
    Reads inLoop (.assign line name value) := by
  intro ls rest hls
  obtain ⟨⟨_, l₁⟩, as, rfl, rfl, has⟩ := List.map_eq_cons_iff.1 hls
  obtain ⟨⟨_, l₂⟩, es, rfl, rfl, hes⟩ := List.map_eq_cons_iff.1 has
  obtain ⟨vs, l₃, rfl, hvs⟩ := split_last hes
  refine ⟨_, _, rfl, nofun, ?_⟩
  rw [stmt_name]
  exact nameStmt_assign (exprStmt_reads l₃ (derives_of_tokens hv hvs) (by simp))

theorem assignElement_reads {name : String} {subscript value : Expr} (hk : subscript.Writable)
    (hv : value.Writable) : Reads inLoop (.assignElement line name subscript value) := by
  intro ls rest hls
  obtain ⟨⟨_, l₁⟩, bs, rfl, rfl, hbs⟩ := List.map_eq_cons_iff.1 hls
  obtain ⟨⟨_, l₂⟩, ms, rfl, rfl, hms⟩ := List.map_eq_cons_iff.1 hbs
  obtain ⟨ks, cs, rfl, hks, hcs⟩ := List.map_eq_append_iff.1 hms
  obtain ⟨⟨_, l₃⟩, as, rfl, rfl, has⟩ := List.map_eq_cons_iff.1 hcs
  obtain ⟨⟨_, l₄⟩, es, rfl, rfl, hes⟩ := List.map_eq_cons_iff.1 has
  obtain ⟨vs, l₅, rfl, hvs⟩ := split_last hes
  have hsubscript : Parsed.outcome (climb 0 (ks ++ ⟨.rbracket, l₃⟩ :: ⟨.assign, l₄⟩ ::
      (vs ++ [⟨.semi, l₅⟩]) ++ rest)) =
        .ok (subscript, ⟨.rbracket, l₃⟩ :: ⟨.assign, l₄⟩ :: (vs ++ ⟨.semi, l₅⟩ :: rest)) :=
    climb_reads l₃ (derives_of_tokens hk hks) rfl nofun nofun (by simp)
  refine ⟨_, _, rfl, nofun, ?_⟩
  rw [stmt_name]
  exact nameStmt_element hsubscript (exprStmt_reads l₅ (derives_of_tokens hv hvs) rfl)

theorem expr_reads {e : Expr} (he : e.Writable) : Reads inLoop (.expr line e) := by
  intro ls rest hls
  obtain ⟨es, l, rfl, hes⟩ := split_last hls
  obtain ⟨t, us, rfl, ht, hstmt⟩ := stmt_reads_expr (derives_of_tokens he hes)
  refine ⟨t, us ++ [⟨.semi, l⟩], rfl, ht, ?_⟩
  rw [List.append_assoc]
  exact hstmt

theorem ret_reads {value : Option Expr} (hv : ∀ e ∈ value, e.Writable) :
    Reads inLoop (.ret line value) := by
  intro ls rest hls
  cases value with
  | none =>
    obtain ⟨⟨_, l₁⟩, ss, rfl, rfl, hss⟩ := List.map_eq_cons_iff.1 hls
    obtain ⟨⟨_, l₂⟩, rfl, rfl⟩ := List.map_eq_singleton_iff.1 hss
    exact ⟨_, _, rfl, nofun, stmt_return result_none⟩
  | some e =>
    obtain ⟨⟨_, l₁⟩, ss, rfl, rfl, hss⟩ := List.map_eq_cons_iff.1 hls
    obtain ⟨es, l₂, rfl, hes⟩ := split_last hss
    have hd := derives_of_tokens (hv e rfl) hes
    refine ⟨_, _, rfl, nofun, stmt_return (result_some ?_ (exprStmt_reads l₂ hd (by simp)))⟩
    obtain ⟨t, us, hts, ht⟩ := hd.starts
    obtain ⟨⟨_, l⟩, es, rfl, rfl, -⟩ := List.map_eq_cons_iff.1 hts
    rintro ⟨⟩
    exact ht

/-- A statement of a keyword and a semicolon is read by its keyword. -/
theorem reads_of_heading {s : Stmt} {t : Token} (hs : s.tokens = [t, .semi])
    (ht : t ≠ .rbrace)
    (h : ∀ l l' rest, Parsed.outcome (stmt inLoop ⟨t, l⟩ (⟨.semi, l'⟩ :: rest)) =
      .ok (s.placed (⟨t, l⟩ :: ⟨.semi, l'⟩ :: rest), rest)) : Reads inLoop s := by
  intro ls rest hls
  rw [hs] at hls
  obtain ⟨⟨_, l₁⟩, ss, rfl, rfl, hss⟩ := List.map_eq_cons_iff.1 hls
  obtain ⟨⟨_, l₂⟩, rfl, rfl⟩ := List.map_eq_singleton_iff.1 hss
  exact ⟨_, _, rfl, ht, h l₁ l₂ rest⟩

end

mutual

/-- The tokens of a statement are read as the statement. -/
theorem reads : ∀ (inLoop : Bool) (s : Stmt), s.Writable inLoop → Reads inLoop s
  | _, .empty _, _ => by
    intro ls rest hls
    obtain ⟨⟨_, l⟩, rfl, rfl⟩ := List.map_eq_singleton_iff.1 hls
    exact ⟨_, _, rfl, nofun, stmt_empty⟩
  | _, .expr _ e, h => expr_reads h
  | _, .assign .., h => assign_reads h
  | _, .assignElement .., h => assignElement_reads h.1 h.2
  | inLoop, .ifThen _ _ body, h => ifThen_reads h.1 (readsAll inLoop body h.2)
  | inLoop, .elseIf _ _ body, h => elseIf_reads h.1 (readsAll inLoop body h.2)
  | inLoop, .elseThen _ body, h => elseThen_reads (readsAll inLoop body h)
  | _, .whileLoop _ _ body, h => whileLoop_reads h.1 (readsAll true body h.2)
  | _, .forRange _ _ _ _ body, h => forRange_reads h.1 h.2.1 (readsAll true body h.2.2)
  | _, .forEach _ _ _ _ body, h => forEach_reads h.1 (readsAll true body h.2)
  | _, .ret _ none, _ => ret_reads nofun
  | _, .ret _ (some _), h => ret_reads fun _ he => Option.some.inj he ▸ h
  | _, .break _, h => h ▸ reads_of_heading rfl nofun fun _ _ _ => stmt_break
  | _, .continue _, h => h ▸ reads_of_heading rfl nofun fun _ _ _ => stmt_continue

/-- All statements are read, by induction on the tree. -/
theorem readsAll : ∀ (inLoop : Bool) (ss : List Stmt), Stmt.AllWritable inLoop ss →
    ReadsAll inLoop ss
  | _, [], _ => by
    intro ls rest l hls
    obtain rfl := List.map_eq_nil_iff.1 hls
    exact statements_nil
  | inLoop, s :: ss, h => by
    intro ls rest l hls
    obtain ⟨as, bs, rfl, has, hbs⟩ := List.map_eq_append_iff.1 hls
    obtain ⟨t, us, rfl, ht, hs⟩ := reads inLoop s h.1 as (bs ++ ⟨.rbrace, l⟩ :: rest) has
    have hss := readsAll inLoop ss h.2 bs rest l hbs
    have hdrop : (t :: us ++ (bs ++ ⟨.rbrace, l⟩ :: rest)).drop s.tokens.length =
        bs ++ ⟨.rbrace, l⟩ :: rest := by
      rw [← has, List.length_map, List.drop_left]
    rw [List.append_assoc, Stmt.placedAll, hdrop]
    exact statements_cons ht hs hss

end

/-! ### Functions -/

/-- Parameters are read between the commas. -/
theorem moreParams_reads (l : Nat) : ∀ (name : String) (names : List String) (ls : List Lexeme),
    ls.map (·.token) = [Token.comma].intercalate ((name :: names).map fun x => [.ident x]) →
      Parsed.outcome (moreParams (ls ++ ⟨.rparen, l⟩ :: rest)) = .ok (name :: names, rest)
  | name, [], ls, hls => by
    obtain ⟨⟨_, l₁⟩, rfl, rfl⟩ := List.map_eq_singleton_iff.1 hls
    exact moreParams_last
  | name, next :: names, ls, hls => by
    rw [List.map_cons, List.map_cons, List.intercalate_cons_cons] at hls
    obtain ⟨⟨_, l₁⟩, cs, rfl, rfl, hcs⟩ := List.map_eq_cons_iff.1 hls
    obtain ⟨⟨_, l₂⟩, ms, rfl, rfl, hms⟩ := List.map_eq_cons_iff.1 hcs
    exact moreParams_cons (moreParams_reads l next names ms hms)

theorem params_reads (l : Nat) (names : List String) (ls : List Lexeme)
    (hls : ls.map (·.token) = [Token.comma].intercalate (names.map fun x => [.ident x])) :
    Parsed.outcome (params (ls ++ ⟨.rparen, l⟩ :: rest)) = .ok (names, rest) := by
  rcases names with _ | ⟨name, names⟩
  · obtain rfl := List.map_eq_nil_iff.1 hls
    exact params_none
  · have hpeek : peek (ls ++ ⟨.rparen, l⟩ :: rest) = some (.ident name) := by
      refine peek_append ?_
      rw [hls]
      cases names with
      | nil => rfl
      | cons next names =>
        rw [List.map_cons, List.map_cons, List.intercalate_cons_cons]
        rfl
    have hclose : peek (ls ++ ⟨.rparen, l⟩ :: rest) ≠ some .rparen := by
      rw [hpeek]
      exact nofun
    rw [params_some hclose]
    exact moreParams_reads l name names ls hls

/-- A function is read with its statements on the lines where they stand. -/
theorem func_reads (f : Func) (hf : Stmt.AllWritable false f.body) (ls rest : List Lexeme)
    (hls : ls.map (·.token) = f.tokens) : ∃ t us, ls = t :: us ∧
      Parsed.outcome (func t (us ++ rest)) = .ok (f.placed (ls ++ rest), rest) := by
  have hbody := readsAll false f.body hf
  obtain ⟨hs, l, bs, rfl, hhs, hblock⟩ := block_reads hls fun bs => hbody bs rest
  obtain ⟨⟨_, l₁⟩, ns, rfl, rfl, hns⟩ := List.map_eq_cons_iff.1 hhs
  obtain ⟨⟨_, l₂⟩, ps, rfl, rfl, hps⟩ := List.map_eq_cons_iff.1 hns
  obtain ⟨⟨_, l₃⟩, as, rfl, rfl, has⟩ := List.map_eq_cons_iff.1 hps
  obtain ⟨ps, l₄, rfl, hnames⟩ := split_last has
  have hparams : Parsed.outcome (params (ps ++ [⟨.rparen, l₄⟩] ++ ⟨.lbrace, l⟩ :: bs ++ rest)) =
      .ok (f.params, ⟨.lbrace, l⟩ :: (bs ++ rest)) := by
    rw [List.append_assoc, List.append_assoc]
    exact params_reads l₄ f.params ps hnames
  exact ⟨_, _, rfl, func_of_block hparams hblock⟩

/-- Functions are read one after another. -/
theorem funcs_read : ∀ (fs : List Func) (ls : List Lexeme),
    (∀ f ∈ fs, Stmt.AllWritable false f.body) → ls.map (·.token) = fs.flatMap Func.tokens →
      funcs ls = .ok (Func.placedAll ls fs)
  | [], ls, _, hls => by
    obtain rfl := List.map_eq_nil_iff.1 hls
    exact funcs_nil
  | f :: fs, ls, h, hls => by
    obtain ⟨hf, hfs⟩ := List.forall_mem_cons.1 h
    obtain ⟨as, bs, rfl, has, hbs⟩ := List.map_eq_append_iff.1 hls
    obtain ⟨t, us, rfl, hfunc⟩ := func_reads f hf as bs has
    have hdrop : (t :: us ++ bs).drop f.tokens.length = bs := by
      rw [← has, List.length_map, List.drop_left]
    rw [Func.placedAll, hdrop]
    exact funcs_cons hfunc (funcs_read fs bs hfs hbs)

end Reading

/-- The tokens of a program, on whatever lines they stand, are read as the program, with each
    function and each statement on the line of its first token. All the tokens are taken. -/
theorem Program.ofTokens_tokens (p : Program) (ls : List Lexeme) (hp : p.Writable)
    (hls : ls.map (·.token) = p.tokens) : Program.ofTokens ls = .ok (p.placed ls) := by
  rw [Program.ofTokens, funcs_read p.funcs ls hp hls]
  rfl

/-- A program that walks an array, with the least integer, the negative zero, a minus before a
    difference and a difference as a right operand. -/
def Program.walker : Program :=
  ⟨[⟨"walk", ["a", "b"],
    [.forEach 0 "k" "v" (.var "a")
      [.ifThen 0 (.binary .lt (.var "k") (.int Int64.minValue)) [.break 0],
        .elseIf 0 (.neg (.binary .minus (.var "v") (.binary .minus (.var "b") (.int 1))))
          [.continue 0],
        .elseThen 0 [.assignElement 0 "a" (.var "k") (.float (-0.0))]],
      .ret 0 (some (.call "size" [.index "a" (.int (-1)), .str "s"]))],
    0⟩]⟩

/-- The tokens of a program, each on a line of its own. -/
def Program.spread (p : Program) : List Lexeme :=
  p.tokens.zipIdx.map fun t => ⟨t.1, t.2 + 1⟩

theorem Program.walker_read_back :
    walker.Writable ∧ walker.spread.map (·.token) = walker.tokens ∧
      Program.ofTokens walker.spread = .ok (walker.placed walker.spread) := by
  have hw : walker.Writable := by
    simp only [Writable, walker, List.forall_mem_singleton, Stmt.AllWritable, Stmt.Writable,
      Expr.Writable, Expr.AllWritable, and_true, true_and]
    decide
  have hls : walker.spread.map (·.token) = walker.tokens := by
    rw [spread, List.map_map]
    exact List.zipIdx_map_fst 0 walker.tokens
  exact ⟨hw, hls, ofTokens_tokens walker walker.spread hw hls⟩

end PoolScript
