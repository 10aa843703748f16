import PoolScript.Proofs.Tree.Equations
import PoolScript.Proofs.Tree.RoundTrip

/-!
# The grammar of statements and programs

Expressions are in a grammar of their own (`Grammar.Derives`). Here is that of what is made of
them, over tokens with their lines, with the tree that each derivation makes:

* `Grammar.Simple`: statements without a body;
* `Grammar.Branch`, `Grammar.Loop`: what stands before a body, with the statement that the body
  makes of it;
* `Grammar.Body`: statements in a row. There are jumps among them in loops only: a branch hands on
  whether it is in a loop, and the body of a loop is in one;
* `Grammar.Functions`: functions in a row.

What is derived is read, and the reading goes on with what follows (`Grammar.Body.reads`,
`Grammar.Functions.reads`). That what is read is derived is in `PoolScript.Proofs.Tree.Programs`.
-/

namespace PoolScript

namespace Grammar

open Reading
open Parsed (outcome)

/-- Statements that have no body and are no jump, each with an expression or two. -/
inductive Simple : List Lexeme → Stmt → Prop
  | empty (l : Nat) : Simple [⟨.semi, l⟩] (.empty l)
  | expr {t : Lexeme} {ts : List Lexeme} {e : Expr} (l : Nat) :
      Derives (.binary 0) ((t :: ts).map (·.token)) e →
      Simple (t :: ts ++ [⟨.semi, l⟩]) (.expr t.line e)
  | assign {ts : List Lexeme} {e : Expr} (name : String) (l l₁ l₂ : Nat) :
      Derives (.binary 0) (ts.map (·.token)) e →
      Simple (⟨.ident name, l⟩ :: ⟨.assign, l₁⟩ :: (ts ++ [⟨.semi, l₂⟩])) (.assign l name e)
  | assignElement {ks ts : List Lexeme} {k e : Expr} (name : String) (l l₁ l₂ l₃ l₄ : Nat) :
      Derives (.binary 0) (ks.map (·.token)) k → Derives (.binary 0) (ts.map (·.token)) e →
      Simple (⟨.ident name, l⟩ :: ⟨.lbracket, l₁⟩ :: (ks ++ ⟨.rbracket, l₂⟩ :: ⟨.assign, l₃⟩ ::
        (ts ++ [⟨.semi, l₄⟩]))) (.assignElement l name k e)
  | ret (l l₁ : Nat) : Simple [⟨.returnKw, l⟩, ⟨.semi, l₁⟩] (.ret l none)
  | retValue {ts : List Lexeme} {e : Expr} (l l₁ : Nat) :
      Derives (.binary 0) (ts.map (·.token)) e →
      Simple (⟨.returnKw, l⟩ :: (ts ++ [⟨.semi, l₁⟩])) (.ret l (some e))

/-- Conditions in parentheses. -/
inductive Condition : List Lexeme → Expr → Prop
  | parens {ts : List Lexeme} {e : Expr} (l l' : Nat) : Derives (.binary 0) (ts.map (·.token)) e →
      Condition (⟨.lparen, l⟩ :: (ts ++ [⟨.rparen, l'⟩])) e

/-- What stands before the body of a branch. -/
inductive Branch : List Lexeme → (List Stmt → Stmt) → Prop
  | ifThen {cs : List Lexeme} {e : Expr} (l : Nat) : Condition cs e →
      Branch (⟨.ifKw, l⟩ :: cs) (.ifThen l e)
  | elseIf {cs : List Lexeme} {e : Expr} (l l' : Nat) : Condition cs e →
      Branch (⟨.elseKw, l⟩ :: ⟨.ifKw, l'⟩ :: cs) (.elseIf l e)
  | elseThen (l : Nat) : Branch [⟨.elseKw, l⟩] (.elseThen l)

/-- What a `for` loop runs over, in parentheses. -/
inductive Range : List Lexeme → Header → Prop
  | range {as bs : List Lexeme} {a b : Expr} (var : String) (l l₁ l₂ l₃ l₄ : Nat) :
      Derives (.binary 0) (as.map (·.token)) a → Derives (.binary 0) (bs.map (·.token)) b →
      Range (⟨.lparen, l⟩ :: ⟨.ident var, l₁⟩ :: ⟨.inKw, l₂⟩ ::
        (as ++ ⟨.dotDot, l₃⟩ :: (bs ++ [⟨.rparen, l₄⟩]))) (.range var a b)
  | each {as : List Lexeme} {a : Expr} (key value : String) (l l₁ l₂ l₃ l₄ l₅ : Nat) :
      Derives (.binary 0) (as.map (·.token)) a →
      Range (⟨.lparen, l⟩ :: ⟨.ident key, l₁⟩ :: ⟨.comma, l₂⟩ :: ⟨.ident value, l₃⟩ ::
        ⟨.inKw, l₄⟩ :: (as ++ [⟨.rparen, l₅⟩])) (.each key value a)

/-- What stands before the body of a loop. -/
inductive Loop : List Lexeme → (List Stmt → Stmt) → Prop
  | whileLoop {cs : List Lexeme} {e : Expr} (l : Nat) : Condition cs e →
      Loop (⟨.whileKw, l⟩ :: cs) (.whileLoop l e)
  | forLoop {rs : List Lexeme} {range : Header} (l : Nat) : Range rs range →
      Loop (⟨.forKw, l⟩ :: rs) (Reading.loop l range)

/-- The statements that leave a round of a loop, with the keyword of each. -/
inductive Jump : Token → (Nat → Stmt) → Prop
  | «break» : Jump .breakKw .break
  | «continue» : Jump .continueKw .continue

/-- Statements in a row, in a loop or not. -/
inductive Body : Bool → List Lexeme → List Stmt → Prop
  | nil {inLoop : Bool} : Body inLoop [] []
  | simple {inLoop : Bool} {ts us : List Lexeme} {s : Stmt} {ss : List Stmt} : Simple ts s →
      Body inLoop us ss → Body inLoop (ts ++ us) (s :: ss)
  | jump {us : List Lexeme} {ss : List Stmt} {t : Token} {make : Nat → Stmt} (l l' : Nat) :
      Jump t make → Body true us ss → Body true (⟨t, l⟩ :: ⟨.semi, l'⟩ :: us) (make l :: ss)
  | branch {inLoop : Bool} {hs bs us : List Lexeme} {body ss : List Stmt}
      {make : List Stmt → Stmt} (l l' : Nat) : Branch hs make → Body inLoop bs body →
      Body inLoop us ss →
      Body inLoop (hs ++ ⟨.lbrace, l⟩ :: (bs ++ ⟨.rbrace, l'⟩ :: us)) (make body :: ss)
  | loop {inLoop : Bool} {hs bs us : List Lexeme} {body ss : List Stmt}
      {make : List Stmt → Stmt} (l l' : Nat) : Loop hs make → Body true bs body →
      Body inLoop us ss →
      Body inLoop (hs ++ ⟨.lbrace, l⟩ :: (bs ++ ⟨.rbrace, l'⟩ :: us)) (make body :: ss)

/-- What stands before the body of a function, with the function that the body makes of it. -/
inductive Heading : List Lexeme → (List Stmt → Func) → Prop
  | named {ps : List Lexeme} {params : List String} (name : String) (l l₁ l₂ l₃ : Nat) :
      ps.map (·.token) = [Token.comma].intercalate (params.map fun x => [.ident x]) →
      Heading (⟨.func, l⟩ :: ⟨.ident name, l₁⟩ :: ⟨.lparen, l₂⟩ :: (ps ++ [⟨.rparen, l₃⟩]))
        (⟨name, params, ·, l⟩)

/-- Functions in a row. -/
inductive Functions : List Lexeme → List Func → Prop
  | nil : Functions [] []
  | cons {hs bs us : List Lexeme} {body : List Stmt} {fs : List Func} {make : List Stmt → Func}
      (l l' : Nat) : Heading hs make → Body false bs body → Functions us fs →
      Functions (hs ++ ⟨.lbrace, l⟩ :: (bs ++ ⟨.rbrace, l'⟩ :: us)) (make body :: fs)

variable {inLoop : Bool} {l l' : Nat} {t : Token} {e : Expr} {s : Stmt} {ss : List Stmt}
  {ls ts us hs rest : List Lexeme} {make : List Stmt → Stmt}

/-! ### What is derived is read -/

theorem reads_expr (inLoop : Bool) {u : Lexeme} (l : Nat) (rest : List Lexeme)
    (h : Derives (.binary 0) ((u :: us).map (·.token)) e) :
    u.token ≠ .rbrace ∧
      outcome (stmt inLoop u (us ++ ⟨.semi, l⟩ :: rest)) = .ok (.expr u.line e, rest) := by
  have hread : ∃ t ts, u :: us = t :: ts ∧ t.token ≠ .rbrace ∧
      outcome (stmt inLoop t (ts ++ ⟨.semi, l⟩ :: rest)) = .ok (.expr t.line e, rest) :=
    stmt_reads_expr h
  obtain ⟨_, _, hus, hclose, hread⟩ := hread
  obtain ⟨rfl, rfl⟩ := List.cons.inj hus
  exact ⟨hclose, hread⟩

/-- A statement without a body is read, whatever follows. -/
theorem Simple.reads (h : Simple ls s) : ∃ t us, ls = t :: us ∧ t.token ≠ .rbrace ∧
    ∀ inLoop rest, outcome (stmt inLoop t (us ++ rest)) = .ok (s, rest) := by
  cases h with
  | empty l => exact ⟨_, _, rfl, by rintro ⟨⟩, fun _ _ => stmt_empty⟩
  | expr l he =>
    refine ⟨_, _, rfl, (reads_expr false l [] he).1, fun inLoop rest => ?_⟩
    rw [List.append_eq, List.append_assoc]
    exact (reads_expr inLoop l rest he).2
  | assign name l l₁ l₂ he =>
    refine ⟨_, _, rfl, by rintro ⟨⟩, fun _ rest => ?_⟩
    rw [stmt_name]
    exact nameStmt_assign (exprStmt_reads l₂ he (by simp))
  | @assignElement ks ts k _ name l l₁ l₂ l₃ l₄ hk he =>
    refine ⟨_, _, rfl, by rintro ⟨⟩, fun _ rest => ?_⟩
    rw [stmt_name]
    -- What is taken for a target first is one, as an assignment follows.
    have hsubscript : outcome (climb 0 (ks ++ ⟨.rbracket, l₂⟩ :: ⟨.assign, l₃⟩ ::
        (ts ++ [⟨.semi, l₄⟩]) ++ rest)) =
          .ok (k, ⟨.rbracket, l₂⟩ :: ⟨.assign, l₃⟩ :: (ts ++ ⟨.semi, l₄⟩ :: rest)) :=
      climb_reads l₂ hk rfl (by rintro ⟨⟩) (by rintro ⟨⟩) (by simp)
    exact nameStmt_element hsubscript (exprStmt_reads l₄ he rfl)
  | ret l l₁ => exact ⟨_, _, rfl, by rintro ⟨⟩, fun _ _ => stmt_return result_none⟩
  | retValue l l₁ he =>
    refine ⟨_, _, rfl, by rintro ⟨⟩, fun _ rest => ?_⟩
    refine stmt_return (result_some ?_ (exprStmt_reads l₁ he (by simp)))
    obtain ⟨t, us, hts, ht⟩ := he.starts
    obtain ⟨⟨_, _⟩, es, rfl, rfl, -⟩ := List.map_eq_cons_iff.1 hts
    rintro ⟨⟩
    exact ht

theorem Condition.reads (h : Condition ls e) :
    outcome (condition (ls ++ rest)) = .ok (e, rest) := by
  obtain ⟨l, l', he⟩ := h
  exact condition_reads l l' he (by simp)

theorem Range.reads {range : Header} (h : Range ls range) :
    outcome (header (ls ++ rest)) = .ok (range, rest) := by
  cases h with
  | range var l l₁ l₂ l₃ l₄ ha hb => exact header_reads_range l l₁ l₂ l₃ l₄ ha hb (by simp)
  | each key value l l₁ l₂ l₃ l₄ l₅ ha => exact header_reads_each l l₁ l₂ l₃ l₄ l₅ ha (by simp)

theorem block_lbrace (inLoop : Bool) (l : Nat) (ts : List Lexeme) :
    outcome (block inLoop (⟨.lbrace, l⟩ :: ts)) = outcome (statements inLoop ts) := by
  rw [block_outcome, expect_self]
  rfl

/-- What a reading does that has come to the body of a statement. -/
def atBody (inLoop : Bool) (make : List Stmt → Stmt) (ts : List Lexeme) :
    Except Refusal (Stmt × List Lexeme) :=
  outcome (statements inLoop ts) >>= fun body => .ok (make body.1, body.2)

/-- After what stands before the body of a branch, the statements of the body are read. -/
theorem Branch.reads (h : Branch hs make) : ∃ t us, hs = t :: us ∧ t.token ≠ .rbrace ∧
    ∀ inLoop l ts, outcome (stmt inLoop t (us ++ ⟨.lbrace, l⟩ :: ts)) = atBody inLoop make ts := by
  cases h with
  | ifThen l hc =>
    refine ⟨_, _, rfl, nofun, fun inLoop l' ts => ?_⟩
    rw [atBody, ← block_lbrace inLoop l', stmt_if_outcome, hc.reads]
    rfl
  | elseIf l l₁ hc =>
    refine ⟨_, _, rfl, nofun, fun inLoop l' ts => ?_⟩
    rw [atBody, ← block_lbrace inLoop l', List.cons_append, stmt_else_outcome, List.tail_cons,
      hc.reads]
    rfl
  | elseThen l =>
    refine ⟨_, _, rfl, nofun, fun inLoop l' ts => ?_⟩
    rw [atBody, ← block_lbrace inLoop l', List.nil_append, stmt_else_outcome, if_neg nofun]
    rfl

/-- After what stands before the body of a loop, the statements of the body are read in a loop. -/
theorem Loop.reads (h : Loop hs make) : ∃ t us, hs = t :: us ∧ t.token ≠ .rbrace ∧
    ∀ inLoop l ts, outcome (stmt inLoop t (us ++ ⟨.lbrace, l⟩ :: ts)) = atBody true make ts := by
  cases h with
  | whileLoop l hc =>
    refine ⟨_, _, rfl, nofun, fun inLoop l' ts => ?_⟩
    rw [atBody, ← block_lbrace true l', stmt_while_outcome, hc.reads]
    rfl
  | forLoop l hr =>
    refine ⟨_, _, rfl, nofun, fun inLoop l' ts => ?_⟩
    rw [atBody, ← block_lbrace true l', stmt_for_outcome, hr.reads]
    rfl

/-- Puts statements in front of those that a reading makes. -/
def prepend (ss : List Stmt) (r : Except Refusal (List Stmt × List Lexeme)) :
    Except Refusal (List Stmt × List Lexeme) :=
  r.map fun more => (ss ++ more.1, more.2)

theorem prepend_nil (r : Except Refusal (List Stmt × List Lexeme)) : prepend [] r = r := by
  rcases r with r | more <;> rfl

/-- A statement is read, and then those that follow it. -/
theorem statements_reads {t : Lexeme} (ht : t.token ≠ .rbrace)
    (hs : outcome (stmt inLoop t ts) = .ok (s, us))
    (hss : outcome (statements inLoop us) = prepend ss (outcome (statements inLoop rest))) :
    outcome (statements inLoop (t :: ts)) =
      prepend (s :: ss) (outcome (statements inLoop rest)) := by
  rw [statements_some ht, hs]
  show (outcome (statements inLoop us) >>= fun more => Except.ok (s :: more.1, more.2)) = _
  rw [hss]
  rcases outcome (statements inLoop rest) with r | more <;> rfl

/-- The body of a statement is read up to the closing brace. -/
theorem atBody_reads {body : List Stmt} (l : Nat)
    (h : outcome (statements inLoop (ts ++ ⟨.rbrace, l⟩ :: rest)) =
      prepend body (outcome (statements inLoop (⟨.rbrace, l⟩ :: rest)))) :
    atBody inLoop make (ts ++ ⟨.rbrace, l⟩ :: rest) = .ok (make body, rest) := by
  rw [atBody, h, statements_nil]
  show Except.ok (make (body ++ []), rest) = _
  rw [List.append_nil]

/-- Statements in a row are read, whatever follows them. -/
theorem Body.reads (h : Body inLoop ls ss) (rest : List Lexeme) :
    outcome (statements inLoop (ls ++ rest)) =
      prepend ss (outcome (statements inLoop rest)) := by
  induction h generalizing rest with
  | nil => exact (prepend_nil _).symm
  | simple hs _ ih =>
    obtain ⟨t, us, rfl, ht, hread⟩ := hs.reads
    rw [List.append_assoc]
    exact statements_reads ht (hread _ _) (ih rest)
  | jump l l' hj _ ih =>
    cases hj with
    | «break» => exact statements_reads nofun stmt_break (ih rest)
    | «continue» => exact statements_reads nofun stmt_continue (ih rest)
  | branch l l' hh _ _ ihb ih =>
    obtain ⟨t, us, rfl, ht, hread⟩ := hh.reads
    rw [List.append_assoc]
    refine statements_reads ht ((hread _ l _).trans ?_) (ih rest)
    rw [List.append_eq, List.append_assoc]
    exact atBody_reads l' (ihb _)
  | loop l l' hh _ _ ihb ih =>
    obtain ⟨t, us, rfl, ht, hread⟩ := hh.reads
    rw [List.append_assoc]
    refine statements_reads ht ((hread _ l _).trans ?_) (ih rest)
    rw [List.append_eq, List.append_assoc]
    exact atBody_reads l' (ihb _)

/-- After what stands before the body of a function, the statements of the body are read. -/
theorem Heading.reads {make : List Stmt → Func} (h : Heading hs make) : ∃ t us, hs = t :: us ∧
    ∀ l ts, outcome (func t (us ++ ⟨.lbrace, l⟩ :: ts)) =
      outcome (statements false ts) >>= fun body => .ok (make body.1, body.2) := by
  cases h with
  | @named ps params name l l₁ l₂ l₃ hps =>
    refine ⟨_, _, rfl, fun l₄ ts => ?_⟩
    have hparams : outcome (Reading.params (ps ++ [⟨.rparen, l₃⟩] ++ ⟨.lbrace, l₄⟩ :: ts)) =
        .ok (params, ⟨.lbrace, l₄⟩ :: ts) := by
      rw [List.append_assoc]
      exact params_reads l₃ params ps hps
    rw [← block_lbrace false l₄, func_outcome, expect_self]
    show (outcome (Reading.params (ps ++ [⟨.rparen, l₃⟩] ++ ⟨.lbrace, l₄⟩ :: ts)) >>= _) = _
    rw [hparams]
    rfl

/-- Functions in a row are read, and then those that follow them. -/
theorem Functions.reads {fs : List Func} (h : Functions ls fs) (rest : List Lexeme) :
    funcs (ls ++ rest) = (funcs rest).map (fs ++ ·) := by
  induction h with
  | nil =>
    show funcs rest = _
    rcases funcs rest with r | more <;> rfl
  | @cons hs bs us body fs make l l' hh hb _ ih =>
    obtain ⟨t, hs, rfl, hread⟩ := hh.reads
    have hfunc : outcome (func t (hs ++ ⟨.lbrace, l⟩ :: (bs ++ ⟨.rbrace, l'⟩ :: (us ++ rest)))) =
        .ok (make body, us ++ rest) := by
      rw [hread, hb.reads, statements_nil]
      show Except.ok (make (body ++ []), us ++ rest) = _
      rw [List.append_nil]
    have hsplit : t :: hs ++ ⟨.lbrace, l⟩ :: (bs ++ ⟨.rbrace, l'⟩ :: us) ++ rest =
        t :: (hs ++ ⟨.lbrace, l⟩ :: (bs ++ ⟨.rbrace, l'⟩ :: (us ++ rest))) := by simp
    rw [hsplit, funcs_outcome, hfunc]
    show (funcs (us ++ rest) >>= fun more => Except.ok (make body :: more)) = _
    rw [ih]
    rcases funcs rest with r | more <;> rfl

end Grammar

end PoolScript
