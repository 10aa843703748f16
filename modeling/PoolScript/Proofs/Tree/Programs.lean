import PoolScript.Proofs.Tree.Statements

/-!
# Programs and their grammar

What is read as a statement, as statements in a row or as functions is derived by the grammar of
`PoolScript.Proofs.Tree.Statements`. Each reading is taken apart by its equation, along the
recursion of the readings; of a statement it is shown that it can stand before others
(`Grammar.Begins`).

* `Program.ofTokens_functions`: a program is read from a list of tokens if and only if the grammar
  derives the list with it.
-/

namespace PoolScript

namespace Grammar

open Reading
open Parsed (outcome)

variable {inLoop : Bool} {l l' : Nat} {t : Token} {e : Expr} {s : Stmt} {ss : List Stmt}
  {ls ts us hs rest : List Lexeme} {make : List Stmt → Stmt}

/-! ### Expressions in statements -/

theorem name_eq_ok {what : Expected} {x : String}
    (h : outcome (name what ts) = .ok (x, rest)) : ∃ l, ts = ⟨.ident x, l⟩ :: rest := by
  unfold name at h
  split at h
  · obtain ⟨rfl, rfl⟩ := Prod.mk.inj (Except.ok.inj h)
    exact ⟨_, rfl⟩
  · cases h

theorem exprStmt_derives (h : outcome (exprStmt ts) = .ok (e, rest)) :
    ∃ us l, ts = us ++ ⟨.semi, l⟩ :: rest ∧ Derives (.binary 0) (us.map (·.token)) e := by
  rw [exprStmt_outcome] at h
  obtain ⟨⟨a, vs⟩, ha, h⟩ := bind_eq_ok h
  obtain ⟨⟨_, ws⟩, hclose, h⟩ := bind_eq_ok h
  obtain ⟨rfl, rfl⟩ := Prod.mk.inj (Except.ok.inj h)
  obtain ⟨l, rfl⟩ := expect_eq_ok hclose
  obtain ⟨-, us, hus, hd⟩ := climb_derives rfl (Nat.zero_le _) ha
  exact ⟨us, l, hus, hd⟩

theorem condition_derives (h : outcome (condition ts) = .ok (e, rest)) :
    ∃ cs, ts = cs ++ rest ∧ Condition cs e := by
  rw [condition_outcome] at h
  obtain ⟨⟨_, us⟩, hopen, h⟩ := bind_eq_ok h
  obtain ⟨⟨a, vs⟩, ha, h⟩ := bind_eq_ok h
  obtain ⟨⟨_, ws⟩, hclose, h⟩ := bind_eq_ok h
  obtain ⟨rfl, rfl⟩ := Prod.mk.inj (Except.ok.inj h)
  obtain ⟨l, rfl⟩ := expect_eq_ok hopen
  obtain ⟨l', rfl⟩ := expect_eq_ok hclose
  obtain ⟨-, us, rfl, hd⟩ := climb_derives rfl (Nat.zero_le _) ha
  exact ⟨_, by simp, .parens l l' hd⟩

theorem header_derives {range : Header} (h : outcome (header ts) = .ok (range, rest)) :
    ∃ rs, ts = rs ++ rest ∧ Range rs range := by
  rw [header_outcome] at h
  obtain ⟨⟨_, us⟩, hopen, hfirst⟩ := bind_eq_ok h
  obtain ⟨⟨x, vs⟩, hname, hmore⟩ := bind_eq_ok hfirst
  obtain ⟨l, rfl⟩ := expect_eq_ok hopen
  obtain ⟨l₁, rfl⟩ := name_eq_ok hname
  split at hmore
  · next hcomma =>
    obtain ⟨l₂, hvs⟩ : ∃ l₂, vs = ⟨.comma, l₂⟩ :: vs.tail := eq_cons_of_peek hcomma
    obtain ⟨⟨y, ws⟩, hvalue, h⟩ := bind_eq_ok hmore
    obtain ⟨⟨_, xs⟩, hin, h⟩ := bind_eq_ok h
    obtain ⟨⟨a, ys⟩, ha, h⟩ := bind_eq_ok h
    obtain ⟨⟨_, zs⟩, hclose, h⟩ := bind_eq_ok h
    obtain ⟨rfl, rfl⟩ := Prod.mk.inj (Except.ok.inj h)
    obtain ⟨l₃, htail⟩ : ∃ l₃, vs.tail = ⟨.ident y, l₃⟩ :: ws := name_eq_ok hvalue
    obtain ⟨l₄, rfl⟩ := expect_eq_ok hin
    obtain ⟨l₅, rfl⟩ := expect_eq_ok hclose
    obtain ⟨-, as, rfl, hd⟩ := climb_derives rfl (Nat.zero_le _) ha
    refine ⟨_, ?_, .each x y l l₁ l₂ l₃ l₄ l₅ hd⟩
    rw [hvs, htail]
    simp
  · obtain ⟨⟨_, ws⟩, hin, h⟩ := bind_eq_ok hmore
    obtain ⟨⟨a, xs⟩, ha, h⟩ := bind_eq_ok h
    obtain ⟨⟨_, ys⟩, hdots, h⟩ := bind_eq_ok h
    obtain ⟨⟨b, zs⟩, hb, h⟩ := bind_eq_ok h
    obtain ⟨⟨_, vs⟩, hclose, h⟩ := bind_eq_ok h
    obtain ⟨rfl, rfl⟩ := Prod.mk.inj (Except.ok.inj h)
    obtain ⟨l₂, rfl⟩ := expect_eq_ok hin
    obtain ⟨l₃, rfl⟩ := expect_eq_ok hdots
    obtain ⟨l₄, rfl⟩ := expect_eq_ok hclose
    obtain ⟨-, bs, rfl, hdb⟩ := climb_derives rfl (Nat.zero_le _) hb
    obtain ⟨-, as, rfl, hda⟩ := climb_derives rfl (Nat.zero_le _) ha
    exact ⟨_, by simp, .range x l l₁ l₂ l₃ l₄ hda hdb⟩

theorem result_derives {value : Option Expr} (h : outcome (result ts) = .ok (value, rest))
    (l : Nat) : ∃ us, ts = us ++ rest ∧ Simple (⟨.returnKw, l⟩ :: us) (.ret l value) := by
  rw [result_outcome] at h
  split at h
  · next hsemi =>
    obtain ⟨l₁, hts⟩ := eq_cons_of_peek hsemi
    obtain ⟨rfl, rfl⟩ := Prod.mk.inj (Except.ok.inj h)
    exact ⟨[⟨.semi, l₁⟩], hts, .ret l l₁⟩
  · obtain ⟨⟨e, us⟩, he, h⟩ := bind_eq_ok h
    obtain ⟨rfl, rfl⟩ := Prod.mk.inj (Except.ok.inj h)
    obtain ⟨vs, l₁, rfl, hd⟩ := exprStmt_derives he
    exact ⟨_, by simp, .retValue l l₁ hd⟩

/-- An expression and a semicolon. -/
theorem expr_derives {t : Lexeme} (h : outcome (exprStmt (t :: ts)) = .ok (e, rest)) :
    ∃ us, t :: ts = us ++ rest ∧ Simple us (.expr t.line e) := by
  obtain ⟨us, l, hts, hd⟩ := exprStmt_derives h
  rcases us with _ | ⟨u, us⟩
  · obtain ⟨_, _, hnil, -⟩ := hd.starts
    cases hnil
  · obtain ⟨rfl, rfl⟩ := List.cons.inj hts
    exact ⟨_, by simp, .expr l hd⟩

theorem nameStmt_derives {x : String} (h : outcome (nameStmt x l ts) = .ok (s, rest)) :
    ∃ us, ⟨.ident x, l⟩ :: ts = us ++ rest ∧ Simple us s := by
  have plain (h : targetOutcome x ts = .ok none)
      (hread : outcome (nameStmt x l ts) = .ok (s, rest)) :
      ∃ us, ⟨.ident x, l⟩ :: ts = us ++ rest ∧ Simple us s := by
    rw [nameStmt_outcome, h] at hread
    obtain ⟨target, htarget, hread⟩ := bind_eq_ok hread
    obtain rfl := Except.ok.inj htarget
    obtain ⟨⟨e, us⟩, he, hread⟩ := bind_eq_ok hread
    obtain ⟨rfl, rfl⟩ := Prod.mk.inj (Except.ok.inj hread)
    exact expr_derives he
  by_cases hassign : peek ts = some .assign
  · obtain ⟨l₁, hts⟩ := eq_cons_of_peek hassign
    generalize ts.tail = us at hts
    subst hts
    rw [nameStmt_outcome, targetOutcome_assign] at h
    obtain ⟨target, htarget, hvalue⟩ := bind_eq_ok h
    obtain rfl := Except.ok.inj htarget
    obtain ⟨⟨e, vs⟩, he, hok⟩ := bind_eq_ok hvalue
    obtain ⟨rfl, rfl⟩ := Prod.mk.inj (Except.ok.inj hok)
    obtain ⟨ws, l₂, rfl, hd⟩ := exprStmt_derives he
    exact ⟨_, by simp, .assign x l l₁ l₂ hd⟩
  by_cases hbracket : peek ts = some .lbracket
  · obtain ⟨l₁, hts⟩ := eq_cons_of_peek hbracket
    generalize ts.tail = us at hts
    subst hts
    have hread := h
    rw [nameStmt_outcome, targetOutcome_element] at hread
    obtain ⟨target, htarget, hvalue⟩ := bind_eq_ok hread
    obtain ⟨⟨k, vs⟩, hk, hrest⟩ := bind_eq_ok htarget
    obtain ⟨⟨_, ws⟩, hclose, hequals⟩ := bind_eq_ok hrest
    obtain ⟨l₂, rfl⟩ := expect_eq_ok hclose
    split at hequals
    · next hassign' =>
      obtain rfl := Except.ok.inj hequals
      obtain ⟨l₃, hws⟩ : ∃ l₃, ws = ⟨.assign, l₃⟩ :: ws.tail := eq_cons_of_peek hassign'
      obtain ⟨⟨e, xs⟩, he, hok⟩ := bind_eq_ok hvalue
      obtain ⟨rfl, rfl⟩ := Prod.mk.inj (Except.ok.inj hok)
      obtain ⟨ys, l₄, hys, hde⟩ : ∃ ys l₄, ws.tail = ys ++ ⟨.semi, l₄⟩ :: xs ∧ _ :=
        exprStmt_derives he
      obtain ⟨-, ks, hks, hdk⟩ := climb_derives rfl (Nat.zero_le _) hk
      refine ⟨_, ?_, .assignElement x l l₁ l₂ l₃ l₄ hdk hde⟩
      rw [hks, hws, hys]
      simp
    · next hnot =>
      obtain rfl := Except.ok.inj hequals
      refine plain ?_ h
      rw [targetOutcome_element, hk]
      simp only [bind, Except.bind]
      rw [expect_self]
      exact if_neg hnot
  · exact plain (targetOutcome_none hassign hbracket) h

/-! ### Statements -/

/-- The tokens `ls` write a statement that can stand before others. -/
def Begins (inLoop : Bool) (ls : List Lexeme) (s : Stmt) : Prop :=
  ∀ us ss, Body inLoop us ss → Body inLoop (ls ++ us) (s :: ss)

theorem Simple.begins (h : Simple ls s) : Begins inLoop ls s :=
  fun _ _ hss => .simple h hss

theorem Branch.begins {body : List Stmt} {bs : List Lexeme} (l l' : Nat) (h : Branch hs make)
    (hb : Body inLoop bs body) :
    Begins inLoop (hs ++ ⟨.lbrace, l⟩ :: (bs ++ [⟨.rbrace, l'⟩])) (make body) := by
  intro us ss hss
  have hbody := Body.branch l l' h hb hss
  simpa using hbody

theorem Loop.begins {body : List Stmt} {bs : List Lexeme} (l l' : Nat) (h : Loop hs make)
    (hb : Body true bs body) :
    Begins inLoop (hs ++ ⟨.lbrace, l⟩ :: (bs ++ [⟨.rbrace, l'⟩])) (make body) := by
  intro us ss hss
  have hbody := Body.loop l l' h hb hss
  simpa using hbody

/-- A jump is read only in a loop. -/
theorem jump_derives {make : Nat → Stmt} (hj : Jump t make)
    (h : outcome (jump inLoop t l (make l) ts) = .ok (s, rest)) :
    ∃ ls, ⟨t, l⟩ :: ts = ls ++ rest ∧ Begins inLoop ls s := by
  rw [jump_outcome] at h
  split at h
  · next hloop =>
    subst hloop
    obtain ⟨⟨_, us⟩, hclose, hok⟩ := bind_eq_ok h
    obtain ⟨rfl, rfl⟩ := Prod.mk.inj (Except.ok.inj hok)
    obtain ⟨l', rfl⟩ := expect_eq_ok hclose
    exact ⟨[⟨t, l⟩, ⟨.semi, l'⟩], rfl, fun _ _ hss => .jump l l' hj hss⟩
  · cases h

/-- What is read as a body in braces, when it is known what its statements derive. -/
theorem body_derives {body : List Stmt} (h : outcome (block inLoop ts) = .ok (body, rest))
    (ih : ∀ us, us.length < ts.length → outcome (statements inLoop us) = .ok (body, rest) →
      ∃ ls l, us = ls ++ ⟨.rbrace, l⟩ :: rest ∧ Body inLoop ls body) :
    ∃ l bs l', ts = ⟨.lbrace, l⟩ :: (bs ++ ⟨.rbrace, l'⟩ :: rest) ∧ Body inLoop bs body := by
  rw [block_outcome] at h
  obtain ⟨⟨_, us⟩, hopen, hbody⟩ := bind_eq_ok h
  obtain ⟨l, rfl⟩ := expect_eq_ok hopen
  obtain ⟨bs, l', rfl, hbs⟩ := ih us (Nat.lt_succ_self _) hbody
  exact ⟨l, bs, l', rfl, hbs⟩

/-- What is read as a statement whose body comes after something else, when it is known what each
    of the two derives. -/
theorem headed_derives {α : Type} {heading : Except Refusal (α × List Lexeme)}
    {P : List Lexeme → α → Prop} (make : α → List Stmt → Stmt)
    (hheading : ∀ {a us}, heading = .ok (a, us) → ∃ hs, ts = hs ++ us ∧ P hs a)
    (h : (do
      let a ← heading
      let body ← outcome (block inLoop a.2)
      return (make a.1 body.1, body.2)) = .ok (s, rest))
    (ih : ∀ us body, us.length < ts.length → outcome (statements inLoop us) = .ok (body, rest) →
      ∃ ls l, us = ls ++ ⟨.rbrace, l⟩ :: rest ∧ Body inLoop ls body) :
    ∃ hs a l bs l' body, ts = hs ++ ⟨.lbrace, l⟩ :: (bs ++ ⟨.rbrace, l'⟩ :: rest) ∧ P hs a ∧
      Body inLoop bs body ∧ s = make a body := by
  obtain ⟨⟨a, us⟩, ha, hrest⟩ := bind_eq_ok h
  obtain ⟨⟨body, vs⟩, hb, hok⟩ := bind_eq_ok hrest
  obtain ⟨rfl, rfl⟩ := Prod.mk.inj (Except.ok.inj hok)
  obtain ⟨hs, rfl, hhs⟩ := hheading ha
  obtain ⟨l, bs, l', rfl, hbs⟩ := body_derives hb fun ws hws => ih ws body
    (hws.trans_le (by simp))
  exact ⟨hs, a, l, bs, l', body, rfl, hhs, hbs, rfl⟩

mutual

/-- What is read as a statement is derived as one. The induction is on the number of tokens: a body
    has fewer than its statement. -/
theorem stmt_derives {n : Nat} {t : Lexeme} {ts rest : List Lexeme} {inLoop : Bool} {s : Stmt}
    (hn : ts.length = n) (h : outcome (stmt inLoop t ts) = .ok (s, rest)) :
    ∃ ls, t :: ts = ls ++ rest ∧ Begins inLoop ls s := by
  obtain ⟨t, l⟩ := t
  -- What has no body is derived by itself and can stand before anything.
  have simple {t : Lexeme} {us : List Lexeme}
      (h : ∃ ls, t :: us = ls ++ rest ∧ Simple ls s) :
      ∃ ls, t :: us = ls ++ rest ∧ Begins inLoop ls s := by
    obtain ⟨ls, hls, hs⟩ := h
    exact ⟨ls, hls, hs.begins⟩
  cases t with
  | semi =>
    rw [stmt_empty] at h
    obtain ⟨rfl, rfl⟩ := Prod.mk.inj (Except.ok.inj h)
    exact ⟨[⟨.semi, l⟩], rfl, (Simple.empty l).begins⟩
  | ifKw =>
    rw [stmt_if_outcome] at h
    obtain ⟨cs, e, l₁, bs, l₂, body, rfl, hcs, hbs, rfl⟩ :=
      headed_derives (.ifThen l) condition_derives h fun _ _ hus => statements_derives rfl
    exact ⟨_, by simp, (Branch.ifThen l hcs).begins l₁ l₂ hbs⟩
  | elseKw =>
    rw [stmt_else_outcome] at h
    split at h
    · next hif =>
      obtain ⟨l', hts⟩ := eq_cons_of_peek hif
      generalize ts.tail = us at hts h
      subst hts
      obtain ⟨cs, e, l₁, bs, l₂, body, rfl, hcs, hbs, rfl⟩ :=
        headed_derives (.elseIf l) condition_derives h fun _ _ hus => statements_derives rfl
      exact ⟨_, by simp, (Branch.elseIf l l' hcs).begins l₁ l₂ hbs⟩
    · obtain ⟨⟨body, vs⟩, hb, hok⟩ := bind_eq_ok h
      obtain ⟨rfl, rfl⟩ := Prod.mk.inj (Except.ok.inj hok)
      obtain ⟨l₁, bs, l₂, rfl, hbs⟩ := body_derives hb fun _ hus => statements_derives rfl
      exact ⟨_, by simp, (Branch.elseThen l).begins l₁ l₂ hbs⟩
  | whileKw =>
    rw [stmt_while_outcome] at h
    obtain ⟨cs, e, l₁, bs, l₂, body, rfl, hcs, hbs, rfl⟩ :=
      headed_derives (.whileLoop l) condition_derives h fun _ _ hus => statements_derives rfl
    exact ⟨_, by simp, (Loop.whileLoop l hcs).begins l₁ l₂ hbs⟩
  | forKw =>
    rw [stmt_for_outcome] at h
    obtain ⟨rs, range, l₁, bs, l₂, body, rfl, hrs, hbs, rfl⟩ :=
      headed_derives (Reading.loop l) header_derives h fun _ _ hus => statements_derives rfl
    exact ⟨_, by simp, (Loop.forLoop l hrs).begins l₁ l₂ hbs⟩
  | returnKw =>
    rw [stmt_return_outcome] at h
    obtain ⟨⟨value, us⟩, hv, hok⟩ := bind_eq_ok h
    obtain ⟨rfl, rfl⟩ := Prod.mk.inj (Except.ok.inj hok)
    obtain ⟨us, rfl, hus⟩ := result_derives hv l
    exact ⟨_, rfl, hus.begins⟩
  | breakKw =>
    rw [stmt_break_outcome] at h
    exact jump_derives .break h
  | continueKw =>
    rw [stmt_continue_outcome] at h
    exact jump_derives .continue h
  | ident x =>
    rw [stmt_name] at h
    exact simple (nameStmt_derives h)
  | _ =>
    rw [stmt_expr_outcome rfl] at h
    obtain ⟨⟨e, us⟩, he, hok⟩ := bind_eq_ok h
    obtain ⟨rfl, rfl⟩ := Prod.mk.inj (Except.ok.inj hok)
    exact simple (expr_derives he)
termination_by 2 * n + 1
decreasing_by all_goals simp only [List.length_cons] at *; omega

theorem statements_derives {n : Nat} {ts rest : List Lexeme} {inLoop : Bool} {ss : List Stmt}
    (hn : ts.length = n) (h : outcome (statements inLoop ts) = .ok (ss, rest)) :
    ∃ ls l, ts = ls ++ ⟨.rbrace, l⟩ :: rest ∧ Body inLoop ls ss := by
  rcases ts with _ | ⟨t, ts⟩
  · rw [statements_none] at h
    cases h
  by_cases hclose : t.token = .rbrace
  · obtain ⟨_, l⟩ := t
    obtain rfl : _ = Token.rbrace := hclose
    rw [statements_nil] at h
    obtain ⟨rfl, rfl⟩ := Prod.mk.inj (Except.ok.inj h)
    exact ⟨[], l, rfl, .nil⟩
  · rw [statements_some hclose] at h
    obtain ⟨⟨s, us⟩, hs, hrest⟩ := bind_eq_ok h
    obtain ⟨⟨more, vs⟩, hmore, hok⟩ := bind_eq_ok hrest
    obtain ⟨rfl, rfl⟩ := Prod.mk.inj (Except.ok.inj hok)
    have hshorter := Parsed.length_lt_of_outcome hs
    obtain ⟨ls, hls, hbegins⟩ := stmt_derives rfl hs
    obtain ⟨ms, l, rfl, hms⟩ := statements_derives rfl hmore
    exact ⟨ls ++ ms, l, by rw [hls, List.append_assoc], hbegins ms more hms⟩
termination_by 2 * n
decreasing_by all_goals simp only [List.length_cons] at *; omega

end

/-! ### Functions -/

theorem moreParams_derives {n : Nat} {ts rest : List Lexeme} {names : List String}
    (hn : ts.length = n) (h : outcome (moreParams ts) = .ok (names, rest)) :
    names ≠ [] ∧ ∃ ps l, ts = ps ++ ⟨.rparen, l⟩ :: rest ∧
      ps.map (·.token) = [Token.comma].intercalate (names.map fun x => [.ident x]) := by
  rw [moreParams_outcome] at h
  obtain ⟨⟨x, us⟩, hname, hrest⟩ := bind_eq_ok h
  obtain ⟨l, rfl⟩ := name_eq_ok hname
  split at hrest
  · next hcomma =>
    obtain ⟨l₁, hus⟩ : ∃ l₁, us = ⟨.comma, l₁⟩ :: us.tail := eq_cons_of_peek hcomma
    obtain ⟨⟨more, vs⟩, hmore, hok⟩ := bind_eq_ok hrest
    obtain ⟨rfl, rfl⟩ := Prod.mk.inj (Except.ok.inj hok)
    have htail : us.tail.length < us.length := by
      rw [hus]
      exact Nat.lt_succ_self _
    obtain ⟨hmore, ps, l₂, hps, hmap⟩ := moreParams_derives (n := us.tail.length) rfl hmore
    refine ⟨List.cons_ne_nil _ _, ⟨.ident x, l⟩ :: ⟨.comma, l₁⟩ :: ps, l₂, ?_, ?_⟩
    · rw [hus, hps]
      rfl
    · rw [List.map_cons, List.map_cons, hmap, List.map_cons,
        List.intercalate_cons_of_ne_nil (by simpa using hmore)]
      rfl
  · obtain ⟨⟨_, vs⟩, hclose, hok⟩ := bind_eq_ok hrest
    obtain ⟨rfl, rfl⟩ := Prod.mk.inj (Except.ok.inj hok)
    obtain ⟨l₂, rfl⟩ := expect_eq_ok hclose
    exact ⟨List.cons_ne_nil _ _, [⟨.ident x, l⟩], l₂, rfl, rfl⟩
termination_by n
decreasing_by all_goals simp only [List.length_cons] at *; omega

theorem params_derives {names : List String} (h : outcome (params ts) = .ok (names, rest)) :
    ∃ ps l, ts = ps ++ ⟨.rparen, l⟩ :: rest ∧
      ps.map (·.token) = [Token.comma].intercalate (names.map fun x => [.ident x]) := by
  by_cases hclose : peek ts = some .rparen
  · obtain ⟨l, hts⟩ := eq_cons_of_peek hclose
    generalize ts.tail = us at hts
    subst hts
    rw [params_none] at h
    obtain ⟨rfl, rfl⟩ := Prod.mk.inj (Except.ok.inj h)
    exact ⟨[], l, rfl, rfl⟩
  · rw [params_some hclose] at h
    exact (moreParams_derives rfl h).2

/-- What is read as a function is derived as one. -/
theorem func_derives {t : Lexeme} {f : Func} (h : outcome (func t ts) = .ok (f, rest)) :
    ∃ hs l bs l', t :: ts = hs ++ ⟨.lbrace, l⟩ :: (bs ++ ⟨.rbrace, l'⟩ :: rest) ∧
      ∃ make body, Heading hs make ∧ Body false bs body ∧ f = make body := by
  rw [func_outcome] at h
  obtain ⟨⟨_, us⟩, hword, h₁⟩ := bind_eq_ok h
  obtain ⟨⟨x, vs⟩, hname, h₂⟩ := bind_eq_ok h₁
  obtain ⟨⟨_, ws⟩, hopen, h₃⟩ := bind_eq_ok h₂
  obtain ⟨⟨names, xs⟩, hparams, h₄⟩ := bind_eq_ok h₃
  obtain ⟨⟨body, ys⟩, hbody, hok⟩ := bind_eq_ok h₄
  obtain ⟨rfl, rfl⟩ := Prod.mk.inj (Except.ok.inj hok)
  obtain ⟨l, hts⟩ := expect_eq_ok hword
  obtain ⟨l₁, rfl⟩ := name_eq_ok hname
  obtain ⟨l₂, rfl⟩ := expect_eq_ok hopen
  obtain ⟨ps, l₃, rfl, hps⟩ := params_derives hparams
  obtain ⟨l₄, bs, l₅, rfl, hbs⟩ := body_derives hbody fun _ _ => statements_derives rfl
  obtain ⟨rfl, rfl⟩ := List.cons.inj hts
  exact ⟨_, l₄, bs, l₅, by simp, _, body, .named x l l₁ l₂ l₃ hps, hbs, rfl⟩

theorem funcs_derives {n : Nat} {ts : List Lexeme} {fs : List Func} (hn : ts.length = n)
    (h : funcs ts = .ok fs) : Functions ts fs := by
  rcases ts with _ | ⟨t, ts⟩
  · rw [funcs_nil] at h
    obtain rfl := Except.ok.inj h
    exact .nil
  · rw [funcs_outcome] at h
    obtain ⟨⟨f, us⟩, hf, hrest⟩ := bind_eq_ok h
    obtain ⟨more, hmore, hok⟩ := bind_eq_ok hrest
    obtain rfl := Except.ok.inj hok
    have hshorter := Parsed.length_lt_of_outcome hf
    obtain ⟨hs, l, bs, l', hts, make, body, hh, hb, rfl⟩ := func_derives hf
    rw [hts]
    exact .cons l l' hh hb (funcs_derives rfl hmore)
termination_by n
decreasing_by all_goals simp only [List.length_cons] at *; omega

end Grammar

open Grammar

/-- A program is read from a list of tokens if and only if the grammar derives the list with it. -/
theorem Program.ofTokens_functions (ls : List Lexeme) (p : Program) :
    Program.ofTokens ls = .ok p ↔ Functions ls p.funcs := by
  have hiff : Program.ofTokens ls = .ok p ↔ Reading.funcs ls = .ok p.funcs := by
    rw [ofTokens]
    rcases Reading.funcs ls with r | fs
    · exact iff_of_false (by rintro ⟨⟩) (by rintro ⟨⟩)
    · constructor
      · intro h
        obtain rfl := Except.ok.inj h
        rfl
      · intro h
        obtain rfl := Except.ok.inj h
        rfl
  rw [hiff]
  constructor
  · exact funcs_derives rfl
  · intro h
    have hread := h.reads []
    rw [List.append_nil, Reading.funcs_nil] at hread
    rw [hread]
    exact congrArg Except.ok (List.append_nil _)

end PoolScript
