import PoolScript.Proofs.Tree.Layout
import PoolScript.Proofs.Tree.Programs

/-!
# Jumps stay in loops

A `break` or `continue` leaves a round of a loop, so it has to be in the body of one, and the
branches of a conditional make no difference to that. In a program that is read, no jump stands
outside of the loops of its function (`Program.keepsJumps_of_ofTokens`).

The places of a program for more statements that are in no loop are `Grammar.Place`. Any
statements without jumps can be put there (`Grammar.Place.fill`), and no other place has an empty
statement in no loop (`Grammar.place_iff`). But a jump is refused there (`Grammar.Place.refuses`),
with a message about that very token (`Grammar.Place.parse_refuses`).
-/

namespace PoolScript

namespace Stmt

/-- The statements of a branch. -/
def branchBody : Stmt → List Stmt
  | ifThen _ _ body | elseIf _ _ body | elseThen _ body => body
  | _ => []

/-- The statement leaves a round of a loop. -/
def isJump : Stmt → Bool
  | .break _ | .continue _ => true
  | _ => false

/-- The statement `s` stands in a list, or in a branch in it at any depth, but in the body of no
    loop there. -/
inductive Outside (s : Stmt) : List Stmt → Prop
  | here {ss : List Stmt} : s ∈ ss → Outside s ss
  | inBranch {ss : List Stmt} {t : Stmt} : t ∈ ss → Outside s t.branchBody → Outside s ss

variable {s t : Stmt} {ss : List Stmt}

theorem not_outside_nil : ¬s.Outside [] := by
  rintro (h | h) <;> exact absurd h List.not_mem_nil

/-- A statement is in no loop of a list if it is the first one, in a branch of it, or in no loop of
    the others. -/
theorem outside_cons :
    s.Outside (t :: ss) ↔ s = t ∨ s.Outside t.branchBody ∨ s.Outside ss := by
  constructor
  · rintro (h | ⟨h, hs⟩)
    · exact (List.mem_cons.1 h).imp id fun h => .inr (.here h)
    · rcases List.mem_cons.1 h with rfl | h
      · exact .inr (.inl hs)
      · exact .inr (.inr (.inBranch h hs))
  · rintro (rfl | hs | h | ⟨h, hs⟩)
    · exact .here List.mem_cons_self
    · exact .inBranch List.mem_cons_self hs
    · exact .here (List.mem_cons_of_mem _ h)
    · exact .inBranch (List.mem_cons_of_mem _ h) hs

end Stmt

/-- All jumps in a list of statements are in the bodies of loops there. -/
def KeepsJumps (ss : List Stmt) : Prop :=
  ∀ s : Stmt, s.Outside ss → s.isJump = false

/-- All jumps in a program are in the bodies of loops of their functions. -/
def Program.KeepsJumps (p : Program) : Prop :=
  ∀ f ∈ p.funcs, PoolScript.KeepsJumps f.body

namespace KeepsJumps

variable {s : Stmt} {ss : List Stmt}

theorem nil : KeepsJumps [] :=
  fun _ hs => absurd hs Stmt.not_outside_nil

/-- Jumps are kept in a list if they are in its first statement and in the others. -/
theorem cons (hs : s.isJump = false) (hbody : KeepsJumps s.branchBody) (hss : KeepsJumps ss) :
    KeepsJumps (s :: ss) := by
  intro t ht
  rcases Stmt.outside_cons.1 ht with rfl | ht | ht
  · exact hs
  · exact hbody t ht
  · exact hss t ht

theorem head (h : KeepsJumps (s :: ss)) : s.isJump = false :=
  h s (Stmt.outside_cons.2 (.inl rfl))

theorem body (h : KeepsJumps (s :: ss)) : KeepsJumps s.branchBody :=
  fun t ht => h t (Stmt.outside_cons.2 (.inr (.inl ht)))

theorem tail (h : KeepsJumps (s :: ss)) : KeepsJumps ss :=
  fun t ht => h t (Stmt.outside_cons.2 (.inr (.inr ht)))

end KeepsJumps

namespace Grammar

open Reading
open Parsed (outcome)

/-! ### Programs that are read -/

/-- A simple statement is no jump and has no branch. -/
theorem Simple.keepsJumps {ls : List Lexeme} {s : Stmt} {ss : List Stmt} (h : Simple ls s)
    (hss : KeepsJumps ss) : KeepsJumps (s :: ss) := by
  refine .cons ?_ ?_ hss
  · cases h <;> rfl
  · cases h <;> exact .nil

/-- The branches of a conditional are its body. -/
theorem Branch.branchBody {hs : List Lexeme} {make : List Stmt → Stmt} (h : Branch hs make)
    (body : List Stmt) : (make body).branchBody = body := by
  cases h <;> rfl

/-- A conditional keeps jumps as its body does. -/
theorem Branch.keepsJumps {hs : List Lexeme} {make : List Stmt → Stmt} {body ss : List Stmt}
    (h : Branch hs make) (hbody : KeepsJumps body) (hss : KeepsJumps ss) :
    KeepsJumps (make body :: ss) := by
  refine .cons ?_ ?_ hss
  · cases h <;> rfl
  · rw [h.branchBody]
    exact hbody

/-- The body of a loop is no branch, so nothing is asked of it. -/
theorem Loop.branchBody {hs : List Lexeme} {make : List Stmt → Stmt} (h : Loop hs make)
    (body : List Stmt) : (make body).branchBody = [] := by
  cases h with
  | whileLoop => rfl
  | @forLoop _ range => cases range <;> rfl

/-- The body of a loop makes no difference to what stands around it. -/
theorem Loop.keepsJumps {hs : List Lexeme} {make : List Stmt → Stmt} {body ss : List Stmt}
    (h : Loop hs make) (hss : KeepsJumps ss) : KeepsJumps (make body :: ss) := by
  refine .cons ?_ ?_ hss
  · cases h with
    | whileLoop => rfl
    | @forLoop _ range => cases range <;> rfl
  · rw [h.branchBody]
    exact .nil

/-- What is read outside of a loop keeps its jumps. By induction on the statements. -/
theorem Body.keepsJumps {inLoop : Bool} {ls : List Lexeme} {ss : List Stmt}
    (h : Body inLoop ls ss) (hloop : inLoop = false) : KeepsJumps ss := by
  induction h with
  | nil => exact .nil
  | simple hs _ ih => exact hs.keepsJumps (ih hloop)
  | jump =>
    -- A jump is derived in a loop only, and this is none.
    cases hloop
  | branch l l' hh _ _ ihb ih => exact hh.keepsJumps (ihb hloop) (ih hloop)
  | loop l l' hh _ _ _ ih => exact hh.keepsJumps (ih hloop)

theorem Heading.body {hs : List Lexeme} {make : List Stmt → Func} (h : Heading hs make)
    (body : List Stmt) : (make body).body = body := by
  cases h
  rfl

/-- Every function that is read keeps its jumps. -/
theorem Functions.keepsJumps {ls : List Lexeme} {fs : List Func} (h : Functions ls fs) :
    ∀ f ∈ fs, KeepsJumps f.body := by
  induction h with
  | nil => nofun
  | cons l l' hh hb _ ih =>
    refine List.forall_mem_cons.2 ⟨?_, ih⟩
    rw [hh.body]
    exact hb.keepsJumps rfl

end Grammar

/-- The jumps in a program that is read are in loops of their functions. -/
theorem Program.keepsJumps_of_ofTokens {ls : List Lexeme} {p : Program}
    (h : Program.ofTokens ls = .ok p) : p.KeepsJumps :=
  ((Program.ofTokens_functions ls p).1 h).keepsJumps

/-- A source text that makes a program has tokens that make it. -/
theorem Program.exists_tokens {source : String} {p : Program} (h : Program.parse source = .ok p) :
    ∃ ls, Program.ofTokens ls = .ok p := by
  rcases hscan : Token.scan source with e | tokens
  · rw [parse, readSource, hscan] at h
    cases h
  · rw [parse, readSource_of_scan hscan] at h
    split at h
    · next hread =>
      obtain rfl := Except.ok.inj h
      exact ⟨_, hread⟩
    · cases h

namespace Grammar

open Reading
open Parsed (outcome)

variable {pre post ts us : List Lexeme} {ss : List Stmt} {t : Token} {make : Nat → Stmt}

/-! ### Places for statements outside of loops -/

/-- The tokens of statements in a row, cut where one more can stand that is in no loop. -/
inductive BodyPlace : List Lexeme → List Lexeme → Prop
  | between {pre post : List Lexeme} {ss ss' : List Stmt} : Body false pre ss →
      Body false post ss' → BodyPlace pre post
  | inside {before hs pre post behind : List Lexeme} {ss ss' : List Stmt}
      {make : List Stmt → Stmt} (l l' : Nat) : Body false before ss → Branch hs make →
      BodyPlace pre post → Body false behind ss' →
      BodyPlace (before ++ (hs ++ ⟨.lbrace, l⟩ :: pre)) (post ++ ⟨.rbrace, l'⟩ :: behind)

/-- The tokens of a program, cut where one more statement can stand that is in no loop of its
    function. -/
inductive Place : List Lexeme → List Lexeme → Prop
  | body {before hs pre post behind : List Lexeme} {fs fs' : List Func} {make : List Stmt → Func}
      (l l' : Nat) : Functions before fs → Heading hs make → BodyPlace pre post →
      Functions behind fs' →
      Place (before ++ (hs ++ ⟨.lbrace, l⟩ :: pre)) (post ++ ⟨.rbrace, l'⟩ :: behind)

/-- Statements may be put behind statements. -/
theorem Body.append {inLoop : Bool} {ls us : List Lexeme} {ss ss' : List Stmt}
    (h : Body inLoop ls ss) (h' : Body inLoop us ss') : Body inLoop (ls ++ us) (ss ++ ss') := by
  induction h with
  | nil => exact h'
  | simple hs _ ih =>
    rw [List.append_assoc]
    exact .simple hs (ih h')
  | jump l l' hj _ ih => exact .jump l l' hj (ih h')
  | branch l l' hh hb _ _ ih =>
    have hbody := Body.branch l l' hh hb (ih h')
    simpa using hbody
  | loop l l' hh hb _ _ ih =>
    have hbody := Body.loop l l' hh hb (ih h')
    simpa using hbody

/-- Functions may be put behind functions. -/
theorem Functions.append {ls us : List Lexeme} {fs fs' : List Func} (h : Functions ls fs)
    (h' : Functions us fs') : Functions (ls ++ us) (fs ++ fs') := by
  induction h with
  | nil => exact h'
  | cons l l' hh hb _ ih =>
    have hfuncs := Functions.cons l l' hh hb ih
    simpa using hfuncs

/-- Statements that can stand in no loop can stand at such a place. -/
theorem BodyPlace.fill (h : BodyPlace pre post) (hus : Body false us ss) :
    ∃ ss', Body false (pre ++ (us ++ post)) ss' ∧ ∀ s ∈ ss, s.Outside ss' := by
  induction h with
  | between hpre hpost =>
    exact ⟨_, hpre.append (hus.append hpost), fun s hs => .here (by simp [hs])⟩
  | @inside _ _ _ _ _ _ _ make l l' hbefore hh _ hbehind ih =>
    obtain ⟨body, hbody, hmem⟩ := ih
    have hwhole := hbefore.append (.branch l l' hh hbody hbehind)
    refine ⟨_, by simpa using hwhole, fun s hs => .inBranch (t := make body) (by simp) ?_⟩
    rw [hh.branchBody]
    exact hmem s hs

/-- Statements put in a place are read, and are in no loop of the function there. -/
theorem Place.fill (h : Place pre post) (hus : Body false us ss) :
    ∃ fs, Functions (pre ++ (us ++ post)) fs ∧ ∀ s ∈ ss, ∃ f ∈ fs, s.Outside f.body := by
  obtain ⟨l, l', hbefore, hh, hplace, hbehind⟩ := h
  obtain ⟨body, hbody, hmem⟩ := hplace.fill hus
  have hwhole := hbefore.append (.cons l l' hh hbody hbehind)
  refine ⟨_, by simpa using hwhole, fun s hs => ⟨_, List.mem_append_right _ List.mem_cons_self, ?_⟩⟩
  rw [hh.body]
  exact hmem s hs

/-- A place is one behind more statements too. -/
theorem BodyPlace.after {before : List Lexeme} (h : BodyPlace pre post)
    (hbefore : Body false before ss) : BodyPlace (before ++ pre) post := by
  cases h with
  | between hpre hpost => exact .between (hbefore.append hpre) hpost
  | inside l l' hpre hh hplace hbehind =>
    rw [← List.append_assoc]
    exact .inside l l' (hbefore.append hpre) hh hplace hbehind

/-- A place is one behind more functions too. -/
theorem Place.after {before : List Lexeme} {fs : List Func} (h : Place pre post)
    (hbefore : Functions before fs) : Place (before ++ pre) post := by
  obtain ⟨l, l', hpre, hh, hplace, hbehind⟩ := h
  rw [← List.append_assoc]
  exact .body l l' (hbefore.append hpre) hh hplace hbehind

/-- Where an empty statement is in no loop, there is a place for others. -/
theorem Body.exists_place {inLoop : Bool} {ls : List Lexeme} {l : Nat} (h : Body inLoop ls ss)
    (hloop : inLoop = false) (hs : (Stmt.empty l).Outside ss) :
    ∃ pre post, ls = pre ++ ⟨.semi, l⟩ :: post ∧ BodyPlace pre post := by
  induction h with
  | nil => exact absurd hs Stmt.not_outside_nil
  | @simple _ ts us s ss hsimple hrest ih =>
    subst hloop
    rcases Stmt.outside_cons.1 hs with rfl | hs | hs
    · obtain ⟨l⟩ := hsimple
      exact ⟨[], us, rfl, .between .nil hrest⟩
    · have hbody : s.branchBody = [] := by cases hsimple <;> rfl
      rw [hbody] at hs
      exact absurd hs Stmt.not_outside_nil
    · obtain ⟨pre, post, rfl, hplace⟩ := ih rfl hs
      have hbefore : Body false (ts ++ []) [s] := .simple hsimple .nil
      rw [List.append_nil] at hbefore
      exact ⟨ts ++ pre, post, (List.append_assoc ..).symm, hplace.after hbefore⟩
  | jump => cases hloop
  | @branch _ hs bs us body ss make l₁ l₂ hh hb hrest ihb ih =>
    subst hloop
    rcases Stmt.outside_cons.1 hs with he | hs | hs
    · cases hh <;> cases he
    · -- In the branch: the place is inside of it, with nothing of this body before the branch.
      rw [hh.branchBody] at hs
      obtain ⟨pre, post, rfl, hplace⟩ := ihb rfl hs
      have hinside := BodyPlace.inside l₁ l₂ .nil hh hplace hrest
      exact ⟨_, _, by simp, hinside⟩
    · obtain ⟨pre, post, rfl, hplace⟩ := ih rfl hs
      exact ⟨_, post, by simp, hplace.after (.branch l₁ l₂ hh hb .nil)⟩
  -- The body of a loop has no place, and the statement cannot be there.
  | @loop _ hs bs us body ss make l₁ l₂ hh hb hrest _ ih =>
    subst hloop
    rcases Stmt.outside_cons.1 hs with he | hs | hs
    · obtain ⟨_, _⟩ | @⟨_, range, _, _⟩ := hh
      · cases he
      · cases range <;> cases he
    · rw [hh.branchBody] at hs
      exact absurd hs Stmt.not_outside_nil
    · obtain ⟨pre, post, rfl, hplace⟩ := ih rfl hs
      exact ⟨_, post, by simp, hplace.after (.loop l₁ l₂ hh hb .nil)⟩

/-- An empty statement that is in no loop of a function stands in a place. -/
theorem Functions.exists_place {ls : List Lexeme} {fs : List Func} {f : Func} {l : Nat}
    (h : Functions ls fs) (hf : f ∈ fs) (hs : (Stmt.empty l).Outside f.body) :
    ∃ pre post, ls = pre ++ ⟨.semi, l⟩ :: post ∧ Place pre post := by
  induction h with
  | nil => cases hf
  | @cons hs bs us body fs make l₁ l₂ hh hb hrest ih =>
    rcases List.mem_cons.1 hf with rfl | hf
    · rw [hh.body] at hs
      obtain ⟨pre, post, rfl, hplace⟩ := hb.exists_place rfl hs
      exact ⟨_, _, by simp, .body l₁ l₂ .nil hh hplace hrest⟩
    · obtain ⟨pre, post, rfl, hplace⟩ := ih hf
      exact ⟨_, post, by simp, hplace.after (.cons l₁ l₂ hh hb .nil)⟩

/-- The places for statements in no loop are those where an empty statement is read in no loop.
    The semicolon is told from all others by its line. -/
theorem place_iff {l : Nat} (hpre : ⟨.semi, l⟩ ∉ pre) (hpost : ⟨.semi, l⟩ ∉ post) :
    Place pre post ↔ ∃ p, Program.ofTokens (pre ++ ⟨.semi, l⟩ :: post) = .ok p ∧
      ∃ f ∈ p.funcs, (Stmt.empty l).Outside f.body := by
  constructor
  · intro h
    obtain ⟨fs, hfs, hmem⟩ := h.fill (.simple (.empty l) .nil)
    exact ⟨⟨fs⟩, (Program.ofTokens_functions _ _).2 hfs, hmem _ List.mem_cons_self⟩
  · rintro ⟨p, hp, f, hf, hs⟩
    obtain ⟨pre', post', hsplit, hplace⟩ :=
      ((Program.ofTokens_functions _ p).1 hp).exists_place hf hs
    obtain ⟨rfl, -, rfl⟩ := (List.append_cons_inj_of_notMem hpre hpost).1 hsplit
    exact hplace

/-- A jump at a place in no loop is refused, whatever follows it. -/
theorem BodyPlace.refuses (h : BodyPlace pre post) (hj : Jump t make) (l : Nat)
    (ts : List Lexeme) : outcome (statements false (pre ++ ⟨t, l⟩ :: ts)) =
      .error ⟨.outsideLoop t, ts.length + 1⟩ := by
  have hjump : outcome (statements false (⟨t, l⟩ :: ts)) =
      .error ⟨.outsideLoop t, ts.length + 1⟩ := by
    cases hj with
    | «break» =>
      rw [statements_some (t := ⟨.breakKw, l⟩) nofun, stmt_break_outcome, jump_outcome]
      rfl
    | «continue» =>
      rw [statements_some (t := ⟨.continueKw, l⟩) nofun, stmt_continue_outcome, jump_outcome]
      rfl
  induction h with
  | between hpre _ =>
    rw [hpre.reads, hjump]
    rfl
  | inside l₁ l₂ hbefore hh _ _ ih =>
    obtain ⟨u, us, rfl, hu, hread⟩ := hh.reads
    rw [List.append_assoc, hbefore.reads, List.append_assoc, List.cons_append, List.cons_append,
      statements_some hu, hread, atBody, ih]
    rfl

/-- A program with a jump at a place in no loop is refused at the jump. -/
theorem Place.refuses (h : Place pre post) (hj : Jump t make) (l : Nat) (ts : List Lexeme) :
    Program.ofTokens (pre ++ ⟨t, l⟩ :: ts) = .error ⟨.outsideLoop t, ts.length + 1⟩ := by
  obtain ⟨l₁, l₂, hbefore, hh, hplace, -⟩ := h
  obtain ⟨u, us, rfl, hread⟩ := hh.reads
  rw [Program.ofTokens, List.append_assoc, hbefore.reads, List.append_assoc, List.cons_append,
    List.cons_append, funcs_outcome, hread, hplace.refuses hj]
  rfl

/-- The message about a jump at a place in no loop shows the jump. -/
theorem Place.parse_refuses {source : String} {tokens : List (Token × Span)} (h : Place pre post)
    (hj : Jump t make) {l : Nat} (hscan : Token.scan source = .ok tokens)
    (hlexemes : lexemes source tokens = pre ++ ⟨t, l⟩ :: ts) :
    Program.parse source = .error (.locate (.ofText source) (.grammar (.outsideLoop t))
      (spanAt source tokens pre.length)) := by
  have hlength : tokens.length = pre.length + (ts.length + 1) := by
    simpa [lexemes] using congrArg List.length hlexemes
  have hindex : tokens.length - (ts.length + 1) = pre.length := by
    rw [hlength, Nat.add_sub_cancel]
  rw [Program.parse, readSource_of_scan hscan, hlexemes, h.refuses hj, ← hindex]

end Grammar

end PoolScript
