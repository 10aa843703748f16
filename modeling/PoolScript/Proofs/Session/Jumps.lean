import PoolScript.Proofs.Machine.Jumps
import PoolScript.Proofs.Session.Fresh

/-!
# Jumps never leave a function

A script that is read has its jumps in loops, and a session calls no other functions of a script
than those that were read (`Session.Reached.keepsJumps`). So whatever its host does, no function
that it runs or calls ends with a jump.

* `jumps_stay_in_loops`: what a script may do with jumps, and what comes of them.
-/

namespace PoolScript

namespace Table

variable {α : Type} {es : List (String × α)} {t : Table α} {name : String} {a : α}

theorem get?_foldl_set (h : (es.foldl (fun t e => t.set e.1 e.2) t).get? name = some a) :
    t.get? name = some a ∨ (name, a) ∈ es := by
  induction es generalizing t with
  | nil => exact .inl h
  | cons e es ih =>
    rcases ih h with h | h
    · by_cases he : name = e.1
      · subst he
        obtain rfl := Option.some.inj ((get?_set_self ..).symm.trans h)
        exact .inr List.mem_cons_self
      · exact .inl ((get?_set_of_ne _ he).symm.trans h)
    · exact .inr (List.mem_cons_of_mem _ h)

theorem mem_of_get?_ofList (h : (ofList es).get? name = some a) : (name, a) ∈ es :=
  (get?_foldl_set h).resolve_left nofun

end Table

/-- The functions that a session runs are functions of its program. -/
theorem Session.Reached.keepsJumps {p : Program} {limits : Limits} {s : Session}
    (h : Reached p limits s) (hp : p.KeepsJumps) : s.code.KeepsJumps := by
  intro name f hf
  have hmem : (name, f) ∈ p.funcs.map fun f => (f.name, f) :=
    Table.mem_of_get?_ofList ((congrArg (·.get? name) h.fixed.2).symm.trans hf)
  obtain ⟨g, hg, he⟩ := List.mem_map.1 hmem
  obtain rfl : g = f := congrArg Prod.snd he
  exact hp g hg

/-- Jumps stay in loops. In a program that is read they stand in loops of their functions, with
    any branches between, and no function that a session calls ends with one. The places for
    statements in no loop are those where an empty statement, told from others by its line, would
    stand in no loop. If a jump is put there into a program that is read without it, the program is
    refused, and the message shows the jump. -/
theorem jumps_stay_in_loops {source : String} {p : Program} (h : Program.parse source = .ok p) :
    p.KeepsJumps ∧
    (∀ limits s, Session.Reached p limits s → ∀ name args state n,
      ¬(s.inCall name args state n).1.JumpsOut) ∧
    ∀ pre post,
      (∀ l, ⟨.semi, l⟩ ∉ pre → ⟨.semi, l⟩ ∉ post → (Grammar.Place pre post ↔
        ∃ q, Program.ofTokens (pre ++ ⟨.semi, l⟩ :: post) = .ok q ∧
          ∃ f ∈ q.funcs, (Stmt.empty l).Outside f.body)) ∧
      (Grammar.Place pre post → (∃ q, Program.ofTokens (pre ++ post) = .ok q) ∧
        ∀ t make l l', Grammar.Jump t make →
          Program.ofTokens (pre ++ ⟨t, l⟩ :: ⟨.semi, l'⟩ :: post) =
            .error ⟨.outsideLoop t, post.length + 2⟩ ∧
          ∀ source' tokens, Token.scan source' = .ok tokens →
            lexemes source' tokens = pre ++ ⟨t, l⟩ :: ⟨.semi, l'⟩ :: post →
            Program.parse source' = .error (.locate (.ofText source')
              (.grammar (.outsideLoop t)) (spanAt source' tokens pre.length))) := by
  obtain ⟨ls, hread⟩ := Program.exists_tokens h
  have hp := Program.keepsJumps_of_ofTokens hread
  refine ⟨hp, fun limits s hs name args state n => ?_, fun pre post => ⟨?_, fun hplace => ⟨?_, ?_⟩⟩⟩
  · exact Machine.call_ends (hs.keepsJumps hp) name name args state n
  · exact fun l => Grammar.place_iff
  · obtain ⟨fs, hfs, -⟩ := hplace.fill .nil
    exact ⟨⟨fs⟩, (Program.ofTokens_functions _ _).2 hfs⟩
  · intro t make l l' hj
    exact ⟨hplace.refuses hj l _, fun source' tokens hscan hl => hplace.parse_refuses hj hscan hl⟩

/-- A function with a `break` in a loop and a branch after it. -/
def breaker : String :=
  "func f() \x7b while (1) \x7b break; \x7d if (1) \x7b \x7d \x7d"

/-- The tree of it. -/
def breakerTree : Program :=
  ⟨[⟨"f", [], [.whileLoop 1 (.int 1) [.break 1], .ifThen 1 (.int 1) []], 1⟩]⟩

/-- Its tokens before the end of the branch. -/
def breakerTokens : List Lexeme :=
  [.func, .ident "f", .lparen, .rparen, .lbrace, .whileKw, .lparen, .intLit 1, .rparen, .lbrace,
    .breakKw, .semi, .rbrace, .ifKw, .lparen, .intLit 1, .rparen, .lbrace].map (⟨·, 1⟩)

theorem place_breaker : Grammar.Place breakerTokens [⟨.rbrace, 1⟩, ⟨.rbrace, 1⟩] := by
  have hone : Grammar.Derives (.binary 0) [.intLit 1] (.int 1) :=
    .tighter (.tighter (.tighter (.tighter (.tighter (.tighter (.unary (.primary
      (.int (by decide)))))))))
  have hcond : Grammar.Condition [⟨.lparen, 1⟩, ⟨.intLit 1, 1⟩, ⟨.rparen, 1⟩] (.int 1) :=
    @Grammar.Condition.parens [⟨.intLit 1, 1⟩] _ 1 1 hone
  have hloop : Grammar.Body false ([⟨.whileKw, 1⟩, ⟨.lparen, 1⟩, ⟨.intLit 1, 1⟩, ⟨.rparen, 1⟩] ++
      ⟨.lbrace, 1⟩ :: ([⟨.breakKw, 1⟩, ⟨.semi, 1⟩] ++ ⟨.rbrace, 1⟩ :: []))
      [.whileLoop 1 (.int 1) [.break 1]] :=
    .loop 1 1 (.whileLoop 1 hcond) (.jump 1 1 .break .nil) .nil
  have hplace := Grammar.BodyPlace.inside 1 1 hloop (.ifThen 1 hcond) (.between .nil .nil) .nil
  exact .body 1 1 .nil (@Grammar.Heading.named [] [] "f" 1 1 1 1 rfl) hplace .nil

/-- The function with a second `break`, in the branch. -/
def breaker₂ : String :=
  "func f() \x7b while (1) \x7b break; \x7d if (1) \x7b break; \x7d \x7d"

/-- The tokens of it. -/
def breaker₂Tokens : List (Token × Span) :=
  [(.func, ⟨0, 4⟩), (.ident "f", ⟨5, 6⟩), (.lparen, ⟨6, 7⟩), (.rparen, ⟨7, 8⟩),
    (.lbrace, ⟨9, 10⟩), (.whileKw, ⟨11, 16⟩), (.lparen, ⟨17, 18⟩), (.intLit 1, ⟨18, 19⟩),
    (.rparen, ⟨19, 20⟩), (.lbrace, ⟨21, 22⟩), (.breakKw, ⟨23, 28⟩), (.semi, ⟨28, 29⟩),
    (.rbrace, ⟨30, 31⟩), (.ifKw, ⟨32, 34⟩), (.lparen, ⟨35, 36⟩), (.intLit 1, ⟨36, 37⟩),
    (.rparen, ⟨37, 38⟩), (.lbrace, ⟨39, 40⟩), (.breakKw, ⟨41, 46⟩), (.semi, ⟨46, 47⟩),
    (.rbrace, ⟨48, 49⟩), (.rbrace, ⟨50, 51⟩)]

/-- The first `break` stays in the loop, and the second one is refused. -/
theorem breaker_jumps :
    Program.parse breaker = .ok breakerTree ∧ breakerTree.KeepsJumps ∧
      (∀ n, ¬((Session.new breakerTree .default).inCall "f" []
        (Session.new breakerTree .default).state n).1.JumpsOut) ∧
      Program.parse breaker₂ =
        .error (.locate (.ofText breaker₂) (.grammar (.outsideLoop .breakKw)) ⟨41, 46⟩) := by
  have hparse : Program.parse breaker = .ok breakerTree := by cbv
  have hscan : Token.scan breaker₂ = .ok breaker₂Tokens := by cbv
  have hlexemes : lexemes breaker₂ breaker₂Tokens =
      breakerTokens ++ [⟨.breakKw, 1⟩, ⟨.semi, 1⟩, ⟨.rbrace, 1⟩, ⟨.rbrace, 1⟩] := by cbv
  obtain ⟨hp, hrun, hplaces⟩ := jumps_stay_in_loops hparse
  obtain ⟨-, hjump⟩ := (hplaces _ _).2 place_breaker
  exact ⟨hparse, hp, fun n => hrun _ _ (.new .plain) _ _ _ n,
    (hjump _ _ 1 1 .break).2 _ _ hscan hlexemes⟩

end PoolScript
