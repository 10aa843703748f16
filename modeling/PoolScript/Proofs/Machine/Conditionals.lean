import PoolScript.Proofs.Machine.Endings

/-!
# Conditionals in a list of statements

The branches of a conditional are neighbours in their list, and the machine tells by a chain state
which of them belong together. The list can be read as a list of *items* instead (`group`): every
run of an `if`, any number of `else if` and perhaps an `else` is one nested conditional
(`Item.conditional`), and what is left over of `else if` and `else` is *stray*. The meaning of the
items says nothing of chains (`Item.Runs`, `Item.RunAll`): the tests of a conditional are made in
their order up to the first one that holds, the body of that branch is executed, or that of the
`else` if there is none, and then the list goes on behind the conditional unless the body ended with
a signal of its own.

* `Machine.runs_group`: a list of statements ends as its items do.
-/

namespace PoolScript

/-- How a list of statements ends, and the state that it leaves. -/
abbrev Ending := Except Failure Signal × State

/-- A branch of a conditional with a test. -/
structure Branch where
  line : Nat
  cond : Expr
  body : List Stmt

/-- What a list of statements consists of. -/
inductive Item where
  /-- An `if`, perhaps with `else if`, and perhaps with an `else` of the given line and body. -/
  | conditional (first : Branch) (more : List Branch) (otherwise : Option (Nat × List Stmt))
  /-- An `else if` or `else` that belongs to no `if`, and the fault that it is. -/
  | stray (fault : Fault) (stmt : Stmt)
  | plain (stmt : Stmt)

/-! ### Grouping -/

/-- What is wrong with a statement where no branch comes before it, if it needs one. -/
def Stmt.orphanFault? : Stmt → Option Fault
  | elseIf _ _ _ => some .elseIfBeforeIf
  | elseThen _ _ => some .elseBeforeIf
  | _ => none

/-- The branches with which a list of statements goes on a conditional, and the list after them. -/
def branches : List Stmt → List Branch × Option (Nat × List Stmt) × List Stmt
  | .elseIf line cond body :: ss =>
    let (more, otherwise, rest) := branches ss
    (⟨line, cond, body⟩ :: more, otherwise, rest)
  | .elseThen line body :: ss => ([], some (line, body), ss)
  | ss => ([], none, ss)

theorem branches_none {ss : List Stmt} (h : ∀ stmt ∈ ss.head?, stmt.orphanFault? = none) :
    branches ss = ([], none, ss) := by
  rcases ss with _ | ⟨stmt, ss⟩
  · rfl
  · have hstmt := h stmt rfl
    cases stmt with
    | elseIf | elseThen => cases hstmt
    | _ => rfl

theorem length_branches_le (ss : List Stmt) : (branches ss).2.2.length ≤ ss.length := by
  induction ss with
  | nil => exact Nat.le_refl _
  | cons stmt ss ih =>
    cases stmt with
    | elseIf => exact Nat.le_succ_of_le ih
    | elseThen => exact Nat.le_succ _
    | _ => exact Nat.le_refl _

/-- The items of a list of statements. -/
def group (ss : List Stmt) : List Item :=
  match ss with
  | [] => []
  | .ifThen line cond body :: ss =>
    .conditional ⟨line, cond, body⟩ (branches ss).1 (branches ss).2.1 :: group (branches ss).2.2
  | stmt :: ss =>
    match stmt.orphanFault? with
    | some fault => .stray fault stmt :: group ss
    | none => .plain stmt :: group ss
termination_by ss.length
decreasing_by
  · exact Nat.lt_succ_of_le (length_branches_le ss)
  all_goals exact Nat.lt_succ_self _

/-- The statements of the branches of a conditional behind the first one. -/
def branchStmts (more : List Branch) (otherwise : Option (Nat × List Stmt)) : List Stmt :=
  more.map (fun b => .elseIf b.line b.cond b.body) ++
    otherwise.toList.map fun o => .elseThen o.1 o.2

/-- The statements of an item. -/
def Item.stmts : Item → List Stmt
  | conditional first more otherwise =>
    .ifThen first.line first.cond first.body :: branchStmts more otherwise
  | stray _ stmt | plain stmt => [stmt]

theorem branchStmts_branches (ss : List Stmt) :
    branchStmts (branches ss).1 (branches ss).2.1 ++ (branches ss).2.2 = ss := by
  induction ss with
  | nil => rfl
  | cons stmt ss ih =>
    cases stmt with
    | elseIf line cond body => exact congrArg (Stmt.elseIf line cond body :: ·) ih
    | _ => rfl

/-- Grouping changes nothing but where the list is cut. -/
theorem flatMap_group (ss : List Stmt) : (group ss).flatMap Item.stmts = ss := by
  fun_induction group ss with
  | case1 => rfl
  | case2 line cond body ss ih =>
    rw [List.flatMap_cons, ih, Item.stmts, List.cons_append, branchStmts_branches]
  | case3 stmt ss hif fault hfault ih => rw [List.flatMap_cons, ih]; rfl
  | case4 stmt ss hif hfault ih => rw [List.flatMap_cons, ih]; rfl

/-- What comes after a conditional without an `else` is no branch. -/
theorem branches_maximal {ss : List Stmt} (h : (branches ss).2.1 = none) :
    ∀ stmt ∈ (branches ss).2.2.head?, stmt.orphanFault? = none := by
  induction ss with
  | nil => nofun
  | cons stmt ss ih =>
    cases stmt with
    | elseIf line cond body => exact ih h
    | elseThen => cases h
    | _ =>
      rintro _ ⟨⟩
      rfl

/-- A stray branch in front comes from a branch in front. -/
theorem stray_front {ss : List Stmt} {fault : Fault} {stmt : Stmt} :
    [Item.stray fault stmt] <+: group ss → stmt ∈ ss.head? ∧ stmt.orphanFault? = some fault := by
  fun_cases group ss with
  | case1 => simp
  | case2 =>
    rw [List.cons_prefix_cons]
    rintro ⟨⟨⟩, -⟩
  | case3 stmt ss hif fault hfault =>
    rw [List.cons_prefix_cons]
    rintro ⟨⟨⟩, -⟩
    exact ⟨rfl, hfault⟩
  | case4 =>
    rw [List.cons_prefix_cons]
    rintro ⟨⟨⟩, -⟩

/-- Conditionals go on as long as branches follow. -/
theorem group_maximal (ss : List Stmt) (first : Branch) (more : List Branch) (fault : Fault)
    (stmt : Stmt) : ¬[Item.conditional first more none, .stray fault stmt] <:+: group ss := by
  fun_induction group ss with
  | case1 => simp
  | case2 line cond body ss ih =>
    rw [List.infix_cons_iff]
    rintro (hhere | hinfix)
    · rw [List.cons_prefix_cons] at hhere
      obtain ⟨hfirst, hrest⟩ := hhere
      obtain ⟨-, -, hnone⟩ := Item.conditional.inj hfirst
      obtain ⟨hhead, hfault⟩ := stray_front hrest
      rw [branches_maximal hnone.symm stmt hhead] at hfault
      cases hfault
    · exact ih hinfix
  | case3 stmt' ss hif fault' hfault ih =>
    rw [List.infix_cons_iff, List.cons_prefix_cons]
    rintro (⟨⟨⟩, -⟩ | hinfix)
    exact ih hinfix
  | case4 stmt' ss hif hfault ih =>
    rw [List.infix_cons_iff, List.cons_prefix_cons]
    rintro (⟨⟨⟩, -⟩ | hinfix)
    exact ih hinfix

/-! ### What items mean -/

/-- The failure of a branch is blamed on its line, unless a statement in it was blamed already. -/
def blame (line : Nat) (r : Except Failure Signal) : Except Failure Signal :=
  r.mapError (Failure.atLine line)

namespace Item

open Machine (Evaluates)

/-- How the branches of a conditional end, with an `else` if there is one. The tests are made in
    their order up to the first one that holds. -/
inductive Decides (code : Code) :
    List Branch → Option (Nat × List Stmt) → State → Ending → Prop
  | none {s : State} : Decides code [] none s (.ok .normal, s)
  | otherwise {line : Nat} {body : List Stmt} {s t : State} {r : Except Failure Signal} :
      Machine.Runs code body s (r, t) → Decides code [] (some (line, body)) s (blame line r, t)
  | holds {b : Branch} {bs : List Branch} {o : Option (Nat × List Stmt)} {s t u : State}
      {v : Value} {r : Except Failure Signal} :
      Evaluates code b.cond s (.ok v, t) → v.truth? = some true →
      Machine.Runs code b.body (t.releaseAll [v]) (r, u) →
      Decides code (b :: bs) o s (blame b.line r, u)
  | fails {b : Branch} {bs : List Branch} {o : Option (Nat × List Stmt)} {s t : State}
      {v : Value} {q : Ending} :
      Evaluates code b.cond s (.ok v, t) → v.truth? = some false →
      Decides code bs o (t.releaseAll [v]) q → Decides code (b :: bs) o s q
  | noTruth {b : Branch} {bs : List Branch} {o : Option (Nat × List Stmt)} {s t : State}
      {v : Value} : Evaluates code b.cond s (.ok v, t) → v.truth? = none →
      Decides code (b :: bs) o s
        (.error ⟨.typeMismatch .condition v.type, some b.line⟩, t.releaseAll [v])
  | failed {b : Branch} {bs : List Branch} {o : Option (Nat × List Stmt)} {s t : State}
      {f : Failure} : Evaluates code b.cond s (.error f, t) →
      Decides code (b :: bs) o s (.error (f.atLine b.line), t)

/-- How an item ends. -/
inductive Runs (code : Code) : Item → State → Ending → Prop
  | conditional {first : Branch} {more : List Branch} {otherwise : Option (Nat × List Stmt)}
      {s : State} {q : Ending} : Decides code (first :: more) otherwise s q →
      Runs code (.conditional first more otherwise) s q
  | stray {fault : Fault} {stmt : Stmt} {s : State} :
      Runs code (.stray fault stmt) s (.error ⟨fault, some stmt.line⟩, s)
  | plain {stmt : Stmt} {s : State} {q : Ending} :
      Machine.Runs code [stmt] s q → Runs code (.plain stmt) s q

/-- How a list of items ends: as the first of them that ends with a signal of its own or fails. -/
inductive RunAll (code : Code) : List Item → State → Ending → Prop
  | nil {s : State} : RunAll code [] s (.ok .normal, s)
  | next {i : Item} {is : List Item} {s t : State} {q : Ending} :
      Runs code i s (.ok .normal, t) → RunAll code is t q → RunAll code (i :: is) s q
  | stop {i : Item} {is : List Item} {s t : State} {r : Except Failure Signal} :
      Runs code i s (r, t) → r ≠ .ok .normal → RunAll code (i :: is) s (r, t)

end Item

namespace Machine

open Item (Decides RunAll)

variable {code : Code} {ss rest body : List Stmt} {s t : State} {p q : Ending} {line : Nat}
  {cond : Expr} {stmt : Stmt} {r : Except Failure Signal}

/-! ### Lists with a chain state -/

/-- How a list of statements ends that is executed by itself, from a chain state on. -/
def RunsFrom (code : Code) (chain : Chain) (ss : List Stmt) (s : State) (q : Ending) : Prop :=
  Ends code .ground (.block chain ss .ground, s) q

/-- How a list of statements ends of which some have ended with `p`, and `rest` is left. -/
def GoesOn (code : Code) (chain : Chain) (rest : List Stmt) (p q : Ending) : Prop :=
  match p with
  | (.ok .normal, t) => RunsFrom code chain rest t q
  | p => q = p

theorem not_handsTo_block (chain : Chain) (ss : List Stmt) (k k' : Cont .signal) :
    ¬(Control.block chain ss k').HandsTo k := by
  rintro (⟨_, h⟩ | ⟨_, h⟩) <;> cases h

theorem runsFrom_iff (chain : Chain) :
    RunsFrom code chain ss s q ↔ Ends code .ground (execute chain ss .ground, s) q :=
  ends_step (not_handsTo_block _ _ _ _)

theorem runs_nil : Runs code [] s q ↔ q = (.ok .normal, s) :=
  (runsFrom_iff .absent).trans (ends_hand (r := .ok .normal))

theorem goesOn_nil : GoesOn code .absent [] p q ↔ q = p := by
  obtain ⟨r, t⟩ := p
  rcases r with f | sig
  · rfl
  · cases sig with
    | normal => exact runs_nil
    | _ => rfl

/-- A statement that does not need a branch before it does not look at the chain. -/
theorem runsFrom_absent (chain : Chain) (h : ∀ stmt ∈ ss.head?, stmt.orphanFault? = none) :
    RunsFrom code chain ss s q ↔ Runs code ss s q := by
  have hexecute : execute chain ss .ground = execute .absent ss .ground := by
    rcases ss with _ | ⟨stmt, ss⟩
    · rfl
    · have hstmt := h stmt rfl
      cases stmt with
      | elseIf | elseThen => cases hstmt
      | ret line value => cases value <;> rfl
      | _ => rfl
  rw [runsFrom_iff, hexecute, ← runsFrom_iff]
  rfl

/-- Once a branch has been taken, those that are left are passed over. -/
theorem runsFrom_taken (ss : List Stmt) :
    RunsFrom code .taken ss s q ↔ Runs code (branches ss).2.2 s q := by
  induction ss with
  | nil => exact runsFrom_absent .taken nofun
  | cons stmt ss ih =>
    cases stmt with
    | elseIf line cond body => exact (runsFrom_iff .taken).trans ih
    | elseThen line body => exact runsFrom_iff .taken
    | _ => exact runsFrom_absent .taken (by rintro _ ⟨⟩; rfl)

theorem goesOn_taken :
    GoesOn code .taken rest p q ↔ GoesOn code .absent (branches rest).2.2 p q := by
  obtain ⟨r, t⟩ := p
  rcases r with f | sig
  · rfl
  · cases sig with
    | normal => exact runsFrom_taken rest
    | _ => rfl

/-- What a list in the middle of a statement hands on, over the statements that are left. -/
theorem ends_sequence (chain : Chain) :
    Ends code .ground (.hand (.sequence line chain rest .ground) r, t) q ↔
      GoesOn code chain rest (blame line r, t) q := by
  have hnot : ¬(Control.hand (.sequence line chain rest .ground) r).HandsTo .ground := by
    intro h
    obtain ⟨r', hr'⟩ := Control.handsTo_iff.1 h
    cases r <;> cases r' <;> cases hr'
  rw [ends_step hnot]
  rcases r with f | sig
  · exact ends_hand (r := .error (f.atLine line))
  · cases sig with
    | normal => rfl
    | returned => exact ends_hand (r := .ok .returned)
    | broke => exact ends_hand (r := .ok .broke)
    | continued => exact ends_hand (r := .ok .continued)

/-- The body of a branch, with the statements that are left after it. -/
theorem ends_body (chain : Chain) :
    Ends code .ground (.block .absent body (.sequence line chain rest .ground), s) q ↔
      ∃ r t, Runs code body s (r, t) ∧ GoesOn code chain rest (blame line r, t) q := by
  rw [ends_block (.layer rfl .refl)]
  simp only [ends_sequence]

/-! ### Conditionals -/

theorem not_handsTo_ofResult {k : Cont .signal} {base : Cont .value}
    (rv : Except Failure Value) : ¬(Control.ofResult base rv).HandsTo k := by
  rcases rv with f | v
  · rintro (⟨_, h⟩ | ⟨_, h⟩) <;> cases h
  · rintro (⟨_, h⟩ | ⟨_, h⟩) <;> cases h

/-- A branch whose test is to be made, when it is known what comes of the branches behind it. -/
theorem ends_branch
    (ih : ∀ s, RunsFrom code .untaken rest s q ↔ ∃ p,
      Decides code (branches rest).1 (branches rest).2.1 s p ∧
        GoesOn code .absent (branches rest).2.2 p q) :
    Ends code .ground (.eval cond (.test line body rest .ground), s) q ↔ ∃ p,
      Decides code (⟨line, cond, body⟩ :: (branches rest).1) (branches rest).2.1 s p ∧
        GoesOn code .absent (branches rest).2.2 p q := by
  rw [ends_eval (.layer rfl .refl)]
  constructor
  · rintro ⟨rv, t, hv, hends⟩
    rw [ends_step (not_handsTo_ofResult rv)] at hends
    rcases rv with f | v
    · exact ⟨_, .failed hv, (ends_hand (r := .error (f.atLine line))).1 hends⟩
    · have hreceive : step code (Control.ofResult (.test line body rest .ground) (.ok v)) t =
          receive code v (.test line body rest .ground) t := rfl
      -- What the condition comes to decides whether the body is run or the other branches are
      -- tried.
      rw [hreceive, receive] at hends
      split at hends
      · next htrue =>
        obtain ⟨r, u, hbody, hrest⟩ := (ends_body .taken).1 hends
        exact ⟨_, .holds hv htrue hbody, goesOn_taken.1 hrest⟩
      · next hfalse =>
        obtain ⟨p, hp, hrest⟩ := (ih _).1 hends
        exact ⟨p, .fails hv hfalse hp, hrest⟩
      · next hnone =>
        exact ⟨_, .noTruth hv hnone, (ends_hand (r := .error _)).1 hends⟩
  · rintro ⟨p, hp, hrest⟩
    have hstep (v : Value) (t : State) :
        step code (Control.ofResult (.test line body rest .ground) (.ok v)) t =
          receive code v (.test line body rest .ground) t := rfl
    cases hp with
    | holds hv htrue hbody =>
      refine ⟨_, _, hv, (ends_step (not_handsTo_ofResult _)).2 ?_⟩
      rw [hstep, receive, htrue]
      exact (ends_body .taken).2 ⟨_, _, hbody, goesOn_taken.2 hrest⟩
    | fails hv hfalse hp =>
      refine ⟨_, _, hv, (ends_step (not_handsTo_ofResult _)).2 ?_⟩
      rw [hstep, receive, hfalse]
      exact (ih _).2 ⟨_, hp, hrest⟩
    | noTruth hv hnone =>
      refine ⟨_, _, hv, (ends_step (not_handsTo_ofResult _)).2 ?_⟩
      rw [hstep, receive, hnone]
      exact (ends_hand (r := .error _)).2 hrest
    | failed hv =>
      refine ⟨_, _, hv, (ends_step (not_handsTo_ofResult _)).2 ?_⟩
      exact (ends_hand (r := .error _)).2 hrest

/-- As long as no branch has been taken, those that are left decide. -/
theorem runsFrom_untaken (ss : List Stmt) (s : State) :
    RunsFrom code .untaken ss s q ↔ ∃ p,
      Decides code (branches ss).1 (branches ss).2.1 s p ∧
        GoesOn code .absent (branches ss).2.2 p q := by
  have hnone {ss : List Stmt} {s : State} (h : ∀ stmt ∈ ss.head?, stmt.orphanFault? = none) :
      RunsFrom code .untaken ss s q ↔ ∃ p,
        Decides code (branches ss).1 (branches ss).2.1 s p ∧
          GoesOn code .absent (branches ss).2.2 p q := by
    rw [runsFrom_absent .untaken h, branches_none h]
    constructor
    · exact fun hruns => ⟨_, .none, hruns⟩
    · rintro ⟨p, hp, hrest⟩
      cases hp
      exact hrest
  -- By induction on the statements: each further branch is tried if those before it were not taken.
  induction ss generalizing s with
  | nil => exact hnone nofun
  | cons stmt ss ih =>
    cases stmt with
    | elseIf line cond body => exact (runsFrom_iff .untaken).trans (ends_branch ih)
    | elseThen line body =>
      rw [runsFrom_iff]
      refine (ends_body .absent).trans ?_
      constructor
      · rintro ⟨r, t, hbody, hrest⟩
        exact ⟨_, .otherwise hbody, hrest⟩
      · rintro ⟨p, hp, hrest⟩
        cases hp with
        | otherwise hbody => exact ⟨_, _, hbody, hrest⟩
    | _ => exact hnone (by rintro _ ⟨⟩; rfl)

/-! ### Plain statements -/

/-- A statement whose layers are over the statements that are left. -/
theorem runs_plain_atop {c : Control} (hc : c.Within .ground)
    (h : ∀ rest, execute .absent (stmt :: rest) .ground =
      c.atop (.sequence stmt.line .absent rest .ground)) :
    Runs code (stmt :: rest) s q ↔ ∃ p, Runs code [stmt] s p ∧ GoesOn code .absent rest p q := by
  have hruns (rest : List Stmt) (q : Ending) : Runs code (stmt :: rest) s q ↔ ∃ r t,
      Ends code .ground (c, s) (r, t) ∧ GoesOn code .absent rest (blame stmt.line r, t) q := by
    refine (runsFrom_iff .absent).trans ?_
    rw [h, ends_atop hc (.layer rfl .refl)]
    simp only [ends_sequence]
  simp only [hruns, goesOn_nil]
  constructor
  · rintro ⟨r, t, hends, hrest⟩
    exact ⟨_, ⟨r, t, hends, rfl⟩, hrest⟩
  · rintro ⟨p, ⟨r, t, hends, rfl⟩, hrest⟩
    exact ⟨r, t, hends, hrest⟩

/-- A statement that ends the list with a signal of its own. -/
theorem runs_plain_signal (sig : Signal) (hsig : sig ≠ .normal)
    (h : ∀ rest, execute .absent (stmt :: rest) .ground = .signal sig .ground) :
    Runs code (stmt :: rest) s q ↔ ∃ p, Runs code [stmt] s p ∧ GoesOn code .absent rest p q := by
  have hruns (rest : List Stmt) (q : Ending) : Runs code (stmt :: rest) s q ↔ q = (.ok sig, s) := by
    refine (runsFrom_iff .absent).trans ?_
    rw [h]
    exact ends_hand (r := .ok sig)
  simp only [hruns]
  constructor
  · intro hq
    refine ⟨_, rfl, ?_⟩
    cases sig with
    | normal => exact absurd rfl hsig
    | _ => exact hq
  · rintro ⟨p, rfl, hrest⟩
    cases sig with
    | normal => exact absurd rfl hsig
    | _ => exact hrest

/-- A plain statement ends as it does by itself, and then the list goes on. -/
theorem runs_plain (hif : ∀ line cond body, stmt ≠ .ifThen line cond body)
    (horphan : stmt.orphanFault? = none) :
    Runs code (stmt :: rest) s q ↔ ∃ p, Runs code [stmt] s p ∧ GoesOn code .absent rest p q := by
  cases stmt with
  | ifThen line cond body => exact absurd rfl (hif line cond body)
  | elseIf | elseThen => cases horphan
  | empty line =>
    have hruns (rest : List Stmt) (q : Ending) :
        Runs code (.empty line :: rest) s q ↔ Runs code rest s q :=
      runsFrom_iff .absent
    simp only [hruns, runs_nil]
    exact ⟨fun h => ⟨_, rfl, h⟩, by rintro ⟨_, rfl, h⟩; exact h⟩
  -- All others begin with an expression or hand a signal on, and what follows waits below.
  | ret line value =>
    cases value with
    | none => exact runs_plain_signal .returned nofun fun _ => rfl
    | some e =>
      exact runs_plain_atop (c := .eval e (.returnValue .ground)) (.layer rfl .refl)
        fun _ => rfl
  | «break» line => exact runs_plain_signal .broke nofun fun _ => rfl
  | «continue» line => exact runs_plain_signal .continued nofun fun _ => rfl
  | expr line e =>
    exact runs_plain_atop (c := .eval e (.discard .ground)) (.layer rfl .refl)
      fun _ => rfl
  | assign line name e =>
    exact runs_plain_atop (c := .eval e (.assign name .ground)) (.layer rfl .refl)
      fun _ => rfl
  | assignElement line name sub e =>
    exact runs_plain_atop (c := .eval sub (.storedValue name e .ground)) (.layer rfl .refl)
      fun _ => rfl
  | whileLoop line cond body =>
    exact runs_plain_atop (c := .eval cond (.loopTest cond body .ground)) (.layer rfl .refl)
      fun _ => rfl
  | forRange line var first last body =>
    exact runs_plain_atop (c := .eval first (.rangeLast var last body .ground)) (.layer rfl .refl)
      fun _ => rfl
  | forEach line key value array body =>
    exact runs_plain_atop (c := .eval array (.eachBegin key value body .ground)) (.layer rfl .refl)
      fun _ => rfl

/-! ### The whole list -/

/-- A list of items goes on as a list of statements does. -/
theorem runAll_cons {i : Item} {is : List Item}
    (ih : ∀ s q, Runs code rest s q ↔ RunAll code is s q) :
    RunAll code (i :: is) s q ↔ ∃ p, Item.Runs code i s p ∧ GoesOn code .absent rest p q := by
  constructor
  · intro h
    cases h with
    | next hi his => exact ⟨_, hi, (ih _ _).2 his⟩
    | @stop _ _ _ t r hi hr =>
      refine ⟨_, hi, ?_⟩
      rcases r with f | sig
      · rfl
      · cases sig with
        | normal => exact absurd rfl hr
        | _ => rfl
  · rintro ⟨⟨r, t⟩, hi, hrest⟩
    rcases r with f | sig
    · obtain rfl : q = (.error f, t) := hrest
      exact .stop hi nofun
    · cases sig with
      | normal => exact .next hi ((ih _ _).1 hrest)
      | _ =>
        obtain rfl := (show q = _ from hrest)
        exact .stop hi nofun

/-- A list of statements ends as its items do. -/
theorem runs_group (ss : List Stmt) (s : State) (q : Ending) :
    Runs code ss s q ↔ RunAll code (group ss) s q := by
  fun_induction group ss generalizing s q with
  | case1 =>
    rw [runs_nil]
    constructor
    · rintro rfl
      exact .nil
    · intro h
      cases h
      rfl
  -- A conditional, with the branches that belong to it.
  | case2 line cond body ss ih =>
    rw [runAll_cons ih]
    have hif : Runs code (.ifThen line cond body :: ss) s q ↔ _ :=
      (runsFrom_iff .absent).trans (ends_branch fun s => runsFrom_untaken ss s)
    rw [hif]
    constructor
    · rintro ⟨p, hp, hrest⟩
      exact ⟨p, .conditional hp, hrest⟩
    · rintro ⟨p, hp, hrest⟩
      cases hp with
      | conditional hp => exact ⟨p, hp, hrest⟩
  -- A branch without a conditional fails at once.
  | case3 stmt ss hif fault hfault ih =>
    rw [runAll_cons ih]
    have horphan : Runs code (stmt :: ss) s q ↔ q = (.error ⟨fault, some stmt.line⟩, s) := by
      refine (runsFrom_iff .absent).trans ?_
      cases stmt with
      | elseIf | elseThen =>
        cases hfault
        exact ends_hand (r := .error _)
      | _ => cases hfault
    rw [horphan]
    constructor
    · rintro rfl
      exact ⟨_, .stray, rfl⟩
    · rintro ⟨p, hp, hrest⟩
      cases hp with
      | stray => exact hrest
  | case4 stmt ss hif horphan ih =>
    rw [runAll_cons ih, runs_plain hif horphan]
    constructor
    · rintro ⟨p, hp, hrest⟩
      exact ⟨p, .plain hp, hrest⟩
    · rintro ⟨p, hp, hrest⟩
      cases hp with
      | plain hp => exact ⟨p, hp, hrest⟩

end Machine

end PoolScript
