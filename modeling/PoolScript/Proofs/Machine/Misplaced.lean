import PoolScript.Proofs.Host.Faults
import PoolScript.Proofs.Machine.Conditionals

/-!
# Misplaced branches

An `else if` or `else` fails if no branch comes right before it in its list. The chain state says
so: on its way through a list of statements, a machine has it absent exactly where another branch
cannot follow (`Machine.Meets.fits`). And nothing else in the machine fails for it: whatever
fails so has begun such a branch, or has called a function of the host that says so itself
(`Machine.step_misplaces`).

* `Machine.conditionals_nest`: what conditionals in a list of statements mean.
-/

namespace PoolScript

open Fault (Ordinary)

/-! ### Ordinary faults of operators -/

namespace BinOp

variable (sign : NaNSign) (op : BinOp)

/-- Integers fail for a zero only. -/
theorem onInts_ordinary (a b : Int64) : Ordinary (op.onInts a b) := by
  cases op with
  | div | mod =>
    simp only [onInts]
    split
    · rintro ⟨⟩
    · trivial
  | _ => trivial

theorem onFloats_ordinary (x y : Double) : Ordinary (op.onFloats sign x y) := by
  cases op with
  | div | mod =>
    simp only [onFloats]
    split
    · rintro ⟨⟩
    · trivial
  | _ => trivial

theorem onNumbers_ordinary (lhs rhs : Value) : Ordinary (op.onNumbers sign lhs rhs) := by
  simp only [onNumbers]
  split
  · exact op.onInts_ordinary ..
  · split
    · exact onFloats_ordinary ..
    · rintro ⟨⟩

end BinOp

namespace Heap

variable (heap : Heap)

/-- Texts are put together unless there is no room. -/
theorem concat_ordinary (lhs : Handle) (rhs : Value) : Ordinary (heap.concat lhs rhs).1 := by
  rw [concat]
  split
  · exact heap.allocString_ordinary _
  · next hf => exact (heap.str_ordinary lhs).error hf
  · next hf _ => exact (heap.display_ordinary rhs).error hf

/-- Texts are compared if they are there. -/
theorem sameText_ordinary (a b : Handle) : Ordinary (heap.sameText a b) := by
  rw [sameText]
  split
  · trivial
  · next hf => exact (heap.str_ordinary a).error hf
  · next hf _ => exact (heap.str_ordinary b).error hf

theorem binary_ordinary (sign : NaNSign) (op : BinOp) (lhs rhs : Value) :
    Ordinary (heap.binary sign op lhs rhs).1 := by
  have hoperate : Ordinary (heap.operate sign op lhs rhs).1 := by
    unfold operate
    split
    · next a b => exact BinOp.onNumbers_ordinary sign .plus (.str a) (.array b)
    · exact heap.concat_ordinary ..
    · exact (heap.str_ordinary _).map _
    · exact (heap.str_ordinary _).map _
    · exact (heap.sameText_ordinary ..).map _
    · exact (heap.sameText_ordinary ..).map _
    · exact BinOp.onNumbers_ordinary ..
  exact hoperate

theorem negate_ordinary (v : Value) : Ordinary (heap.negate v).1 := by
  cases v <;> first | trivial | rintro ⟨⟩

/-- A copy fails by an assertion only. -/
theorem retain_ordinary (v : Value) : Ordinary (heap.retain v).1 := by
  rcases heap.retain_cases v with ⟨_, hr, -⟩ | ⟨_, hr, -⟩ <;> rw [hr]
  · trivial
  · rintro ⟨⟩

theorem entry_ordinary (cell : Handle) : Ordinary (heap.entry cell).1 := by
  rcases heap.entry_cases cell with ⟨-, hr⟩ | ⟨e, -, hr⟩
  · rw [hr]
    trivial
  rcases hr with ⟨_, _, -, -, hr⟩ | ⟨_, hr, -⟩ | ⟨_, _, -, hr, -⟩ <;> rw [hr]
  · trivial
  · rintro ⟨⟩
  · rintro ⟨⟩

theorem fetch_ordinary (h : Handle) (key : Value) : Ordinary (heap.fetch h key).1 := by
  rw [fetch]
  split
  · next e _ => exact (heap.retain_ordinary e.value).map some
  · trivial
  · next hf => exact (heap.findValue_ordinary h key).error hf

end Heap

/-! ### Ordinary faults of states -/

namespace State

variable (s : State)

/-- Where no call is open there is no frame to look into. -/
theorem lookup_ordinary (name : String) : Ordinary (s.lookup name) := by
  rw [lookup]
  split
  · trivial
  · rintro ⟨⟩

theorem load_ordinary (name : String) : Ordinary (s.load name).1 := by
  unfold load
  split
  · next heap _ _ _ _ =>
    split
    · next v _ => exact heap.retain_ordinary v
    · rintro ⟨⟩
  · rintro ⟨⟩

theorem bind_ordinary (name : String) (v : Value) : Ordinary (s.bind name v).1 := by
  unfold bind
  split
  · trivial
  · rintro ⟨⟩

theorem element_ordinary (name : String) (key : Value) : Ordinary (s.element name key).1 := by
  rw [element]
  split
  · next h _ =>
    have hfetch : Ordinary (s.onHeap (Heap.fetch h key)).1 := s.heap.fetch_ordinary h key
    generalize s.onHeap (Heap.fetch h key) = r at hfetch ⊢
    rcases r with ⟨f | v, s⟩
    · exact hfetch
    · cases v with
      | some v => trivial
      | none =>
        simp only
        split
        · rintro ⟨⟩
        · next hf => exact (s.heap.display_ordinary key).error hf
  · rintro ⟨⟩
  · rintro ⟨⟩
  · next hf => exact (s.lookup_ordinary name).error hf

theorem ensureArray_ordinary (name : String) : Ordinary (s.ensureArray name).1 := by
  unfold ensureArray
  split
  · next heap frame frames out journal =>
    split
    · trivial
    · have halloc := heap.allocArray_ordinary
      generalize heap.allocArray = r at halloc ⊢
      rcases r with ⟨f | v, heap⟩
      · exact halloc
      · exact bind_ordinary ..
  · rintro ⟨⟩

theorem storeElement_ordinary (name : String) (key value : Value) :
    Ordinary (s.storeElement name key value).1 := by
  have hensure := s.ensureArray_ordinary name
  rw [storeElement]
  generalize s.ensureArray name = r at hensure ⊢
  rcases r with ⟨f | _, s⟩
  · exact hensure
  · simp only
    split
    · next h _ => exact s.heap.set_ordinary h key value
    · rintro ⟨⟩
    · next hf => exact (s.lookup_ordinary name).error hf

/-- A call is refused for its depth. -/
theorem enter_not_misplaced {depth : Nat} {function : String} {params : List String}
    {args : List Value} {f : Fault} {s s' : State}
    (h : s.enter depth function params args = (.error f, s')) : f.kind ≠ .misplacedElse := by
  simp only [enter] at h
  split at h
  · cases h
    rintro ⟨⟩
  · cases h

end State

/-! ### Where branches belong -/

/-- Another branch can follow right behind the statement. -/
def Stmt.admitsBranch : Stmt → Bool
  | ifThen _ _ _ | elseIf _ _ _ => true
  | _ => false

/-- A list of statements after which another branch can follow. -/
def endsInBranch (ss : List Stmt) : Bool :=
  ss.getLast?.any Stmt.admitsBranch

/-- The list `ss` has `rest` left, and the chain state is absent just if no branch can follow what
    comes before that. -/
def Chain.Fits (chain : Chain) (ss rest : List Stmt) : Prop :=
  ∃ pre, ss = pre ++ rest ∧ (chain = .absent ↔ endsInBranch pre = false)

namespace Chain.Fits

variable {chain chain' : Chain} {ss rest : List Stmt} {stmt : Stmt}

/-- The state that fits a list fits what is left of it after the first statement. -/
theorem next (h : chain.Fits ss (stmt :: rest))
    (hstmt : chain' = .absent ↔ stmt.admitsBranch = false) : chain'.Fits ss rest := by
  obtain ⟨pre, rfl, -⟩ := h
  refine ⟨pre ++ [stmt], by simp, ?_⟩
  rw [endsInBranch, List.getLast?_concat]
  exact hstmt

theorem next_branch (h : chain.Fits ss (stmt :: rest)) (hstmt : stmt.admitsBranch = true)
    (hchain : chain' ≠ .absent) : chain'.Fits ss rest :=
  h.next (iff_of_false hchain (by rw [hstmt]; nofun))

theorem next_other (h : chain.Fits ss (stmt :: rest)) (hstmt : stmt.admitsBranch = false) :
    Chain.absent.Fits ss rest :=
  h.next (iff_of_true rfl hstmt)

/-- Whether a branch has been taken makes no difference. -/
theorem of_ne (h : chain.Fits ss rest) (hchain : chain ≠ .absent) (hchain' : chain' ≠ .absent) :
    chain'.Fits ss rest := by
  obtain ⟨pre, hss, hpre⟩ := h
  exact ⟨pre, hss, iff_of_false hchain' (mt hpre.2 hchain)⟩

end Chain.Fits

/-- A branch without an `if` is a misplaced one. -/
theorem kind_orphanFault {stmt : Stmt} {fault : Fault} (h : stmt.orphanFault? = some fault) :
    fault.kind = .misplacedElse := by
  cases stmt <;> cases h <;> rfl

/-! ### Who fails for a misplaced branch -/

namespace Control

/-- The control fails because a branch has no `if` before it. -/
def Misplaces : Control → Prop
  | failing f _ => f.fault.kind = .misplacedElse
  | _ => False

/-- A branch is to be begun that has none before it. -/
inductive AtOrphan : Control → Prop
  | block {stmt : Stmt} {rest : List Stmt} {k : Cont .signal} {fault : Fault} :
      stmt.orphanFault? = some fault → AtOrphan (.block .absent (stmt :: rest) k)

end Control

namespace Machine

variable {code : Code} {c : Control} {s : State} {p : Control × State}

/-- The next step calls a function by its name, with the given arguments. -/
inductive Calls : Control × State → String → List Value → Prop
  | bare {name target : String} {k : Cont .value} {s : State} : callee name s = .ok target →
      Calls (.eval (.call name []) k, s) target []
  | given {name target : String} {given : List Value} {v : Value} {k : Cont .value} {s : State} :
      Calls (.value v (.argument name target given [] k), s) target (v :: given).reverse

/-- The next step calls a function of the host, and that says itself that a branch has no `if`
    before it. -/
def HostMisplaces (code : Code) (p : Control × State) : Prop :=
  ∃ target args f s₁ e s₂, Calls p target args ∧ code.host.get? target = some f ∧
    p.2.enter code.maxDepth f.name f.params args = (.ok (), s₁) ∧
    s₁.runHost f.body = (.error e, s₂) ∧ e.kind = .misplacedElse

/-- What comes to an ordinary fault hands no other one on. -/
theorem settle_misplaces {r : Except Fault Value × State} (h : Ordinary r.1) (k : Cont .value) :
    ¬(settle k r).1.Misplaces := by
  rcases r with ⟨f | v, s⟩
  · exact Fault.Kind.ne_misplacedElse h
  · exact id

theorem complete_misplaces {r : Except Fault Unit × State} (h : Ordinary r.1) (signal : Signal)
    (k : Cont .signal) : ¬(complete signal k r).1.Misplaces := by
  rcases r with ⟨f | _, s⟩
  · exact Fault.Kind.ne_misplacedElse h
  · exact id

/-- A call fails so only if a host function says so itself. -/
theorem call_misplaces {name target : String} {args : List Value} {k : Cont .value}
    (hcalls : Calls p target args) (h : (call code name target args k p.2).1.Misplaces) :
    HostMisplaces code p := by
  rw [call] at h
  split at h
  · next i _ => exact absurd h (settle_misplaces (i.call_ordinary args p.2.heap p.2.out) k)
  · split at h
    · next f hf =>
      split at h
      · next he => exact absurd h (State.enter_not_misplaced he)
      · next s₁ he =>
        split at h
        · next e s₂ hr => exact ⟨target, args, f, s₁, e, s₂, hcalls, hf, he, hr, h⟩
        · exact h.elim
    · split at h
      · split at h
        · next he => exact absurd h (State.enter_not_misplaced he)
        · exact h.elim
      · cases h

/-- A name that is not known is an ordinary fault. -/
theorem callee_ordinary (name : String) (s : State) : Ordinary (callee name s) := by
  rw [callee]
  split
  · exact s.heap.str_ordinary _
  · trivial
  · next hf => exact (s.lookup_ordinary name).error hf

theorem evaluate_misplaces {e : Expr} {k : Cont .value}
    (h : (evaluate code e k s).1.Misplaces) : HostMisplaces code (.eval e k, s) := by
  cases e with
  | str text => exact absurd h (settle_misplaces (s.heap.allocString_ordinary text) k)
  | var name => exact absurd h (settle_misplaces (s.load_ordinary name) k)
  | call name args =>
    rw [evaluate] at h
    split at h
    · next hf => exact absurd h (Fault.Kind.ne_misplacedElse ((callee_ordinary name s).error hf))
    · next target htarget =>
      cases args with
      | nil => exact call_misplaces (p := (.eval (.call name []) k, s)) (.bare htarget) h
      | cons => exact h.elim
  | _ => exact h.elim

theorem countFrom_misplaces {var : String} {i last : Int64} {body : List Stmt} {k : Cont .signal} :
    ¬(countFrom var i last body k s).1.Misplaces := by
  rw [countFrom]
  split
  · split
    · exact id
    · next hf =>
      exact Fault.Kind.ne_misplacedElse ((s.bind_ordinary var _).error (congrArg Prod.fst hf))
  · exact id

theorem walkFrom_misplaces {key value : String} {body : List Stmt} {subject : Value}
    {cell : Option Handle} {k : Cont .signal} :
    ¬(walkFrom key value body subject cell k s).1.Misplaces := by
  cases cell with
  | none => exact id
  | some h =>
    simp only [walkFrom]
    split
    · next hf =>
      exact Fault.Kind.ne_misplacedElse ((s.heap.entry_ordinary h).error (congrArg Prod.fst hf))
    · exact id
    · next a b s _ =>
      split
      · next hf =>
        exact Fault.Kind.ne_misplacedElse ((s.bind_ordinary key a).error (congrArg Prod.fst hf))
      · next s _ =>
        split
        · next hf =>
          exact Fault.Kind.ne_misplacedElse
            ((s.bind_ordinary value b).error (congrArg Prod.fst hf))
        · exact id

theorem receive_misplaces {v : Value} {k : Cont .value} (h : (receive code v k s).1.Misplaces) :
    HostMisplaces code (.value v k, s) := by
  cases k with
  | operator op lhs k => exact absurd h (settle_misplaces (s.heap.binary_ordinary _ op lhs v) k)
  | negation k => exact absurd h (settle_misplaces (s.heap.negate_ordinary v) k)
  | subscript name k =>
    exact absurd h (settle_misplaces (r := s.loadElement name v) (s.element_ordinary name v) k)
  -- Only a host function can do so, when its last argument is there.
  | argument name target given rest k =>
    cases rest with
    | nil => exact call_misplaces (p := (.value v (.argument name target given [] k), s)) .given h
    | cons => exact h.elim
  | test line body rest k =>
    simp only [receive] at h
    split at h <;> cases h
  | assign name k => exact absurd h (complete_misplaces (s.bind_ordinary name v) _ k)
  | store name key k => exact absurd h (complete_misplaces (s.storeElement_ordinary name key v) _ k)
  | loopTest cond body k =>
    simp only [receive] at h
    split at h <;> cases h
  | rangeLast => cases v <;> cases h
  | rangeBegin var first body k =>
    cases v with
    | int last => exact absurd h countFrom_misplaces
    | _ => cases h
  | eachBegin key value body k =>
    cases v with
    | array a =>
      simp only [receive] at h
      split at h
      · exact absurd h walkFrom_misplaces
      · next hf => exact absurd h (Fault.Kind.ne_misplacedElse ((s.heap.first_ordinary a).error hf))
    | _ => cases h
  | returnValue k => exact absurd h (complete_misplaces (s.bind_ordinary _ v) _ k)
  | _ => exact h.elim

theorem resume_misplaces (signal : Signal) (k : Cont .signal) (s : State) :
    ¬(resume code signal k s).1.Misplaces := by
  cases k with
  | result k => exact settle_misplaces (r := (s.leave _).map .ok id) trivial k
  | sequence | loopBody => cases signal <;> exact id
  | rangeBody var i last body k =>
    simp only [resume]
    split
    · split
      · exact id
      · exact countFrom_misplaces
    · split
      · exact id
      · exact countFrom_misplaces
    · exact id
    · exact id
  | eachBody =>
    cases signal with
    | normal | continued => exact walkFrom_misplaces
    | _ => exact id

/-- A list of statements fails so where its first one is a branch that has no `if`. -/
theorem execute_misplaces {chain : Chain} {stmts : List Stmt} {k : Cont .signal}
    (h : (execute chain stmts k).Misplaces) : (Control.block chain stmts k).AtOrphan := by
  cases stmts with
  | nil => exact h.elim
  | cons stmt rest =>
    cases stmt with
    | elseIf | elseThen =>
      cases chain with
      | absent => exact .block rfl
      | _ => exact h.elim
    | ret line value => cases value <;> exact h.elim
    | _ => exact h.elim

theorem fail_misplaces {f : Failure} {a : Awaits} {k : Cont a}
    (h : (fail f k s).1.Misplaces) : f.fault.kind = .misplacedElse := by
  cases k <;> exact h

/-- A branch that has none before it fails on its line. -/
theorem step_orphan {stmt : Stmt} {fault : Fault} (h : stmt.orphanFault? = some fault)
    (rest : List Stmt) (k : Cont .signal) (s : State) :
    step code (.block .absent (stmt :: rest) k) s =
      (.failing ⟨fault, some stmt.line⟩ k, s) := by
  cases stmt <;> cases h <;> rfl

/-- Only a branch that has none before it fails for that, and a function of the host that says
    so. -/
theorem step_misplaces (hc : ¬c.Misplaces) (h : (step code c s).1.Misplaces) :
    c.AtOrphan ∨ HostMisplaces code (c, s) := by
  cases c with
  | eval e k => exact .inr (evaluate_misplaces h)
  | value v k => exact .inr (receive_misplaces h)
  | block chain stmts k => exact .inl (execute_misplaces h)
  | signal signal k => exact absurd h (resume_misplaces signal k s)
  | failing f k => exact absurd (fail_misplaces h) hc

/-! ### Places in a list -/

/-- What a machine meets from `p` on, until something is handed to `k`. -/
inductive Meets (code : Code) (k : Cont .signal) (p : Control × State) : Control × State → Prop
  | start : Meets code k p p
  | step {c : Control} {s : State} : Meets code k p (c, s) → ¬c.HandsTo k →
      Meets code k p (step code c s)

/-- Where a machine is that executes the list `ss` over `k`. -/
inductive Along (ss : List Stmt) (k : Cont .signal) : Control → Prop
  | ended {c : Control} : c.HandsTo k → Along ss k c
  /-- Before a statement. -/
  | before {chain : Chain} {rest : List Stmt} : chain.Fits ss rest →
      Along ss k (.block chain rest k)
  /-- In a statement. -/
  | within {c : Control} {line : Nat} {chain : Chain} {rest : List Stmt} : chain.Fits ss rest →
      c.Within (.sequence line chain rest k) → Along ss k c
  /-- In the test of a branch. -/
  | test {c : Control} {line : Nat} {body rest : List Stmt} : Chain.untaken.Fits ss rest →
      c.Within (.test line body rest k) → Along ss k c

variable {ss rest : List Stmt} {k : Cont .signal} {chain : Chain}

/-- The first statement is executed with what is left of the list behind it. -/
theorem along_execute (h : chain.Fits ss rest) : Along ss k (execute chain rest k) := by
  cases rest with
  | nil => exact .ended (.inl ⟨_, rfl⟩)
  | cons stmt rest =>
    cases stmt with
    | ifThen => exact .test (h.next_branch rfl nofun) .refl
    | elseIf =>
      cases chain with
      | absent => exact .ended (.inr ⟨_, rfl⟩)
      | untaken => exact .test (h.next_branch rfl nofun) .refl
      | taken => exact .before (h.next_branch rfl nofun)
    | elseThen =>
      cases chain with
      | absent => exact .ended (.inr ⟨_, rfl⟩)
      | untaken => exact .within (h.next_other rfl) .refl
      | taken => exact .before (h.next_other rfl)
    | empty => exact .before (h.next_other rfl)
    | ret line value =>
      cases value with
      | none => exact .ended (.inl ⟨_, rfl⟩)
      | some e => exact .within (h.next_other rfl) (.layer rfl .refl)
    | «break» | «continue» => exact .ended (.inl ⟨_, rfl⟩)
    | _ => exact .within (h.next_other rfl) (.layer rfl .refl)

/-- Until the statements hand a signal on, each step is on the way through them. -/
theorem Along.step (h : Along ss k c) (hc : ¬c.HandsTo k) (s : State) :
    Along ss k (step code c s).1 := by
  cases h with
  | ended h => exact absurd h hc
  | before h => exact along_execute h
  | @within _ line chain rest h hwithin =>
    by_cases hseq : c.HandsTo (.sequence line chain rest k)
    · rcases hseq with ⟨sig, rfl⟩ | ⟨f, rfl⟩
      · cases sig with
        | normal => exact .before h
        | _ => exact .ended (.inl ⟨_, rfl⟩)
      · exact .ended (.inr ⟨_, rfl⟩)
    · exact .within h (step_within hwithin hseq s)
  | @test _ line body rest h hwithin =>
    by_cases habove : c.isAbove (Cont.test line body rest k).layers
    · exact .test h (step_within_above hwithin habove s)
    · rcases hwithin.eq_value habove with ⟨v, rfl⟩ | ⟨f, rfl⟩
      · show Along ss k (receive code v (.test line body rest k) s).1
        rw [receive]
        split
        · exact .within (h.of_ne (by decide) (by decide)) .refl
        · exact .before h
        · exact .ended (.inr ⟨_, rfl⟩)
      · exact .ended (.inr ⟨_, rfl⟩)

theorem Meets.along {q : Control × State} (h : Meets code k (.block .absent ss k, s) q) :
    Along ss k q.1 := by
  induction h with
  | start => exact .before ⟨[], rfl, iff_of_true rfl rfl⟩
  | step _ hc ih => exact ih.step hc _

/-- Along its way through a list, a machine has the chain state absent just where no branch can
    follow. -/
theorem Meets.fits {t : State}
    (h : Meets code k (.block .absent ss k, s) (.block chain rest k, t)) : chain.Fits ss rest := by
  have not_within {a : Awaits} {k' : Cont a} (hk : k'.beneath = some ⟨.signal, k⟩)
      (h : (Control.block chain rest k).Within k') : False := by
    have hle := Cont.Above.layers_le (show k'.Above k from h)
    rw [Cont.layers_beneath hk] at hle
    omega
  cases h.along with
  | ended h => exact absurd h (not_handsTo_block chain rest k k)
  | before h => exact h
  | within _ h => exact (not_within rfl h).elim
  | test _ h => exact (not_within rfl h).elim

/-! ### Conditionals -/

/-- What conditionals mean in a list of statements that is executed over `k` from the state `s`
    on. -/
structure NestsConditionals (code : Code) (ss : List Stmt) (k : Cont .signal) (s : State) :
    Prop where
  /-- The items are the list, cut into pieces. -/
  cut : (group ss).flatMap Item.stmts = ss
  /-- No conditional without an `else` ends where another branch comes. -/
  maximal : ∀ first more fault stmt,
    ¬[Item.conditional first more none, .stray fault stmt] <:+: group ss
  /-- The list ends as its items do. -/
  ends : ∀ q, Ends code k (.block .absent ss k, s) q ↔ Item.RunAll code (group ss) s q
  /-- An `else if` or `else` that is reached fails itself unless the statement right before it is
      an `if` or `else if`, and then it does not. -/
  reached : ∀ {chain stmt rest t fault},
    Meets code k (.block .absent ss k, s) (.block chain (stmt :: rest) k, t) →
    stmt.orphanFault? = some fault →
    ∃ pre, ss = pre ++ stmt :: rest ∧
      if endsInBranch pre then ¬(step code (.block chain (stmt :: rest) k) t).1.Misplaces
      else fault.kind = .misplacedElse ∧
        step code (.block chain (stmt :: rest) k) t = (.failing ⟨fault, some stmt.line⟩ k, t)
  /-- Nothing else fails for a misplaced branch, unless a function of the host says so. -/
  only : ∀ {c t}, Meets code k (.block .absent ss k, s) (c, t) → ¬c.Misplaces →
    (step code c t).1.Misplaces → c.AtOrphan ∨ HostMisplaces code (c, t)

/-- Neighbouring branches in a list of statements are nested conditionals. -/
theorem conditionals_nest (code : Code) (ss : List Stmt) (k : Cont .signal) (s : State) :
    NestsConditionals code ss k s where
  cut := flatMap_group ss
  maximal := group_maximal ss
  ends q := ends_block_self.trans (runs_group ss s q)
  reached := by
    intro chain stmt rest t fault hmeets hfault
    obtain ⟨pre, hss, hchain⟩ := hmeets.fits
    refine ⟨pre, hss, ?_⟩
    split
    · next hpre =>
      intro hmisplaces
      have horphan : (Control.block chain (stmt :: rest) k).AtOrphan :=
        execute_misplaces (show (execute chain (stmt :: rest) k).Misplaces from hmisplaces)
      cases horphan with
      | block =>
        rw [hchain.1 rfl] at hpre
        cases hpre
    · next hpre =>
      obtain rfl := hchain.2 (Bool.eq_false_of_not_eq_true hpre)
      exact ⟨kind_orphanFault hfault, step_orphan hfault rest k t⟩
  only _ hc h := step_misplaces hc h

end Machine

end PoolScript
