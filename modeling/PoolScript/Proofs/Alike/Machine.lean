import PoolScript.Proofs.Alike.State
import PoolScript.Proofs.Machine.Handles

/-!
# Machines in parallel

Two machines run the same script on states that are alike. Their controls and continuations
are the same but for the handles in them, which go together. Every step of the one machine is
matched by a step of the other (`Machine.step_parallel`), so they end together, in the same
way (`Machine.run_parallel`).

Where the second machine may use more, the first one may fail alone, for want of room or of
depth. From then on it goes on failing for that, since nothing in a script catches a fault.
-/

namespace PoolScript

variable {κ : Likeness} {old old' : Array String} {ρ ρ' : Pairing} {a : Awaits}

/-- The same is left to be done, with values that go together. -/
inductive Cont.Alike (ρ : Pairing) : {a : Awaits} → Cont a → Cont a → Prop
  | halt : Alike ρ .halt .halt
  | rightOperand {k k' : Cont .value} (op : BinOp) (rhs : Expr) :
      Alike ρ k k' → Alike ρ (.rightOperand op rhs k) (.rightOperand op rhs k')
  | operator {v w : Value} {k k' : Cont .value} (op : BinOp) :
      v.Alike ρ w → Alike ρ k k' → Alike ρ (.operator op v k) (.operator op w k')
  | negation {k k' : Cont .value} : Alike ρ k k' → Alike ρ (.negation k) (.negation k')
  | subscript {k k' : Cont .value} (name : String) :
      Alike ρ k k' → Alike ρ (.subscript name k) (.subscript name k')
  | argument {vs ws : List Value} {k k' : Cont .value} (name callee : String) (rest : List Expr) :
      List.Forall₂ (Value.Alike ρ) vs ws → Alike ρ k k' →
      Alike ρ (.argument name callee vs rest k) (.argument name callee ws rest k')
  | result {k k' : Cont .value} : Alike ρ k k' → Alike ρ (.result k) (.result k')
  | test {k k' : Cont .signal} (line : Nat) (body rest : List Stmt) :
      Alike ρ k k' → Alike ρ (.test line body rest k) (.test line body rest k')
  | sequence {k k' : Cont .signal} (line : Nat) (chain : Chain) (rest : List Stmt) :
      Alike ρ k k' → Alike ρ (.sequence line chain rest k) (.sequence line chain rest k')
  | discard {k k' : Cont .signal} : Alike ρ k k' → Alike ρ (.discard k) (.discard k')
  | assign {k k' : Cont .signal} (name : String) :
      Alike ρ k k' → Alike ρ (.assign name k) (.assign name k')
  | storedValue {k k' : Cont .signal} (name : String) (e : Expr) :
      Alike ρ k k' → Alike ρ (.storedValue name e k) (.storedValue name e k')
  | store {v w : Value} {k k' : Cont .signal} (name : String) :
      v.Alike ρ w → Alike ρ k k' → Alike ρ (.store name v k) (.store name w k')
  | loopTest {k k' : Cont .signal} (cond : Expr) (body : List Stmt) :
      Alike ρ k k' → Alike ρ (.loopTest cond body k) (.loopTest cond body k')
  | loopBody {k k' : Cont .signal} (cond : Expr) (body : List Stmt) :
      Alike ρ k k' → Alike ρ (.loopBody cond body k) (.loopBody cond body k')
  | rangeLast {k k' : Cont .signal} (var : String) (last : Expr) (body : List Stmt) :
      Alike ρ k k' → Alike ρ (.rangeLast var last body k) (.rangeLast var last body k')
  | rangeBegin {k k' : Cont .signal} (var : String) (first : Int64) (body : List Stmt) :
      Alike ρ k k' → Alike ρ (.rangeBegin var first body k) (.rangeBegin var first body k')
  | rangeBody {k k' : Cont .signal} (var : String) (i last : Int64) (body : List Stmt) :
      Alike ρ k k' → Alike ρ (.rangeBody var i last body k) (.rangeBody var i last body k')
  | eachBegin {k k' : Cont .signal} (key value : String) (body : List Stmt) :
      Alike ρ k k' → Alike ρ (.eachBegin key value body k) (.eachBegin key value body k')
  | eachBody {v w : Value} {cell cell' : Handle} {next next' : Option Handle} {k k' : Cont .signal}
      (key value : String) (body : List Stmt) :
      v.Alike ρ w → ρ.cells cell cell' → Option.Rel ρ.cells next next' → Alike ρ k k' →
      Alike ρ (.eachBody key value body v cell next k) (.eachBody key value body w cell' next' k')
  | returnValue {k k' : Cont .signal} : Alike ρ k k' → Alike ρ (.returnValue k) (.returnValue k')

/-- Continuations that go together still do when more handles are paired. -/
theorem Cont.Alike.mono {k k' : Cont a} (hk : k.Alike ρ k') (hle : ρ ≤ ρ') : k.Alike ρ' k' := by
  induction hk with
  | halt => exact .halt
  | rightOperand op rhs _ ih => exact .rightOperand op rhs ih
  | operator op hv _ ih => exact .operator op (hv.mono hle) ih
  | negation _ ih => exact .negation ih
  | subscript name _ ih => exact .subscript name ih
  | argument name callee rest hvs _ ih =>
    exact .argument name callee rest (hvs.imp fun _ _ hv => hv.mono hle) ih
  | result _ ih => exact .result ih
  | test line body rest _ ih => exact .test line body rest ih
  | sequence line chain rest _ ih => exact .sequence line chain rest ih
  | discard _ ih => exact .discard ih
  | assign name _ ih => exact .assign name ih
  | storedValue name e _ ih => exact .storedValue name e ih
  | store name hv _ ih => exact .store name (hv.mono hle) ih
  | loopTest cond body _ ih => exact .loopTest cond body ih
  | loopBody cond body _ ih => exact .loopBody cond body ih
  | rangeLast var last body _ ih => exact .rangeLast var last body ih
  | rangeBegin var first body _ ih => exact .rangeBegin var first body ih
  | rangeBody var i last body _ ih => exact .rangeBody var i last body ih
  | eachBegin key value body _ ih => exact .eachBegin key value body ih
  | eachBody key value body hv hcell hnext _ ih =>
    exact .eachBody key value body (hv.mono hle) (hle.2 _ _ hcell) (hnext.mono (hle.2 _ _)) ih
  | returnValue _ ih => exact .returnValue ih

/-- The same is to be done, with values that go together. -/
inductive Control.Alike (ρ : Pairing) : Control → Control → Prop
  | eval {k k' : Cont .value} (e : Expr) : k.Alike ρ k' → Alike ρ (.eval e k) (.eval e k')
  | value {v w : Value} {k k' : Cont .value} :
      v.Alike ρ w → k.Alike ρ k' → Alike ρ (.value v k) (.value w k')
  | block {k k' : Cont .signal} (chain : Chain) (stmts : List Stmt) :
      k.Alike ρ k' → Alike ρ (.block chain stmts k) (.block chain stmts k')
  | signal {k k' : Cont .signal} (signal : Signal) :
      k.Alike ρ k' → Alike ρ (.signal signal k) (.signal signal k')
  | failing {a : Awaits} {k k' : Cont a} (f : Failure) :
      k.Alike ρ k' → Alike ρ (.failing f k) (.failing f k')

/-- Code with the same functions, where more calls may be open on the second side if it may have
    more room, and where variables may be given up in other orders if handles are renamed. -/
structure Code.Alike (κ : Likeness) (code code' : Code) : Prop where
  functions : code.functions = code'.functions
  host : code.host = code'.host
  depth : κ.Admits code.maxDepth code'.maxDepth
  nanSign : code.platform.nanSign = code'.platform.nanSign
  order : κ.renames = false → code.platform.order = code'.platform.order

/-- All host functions stop at faults. -/
def Code.StopsAtFaults (code : Code) : Prop :=
  ∀ name f, code.host.get? name = some f → f.body.StopsAtFaults

namespace Machine

/-- Two machines are at the same point on states that are alike, or the first one fails for want
    of room or of depth that the second one may have. -/
inductive Parallel (κ : Likeness) (old old' : Array String) (ρ : Pairing) :
    Control × State → Control × State → Prop
  | halted {a : Awaits} {f : Failure} {k : Cont a} {s : State} {x : Control × State} :
      κ.widens = true → f.fault.IsLimit → Parallel κ old old' ρ (.failing f k, s) x
  | alike {ρ' : Pairing} {c d : Control} {s t : State} :
      ρ ≤ ρ' → c.Alike ρ' d → s.Alike κ old old' ρ' t → Parallel κ old old' ρ (c, s) (d, t)

variable {code code' : Code} {s t : State} {v w : Value} {vs ws : List Value} {m : Multiset Value}
  {pins : Set Value}

/-- What is parallel under more pairs than asked for is parallel. -/
theorem Parallel.mono {x y : Control × State} (h : Parallel κ old old' ρ' x y) (hle : ρ ≤ ρ') :
    Parallel κ old old' ρ x y := by
  cases h with
  | halted hκ hf => exact .halted hκ hf
  | alike hle' hc hs => exact .alike (hle.trans hle') hc hs

/-! ### Handing on -/

/-- What is made of a result goes on alike. -/
theorem settle_parallel {k k' : Cont .value} {r r' : Except Fault Value × State}
    (h : Agree κ Value.Alike (State.Alike κ old old') ρ r r') (hk : k.Alike ρ k') :
    Parallel κ old old' ρ (settle k r) (settle k' r') := by
  cases h with
  | halted hκ hf => exact .halted hκ hf
  | error f hle hs => exact .alike hle (.failing _ (hk.mono hle)) hs
  | ok hle hv hs => exact .alike hle (.value hv (hk.mono hle)) hs

theorem complete_parallel {k k' : Cont .signal} {r r' : Except Fault Unit × State}
    (signal : Signal) (h : Agree κ Pairing.Same (State.Alike κ old old') ρ r r')
    (hk : k.Alike ρ k') :
    Parallel κ old old' ρ (complete signal k r) (complete signal k' r') := by
  cases h with
  | halted hκ hf => exact .halted hκ hf
  | error f hle hs => exact .alike hle (.failing _ (hk.mono hle)) hs
  | ok hle hv hs => exact .alike hle (.signal signal (hk.mono hle)) hs

/-! ### Calls -/

/-- A call that returns gives its variables up on both sides, in the orders of both platforms. -/
theorem leave_parallel {k k' : Cont .value} (hcode : code.Alike κ code')
    (hst : s.Alike κ old old' ρ t) (hk : k.Alike ρ k') (hb : s.Balanced m pins) :
    Parallel κ old old' ρ (settle k ((s.leave code.platform.order).map .ok id))
      (settle k' ((t.leave code'.platform.order).map .ok id)) := by
  obtain ⟨hv, hs⟩ := hst.leave hb hcode.order
  exact .alike le_rfl (.value hv hk) hs

/-- Goes on when a host function has run. -/
theorem afterHost_evolves (order : TearDown) (k : Cont .value) (r : Except Fault Unit × State) :
    r.2.heap.Evolves (match r with
      | (.error e, s) => (Control.failing (.of e) k, s)
      | (.ok (), s) => settle k ((s.leave order).map .ok id)).2.heap := by
  rcases r with ⟨_ | _, s⟩
  · exact .refl _
  · exact (settle_becomes (State.leave_becomes .refl order)).evolves

/-- A call goes on alike: of a function, of an intrinsic or of the host, or with a fault. -/
theorem call_parallel {k k' : Cont .value} (hcode : code.Alike κ code')
    (hstop : κ.widens = true → code.StopsAtFaults)
    (hst : s.Alike κ old old' ρ t) (hk : k.Alike ρ k') (hvs : List.Forall₂ (Value.Alike ρ) vs ws)
    (hb : s.Balanced (vs + m) pins) (name callee : String)
    (hy : Heap.Ready κ (call code name callee vs k s).2.heap
      (call code' name callee ws k' t).2.heap) :
    Parallel κ old old' ρ (call code name callee vs k s) (call code' name callee ws k' t) := by
  have hsug : code'.suggestion? callee = code.suggestion? callee := by
    rw [Code.suggestion?, Code.suggestion?, hcode.functions, hcode.host]
  simp only [call] at hy ⊢
  rw [← hcode.functions, ← hcode.host] at hy ⊢
  cases hi : Intrinsic.ofName? callee with
  | some i =>
    have hr := Intrinsic.call_agrees hst.heap (Heap.Balanced.chained hb) hst.out i hvs
    refine settle_parallel (hr.after (f := fun h => (⟨h.1, s.frames, h.2, s.journal⟩ : State))
      (g := fun h => (⟨h.1, t.frames, h.2, t.journal⟩ : State)) fun hle hs => ?_) hk
    exact ⟨hs.1, hst.frames.imp fun _ _ hf => hf.mono hle, hs.2⟩
  | none =>
    rw [hi] at hy
    cases hf : code.host.get? callee with
    | some f =>
      rw [hf] at hy
      have he := hst.enter hcode.depth f.name f.params hvs
      have hb' := hb.enter code.maxDepth f.name f.params
      dsimp only at hy ⊢
      generalize s.enter code.maxDepth f.name f.params vs = r at he hb' hy ⊢
      generalize t.enter code'.maxDepth f.name f.params ws = r' at he hy ⊢
      cases he with
      | halted hκ hf => exact .halted hκ hf
      | error e hle hs => exact .alike hle (.failing _ (hk.mono hle)) hs
      | @ok ρ' u u' s₁ t₁ hle _ hs =>
        obtain ⟨hb₁, hframes⟩ : s₁.Balanced m pins ∧ s₁.frames ≠ [] := by
          rcases hb' with ⟨_, he, hb', hn⟩ | ⟨_, he, -⟩
          · cases he
            exact ⟨hb', List.length_pos_iff.1 (hn ▸ Nat.succ_pos _)⟩
          · cases he
        -- The heaps after the host function are young if those after the call are.
        have hyr : Heap.Ready κ (s₁.runHost f.body).2.heap (t₁.runHost f.body).2.heap := fun hκ =>
          ⟨(afterHost_evolves _ k _).young (hy hκ).1, (afterHost_evolves _ k' _).young (hy hκ).2⟩
        have hr := hs.runHost f.body (fun hκ => hstop hκ callee f hf) hb₁ hyr
        have hbr := (hb₁.runHost hframes f.body).1
        dsimp only at hr ⊢
        clear hy hyr
        generalize s₁.runHost f.body = r at hr hbr ⊢
        generalize t₁.runHost f.body = r' at hr ⊢
        refine Parallel.mono ?_ hle
        cases hr with
        | halted hκ hf => exact .halted hκ hf
        | error e hle' hs => exact .alike hle' (.failing _ (hk.mono (hle.trans hle'))) hs
        | ok hle' _ hs =>
          exact (leave_parallel hcode hs (hk.mono (hle.trans hle')) hbr).mono hle'
    | none =>
      cases code.functions.get? callee with
      | some f =>
        have he := hst.enter hcode.depth f.name f.params hvs
        dsimp only
        generalize s.enter code.maxDepth f.name f.params vs = r at he ⊢
        generalize t.enter code'.maxDepth f.name f.params ws = r' at he ⊢
        cases he with
        | halted hκ hf => exact .halted hκ hf
        | error e hle hs => exact .alike hle (.failing _ (hk.mono hle)) hs
        | ok hle _ hs => exact .alike hle (.block .absent f.body (.result (hk.mono hle))) hs
      | none =>
        simp only [hsug]
        exact .alike le_rfl (.failing _ hk) (hst.releaseAll hvs)

/-- The same function is found by its name, or none. -/
theorem callee_alike (hst : s.Alike κ old old' ρ t) (name : String) :
    callee name s = callee name t := by
  have hx := hst.lookup name
  simp only [callee]
  generalize s.lookup name = x at hx ⊢
  generalize t.lookup name = y at hx ⊢
  cases hx with
  | error e => rfl
  | ok hx =>
    cases hx with
    | none => rfl
    | some hv =>
      cases hv with
      | str hh => exact hst.heap.str hh
      | _ => rfl

/-! ### Expressions -/

/-- A step into an expression is matched. -/
theorem evaluate_parallel {k k' : Cont .value} (hcode : code.Alike κ code')
    (hstop : κ.widens = true → code.StopsAtFaults)
    (hst : s.Alike κ old old' ρ t) (hk : k.Alike ρ k') (hb : s.Balanced m pins) (e : Expr)
    (hy : Heap.Ready κ (evaluate code e k s).2.heap (evaluate code' e k' t).2.heap) :
    Parallel κ old old' ρ (evaluate code e k s) (evaluate code' e k' t) := by
  have hys : Heap.Ready κ s.heap t.heap := fun hκ =>
    ⟨(evaluate_becomes .refl code e k).evolves.young (hy hκ).1,
      (evaluate_becomes .refl code' e k').evolves.young (hy hκ).2⟩
  cases e with
  | int n => exact .alike le_rfl (.value (.int n) hk) hst
  | float x => exact .alike le_rfl (.value (.float x) hk) hst
  | str text => exact settle_parallel (hst.onHeap (hst.heap.allocString hys text)) hk
  | var name => exact settle_parallel (hst.load hb name) hk
  | index name sub => exact .alike le_rfl (.eval sub (.subscript name hk)) hst
  | binary op lhs rhs => exact .alike le_rfl (.eval lhs (.rightOperand op rhs hk)) hst
  | neg operand => exact .alike le_rfl (.eval operand (.negation hk)) hst
  | call name args =>
    simp only [evaluate, callee_alike hst name] at hy ⊢
    split
    · exact .alike le_rfl (.failing _ hk) hst
    · next target ht =>
      rw [ht] at hy
      cases args with
      | nil => exact call_parallel hcode hstop hst hk .nil (by simpa using hb) name target hy
      | cons arg rest => exact .alike le_rfl (.eval arg (.argument name target rest .nil hk)) hst

/-! ### Loops -/

/-- The next round of a range begins on both sides or on neither. -/
theorem countFrom_parallel {k k' : Cont .signal} (hst : s.Alike κ old old' ρ t) (hk : k.Alike ρ k')
    (var : String) (i last : Int64) (body : List Stmt) :
    Parallel κ old old' ρ (countFrom var i last body k s) (countFrom var i last body k' t) := by
  simp only [countFrom]
  split
  · have hr := hst.bind var (.int i)
    generalize s.bind var (.int i) = r at hr ⊢
    generalize t.bind var (.int i) = r' at hr ⊢
    cases hr with
    | halted hκ hf => exact .halted hκ hf
    | error f hle hs => exact .alike hle (.failing _ (hk.mono hle)) hs
    | ok hle _ hs => exact .alike hle (.block _ _ (.rangeBody var i last body (hk.mono hle))) hs
  · exact .alike le_rfl (.signal _ hk) hst

/-- The next round of a walk begins on both sides or on neither. -/
theorem walkFrom_parallel {k k' : Cont .signal} {cell cell' : Option Handle}
    (hst : s.Alike κ old old' ρ t) (hk : k.Alike ρ k') (hv : v.Alike ρ w)
    (hcell : Option.Rel ρ.cells cell cell') (hb : s.Balanced m pins) (key value : String)
    (body : List Stmt) :
    Parallel κ old old' ρ (walkFrom key value body v cell k s)
      (walkFrom key value body w cell' k' t) := by
  have given {ρ' : Pairing} {s t : State} (hle : ρ ≤ ρ') (hst : s.Alike κ old old' ρ' t) :
      (s.releaseAll [v]).Alike κ old old' ρ' (t.releaseAll [w]) :=
    hst.releaseAll (.cons (hv.mono hle) .nil)
  cases hcell with
  | none => exact .alike le_rfl (.signal _ hk) (given le_rfl hst)
  | @some h h' hh =>
    have hentry := hst.onHeap (hst.heap.entry hh hb)
    have hnext := hst.heap.next? hh
    simp only [walkFrom]
    generalize s.onHeap (Heap.entry h) = r at hentry ⊢
    generalize t.onHeap (Heap.entry h') = r' at hentry ⊢
    -- Copying and binding make no handles, but the pairing is given back as a larger one.
    cases hentry with
    | halted hκ hf => exact .halted hκ hf
    | error f hle hs => exact .alike hle (.failing _ (hk.mono hle)) (given hle hs)
    | @ok ρ₁ _ _ _ _ hle hpq hs =>
      cases hpq with
      | none => exact .alike hle (.signal _ (hk.mono hle)) (given hle hs)
      | @some p q hpq =>
        obtain ⟨hp, hq⟩ := hpq
        have h₁ := hs.bind key hp
        dsimp only
        generalize State.bind key p.1 _ = r at h₁ ⊢
        generalize State.bind key q.1 _ = r' at h₁ ⊢
        cases h₁ with
        | halted hκ hf => exact .halted hκ hf
        | error f hle' hs =>
          have hle := hle.trans hle'
          exact .alike hle (.failing _ (hk.mono hle))
            (hs.releaseAll (.cons (hq.mono hle') (.cons (hv.mono hle) .nil)))
        | @ok ρ₂ _ _ s₁ t₁ hle' _ hs =>
          have h₂ := hs.bind value (hq.mono hle')
          have hle := hle.trans hle'
          dsimp only
          generalize State.bind value p.2 s₁ = r at h₂ ⊢
          generalize State.bind value q.2 t₁ = r' at h₂ ⊢
          cases h₂ with
          | halted hκ hf => exact .halted hκ hf
          | error f hle' hs =>
            have hle := hle.trans hle'
            exact .alike hle (.failing _ (hk.mono hle)) (given hle hs)
          | ok hle' _ hs =>
            have hle := hle.trans hle'
            exact .alike hle (.block _ _ (.eachBody key value body (hv.mono hle) (hle.2 _ _ hh)
              (hnext.mono (hle.2 _ _)) (hk.mono hle))) hs

/-- A walk goes on alike: what is visited next is found through links that go together. -/
theorem nextToVisit_rel {a b : Heap} (hab : a.Alike κ ρ b) {cell cell' : Handle}
    (hcell : ρ.cells cell cell') {next next' : Option Handle}
    (hnext : Option.Rel ρ.cells next next') :
    Option.Rel ρ.cells (nextToVisit a cell next) (nextToVisit b cell' next') := by
  have he := hab.element? hcell
  simp only [nextToVisit]
  generalize a.element? cell = x at he ⊢
  generalize b.element? cell' = y at he ⊢
  cases he with
  | some he => exact he.next
  | none =>
    cases hnext with
    | none => exact .none
    | @some h k hh =>
      have he := hab.element? hh
      simp only [Option.filter_some]
      generalize a.element? h = x at he ⊢
      generalize b.element? k = y at he ⊢
      cases he with
      | none => exact .none
      | some => exact .some hh

/-! ### Values and signals -/

/-- What receives a value goes on alike. By what waits for it. -/
theorem receive_parallel {k k' : Cont .value} (hcode : code.Alike κ code')
    (hstop : κ.widens = true → code.StopsAtFaults)
    (hst : s.Alike κ old old' ρ t) (hv : v.Alike ρ w) (hk : k.Alike ρ k')
    (hb : s.Balanced ({v} + (k.values + m)) pins)
    (hy : Heap.Ready κ (receive code v k s).2.heap (receive code' w k' t).2.heap) :
    Parallel κ old old' ρ (receive code v k s) (receive code' w k' t) := by
  have hc : s.heap.Chained := Heap.Balanced.chained hb
  have hys : Heap.Ready κ s.heap t.heap := fun hκ =>
    ⟨(receive_becomes .refl code v k).evolves.young (hy hκ).1,
      (receive_becomes .refl code' w k').evolves.young (hy hκ).2⟩
  -- Most that waits for a value gives it back and goes on.
  have given : (s.releaseAll [v]).Alike κ old old' ρ (t.releaseAll [w]) :=
    hst.releaseAll (.cons hv .nil)
  cases hk with
  | halt => exact .alike le_rfl (.value hv .halt) hst
  | rightOperand op rhs hk => exact .alike le_rfl (.eval rhs (.operator op hv hk)) hst
  | operator op hl hk =>
    simp only [receive, ← hcode.nanSign]
    exact settle_parallel (hst.onHeap (hst.heap.binary hys hc _ op hl hv)) hk
  | negation hk => exact settle_parallel (hst.onHeap (hst.heap.negate hv)) hk
  | subscript name hk => exact settle_parallel (hst.loadElement hb name hv) hk
  | @argument vs ws k k' name callee rest hvs hk =>
    cases rest with
    | nil =>
      -- The arguments were put down in reverse, and all are owned by the call.
      have hb' : s.Balanced ((v :: vs).reverse + (k.values + m)) pins := by
        rw [Multiset.coe_reverse, Heap.coe_cons_add]
        rwa [Cont.values, add_assoc (vs : Multiset Value)] at hb
      exact call_parallel hcode hstop hst hk (List.rel_reverse (.cons hv hvs)) hb' name callee hy
    | cons arg rest =>
      exact .alike le_rfl (.eval arg (.argument name callee rest (.cons hv hvs) hk)) hst
  | test line body rest hk =>
    simp only [receive, hv.truth?_eq, hv.type_eq]
    split
    · exact .alike le_rfl (.block _ _ (.sequence line _ rest hk)) given
    · exact .alike le_rfl (.block _ _ hk) given
    · exact .alike le_rfl (.failing _ hk) given
  | discard hk => exact .alike le_rfl (.signal _ hk) given
  | assign name hk => exact complete_parallel _ (hst.bind name hv) hk
  | storedValue name e hk => exact .alike le_rfl (.eval e (.store name hv hk)) hst
  | store name hkey hk => exact complete_parallel _ (hst.storeElement hys hc name hkey hv) hk
  | loopTest cond body hk =>
    simp only [receive, hv.truth?_eq, hv.type_eq]
    split
    · exact .alike le_rfl (.block _ _ (.loopBody cond body hk)) given
    · exact .alike le_rfl (.signal _ hk) given
    · exact .alike le_rfl (.failing _ hk) given
  | rangeLast var last body hk =>
    cases hv with
    | int first => exact .alike le_rfl (.eval last (.rangeBegin var first body hk)) hst
    | _ => exact .alike le_rfl (.failing _ hk) given
  | rangeBegin var first body hk =>
    cases hv with
    | int last => exact countFrom_parallel hst hk var first last body
    | _ => exact .alike le_rfl (.failing _ hk) given
  | eachBegin key value body hk =>
    cases hv with
    | @array h h' hh =>
      have hl := hst.heap.first hh
      simp only [receive]
      generalize s.heap.first h = x at hl ⊢
      generalize t.heap.first h' = y at hl ⊢
      cases hl with
      | ok hl => exact walkFrom_parallel hst hk (.array hh) hl hb key value body
      | error f => exact .alike le_rfl (.failing _ hk) given
    | _ => exact .alike le_rfl (.failing _ hk) given
  | returnValue hk => exact complete_parallel _ (hst.bind _ hv) hk

/-- What goes on after a signal goes on alike. By what waits for it. -/
theorem resume_parallel {k k' : Cont .signal} (hcode : code.Alike κ code')
    (hst : s.Alike κ old old' ρ t) (hk : k.Alike ρ k') (hb : s.Balanced m pins) (signal : Signal) :
    Parallel κ old old' ρ (resume code signal k s) (resume code' signal k' t) := by
  cases hk with
  | result hk => exact leave_parallel hcode hst hk hb
  | sequence line chain rest hk =>
    cases signal with
    | normal => exact .alike le_rfl (.block _ _ hk) hst
    | _ => exact .alike le_rfl (.signal _ hk) hst
  | loopBody cond body hk =>
    cases signal with
    | normal => exact .alike le_rfl (.eval cond (.loopTest cond body hk)) hst
    | continued => exact .alike le_rfl (.eval cond (.loopTest cond body hk)) hst
    | broke => exact .alike le_rfl (.signal _ hk) hst
    | returned => exact .alike le_rfl (.signal _ hk) hst
  | @rangeBody k k' var i last body hk =>
    have next : Parallel κ old old' ρ
        (if i = Int64.maxValue then (.signal .normal k, s) else countFrom var (i + 1) last body k s)
        (if i = Int64.maxValue then (.signal .normal k', t)
          else countFrom var (i + 1) last body k' t) := by
      split
      · exact .alike le_rfl (.signal _ hk) hst
      · exact countFrom_parallel hst hk ..
    cases signal with
    | normal => exact next
    | continued => exact next
    | broke => exact .alike le_rfl (.signal _ hk) hst
    | returned => exact .alike le_rfl (.signal _ hk) hst
  | eachBody key value body hv hcell hnext hk =>
    have hnext := nextToVisit_rel hst.heap hcell hnext
    have given := hst.releaseAll (.cons hv .nil)
    cases signal with
    | normal => exact walkFrom_parallel hst hk hv hnext hb key value body
    | continued => exact walkFrom_parallel hst hk hv hnext hb key value body
    | broke => exact .alike le_rfl (.signal _ hk) given
    | returned => exact .alike le_rfl (.signal _ hk) given

/-! ### Statements -/

/-- A statement begins alike. -/
theorem execute_alike {k k' : Cont .signal} (hk : k.Alike ρ k') (chain : Chain)
    (stmts : List Stmt) :
    (execute chain stmts k).Alike ρ (execute chain stmts k') := by
  cases stmts with
  | nil => exact .signal _ hk
  | cons stmt rest =>
    have after := Cont.Alike.sequence stmt.line .absent rest hk
    cases stmt with
    | ifThen line cond body => exact .eval cond (.test line body rest hk)
    | elseIf line cond body =>
      cases chain with
      | absent => exact .failing _ hk
      | untaken => exact .eval cond (.test line body rest hk)
      | taken => exact .block _ rest hk
    | elseThen line body =>
      cases chain with
      | absent => exact .failing _ hk
      | untaken => exact .block _ body after
      | taken => exact .block _ rest hk
    | empty line => exact .block _ rest hk
    | expr line e => exact .eval e (.discard after)
    | assign line name e => exact .eval e (.assign name after)
    | assignElement line name sub e => exact .eval sub (.storedValue name e after)
    | whileLoop line cond body => exact .eval cond (.loopTest cond body after)
    | forRange line var first last body => exact .eval first (.rangeLast var last body after)
    | forEach line key value array body => exact .eval array (.eachBegin key value body after)
    | ret line value =>
      cases value with
      | none => exact .signal _ hk
      | some e => exact .eval e (.returnValue after)
    | «break» line => exact .signal _ hk
    | «continue» line => exact .signal _ hk

/-! ### Failing -/

/-- A failure goes the same way down on both sides. -/
theorem fail_parallel {k k' : Cont a} (hst : s.Alike κ old old' ρ t) (hk : k.Alike ρ k')
    (f : Failure) :
    Parallel κ old old' ρ (fail f k s) (fail f k' t) := by
  cases hk with
  | halt => exact .alike le_rfl (.failing f .halt) hst
  | operator op hv hk => exact .alike le_rfl (.failing f hk) (hst.releaseAll (.cons hv .nil))
  | argument name callee rest hvs hk =>
    exact .alike le_rfl (.failing f hk) (hst.releaseAll (List.rel_reverse hvs))
  | store name hv hk => exact .alike le_rfl (.failing f hk) (hst.releaseAll (.cons hv .nil))
  | eachBody key value body hv hcell hnext hk =>
    exact .alike le_rfl (.failing f hk) (hst.releaseAll (.cons hv .nil))
  | _ => exact .alike le_rfl (.failing _ (by assumption)) hst

/-! ### Running -/

theorem step_parallel {c d : Control} (hcode : code.Alike κ code')
    (hstop : κ.widens = true → code.StopsAtFaults)
    (hst : s.Alike κ old old' ρ t) (hc : c.Alike ρ d) (hb : s.Balanced (c.values + m) pins)
    (hy : Heap.Ready κ (step code c s).2.heap (step code' d t).2.heap) :
    Parallel κ old old' ρ (step code c s) (step code' d t) := by
  cases hc with
  | eval e hk => exact evaluate_parallel hcode hstop hst hk hb e hy
  | value hv hk =>
    exact receive_parallel hcode hstop hst hv hk (add_assoc (_ : Multiset Value) .. ▸ hb) hy
  | block chain stmts hk => exact .alike le_rfl (execute_alike hk chain stmts) hst
  | signal signal hk => exact resume_parallel hcode hst hk hb signal
  | failing f hk => exact fail_parallel hst hk f

/-- A failure is passed on with its fault. -/
theorem fail_failing (f : Failure) (k : Cont a) (s : State) :
    ∃ (f' : Failure) (a' : Awaits) (k' : Cont a') (s' : State),
      fail f k s = (.failing f' k', s') ∧ f'.fault = f.fault := by
  cases k <;> exact ⟨_, _, _, _, rfl, rfl⟩

/-- A run that fails ends with its fault, if it ends. -/
theorem run_failing {fuel : Nat} {f : Failure} {k : Cont a} {r : Except Failure Value × State}
    (hr : run code fuel (.failing f k) s = some r) :
    ∃ f' s', r = (.error f', s') ∧ f'.fault = f.fault := by
  induction fuel generalizing a f k s with
  | zero =>
    rw [run] at hr
    split at hr
    · next hres =>
      cases k <;> cases hres
      cases hr
      exact ⟨f, s, rfl, rfl⟩
    · cases hr
  | succ fuel ih =>
    rw [run] at hr
    split at hr
    · next hres =>
      cases k <;> cases hres
      cases hr
      exact ⟨f, s, rfl, rfl⟩
    · obtain ⟨f', a', k', s', he, hf⟩ := fail_failing f k s
      simp only [step, he] at hr
      obtain ⟨f'', s'', hr, hf'⟩ := ih hr
      exact ⟨f'', s'', hr, hf'.trans hf⟩

/-- Two runs have ended in the same way or both go on, or the first one fails for want of room or
    of depth, if it ends. -/
inductive RunsParallel (κ : Likeness) (old old' : Array String) :
    Option (Except Failure Value × State) → Option (Except Failure Value × State) → Prop
  | halted {x y : Option (Except Failure Value × State)} :
      κ.widens = true → (∀ r, x = some r → ∃ f s, r = (.error f, s) ∧ f.fault.IsLimit) →
      RunsParallel κ old old' x y
  | running : RunsParallel κ old old' none none
  | error {ρ : Pairing} {s t : State} (f : Failure) :
      s.Alike κ old old' ρ t → RunsParallel κ old old' (some (.error f, s)) (some (.error f, t))
  | ok {ρ : Pairing} {v w : Value} {s t : State} :
      v.Alike ρ w → s.Alike κ old old' ρ t →
      RunsParallel κ old old' (some (.ok v, s)) (some (.ok w, t))

/-- Two controls that go together have both ended, alike, or neither. -/
theorem result?_alike {c d : Control} (hc : c.Alike ρ d) :
    (c.result? = none ∧ d.result? = none) ∨
      (∃ f, c.result? = some (.error f) ∧ d.result? = some (.error f)) ∨
      ∃ v w, v.Alike ρ w ∧ c.result? = some (.ok v) ∧ d.result? = some (.ok w) := by
  cases hc with
  | eval => exact .inl ⟨rfl, rfl⟩
  | block => exact .inl ⟨rfl, rfl⟩
  | signal => exact .inl ⟨rfl, rfl⟩
  | value hv hk =>
    cases hk with
    | halt => exact .inr (.inr ⟨_, _, hv, rfl, rfl⟩)
    | _ => exact .inl ⟨rfl, rfl⟩
  | failing f hk =>
    cases hk with
    | halt => exact .inr (.inl ⟨f, rfl, rfl⟩)
    | _ => exact .inl ⟨rfl, rfl⟩

/-- By induction on the number of steps: each one is matched, until both end or the first one fails
    for want of something. -/
theorem run_parallel {fuel : Nat} {c d : Control} (hcode : code.Alike κ code')
    (hstop : κ.widens = true → code.StopsAtFaults)
    (hst : s.Alike κ old old' ρ t) (hc : c.Alike ρ d) (hs : Sound (fun _ => True) m pins (c, s))
    (hy : ∀ n, Heap.Ready κ (after code n (c, s)).2.heap (after code' n (d, t)).2.heap) :
    RunsParallel κ old old' (run code fuel c s) (run code' fuel d t) := by
  -- One step on each side, until both have a result or the fuel is used up.
  induction fuel generalizing ρ c d s t with
  | zero =>
    simp only [run]
    rcases result?_alike hc with ⟨hc, hd⟩ | ⟨f, hc, hd⟩ | ⟨v, w, hv, hc, hd⟩
    · rw [hc, hd]
      exact .running
    · rw [hc, hd]
      exact .error f hst
    · rw [hc, hd]
      exact .ok hv hst
  | succ fuel ih =>
    have hp := step_parallel hcode hstop hst hc hs.balanced (hy 1)
    have hs' := step_sound (fun _ _ => trivial) hs code.hostFailsOf_true
    have hy' : ∀ n, Heap.Ready κ (after code n (step code c s)).2.heap
        (after code' n (step code' d t)).2.heap := fun n => hy (n + 1)
    simp only [run]
    rcases result?_alike hc with ⟨hc, hd⟩ | ⟨f, hc, hd⟩ | ⟨v, w, hv, hc, hd⟩
    · rw [hc, hd]
      dsimp only
      generalize step code c s = x at hp hs' hy' ⊢
      generalize step code' d t = y at hp hy' ⊢
      cases hp with
      | @halted a f k s x hκ hf =>
        -- The first side is failing now, and ends with this fault if it ends.
        refine .halted hκ ?_
        intro r hr
        obtain ⟨f', s', hr, hf'⟩ := run_failing hr
        exact ⟨f', s', hr, hf' ▸ hf⟩
      | alike hle hc hst => exact ih hst hc hs' hy'
    · rw [hc, hd]
      exact .error f hst
    · rw [hc, hd]
      exact .ok hv hst

end Machine

end PoolScript
