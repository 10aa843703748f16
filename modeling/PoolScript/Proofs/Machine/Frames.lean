import PoolScript.Proofs.Machine.Context

/-!
# Frames

A continuation knows how many calls have to return to it (`Cont.calls`). One that waits for the
signal of a statement is always in a call, so whatever writes variables writes those of a call
that is still to return. A step leaves the frames as they are, or writes the innermost one, or
enters a call, or leaves one (`Machine.Shift`).

From this an invariant follows: the frames that were there when an expression began to be
evaluated stay at the bottom as they were, and above them there is one frame for each call
that is to return, or any number of them once a failure unwinds the continuation
(`Machine.Stands`). So expressions do not touch frames (`Machine.Stands.result`), and no more
calls are open than the limit allows (`Machine.after_depth`).
-/

namespace PoolScript

/-! ### States -/

namespace State

variable {α : Type} {s s' s'' : State} {name : String} {v key : Value}

/-- Two states have the same frames but for the variables of the innermost call. -/
structure SameBelow (s s' : State) : Prop where
  length : s'.frames.length = s.frames.length
  tail : s'.frames.tail = s.frames.tail

theorem SameBelow.of_eq (h : s'.frames = s.frames) : SameBelow s s' :=
  ⟨congrArg List.length h, congrArg List.tail h⟩

theorem SameBelow.trans (h : SameBelow s s') (h' : SameBelow s' s'') : SameBelow s s'' :=
  ⟨h'.length.trans h.length, h'.tail.trans h.tail⟩

/-- The innermost frame may be another one, on the same frames. -/
theorem SameBelow.exists_frame {frame : Frame} {frames : List Frame} (h : SameBelow s s')
    (hs : s.frames = frame :: frames) : ∃ frame', s'.frames = frame' :: frames := by
  obtain ⟨hlength, htail⟩ := h
  rw [hs] at hlength htail
  rcases hs' : s'.frames with _ | ⟨frame', frames'⟩
  · rw [hs'] at hlength
    cases hlength
  · rw [hs'] at htail
    exact ⟨frame', congrArg (frame' :: ·) htail⟩

theorem onHeap_frames (f : Heap → α × Heap) (s : State) : (s.onHeap f).2.frames = s.frames := rfl

theorem load_frames (name : String) (s : State) : (s.load name).2.frames = s.frames := by
  unfold load
  split
  · split <;> rfl
  · rfl

/-- Binding writes the innermost frame. -/
theorem bind_below (name : String) (v : Value) (s : State) : SameBelow s (s.bind name v).2 := by
  unfold bind
  split
  · exact ⟨rfl, rfl⟩
  · exact .of_eq rfl

theorem element_frames (name : String) (key : Value) (s : State) :
    (s.element name key).2.frames = s.frames := by
  unfold element
  split
  · next h _ =>
    have hfetch := onHeap_frames (Heap.fetch h key) s
    generalize s.onHeap (Heap.fetch h key) = r at hfetch ⊢
    rcases r with ⟨_ | _ | _, s'⟩
    · exact hfetch
    · simp only
      split <;> exact hfetch
    · exact hfetch
  all_goals rfl

theorem loadElement_frames (name : String) (key : Value) (s : State) :
    (s.loadElement name key).2.frames = s.frames :=
  element_frames name key s

/-- So does making an array for a variable. -/
theorem ensureArray_below (name : String) (s : State) : SameBelow s (s.ensureArray name).2 := by
  obtain ⟨heap, _ | ⟨frame, frames⟩, out, journal⟩ := s
  · exact .of_eq rfl
  · simp only [ensureArray]
    split
    · exact .of_eq rfl
    · split
      · exact ⟨rfl, rfl⟩
      · exact .of_eq rfl

theorem storeElement_below (name : String) (key value : Value) (s : State) :
    SameBelow s (s.storeElement name key value).2 := by
  have hensure := ensureArray_below name s
  rw [storeElement]
  generalize s.ensureArray name = r at hensure ⊢
  rcases r with ⟨_ | _, s'⟩
  · exact ⟨hensure.length, hensure.tail⟩
  · simp only
    split <;> exact ⟨hensure.length, hensure.tail⟩

/-- A call is entered, with a frame of its own, unless as many calls are open as may be. -/
theorem enter_cases (depth : Nat) (function : String) (params : List String) (args : List Value)
    (s : State) :
    (depth ≤ s.frames.length ∧
      s.enter depth function params args = (.error (.stackOverflow depth), s.releaseAll args)) ∨
    (s.frames.length < depth ∧ ∃ s' frame, s.enter depth function params args = (.ok (), s') ∧
      s'.frames = frame :: s.frames) := by
  obtain ⟨heap, frames, out, journal⟩ := s
  by_cases hd : depth ≤ frames.length
  · exact .inl ⟨hd, if_pos hd⟩
  · exact .inr ⟨Nat.lt_of_not_le hd, _, _, if_neg hd, rfl⟩

/-- A host function works with its own frame. -/
theorem runHost_below (p : HostProgram) (s : State) : SameBelow s (s.runHost p).2 := by
  unfold runHost
  split
  · exact ⟨rfl, rfl⟩
  · exact .of_eq rfl

/-- Leaving takes the innermost frame away. -/
theorem leave_frames (order : TearDown) (s : State) :
    (s.leave order).2.frames = s.frames.tail := by
  obtain ⟨heap, _ | ⟨frame, frames⟩, out, journal⟩ := s <;> rfl

end State

/-! ### Continuations -/

namespace Cont

/-- How many calls have to return to a continuation. -/
def calls {a : Awaits} (k : Cont a) : Nat :=
  match k with
  | .halt => 0
  | .result k => k.calls + 1
  | .rightOperand _ _ k | .operator _ _ k | .negation k | .subscript _ k | .argument _ _ _ _ k =>
    k.calls
  | .test _ _ _ k | .discard k | .assign _ k | .storedValue _ _ k | .store _ _ k
  | .loopTest _ _ k | .rangeLast _ _ _ k | .rangeBegin _ _ _ k | .eachBegin _ _ _ k
  | .returnValue k => k.calls
  | .sequence _ _ _ k | .loopBody _ _ k | .rangeBody _ _ _ _ k | .eachBody _ _ _ _ _ _ k =>
    k.calls

/-- A statement is in a call. -/
theorem calls_pos : ∀ k : Cont .signal, 0 < k.calls
  | .result k => Nat.succ_pos k.calls
  | .sequence _ _ _ k | .loopBody _ _ k | .rangeBody _ _ _ _ k | .eachBody _ _ _ _ _ _ k =>
    calls_pos k

end Cont

namespace Control

/-- How many calls have to return. -/
def calls : Control → Nat
  | eval _ k | value _ k => k.calls
  | block _ _ k | signal _ k => k.calls
  | failing _ k => k.calls

/-- Whether a failure unwinds the continuation. -/
def isFailing : Control → Bool
  | failing _ _ => true
  | _ => false

/-- The control fails, or `n` calls have to return. -/
def Awaiting (n : Nat) (c : Control) : Prop :=
  c.isFailing = false → c.calls = n

/-- A failure can be on its way at any depth. -/
theorem awaiting_failing {n : Nat} {f : Failure} {a : Awaits} {k : Cont a} :
    (failing f k).Awaiting n :=
  Bool.noConfusion

end Control

namespace Machine

open State (SameBelow)

variable {code : Code} {s s' : State} {c : Control} {depth n : Nat}

/-- What a step does to the frames of the state `s`, when `n` calls have to return and no more
    than `depth` may be open. -/
inductive Shift (depth n : Nat) (s : State) : Control × State → Prop
  | keep {c : Control} {s' : State} (hs : s'.frames = s.frames) (hc : c.Awaiting n) :
      Shift depth n s (c, s')
  | write {c : Control} {s' : State} (hn : 0 < n) (hs : SameBelow s s') (hc : c.Awaiting n) :
      Shift depth n s (c, s')
  | enter {c : Control} {s' : State} {frame : Frame} (hd : s.frames.length < depth)
      (hs : s'.frames = frame :: s.frames) (hc : c.Awaiting (n + 1)) : Shift depth n s (c, s')
  | leave {c : Control} {s' : State} (hn : 0 < n) (hs : s'.frames = s.frames.tail)
      (hc : c.isFailing = false → c.calls + 1 = n) : Shift depth n s (c, s')

theorem settle_awaiting (k : Cont .value) (r : Except Fault Value × State) :
    (settle k r).1.Awaiting k.calls := by
  rcases r with ⟨_ | _, _⟩
  · exact Control.awaiting_failing
  · exact fun _ => rfl

theorem settle_state (k : Cont .value) (r : Except Fault Value × State) :
    (settle k r).2 = r.2 := by
  rcases r with ⟨_ | _, _⟩ <;> rfl

/-- What leaves the frames alone hands its value on in the same call. -/
theorem settle_keep {k : Cont .value} {r : Except Fault Value × State}
    (hr : r.2.frames = s.frames) : Shift depth k.calls s (settle k r) :=
  .keep (settle_state k r ▸ hr) (settle_awaiting k r)

/-- What writes a variable is followed by the next statement of the same call. -/
theorem complete_write {signal : Signal} {k : Cont .signal} {r : Except Fault Unit × State}
    (hr : SameBelow s r.2) : Shift depth k.calls s (complete signal k r) := by
  rcases r with ⟨_ | _, _⟩
  · exact .write k.calls_pos hr Control.awaiting_failing
  · exact .write k.calls_pos hr fun _ => rfl

/-- A call of a function of the script enters it. An intrinsic comes back at once, and so does a
    host function that does not fail. -/
theorem call_shift (code : Code) (name callee : String) (args : List Value) (k : Cont .value)
    (s : State) : Shift code.maxDepth k.calls s (call code name callee args k s) := by
  rw [call]
  split
  · exact settle_keep rfl
  · split
    · next f _ =>
      rcases State.enter_cases code.maxDepth f.name f.params args s with
        ⟨-, he⟩ | ⟨hd, s', frame, he, hs'⟩
      · rw [he]
        exact .keep rfl Control.awaiting_failing
      · have hrun := State.runHost_below f.body s'
        rw [he]
        simp only
        generalize s'.runHost f.body = r at hrun ⊢
        obtain ⟨frame', hr⟩ := hrun.exists_frame hs'
        rcases r with ⟨_ | _, s''⟩
        · -- A host function that fails leaves its frame behind.
          exact .enter hd hr Control.awaiting_failing
        · refine settle_keep ?_
          rw [Prod.map_snd, id, State.leave_frames, hr, List.tail_cons]
    · split
      · next f _ =>
        rcases State.enter_cases code.maxDepth f.name f.params args s with
          ⟨-, he⟩ | ⟨hd, s', frame, he, hs'⟩
        · rw [he]
          exact .keep rfl Control.awaiting_failing
        · rw [he]
          exact .enter hd hs' fun _ => rfl
      · exact .keep rfl Control.awaiting_failing

theorem evaluate_shift (e : Expr) (k : Cont .value) (s : State) :
    Shift code.maxDepth k.calls s (evaluate code e k s) := by
  cases e with
  | int | float | index | binary | neg => exact .keep rfl fun _ => rfl
  | str text => exact settle_keep rfl
  | var name => exact settle_keep (State.load_frames name s)
  | call name args =>
    rw [evaluate]
    split
    · exact .keep rfl Control.awaiting_failing
    · cases args with
      | nil => exact call_shift ..
      | cons => exact .keep rfl fun _ => rfl

/-- A round of a loop binds its variable. -/
theorem countFrom_shift (var : String) (i last : Int64) (body : List Stmt) (k : Cont .signal)
    (s : State) : Shift depth k.calls s (countFrom var i last body k s) := by
  rw [countFrom]
  split
  · have hbind := State.bind_below var (.int i) s
    generalize s.bind var (.int i) = r at hbind ⊢
    rcases r with ⟨_ | _, s'⟩
    · exact .write k.calls_pos hbind Control.awaiting_failing
    · exact .write k.calls_pos hbind fun _ => rfl
  · exact .keep rfl fun _ => rfl

theorem walkFrom_shift (key value : String) (body : List Stmt) (subject : Value)
    (cell : Option Handle) (k : Cont .signal) (s : State) :
    Shift depth k.calls s (walkFrom key value body subject cell k s) := by
  cases cell with
  | none => exact .keep rfl fun _ => rfl
  | some h =>
    have hentry := State.onHeap_frames (Heap.entry h) s
    simp only [walkFrom]
    generalize s.onHeap (Heap.entry h) = r at hentry ⊢
    rcases r with ⟨_ | _ | ⟨a, b⟩, s₁⟩
    · exact .keep hentry Control.awaiting_failing
    · exact .keep hentry fun _ => rfl
    · have hkey := (SameBelow.of_eq hentry).trans (State.bind_below key a s₁)
      simp only
      generalize s₁.bind key a = r at hkey ⊢
      rcases r with ⟨_ | _, s₂⟩
      · exact .write k.calls_pos ⟨hkey.length, hkey.tail⟩ Control.awaiting_failing
      · have hvalue := hkey.trans (State.bind_below value b s₂)
        simp only
        generalize s₂.bind value b = r at hvalue ⊢
        rcases r with ⟨_ | _, s₃⟩
        · exact .write k.calls_pos ⟨hvalue.length, hvalue.tail⟩ Control.awaiting_failing
        · exact .write k.calls_pos hvalue fun _ => rfl

/-- The last argument begins a call. Other values write a variable at most. -/
theorem receive_shift (v : Value) (k : Cont .value) (s : State) :
    Shift code.maxDepth k.calls s (receive code v k s) := by
  cases k with
  | halt | rightOperand | storedValue => exact .keep rfl fun _ => rfl
  | operator _ _ k | negation k => exact settle_keep (k := k) rfl
  | subscript name k => exact settle_keep (k := k) (State.loadElement_frames name v s)
  -- Only the last argument opens a call.
  | argument name callee given rest k =>
    cases rest with
    | nil => exact call_shift code name callee _ k s
    | cons => exact .keep rfl fun _ => rfl
  | test | loopTest =>
    simp only [receive]
    split
    · exact .keep rfl fun _ => rfl
    · exact .keep rfl fun _ => rfl
    · exact .keep rfl Control.awaiting_failing
  | discard => exact .keep rfl fun _ => rfl
  | assign name k => exact complete_write (State.bind_below name v s)
  | store name key k => exact complete_write (State.storeElement_below name key v s)
  | rangeLast =>
    cases v with
    | int => exact .keep rfl fun _ => rfl
    | _ => exact .keep rfl Control.awaiting_failing
  | rangeBegin var first body k =>
    cases v with
    | int last => exact countFrom_shift var first last body k s
    | _ => exact .keep rfl Control.awaiting_failing
  | eachBegin key value body k =>
    cases v with
    | array h =>
      simp only [receive]
      split
      · exact walkFrom_shift key value body _ _ k s
      · exact .keep rfl Control.awaiting_failing
    | _ => exact .keep rfl Control.awaiting_failing
  | returnValue k => exact complete_write (State.bind_below Frame.resultName v s)

/-- A signal that reaches the end of a call leaves it. -/
theorem resume_shift (signal : Signal) (k : Cont .signal) (s : State) :
    Shift depth k.calls s (resume code signal k s) := by
  cases k with
  | result k =>
    exact .leave (Nat.succ_pos _) (State.leave_frames _ s) fun _ => rfl
  | sequence | loopBody => cases signal <;> exact .keep rfl fun _ => rfl
  | rangeBody var i last body k =>
    have hnext : Shift depth k.calls s (if i = Int64.maxValue then (.signal .normal k, s)
        else countFrom var (i + 1) last body k s) := by
      split
      · exact .keep rfl fun _ => rfl
      · exact countFrom_shift var (i + 1) last body k s
    cases signal with
    | normal | continued => exact hnext
    | _ => exact .keep rfl fun _ => rfl
  | eachBody key value body subject cell next k =>
    cases signal with
    | normal | continued => exact walkFrom_shift key value body subject _ k s
    | _ => exact .keep rfl fun _ => rfl

theorem execute_awaiting (chain : Chain) (stmts : List Stmt) (k : Cont .signal) :
    (execute chain stmts k).Awaiting k.calls := by
  cases stmts with
  | nil => exact fun _ => rfl
  | cons stmt rest =>
    cases stmt with
    | elseIf | elseThen =>
      cases chain with
      | absent => exact Control.awaiting_failing
      | _ => exact fun _ => rfl
    | ret line value => cases value <;> exact fun _ => rfl
    | _ => exact fun _ => rfl

/-- What a machine that does not fail does to the frames. -/
theorem step_shift (code : Code) (hc : c.isFailing = false) (s : State) :
    Shift code.maxDepth c.calls s (step code c s) := by
  cases c with
  | eval e k => exact evaluate_shift e k s
  | value v k => exact receive_shift v k s
  | block chain stmts k => exact .keep rfl (execute_awaiting chain stmts k)
  | signal signal k => exact resume_shift signal k s
  | failing f k => cases hc

/-- A failure unwinds the continuation, and leaves the frames to whoever called. -/
theorem step_failing (code : Code) (hc : c.isFailing = true) (s : State) :
    (step code c s).1.isFailing = true ∧ (step code c s).2.frames = s.frames := by
  cases c with
  | failing f k => cases k <;> exact ⟨rfl, rfl⟩
  | _ => cases hc

/-! ### Frames that stay -/

/-- The frames `base` are at the bottom as they were, below one frame for each call that has to
    return. A failure may leave more of them. -/
structure Stands (base : List Frame) (p : Control × State) : Prop where
  suffix : base <:+ p.2.frames
  length : p.1.isFailing = false → p.2.frames.length = p.1.calls + base.length

/-- As long as something stands above them, the frames at the bottom are not taken away. -/
theorem suffix_tail {base frames : List Frame} (h : base <:+ frames)
    (hl : base.length < frames.length) : base <:+ frames.tail := by
  obtain ⟨own, rfl⟩ := h
  rcases own with _ | ⟨frame, own⟩
  · exact absurd hl (Nat.lt_irrefl _)
  · exact ⟨own, rfl⟩

variable {base : List Frame}

/-- A shift above some frames leaves them standing. -/
theorem Shift.stands {p : Control × State} (h : Shift depth n s p) (hsuffix : base <:+ s.frames)
    (hl : s.frames.length = n + base.length) : Stands base p := by
  cases h with
  | keep hs hawaiting =>
    refine ⟨hs ▸ hsuffix, fun hnot => ?_⟩
    rw [hs, hl, hawaiting hnot]
  | write hn hs hawaiting =>
    have htail : base <:+ s.frames.tail := suffix_tail hsuffix (by omega)
    refine ⟨(hs.tail ▸ htail).trans (List.tail_suffix _), fun hnot => ?_⟩
    rw [hs.length, hl, hawaiting hnot]
  | enter hd hs hawaiting =>
    refine ⟨hs ▸ hsuffix.trans (List.suffix_cons ..), fun hnot => ?_⟩
    rw [hs, List.length_cons, hl, hawaiting hnot]
    omega
  | leave hn hs hcalls =>
    have htail : base <:+ s.frames.tail := suffix_tail hsuffix (by omega)
    refine ⟨hs ▸ htail, fun hnot => ?_⟩
    have := hcalls hnot
    rw [hs, List.length_tail]
    dsimp only
    omega

/-- One step keeps them standing. -/
theorem Stands.step (h : Stands base (c, s)) (code : Code) : Stands base (step code c s) := by
  obtain ⟨hsuffix, hlength⟩ := h
  cases hc : c.isFailing with
  | true =>
    obtain ⟨hfailing, hframes⟩ := step_failing code hc s
    exact ⟨hframes ▸ hsuffix, fun hnot => absurd (hfailing.symm.trans hnot) Bool.noConfusion⟩
  | false => exact (step_shift code hc s).stands hsuffix (hlength hc)

/-- So do any number of steps, by induction on the steps. -/
theorem Stands.after {p : Control × State} (h : Stands base p) (code : Code) (n : Nat) :
    Stands base (after code n p) := by
  induction n generalizing p with
  | zero => exact h
  | succ n ih => exact ih (h.step code)

/-- What is left of a run that began with the frames `base` and no call to return from. -/
theorem Stands.result {fuel : Nat} {r : Except Failure Value} (h : Stands base (c, s))
    (hr : run code fuel c s = some (r, s')) :
    base <:+ s'.frames ∧ ∀ v, r = .ok v → s'.frames = base := by
  have ended {c : Control} {s : State} (h : Stands base (c, s)) (hc : c.result? = some r) :
      base <:+ s.frames ∧ ∀ v, r = .ok v → s.frames = base := by
    refine ⟨h.suffix, ?_⟩
    rintro v rfl
    simp only [Control.result?] at hc
    split at hc <;> cases hc
    exact (h.suffix.eq_of_length ((h.length rfl).trans (Nat.zero_add _)).symm).symm
  induction fuel generalizing c s with
  | zero =>
    rw [run] at hr
    split at hr
    · next hres =>
      cases hr
      exact ended h hres
    · cases hr
  | succ fuel ih =>
    rw [run] at hr
    split at hr
    · next hres =>
      cases hr
      exact ended h hres
    · exact ih (h.step code) hr

/-- An expression begins to be evaluated when no call has to return to it. -/
theorem Stands.eval (e : Expr) (s : State) : Stands s.frames (.eval e .halt, s) :=
  ⟨List.suffix_rfl, fun _ => (Nat.zero_add _).symm⟩

/-! ### How many calls are open -/

/-- A call is entered only where fewer are open than may be. -/
theorem Shift.depth_le {p : Control × State} (h : Shift depth n s p)
    (hs : s.frames.length ≤ depth) : p.2.frames.length ≤ depth := by
  cases h with
  | keep hs' => rwa [hs']
  | write _ hs' => rwa [hs'.length]
  | enter hd hs' => rwa [hs', List.length_cons, Nat.succ_le_iff]
  | leave _ hs' =>
    rw [hs', List.length_tail]
    omega

theorem step_depth (hs : s.frames.length ≤ code.maxDepth) :
    (step code c s).2.frames.length ≤ code.maxDepth := by
  cases hc : c.isFailing with
  | true => rwa [(step_failing code hc s).2]
  | false => exact (step_shift code hc s).depth_le hs

/-- No more calls are open than may be, after any number of steps. -/
theorem after_depth {p : Control × State} (hp : p.2.frames.length ≤ code.maxDepth) (n : Nat) :
    (after code n p).2.frames.length ≤ code.maxDepth := by
  induction n generalizing p with
  | zero => exact hp
  | succ n ih => exact ih (step_depth hp)

end Machine

end PoolScript
