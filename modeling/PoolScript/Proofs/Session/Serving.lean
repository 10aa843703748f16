import PoolScript.Proofs.Host.Failing
import PoolScript.Proofs.Machine.Misplaced
import PoolScript.Proofs.Session.Handles

/-!
# Functions of the host at work

A function of the host is called by a run or a call of a session, itself or somewhere within, and
works on the heap of the session and on the frame of its call (`Session.Serves`). A request that it
makes there and that fails leaves everything as it was, so that it can go on as if it had not made
the request, unless it wanted to store an element in a variable that is not set
(`Session.failing_request`). Then the variable may have become an empty array
(`Session.filling_begins`).
-/

namespace PoolScript

/-- A function of the host that has `heap` and `frame` before it comes to `heap'` and `frame'`. -/
inductive HostProgram.Reaches (heap' : Heap) (frame' : Frame) :
    HostProgram → Heap → Frame → List Handle → Prop
  | here (p : HostProgram) (cursors : List Handle) : Reaches heap' frame' p heap' frame' cursors
  | request {r : HostRequest} {next : Except Fault r.Reply → HostProgram} {heap : Heap}
      {frame : Frame} {cursors : List Handle} :
      Reaches heap' frame' (next (r.answer heap frame).1) (r.answer heap frame).2.1
        (r.answer heap frame).2.2 cursors →
      Reaches heap' frame' (.request r next) heap frame cursors
  | look {l : HostLook} {next : l.Reply → HostProgram} {heap : Heap} {frame : Frame}
      {cursors : List Handle} :
      Reaches heap' frame' (next (l.see heap frame cursors).1) heap frame
        (l.see heap frame cursors).2 →
      Reaches heap' frame' (.look l next) heap frame cursors
  | note {line : String} {next : HostProgram} {heap : Heap} {frame : Frame}
      {cursors : List Handle} :
      Reaches heap' frame' next heap frame cursors →
      Reaches heap' frame' (.note line next) heap frame cursors

theorem HostProgram.Reaches.evolves {p : HostProgram} {heap heap' : Heap} {frame frame' : Frame}
    {cursors : List Handle} (h : p.Reaches heap' frame' heap frame cursors) :
    heap.Evolves heap' := by
  induction h with
  | here => exact .refl _
  | @request r _ _ frame _ _ ih => exact (Heap.Becomes.refl.answer r frame).evolves.trans ih
  | look _ ih => exact ih
  | note _ ih => exact ih

theorem Machine.after_evolves (code : Code) (n : Nat) (p : Control × State) :
    p.2.heap.Evolves (after code n p).2.heap := by
  induction n with
  | zero => exact .refl _
  | succ n ih =>
    rw [after_succ]
    exact step_evolves ih code _

namespace Session

variable {program : Program} {limits : Limits} {heap : Heap} {frame : Frame}

/-- A function is about to be called by its name, with the given arguments: by a run or a call of
    a session, whatever was done with that before, or within such a call. -/
inductive Calling (program : Program) (limits : Limits) :
    Code → String → List Value → State → Prop
  | run {s : Session} : Reached program limits s →
      Calling program limits s.code "main" [] s.cleared
  | call {s : Session} (name : String) (args : List Value) : Reached program limits s →
      Calling program limits s.code name args s.state
  | within {code : Code} {name target : String} {args given : List Value} {s : State} {n : Nat} :
      Calling program limits code name args s →
      Machine.Calls (Machine.after code n (Machine.call code name name args .halt s)) target given →
      Calling program limits code target given
        (Machine.after code n (Machine.call code name name args .halt s)).2

/-- A function of the host is at work, and has come to `heap` and `frame`. -/
inductive Serves (program : Program) (limits : Limits) (heap : Heap) (frame : Frame) : Prop
  | intro {code : Code} {name : String} {args : List Value} {f : HostFunction} {s s' : State}
      {first : Frame} {below : List Frame} (call : Calling program limits code name args s)
      (function : code.host.get? name = some f)
      (enters : s.enter code.maxDepth f.name f.params args = (.ok (), s'))
      (frames : s'.frames = first :: below)
      (reaches : f.body.Reaches heap frame s'.heap first []) : Serves program limits heap frame

theorem Calling.evolves {code : Code} {name : String} {args : List Value} {s : State}
    (h : Calling program limits code name args s) :
    (Session.new program limits).state.heap.Evolves s.heap := by
  induction h with
  | run h => exact State.reset_evolves h.evolves _
  | call _ _ h => exact h.evolves
  | within _ _ ih =>
    exact (ih.trans (Machine.call_becomes .refl ..).evolves).trans (Machine.after_evolves ..)

theorem Serves.evolves (h : Serves program limits heap frame) :
    (Session.new program limits).state.heap.Evolves heap := by
  obtain @⟨code, name, args, f, s, s', first, below, call, -, enters, -, reaches⟩ := h
  have hs := (State.enter_becomes (s := s) .refl code.maxDepth f.name f.params args).evolves
  rw [enters] at hs
  exact (call.evolves.trans hs).trans reaches.evolves

/-- A request of a function of the host that fails leaves the frame and the heap as they were, but
    for the array that is made for an element. -/
theorem failing_request (program : Program) (limits : Limits)
    (h : Serves program limits heap frame) (r : HostRequest) {f : Fault}
    (hf : (r.answer heap frame).1 = .error f) : r.Fails heap frame (r.answer heap frame).2 :=
  have hempty := Heap.wellFormed_empty limits.stringPool limits.arrayPool
  HostRequest.answer_error (h.evolves.strings.wellFormed hempty.1)
    (h.evolves.cells.wellFormed hempty.2) hf

/-! ### An array that stays -/

/-- A host function that stores an element in a variable. -/
def fill : HostFunction :=
  ⟨"fill", ["n"], .request (.arraySet "a" (.int 1) (.int 2)) fun _ => .done⟩

/-- A session with room for one cell. -/
def filling : Session :=
  { Session.new ⟨[]⟩ ⟨1, 1, 1⟩ with host := .add .empty [fill] }

/-- The frame of a call of `fill`. -/
def fillFrame : Frame :=
  ((Frame.empty "fill").set "n" (.int 5)).2

theorem filling_serves : Serves ⟨[]⟩ ⟨1, 1, 1⟩ (.empty 1 1) fillFrame := by
  have hr : Reached ⟨[]⟩ ⟨1, 1, 1⟩ filling := by
    have ha : afterActions 0 [.register [fill]] (.new ⟨[]⟩ ⟨1, 1, 1⟩) = some filling := rfl
    exact (Reached.new .plain).actions _ ha
  have he : filling.state.enter 1 "fill" ["n"] [.int 5] =
      (.ok (), { filling.state with frames := [fillFrame] }) := by
    have hb : State.bindParams (.empty 1 1) (.empty "fill") ["n"] [.int 5] =
        (.empty 1 1, fillFrame) := by
      simp only [State.bindParams, Heap.releaseAll]
      rw [Heap.drain_nil]
      exact congrArg (·, fillFrame) (Heap.drain_nil _)
    exact congrArg (fun p => (Except.ok (), { filling.state with heap := p.1, frames := [p.2] })) hb
  exact .intro (.call "fill" [.int 5] hr) (f := fill) rfl he rfl (.here ..)

/-- A string that was made as the key for what is no array is given back. -/
theorem filling_fails :
    ((HostRequest.arraySet "n" (.str "x") (.int 2)).answer (.empty 1 1) fillFrame).1 =
      .error (.arrayExpected (some .int)) ∧
    HostRequest.Unchanged (.empty 1 1) fillFrame
      ((HostRequest.arraySet "n" (.str "x") (.int 2)).answer (.empty 1 1) fillFrame).2 := by
  have hf : ((HostRequest.arraySet "n" (.str "x") (.int 2)).answer (.empty 1 1) fillFrame).1 =
      .error (.arrayExpected (some .int)) := by
    decide +kernel
  refine ⟨hf, (failing_request _ _ filling_serves _ hf).unchanged ?_⟩
  rintro _ ⟨rfl, hn, -⟩
  cases hn

/-- The array that was made for an element stays when there is no room for the element. -/
theorem filling_begins :
    ∃ heap frame f, Serves ⟨[]⟩ ⟨1, 1, 1⟩ heap frame ∧
      ((HostRequest.arraySet "a" (.int 1) (.int 2)).answer heap frame).1 = .error f ∧
      frame.get? "a" = none ∧
      ((HostRequest.arraySet "a" (.int 1) (.int 2)).answer heap frame).2.2.get? "a" =
        some (.array ⟨0, 0⟩) ∧
      heap.liveCells = 0 ∧
      ((HostRequest.arraySet "a" (.int 1) (.int 2)).answer heap frame).2.1.liveCells = 1 :=
  ⟨.empty 1 1, fillFrame, .poolExhausted "array" 1, filling_serves, by decide +kernel⟩

end Session

end PoolScript
