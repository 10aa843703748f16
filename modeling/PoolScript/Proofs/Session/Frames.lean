import PoolScript.Proofs.Host.Faults
import PoolScript.Proofs.Machine.Frames
import PoolScript.Proofs.Session.Handles

/-!
# Expressions, calls and frames

What is known of the frames of a session that a host may have done anything with:

* an expression leaves the frames that it finds as they are, whatever is to be done after it
  (`Machine.LeavesFrames`);
* no more calls are open than the limits allow, at any point of a run or a call;
* a call of a function of the script or of the host fails for the depth if it is begun when that
  many calls are open, and then its arguments are given back. Otherwise it does not fail for the
  depth (`Machine.call_overflows_iff`), unless a host function says so of its own accord, which
  none that is honest does.
-/

namespace PoolScript

/-- The control fails because too many calls are open. -/
def Control.Overflows : Control → Prop
  | .failing f _ => f.fault.kind = .stackOverflow
  | _ => False

namespace Code

variable (code : Code)

/-- The name stands for a function of the host or of the script, and not for an intrinsic. -/
def OpensCall (callee : String) : Prop :=
  Intrinsic.ofName? callee = none ∧
    ((code.host.get? callee).isSome ∨ (code.functions.get? callee).isSome)

/-- The name stands for a host function that can be called in the state `s` and fails because,
    as it says, too many calls are open. -/
def HostOverflows (callee : String) (args : List Value) (s : State) : Prop :=
  Intrinsic.ofName? callee = none ∧
    ∃ f s₁ e s₂, code.host.get? callee = some f ∧
      s.enter code.maxDepth f.name f.params args = (.ok (), s₁) ∧
      s₁.runHost f.body = (.error e, s₂) ∧ e.kind = .stackOverflow

end Code

namespace State

variable {s s' : State} {f : Fault}

/-- An honest host function in a call does not fail because too many are open. -/
theorem runHost_shallow {frame : Frame} {frames : List Frame} {p : HostProgram}
    (hp : p.Honest ∅) (hs : s.frames = frame :: frames) (hr : s.runHost p = (.error f, s')) :
    f.kind ≠ .stackOverflow := by
  obtain ⟨heap, _, out, journal⟩ := s
  subst hs
  have hordinary := p.run_ordinary hp (fun _ hf => hf.elim) heap frame [] journal
  rw [runHost] at hr
  exact Fault.Kind.ne_stackOverflow (hordinary.error (congrArg Prod.fst hr))

end State

namespace Machine

variable {code : Code} {name callee : String} {args : List Value} {k : Cont .value} {s : State}

theorem settle_overflows {r : Except Fault Value} (h : Fault.Ordinary r)
    (s : State) (k : Cont .value) : ¬ (settle k (r, s)).1.Overflows := by
  cases r with
  | ok v => exact id
  | error f => exact Fault.Kind.ne_stackOverflow h

/-- A call that is begun when as many calls are open as may be fails, and its arguments are
    given back. -/
theorem call_at_limit (hopens : code.OpensCall callee) (hd : s.frames.length = code.maxDepth) :
    call code name callee args k s =
      (.failing (.of (.stackOverflow code.maxDepth)) k, s.releaseAll args) := by
  have enter (function : String) (params : List String) :
      s.enter code.maxDepth function params args =
        (.error (.stackOverflow code.maxDepth), s.releaseAll args) := by
    rcases State.enter_cases code.maxDepth function params args s with ⟨-, he⟩ | ⟨hlt, -⟩
    · exact he
    · omega
  obtain ⟨hi, hf⟩ := hopens
  rw [call, hi]
  simp only
  split
  · rw [enter]
  · next hnone =>
    rcases hf with hf | hf
    · rw [hnone] at hf
      cases hf
    · obtain ⟨f, hf⟩ := Option.isSome_iff_exists.1 hf
      rw [hf]
      simp only
      rw [enter]

/-- Whether a call fails for the depth. -/
theorem call_overflows_iff (hd : s.frames.length ≤ code.maxDepth) :
    (call code name callee args k s).1.Overflows ↔
      code.OpensCall callee ∧ s.frames.length = code.maxDepth ∨
        code.HostOverflows callee args s := by
  constructor
  · intro h
    rw [call] at h
    split at h
    · next i _ => exact absurd h (settle_overflows (i.call_ordinary args s.heap s.out) _ k)
    · next hi =>
      -- A call that cannot be opened is one too many.
      have atLimit (hf : (code.host.get? callee).isSome ∨ (code.functions.get? callee).isSome)
          {function : String} {params : List String} {e : Fault} {s' : State}
          (he : s.enter code.maxDepth function params args = (.error e, s')) :
          code.OpensCall callee ∧ s.frames.length = code.maxDepth := by
        refine ⟨⟨hi, hf⟩, ?_⟩
        rcases State.enter_cases code.maxDepth function params args s with ⟨hle, -⟩ | ⟨-, he'⟩
        · exact Nat.le_antisymm hd hle
        · obtain ⟨s₁, frame, he', -⟩ := he'
          cases he.symm.trans he'
      split at h
      · next f hf =>
        split at h
        · next he => exact .inl (atLimit (.inl (Option.isSome_of_eq_some hf)) he)
        · next s₁ he =>
          split at h
          · -- The frame is there, so it is what the host function did that overflowed.
            next e s₂ hr => exact .inr ⟨hi, f, s₁, e, s₂, hf, he, hr, h⟩
          · exact h.elim
      · split at h
        · next f hf =>
          split at h
          · next he => exact .inl (atLimit (.inr (Option.isSome_of_eq_some hf)) he)
          · exact h.elim
        · cases h
  · rintro (⟨hopens, hl⟩ | ⟨hi, f, s₁, e, s₂, hf, he, hr, hk⟩)
    · rw [call_at_limit hopens hl]
      rfl
    · rw [call, hi]
      simp only [hf, he, hr]
      exact hk

/-- How an expression treats the frames that it finds, alone and before any continuation. -/
structure LeavesFrames (code : Code) (e : Expr) (s : State) : Prop where
  /-- On the way they are at the bottom as they were. -/
  within : ∀ n, s.frames <:+ (after code n (.eval e .halt, s)).2.frames
  /-- When the expression has a value, they are all the frames that there are. -/
  returns : ∀ {fuel v s'}, run code fuel (.eval e .halt) s = some (.ok v, s') →
    s'.frames = s.frames ∧ ∀ k, ∃ n, after code n (.eval e k, s) = (.value v k, s')
  /-- When it fails, they are at the bottom as they were. -/
  fails : ∀ {fuel f s'}, run code fuel (.eval e .halt) s = some (.error f, s') →
    s.frames <:+ s'.frames ∧
      ∀ k : Cont .value, ∃ n, after code n (.eval e k, s) = (.failing f k, s')

theorem leavesFrames (code : Code) (e : Expr) (s : State) : LeavesFrames code e s where
  within n := ((Stands.eval e s).after code n).suffix
  returns hr := ⟨((Stands.eval e s).result hr).2 _ rfl, after_onto hr⟩
  fails hr := ⟨((Stands.eval e s).result hr).1, after_onto hr⟩

end Machine

/-! ### Sessions -/

namespace Session

variable {program : Program} {limits : Limits} {s s' : Session} {fuel : Nat} {name : String}
  {args : List Value}

theorem callToEnd_frames {code : Code} {state state' : State} {v : Value}
    (hs : state.frames = []) (hr : callToEnd code fuel name args state = some (.ok v, state')) :
    state'.frames = [] := by
  have hshift := Machine.call_shift code name name args .halt state
  have hstands : Machine.Stands [] (Machine.call code name name args .halt state) :=
    hshift.stands List.nil_suffix (congrArg List.length hs)
  exact (hstands.result hr).2 v rfl

theorem Reached.frames (h : Reached program limits s) : s.state.frames = [] := by
  induction h with
  | new => rfl
  | @act s s' a fuel given _ hr ih =>
    cases a with
    | run =>
      obtain ⟨s₁, hs, he⟩ := Option.map_eq_some_iff.1 hr
      cases he
      rcases run_cases hs with ⟨v, state, hc, rfl⟩ | ⟨f, state, -, rfl⟩
      · have hf : state.frames = [] := callToEnd_frames rfl hc
        exact hf
      · rfl
    | call name args =>
      obtain ⟨⟨r, s₁⟩, hs, he⟩ := Option.map_eq_some_iff.1 hr
      cases he
      rcases call_cases hs with ⟨v, state, hc, -, rfl⟩ | ⟨f, state, -, -, rfl⟩
      · have hf : state.frames = [] := callToEnd_frames ih hc
        exact hf
      · rfl
    | heap | reset | register | setSink =>
      cases hr
      exact ih

theorem inCall_depth {state : State} (hs : state.frames = []) (n : Nat) :
    (s.inCall name args state n).2.frames.length ≤ s.limits.maxDepth := by
  have hshift := Machine.call_shift s.code name name args .halt state
  have hdepth : (Machine.call s.code name name args .halt state).2.frames.length ≤
      s.code.maxDepth := by
    refine hshift.depth_le ?_
    rw [hs]
    exact Nat.zero_le _
  exact Machine.after_depth hdepth n

/-- An honest host does not say of its own accord that too many calls are open. -/
theorem HonestHosts.not_hostOverflows (hosts : s.HonestHosts) (callee : String)
    (args : List Value) (state : State) : ¬ s.code.HostOverflows callee args state := by
  rintro ⟨-, f, s₁, e, s₂, hf, he, hr, hk⟩
  rcases State.enter_cases s.code.maxDepth f.name f.params args state with
    ⟨-, he'⟩ | ⟨-, s₃, frame, he', hs⟩
  · cases he.symm.trans he'
  · cases he.symm.trans he'
    exact State.runHost_shallow (hosts callee f hf) hs hr hk

/-- How calls treat the frames of a session. -/
structure CallsStack (s : Session) : Prop where
  /-- No more calls are open than may be, in a run and in a call by the host. -/
  depth : ∀ n, (s.inCall "main" [] s.cleared n).2.frames.length ≤ s.limits.maxDepth ∧
    ∀ name args, (s.inCall name args s.state n).2.frames.length ≤ s.limits.maxDepth
  /-- A call of a function of the script or of the host that is begun when as many are open as may
      be fails for that, and its arguments are given back. -/
  overflows : ∀ {name callee args k state}, s.code.OpensCall callee →
    state.frames.length = s.limits.maxDepth →
    Machine.call s.code name callee args k state =
      (.failing (.of (.stackOverflow s.limits.maxDepth)) k, state.releaseAll args)
  /-- No other call fails for that, unless a host function itself says so. -/
  overflows_only : ∀ {name callee args k state}, state.frames.length ≤ s.limits.maxDepth →
    (Machine.call s.code name callee args k state).1.Overflows →
    s.code.OpensCall callee ∧ state.frames.length = s.limits.maxDepth ∨
      s.code.HostOverflows callee args state
  /-- A host function that is honest does not. -/
  honest : s.HonestHosts → ∀ callee args state, ¬ s.code.HostOverflows callee args state

/-- Expressions leave the frames that they find as they are, and calls make a stack that is no
    deeper than the limits allow, whatever the host did with the session before. -/
theorem frames_stack (h : Reached program limits s) :
    (∀ e state, Machine.LeavesFrames s.code e state) ∧ s.CallsStack := by
  refine ⟨Machine.leavesFrames s.code, ?_⟩
  constructor
  · exact fun n => ⟨inCall_depth rfl n, fun name args => inCall_depth h.frames n⟩
  · exact fun hopens hd => Machine.call_at_limit hopens hd
  · exact fun hd ho => (Machine.call_overflows_iff hd).1 ho
  · exact fun hosts => hosts.not_hostOverflows

/-- The state of a run of `shouting` in which `main` was called. -/
def inMain : State :=
  (shouting.inCall "main" [] shouting.cleared 0).2

/-- A call within `main` comes back to it. -/
theorem shouting_frames_stack :
    Reached shouts .default shouting ∧ shouting.CallsStack ∧ inMain.frames.length = 1 ∧
      Machine.LeavesFrames shouting.code (.call "shout" [.str "a"]) inMain ∧
      ∃ v s', Machine.run shouting.code 100 (.eval (.call "shout" [.str "a"]) .halt) inMain =
        some (.ok v, s') ∧ s'.frames = inMain.frames := by
  have h := frames_stack shouting_reached
  have hleaves := h.1 (.call "shout" [.str "a"]) inMain
  have hc : (Machine.run shouting.code 100 (.eval (.call "shout" [.str "a"]) .halt) inMain).any
      fun r => r.1.isOk := by decide +kernel
  obtain ⟨⟨_ | v, s'⟩, hr, hok⟩ := (Option.any_eq_true _ _).1 hc
  · cases hok
  · exact ⟨shouting_reached, h.2, by decide +kernel, hleaves, v, s', hr, (hleaves.returns hr).1⟩

end Session

end PoolScript
