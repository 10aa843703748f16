import PoolScript.Proofs.Session.Handles
import PoolScript.Proofs.Session.Parallel

/-!
# Runs of used sessions

A session can be used for any number of runs and calls, successful or not, and its host can
leave what it likes in the heap. A run does not notice: it has the same outcome as a run of a
new session, although it is given other slots, in another order and in other generations
(`Session.run_fresh`). That holds as long as no slot runs out of generations.

The two sessions need not give the variables of their calls up in the same order, which is up to
hash tables and not the same in two of them. In which slot something is put depends on it
(`spend_wasteful`), but the outcome does not. What else the platform decides is the same for both:
the signs of computed NaNs.
-/

namespace PoolScript

theorem LineWriter.flush_pending (out : LineWriter) : out.flush.pending = "" := by
  obtain ⟨pending, lines, earlier⟩ := out
  simp only [LineWriter.flush]
  split
  · next h => exact String.isEmpty_iff.1 h
  · rfl

namespace HostAction

variable {a : HostAction} {s s' : Session} {fuel : Nat} {given : List Value}

/-- Limits, functions and platform of a session stay as they are. -/
theorem perform_fixed (hr : a.perform fuel s = some (given, s')) :
    s'.limits = s.limits ∧ s'.functions = s.functions ∧ s'.platform = s.platform := by
  cases a with
  | run =>
    obtain ⟨s₁, hs, he⟩ := Option.map_eq_some_iff.1 hr
    cases he
    rcases Session.run_cases hs with ⟨v, state, -, rfl⟩ | ⟨f, state, -, rfl⟩ <;>
      exact ⟨rfl, rfl, rfl⟩
  | call name args =>
    obtain ⟨r, hs, he⟩ := Option.map_eq_some_iff.1 hr
    cases he
    rcases Session.call_cases hs with ⟨v, state, -, -, he⟩ | ⟨f, state, -, -, he⟩ <;>
      exact he ▸ ⟨rfl, rfl, rfl⟩
  | register fs => cases hr; exact ⟨rfl, rfl, rfl⟩
  | heap a => cases hr; exact ⟨rfl, rfl, rfl⟩
  | reset => cases hr; exact ⟨rfl, rfl, rfl⟩
  | setSink => cases hr; exact ⟨rfl, rfl, rfl⟩

/-- No line waits between actions. -/
theorem perform_pending (hr : a.perform fuel s = some (given, s'))
    (hp : s.state.out.pending = "") : s'.state.out.pending = "" := by
  cases a with
  | run =>
    obtain ⟨s₁, hs, he⟩ := Option.map_eq_some_iff.1 hr
    cases he
    rcases Session.run_cases hs with ⟨v, state, -, rfl⟩ | ⟨f, state, -, rfl⟩ <;>
      exact LineWriter.flush_pending _
  | call name args =>
    obtain ⟨r, hs, he⟩ := Option.map_eq_some_iff.1 hr
    cases he
    rcases Session.call_cases hs with ⟨v, state, -, -, he⟩ | ⟨f, state, -, -, he⟩ <;>
      exact he ▸ LineWriter.flush_pending _
  | register fs => cases hr; exact hp
  | heap a => cases hr; exact hp
  | reset => cases hr; exact hp
  | setSink => cases hr; exact LineWriter.flush_pending _

end HostAction

/-- The order from the last variable on. -/
def TearDown.last : TearDown :=
  ⟨fun _ frame => frame.values.reverse, fun _ frame => frame.values.reverse_perm⟩

namespace Session

variable {program : Program} {limits : Limits} {s : Session}

theorem Reached.fixed (h : Reached program limits s) :
    s.limits = limits ∧ s.functions = (Session.new program limits).functions := by
  induction h with
  | new => exact ⟨rfl, rfl⟩
  | act _ hr ih =>
    obtain ⟨hl, hf, -⟩ := HostAction.perform_fixed hr
    exact ⟨hl.trans ih.1, hf.trans ih.2⟩

theorem Reached.pending (h : Reached program limits s) : s.state.out.pending = "" := by
  induction h with
  | new => rfl
  | act _ hr ih => exact HostAction.perform_pending hr ih

/-- A new session with host functions. -/
def fresh (program : Program) (limits : Limits) (host : Registry) (platform : Platform := .plain) :
    Session :=
  { Session.new program limits platform with host }

end Session

end PoolScript
