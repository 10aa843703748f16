import PoolScript.Proofs.Machine.Range
import PoolScript.Proofs.Session.Frames

/-!
# Loops through ranges

Wherever a run of a session, or a call of it with any values, comes to a loop through a range, the
loop keeps count, whatever its body does (`Session.range_counts`).
-/

namespace PoolScript.Session

variable {program : Program} {limits : Limits} {code : Code} {p : Control × State}

/-- The configurations that runs come to, and calls with any values. -/
inductive Occurs (program : Program) (limits : Limits) : Code → Control × State → Prop
  | run {s : Session} (h : Reached program limits s) (n : Nat) :
      Occurs program limits s.code (s.inCall "main" [] s.cleared n)
  | call {s : Session} (h : Reached program limits s) (name : String) (args : List Value)
      (n : Nat) : Occurs program limits s.code (s.inCall name args s.state n)

theorem inCall_stands {s : Session} {state : State} (hf : state.frames = []) (name : String)
    (args : List Value) (n : Nat) : Machine.Stands [] (s.inCall name args state n) := by
  have hshift := Machine.call_shift s.code name name args .halt state
  exact (hshift.stands List.nil_suffix (congrArg List.length hf)).after s.code n

theorem Occurs.stands (h : Occurs program limits code p) : Machine.Stands [] p := by
  cases h with
  | run _ n => exact inCall_stands rfl "main" [] n
  | call h name args n => exact inCall_stands h.frames name args n

/-- A loop through a range evaluates its bounds, once each, and runs its body for each number of the
    range, in ascending order and once each, unless it is left early; so it ends if its parts do. -/
theorem range_counts (program : Program) (limits : Limits) {l : RangeLoop} {s : State}
    (h : Occurs program limits code (l.begins, s)) : l.KeepsCount code s :=
  l.keepsCount h.stands

/-- A script that counts to the greatest number of all, and loses the count in its variable. -/
def brink : Program :=
  ⟨[⟨"main", [],
    [.forRange 1 "i" (.int 9223372036854775806) (.int 9223372036854775807)
      [.assign 2 "i" (.int 0), .continue 3]],
    1⟩]⟩

def brinking : Session :=
  .new brink .default

/-- The run of `brink` after `n` steps. -/
def brinkAt (n : Nat) : Control × State :=
  brinking.inCall "main" [] brinking.cleared n

/-- The loop of `brink`. -/
def brinker : RangeLoop where
  var := "i"
  first := .int 9223372036854775806
  last := .int 9223372036854775807
  body := [.assign 2 "i" (.int 0), .continue 3]
  after := .sequence 1 .absent [] (.result .halt)

theorem brinkAt_begins : brinkAt 1 = (brinker.begins, (brinkAt 1).2) := by
  have h : (brinkAt 1).1 = brinker.begins := by cbv
  exact Prod.ext h rfl

/-- The loop of `brink` begins a second round, for the greatest number, and ends after that. -/
theorem brink_counts :
    Occurs brink .default brinking.code (brinker.begins, (brinkAt 1).2) ∧
    brinker.KeepsCount brinking.code (brinkAt 1).2 ∧
    (brinkAt 11).1 = brinker.control (.round 9223372036854775807 9223372036854775807) ∧
    Machine.Ends brinking.code brinker.after (brinker.begins, (brinkAt 1).2)
      (.ok .normal, (brinkAt 17).2) := by
  have hoccurs : Occurs brink .default brinking.code (brinker.begins, (brinkAt 1).2) :=
    brinkAt_begins ▸ Occurs.run (Reached.new .plain) 1
  refine ⟨hoccurs, range_counts brink .default hoccurs, by cbv, ?_⟩
  have hafter (n : Nat) : Machine.after brinking.code n (brinker.begins, (brinkAt 1).2) =
      brinkAt (1 + n) := by
    rw [← brinkAt_begins]
    exact (Machine.after_add ..).symm
  refine Machine.ends_after 16 (fun i hi => ?_) ?_
  · have habove : ∀ i < 16, (brinkAt (1 + i)).1.isAbove brinker.after.layers := by
      decide +kernel
    rw [hafter]
    exact habove i hi
  · have hover : (brinkAt 17).1 = .signal .normal brinker.after := by cbv
    rw [hafter]
    exact Prod.ext hover rfl

end PoolScript.Session
