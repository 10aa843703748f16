import PoolScript.Proofs.Heap.Actions
import PoolScript.Proofs.Session.Runs

/-!
# What a host does with a session

Between runs and calls the host works on the heap of a session, with values that it holds, as
`PoolScript.Proofs.Heap.Actions` tells. A `HostAction` is that, a run, a call, or a change to the
session itself. A run and a reset clear the heap, and with it goes all that the host held.

An action that takes and borrows values that the host holds leaves the session at rest
(`HostAction.perform_rests`). Any action at all evolves the heap (`HostAction.perform_evolves`).
-/

namespace PoolScript

/-- What a host can do with a session. -/
inductive HostAction where
  | run
  | call (name : String) (args : List Value)
  | heap (a : HeapAction)
  | reset
  | register (fs : List HostFunction)
  | setSink

namespace HostAction

/-- The values that an action takes. -/
def takes : HostAction → List Value
  | call _ args => args
  | heap a => a.takes
  | _ => []

/-- The values that an action borrows. -/
def borrows : HostAction → List Value
  | heap a => a.borrows
  | _ => []

/-- Whether an action clears the heap. -/
def clears : HostAction → Bool
  | run | reset => true
  | _ => false

/-- An action pins only values in `pins`. -/
def PinsIn (pins : Set Value) : HostAction → Prop
  | heap a => a.PinsIn pins
  | _ => True

/-- Does something with a session, if the fuel suffices. Gives the values that come of it. -/
def perform (fuel : Nat) : HostAction → Session → Option (List Value × Session)
  | run, s => (s.run fuel).map fun s => ([], s)
  | call name args, s => (s.call fuel name args).map fun r => (returned r.1, r.2)
  | heap a, s => some (s.onHeap a.perform)
  | reset, s => some (s.onHeap fun heap => ([], heap.clear))
  | register fs, s => some ([], (s.register fs).2)
  | setSink, s => some ([], s.setSink)

end HostAction

/-! ### Actions keep balance -/

variable {heap : Heap} {m : Multiset Value} {pins : Set Value}

/-- An action with values that the host holds leaves the session at rest. -/
theorem HostAction.perform_rests {a : HostAction} {s s' : Session} {fuel : Nat} {given : List Value}
    (h : s.Rests (a.takes + m) pins) (ha : ∀ v ∈ a.borrows, v ∈ m) (hp : a.PinsIn pins)
    (hr : a.perform fuel s = some (given, s')) :
    s'.Rests (given + if a.clears then 0 else m) pins := by
  -- Runs and calls leave no call open, and everything else is done to the heap or beside it.
  cases a with
  | run =>
    obtain ⟨s₁, hs, he⟩ := Option.map_eq_some_iff.1 hr
    cases he
    exact Session.run_rests h.heap.strings h.heap.cells hs
  | call name args =>
    obtain ⟨r, hs, he⟩ := Option.map_eq_some_iff.1 hr
    cases he
    exact Session.call_rests h hs
  | heap a =>
    cases hr
    exact ⟨a.perform_balanced h.heap ha hp, h.frames⟩
  | reset =>
    cases hr
    exact ⟨.clear h.heap.strings h.heap.cells, h.frames⟩
  | register fs =>
    have h₀ : s.Rests (([] : List Value) + m) pins := h
    cases hr
    exact ⟨h₀.heap, h₀.frames⟩
  | setSink =>
    cases hr
    exact ⟨h.heap, h.frames⟩

/-! ### Actions evolve the heap -/

/-- Whatever the host does, the heap evolves. -/
theorem HostAction.perform_evolves {a : HostAction} {s s' : Session} {fuel : Nat}
    {given : List Value} (hr : a.perform fuel s = some (given, s')) :
    s.state.heap.Evolves s'.state.heap := by
  cases a with
  | run =>
    obtain ⟨s₁, hs, he⟩ := Option.map_eq_some_iff.1 hr
    cases he
    exact (State.reset_evolves (.refl _) _).trans (Session.run_evolves hs)
  | call name args =>
    obtain ⟨r, hs, he⟩ := Option.map_eq_some_iff.1 hr
    cases he
    exact Session.call_evolves hs
  | heap a =>
    cases hr
    exact a.perform_evolves s.state.heap
  | reset =>
    cases hr
    exact (Heap.Evolves.refl _).clear
  | register fs =>
    cases hr
    exact .refl _
  | setSink =>
    cases hr
    exact .refl _

/-- What the host held before an action that clears the heap is retired after it. -/
theorem HostAction.perform_retires {a : HostAction} {s s' : Session} {fuel : Nat}
    {given : List Value} (hs : s.state.heap.strings.WellFormed)
    (hc : s.state.heap.cells.WellFormed) (ha : a.clears)
    (hr : a.perform fuel s = some (given, s')) {v : Value} (hv : v.isCounted)
    (hl : s.state.heap.isLive v) : s'.state.heap.Retired v := by
  cases a with
  | run =>
    obtain ⟨s₁, hr, he⟩ := Option.map_eq_some_iff.1 hr
    cases he
    refine (Session.run_evolves hr).retired ?_
    have hu := State.reset_evolves (.refl s.state.heap) s.platform.order
    exact hu.retired_of_clear hs hc hl hv
  | reset =>
    cases hr
    exact (Heap.Evolves.refl s.state.heap).clear.retired_of_clear hs hc hl hv
  | call => cases ha
  | heap => cases ha
  | register => cases ha
  | setSink => cases ha

end PoolScript
