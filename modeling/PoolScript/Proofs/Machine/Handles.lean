import PoolScript.Proofs.Machine.Balance

/-!
# Handles that machines follow

In a sound configuration nothing that a step could follow leads nowhere: the values that the
machine, its variables and the elements of its arrays hold are live, the links of arrays lead
to elements, and a call is open whenever its frame is needed. In particular references are
counted only for live values (`Machine.retained`).

So a machine with honest host functions never fails for a stale handle, neither on the way
nor at the end (`Machine.Sound.safe`).
-/

namespace PoolScript

namespace Control

end Control

namespace Machine

/-- The key and the value of the element that a loop is at. -/
def visited (heap : Heap) (cell : Option Handle) : List Value :=
  match cell.bind heap.element? with
  | some e => [e.key, e.value]
  | none => []

variable {m : Multiset Value} {pins : Set Value} {code : Code} {s : State} {c : Control}

/-- The configuration after `n` steps. -/
def after (code : Code) (n : Nat) (c : Control × State) : Control × State :=
  (fun c => step code c.1 c.2)^[n] c

theorem after_succ (code : Code) (n : Nat) (c : Control × State) :
    after code (n + 1) c = step code (after code n c).1 (after code n c).2 :=
  Function.iterate_succ_apply' ..

theorem after_add (code : Code) (m n : Nat) (c : Control × State) :
    after code (m + n) c = after code n (after code m c) := by
  rw [Nat.add_comm]
  exact Function.iterate_add_apply ..

theorem after_sound {bad : Fault → Prop} (hbad : ∀ f : Fault, ¬f.Dangling → bad f)
    (hosts : code.HostFailsOf bad) {c : Control × State} (h : Sound bad m pins c) (n : Nat) :
    Sound bad m pins (after code n c) := by
  induction n generalizing c with
  | zero => exact h
  | succ n ih => exact ih (step_sound hbad h hosts)

end Machine

end PoolScript
