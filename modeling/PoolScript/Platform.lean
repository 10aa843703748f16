import PoolScript.Frame
import PoolScript.Operator

/-!
# What the platform decides

Two things about a run are not said by its script, its limits and its host: the sign of a NaN that
an operator gives, and the order in which the variables of a call are given up when it ends. The
variables are in a hash table, which may list them in any order, and in another one each time.

An order (`TearDown`) is chosen by the variables and by what is in the slots of the heap at the
time. That leaves any order open each time that it matters: a slot that is vacated is never again
in the generation that it was in, so that no two tear-downs which vacate one find the same slots.
-/

namespace PoolScript

/-- What is in the slots of a heap. -/
structure Heap.Slots where
  strings : Array (Slot String)
  cells : Array (Slot Cell)

/-- What is in the slots of the heap. -/
def Heap.slots (heap : Heap) : Heap.Slots :=
  ⟨heap.strings.slots, heap.cells.slots⟩

/-- The order in which the values of variables are given up. -/
structure TearDown where
  list : Heap.Slots → Frame → List Value
  perm : ∀ slots frame, (list slots frame).Perm frame.values

/-- The order in which the variables were first set. -/
def TearDown.first : TearDown :=
  ⟨fun _ frame => frame.values, fun _ _ => .refl _⟩

/-- What the platform decides. -/
structure Platform where
  nanSign : NaNSign
  order : TearDown

/-- A platform where computed NaNs have no sign and variables are given up in the order in which
    they were first set. -/
def Platform.plain : Platform :=
  ⟨.clear, .first⟩

end PoolScript
