import PoolScript.Proofs.Heap.Draining
import PoolScript.Proofs.Heap.Holding

/-!
# Generations that come round

A vacant slot that is next in line can be taken and given back any number of times, whatever else
the heap holds (`Leads.turned`). Nothing changes but how often it was vacated, so that a handle that
was issued for it long ago is issued again (`Leads.reissues`).

So those who hold a value while the heap is cleared can give it back when an element of another
array is where it led (`wrapped`). The element is gone then, though its array is still there
(`torn`). This is what `Holding.Certain` rules out.
-/

namespace PoolScript

namespace Pool

variable {α : Type} {p : Pool α} {i n : Nat}

/-- The slot `i` is vacant after it was vacated `n` times, and it is the next one to be taken. -/
structure Awaits (p : Pool α) (i n : Nat) : Prop where
  next : p.free.head? = some i
  vacant : ∃ slot ∈ p.slots[i]?, slot.frees = n ∧ slot.entry = none

/-- The pool in which the slot `i`, which is vacant, was vacated `n` times. -/
def turned (p : Pool α) (i n : Nat) : Pool α :=
  { p with slots := p.slots.setIfInBounds i ⟨n, none⟩ }

theorem Awaits.slot (h : p.Awaits i n) : p.slots[i]? = some ⟨n, none⟩ := by
  obtain ⟨slot, hs, rfl, he⟩ := h.vacant
  exact hs.trans (congrArg some (by cases slot; cases he; rfl))

theorem Awaits.turned_self (h : p.Awaits i n) : p.turned i n = p := by
  obtain ⟨hi, hs⟩ := Array.getElem?_eq_some_iff.1 h.slot
  have hself : p.slots.setIfInBounds i ⟨n, none⟩ = p.slots := by
    rw [← hs, Array.setIfInBounds, dif_pos hi, Array.set_getElem_self]
  rw [turned, hself]

/-- A slot that was vacated more often awaits its turn as before. -/
theorem Awaits.turned (h : p.Awaits i n) (m : Nat) : (p.turned i m).Awaits i m where
  next := h.next
  vacant := by
    obtain ⟨hi, -⟩ := Array.getElem?_eq_some_iff.1 h.slot
    simp [Pool.turned, hi]

theorem turned_turned (m : Nat) : (p.turned i m).turned i n = p.turned i n := by
  simp [turned]

/-- What is put into the slot can be taken out of it again. -/
theorem Awaits.round (h : p.Awaits i n) (a : α) :
    ∃ q, p.alloc a = (.ok ⟨i, .ofNat n⟩, q) ∧
      q.release ⟨i, .ofNat n⟩ = (some a, p.turned i (n + 1)) := by
  obtain ⟨hi, hs⟩ := Array.getElem?_eq_some_iff.1 h.slot
  obtain ⟨free, hfree⟩ := List.head?_eq_some_iff.1 h.next
  refine ⟨_, by simp only [alloc, hfree, freesAt, h.slot]; rfl, ?_⟩
  simp [release, entry?, put, vacate, freesAt, hs, hi, Slot.generation, Pool.turned, hfree]

end Pool

namespace Heap.Holding

variable {s : Holding} {strings cells i n : Nat}

/-- The holding in whose heap the slot `i` for cells was vacated `n` times. -/
def turned (s : Holding) (i n : Nat) : Holding :=
  { s with heap := ⟨s.heap.strings, s.heap.cells.turned i n⟩ }

/-- An array that is made in a vacant slot and given back leaves the slot vacated once more. -/
theorem Leads.turn (h : s.heap.cells.Awaits i n) : s.Leads (s.turned i (n + 1)) := by
  obtain ⟨q, hq, hr⟩ := h.round (.head none)
  let array : Value := .array ⟨i, .ofNat n⟩
  have hmade : s.heap.allocArray = (.ok array, ⟨s.heap.strings, q⟩) := by
    simp only [allocArray, hq]
    rfl
  have hgiven : (⟨s.heap.strings, q⟩ : Heap).releaseAll [array] = (s.turned i (n + 1)).heap := by
    simp [releaseAll, array, drain_cons, drain_nil, giveBack, hr, elementsOf, collect,
      Holding.turned]
  have make : Step (.act .allocArray) s (s.does .allocArray s.values) :=
    .does (by simp [HeapAction.takes]) (by simp [HeapAction.borrows])
  have give : Step (.act (.releaseAll [array])) (s.does .allocArray s.values)
      ((s.does .allocArray s.values).does (.releaseAll [array]) s.values) :=
    .does (by simp [does, HeapAction.perform, hmade, HeapAction.takes, HeapAction.made])
      (by simp [HeapAction.borrows])
  have he : (s.does .allocArray s.values).does (.releaseAll [array]) s.values =
      s.turned i (n + 1) := by
    simp [does, HeapAction.perform, hmade, hgiven]
    rfl
  exact he ▸ .tail (.single ⟨_, make⟩) ⟨_, give⟩

/-- The slot can be brought to any number beyond. -/
theorem Leads.turned (h : s.heap.cells.Awaits i n) (k : Nat) : s.Leads (s.turned i (n + k)) := by
  induction k with
  | zero =>
    rw [Nat.add_zero, Holding.turned, h.turned_self]
    exact .refl
  | succ k ih =>
    have hk : (s.turned i (n + k)).heap.cells.Awaits i (n + k) := h.turned _
    have he : (s.turned i (n + k)).turned i (n + k + 1) = s.turned i (n + (k + 1)) := by
      rw [Holding.turned, Holding.turned, Holding.turned, Pool.turned_turned, Nat.add_assoc]
    exact he ▸ ih.trans (Leads.turn hk)

/-- Every handle for the slot can be issued again, however long ago it was. -/
theorem Leads.reissues (h : s.heap.cells.Awaits i n) (g : UInt32) :
    ∃ s', s.Leads s' ∧ s'.owned = s.owned ∧ s'.heap.allocArray.1 = .ok (.array ⟨i, g⟩) := by
  -- The slot is brought to a multiple of the number of generations first.
  let m := n + ((UInt32.size - 1) * n + g.toNat)
  have hm : m = UInt32.size * n + g.toNat := by
    simp only [m, UInt32.size]
    omega
  have hg : UInt32.ofNat m = g := by
    refine UInt32.toNat_inj.1 ?_
    rw [UInt32.toNat_ofNat', hm, Nat.mul_add_mod, Nat.mod_eq_of_lt g.toNat_lt]
  obtain ⟨q, hq, -⟩ := (h.turned m).round (Cell.head none)
  refine ⟨s.turned i m, Leads.turned h _, rfl, ?_⟩
  simp only [Holding.turned, allocArray, hq, hg]
  rfl

/-! ### A value that was lost -/

/-- What is there after the heap was cleared. -/
def cleared (s : Holding) : Holding :=
  { s with
    heap := s.heap.clear
    lost := s.lost ∪ {v | v ∈ s.owned ∧ v.isCounted} }

/-- The heap may be cleared at any time. -/
theorem Reached.cleared (h : Reached strings cells s) : Reached strings cells s.cleared :=
  h.tail ⟨_, .clear⟩

/-- What is there after the number `n` was made. -/
def counts (n : Int64) (s : Holding) : Holding :=
  { s with values := {Value.int n} + s.values }

/-- A number may be made at any time. It names nothing. -/
theorem Reached.counts (h : Reached strings cells s) (n : Int64) :
    Reached strings cells (s.counts n) :=
  h.tail ⟨_, .number rfl⟩

/-- An array was made and lost when the heap was cleared. Two arrays were made then, the first one
    in the slot that it had been in. That one was given back. -/
def bereft : Holding :=
  let lost : Value := .array ⟨0, 0⟩
  let first : Value := .array ⟨0, 1⟩
  let second : Value := .array ⟨1, 0⟩
  (start 1 2).does .allocArray 0
    |>.cleared
    |>.does .allocArray {lost}
    |>.does .allocArray {first, lost}
    |>.does (.releaseAll [first]) {second, lost}

/-- A holding like this is reached with room for two cells. -/
theorem bereft_reached : Reached 1 2 bereft := by
  have h : Reached 1 2 (start 1 2) := .refl
  refine (((h.does ?_ ?_).cleared.does ?_ ?_).does ?_ ?_).does ?_ ?_
  all_goals decide +kernel

/-- The slot of the array that was lost came round to where it was. The array that is left has an
    element then, with a text as its value, and the value that was lost leads to this element. -/
def wrapped : Holding :=
  let lost : Value := .array ⟨0, 0⟩
  let second : Value := .array ⟨1, 0⟩
  let text : Value := .str ⟨0, 0⟩
  bereft.turned 0 UInt32.size
    |>.does (.allocScalar (.str "glass")) {second, lost}
    |>.counts 0
    |>.does (.set ⟨1, 0⟩ (.int 0) text) {second, lost}

/-- The slot has come round, and the array that is left has got its element. -/
theorem wrapped_reached : Reached 1 2 wrapped := by
  have hvacant : bereft.heap.cells.Awaits 0 2 := ⟨by decide +kernel, by decide +kernel⟩
  have hcome : Reached 1 2 (bereft.turned 0 UInt32.size) :=
    bereft_reached.trans (Leads.turned hvacant 4294967294)
  refine ((hcome.does ?_ ?_).counts 0).does ?_ ?_
  all_goals decide +kernel

/-- The value that was lost is given back, and the element of the other array with it. -/
def torn : Holding :=
  wrapped.does (.releaseAll [.array ⟨0, 0⟩]) {.array ⟨1, 0⟩}

/-- Giving back a value that was lost is allowed: it is outstanding still. -/
theorem torn_reached : Reached 1 2 torn :=
  wrapped_reached.does (by decide +kernel) (by decide +kernel)

/-- The array of which the element was taken is live, and linked to where it was. -/
theorem torn_head : torn.heap.cells.get? ⟨1, 0⟩ = some (.head (some ⟨0, 0⟩)) := by decide +kernel

theorem torn_element : torn.heap.cells.get? ⟨0, 0⟩ = none := by decide +kernel

end Heap.Holding

end PoolScript
