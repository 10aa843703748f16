import PoolScript.Fault

/-!
# Pools

A pool has a fixed number of slots for things of one type. A slot in use counts the
references to what it holds and can be pinned; it is vacated when the count comes down
to zero while it is not pinned, or when the pin is lifted while the count is zero. What
is vacated last is used again first, and a new slot is opened only when none is vacant.

Every time a slot is vacated its generation advances, so that the handles to what it held
do not lead to what it holds next.

Generations, counts and the numbers of slots have thirty-two bits. Generations begin anew when they
run out. A count that would run over is a failed assertion. Slots are numbered without a bound here,
which is right for capacities up to `2 ^ 32`; `clear` cuts the number of slots to thirty-two bits.

* `entry?`: what a handle leads to, the view in which the operations are understood;
* `live`, `used`: the slots in use, counted as they are filled and vacated, and counted one by one;
* `used_vacate`, `used_put`: how vacating and changing a slot change the number of slots
  in use.
-/

namespace PoolScript

/-- What a slot in use holds, with the count of the references to it. -/
structure Entry (α : Type) where
  content : α
  refs : Nat
  pinned : Bool

/-- A slot: how often it was vacated, and what it holds. -/
structure Slot (α : Type) where
  frees : Nat
  entry : Option (Entry α)

namespace Slot

variable {α : Type}

/-- The generation of a slot: how often it was vacated, in thirty-two bits. -/
def generation (s : Slot α) : UInt32 :=
  .ofNat s.frees

end Slot

/-- A pool of slots for things of the type `α`. -/
structure Pool (α : Type) where
  name : String
  capacity : Nat
  /-- The slots opened so far. -/
  slots : Array (Slot α)
  /-- The vacant slots among them, the one vacated last in front. -/
  free : List Nat
  /-- The counter of the slots in use. -/
  live : Nat

namespace Pool

variable {α : Type}

/-- The pool with no slot opened. -/
def empty (name : String) (capacity : Nat) : Pool α :=
  { name, capacity, slots := #[], free := [], live := 0 }

/-! ### Reading -/

/-- What the handle `h` leads to. -/
def entry? (p : Pool α) (h : Handle) : Option (Entry α) :=
  match p.slots[h.index]? with
  | some s => if s.generation = h.generation then s.entry else none
  | none => none

/-- What is held where `h` leads to. -/
def get? (p : Pool α) (h : Handle) : Option α :=
  (p.entry? h).map (·.content)

/-- Whether `h` leads anywhere. -/
def isLive (p : Pool α) (h : Handle) : Bool :=
  (p.entry? h).isSome

/-- The number of references counted where `h` leads to. -/
def refs? (p : Pool α) (h : Handle) : Option Nat :=
  (p.entry? h).map (·.refs)

/-- Whether the slot that `h` leads to is pinned. -/
def isPinned? (p : Pool α) (h : Handle) : Option Bool :=
  (p.entry? h).map (·.pinned)

/-- Whether a slot is in use. -/
def inUse (s : Slot α) : Bool :=
  s.entry.isSome

/-- How many slots are in use. The counter `live` says so too (`WellFormed.live_eq`). -/
def used (p : Pool α) : Nat :=
  p.slots.countP inUse

/-- Whether there is neither a vacant slot nor one left to open. -/
def isFull (p : Pool α) : Bool :=
  p.free.isEmpty && p.capacity ≤ p.slots.size

/-! ### Writing -/

/-- How often the slot `i` was vacated. -/
def freesAt (p : Pool α) (i : Nat) : Nat :=
  match p.slots[i]? with
  | some s => s.frees
  | none => 0

/-- The pool in which the slot `i` holds `e`. -/
def put (p : Pool α) (i : Nat) (e : Entry α) : Pool α :=
  let frees := p.freesAt i
  { p with slots := p.slots.setIfInBounds i ⟨frees, some e⟩ }

/-- The pool in which the slot `i`, which was in use, is vacant. -/
def vacate (p : Pool α) (i : Nat) : Pool α :=
  let frees := p.freesAt i + 1
  { p with
    slots := p.slots.setIfInBounds i ⟨frees, none⟩
    free := i :: p.free
    live := p.live - 1 }

/-- Puts `a` into a vacant slot, or else a new one, with one reference to it. -/
def alloc (p : Pool α) (a : α) : Except Fault Handle × Pool α :=
  let e : Entry α := ⟨a, 1, false⟩
  match p.free with
  | i :: free =>
    let h : Handle := ⟨i, .ofNat (p.freesAt i)⟩
    (.ok h, { p.put i e with free, live := p.live + 1 })
  | [] =>
    if p.slots.size < p.capacity then
      (.ok ⟨p.slots.size, 0⟩, { p with slots := p.slots.push ⟨0, some e⟩, live := p.live + 1 })
    else (.error (.poolExhausted p.name p.capacity), p)

/-- Changes what is held where `h` leads to. -/
def modify (p : Pool α) (h : Handle) (f : α → α) : Pool α :=
  match p.entry? h with
  | some e => p.put h.index { e with content := f e.content }
  | none => p

/-- Counts one more reference, if the count does not run over. Says whether there is something to
    refer to. -/
def retain (p : Pool α) (h : Handle) : Except Fault Bool × Pool α :=
  match p.entry? h with
  | some e =>
    if e.refs + 1 < UInt32.size then (.ok true, p.put h.index { e with refs := e.refs + 1 })
    else (.error (.aborted .countFits), p)
  | none => (.ok false, p)

/-- Counts one reference less. Gives what was held, if that vacates the slot. -/
def release (p : Pool α) (h : Handle) : Option α × Pool α :=
  match p.entry? h with
  | some e =>
    if e.refs ≤ 1 ∧ ¬ e.pinned then (some e.content, p.vacate h.index)
    else (none, p.put h.index { e with refs := e.refs - 1 })
  | none => (none, p)

/-- Keeps the slot from being vacated. Says whether there is one. -/
def pin (p : Pool α) (h : Handle) : Bool × Pool α :=
  match p.entry? h with
  | some e => (true, p.put h.index { e with pinned := true })
  | none => (false, p)

/-- Lifts the pin. Gives what was held, if that vacates the slot. -/
def unpin (p : Pool α) (h : Handle) : Option α × Pool α :=
  match p.entry? h with
  | some e =>
    if e.refs = 0 then (some e.content, p.vacate h.index)
    else (none, p.put h.index { e with pinned := false })
  | none => (none, p)

/-- Vacates the slot whatever its count. Gives what was held. -/
def reclaim (p : Pool α) (h : Handle) : Option α × Pool α :=
  match p.entry? h with
  | some e => (some e.content, p.vacate h.index)
  | none => (none, p)

/-- Vacates the slot `i` if it is in use. -/
def clearSlot (p : Pool α) (i : Nat) : Pool α :=
  match p.slots[i]? with
  | some s => if inUse s then p.vacate i else p
  | none => p

/-- Vacates slots in ascending order: all of them, unless there are `2 ^ 32` or more. The number of
    slots is cut to thirty-two bits, which leaves none of `2 ^ 32` (see `clear_of_size_eq`). -/
def clear (p : Pool α) : Pool α :=
  (List.range (p.slots.size % UInt32.size)).foldl clearSlot p

/-! ### Slots in use -/

theorem exists_slot_of_entry? {p : Pool α} {h : Handle} {e : Entry α} (he : p.entry? h = some e) :
    ∃ hi : h.index < p.slots.size, p.slots[h.index].entry = some e := by
  unfold entry? at he
  split at he
  · next s hs =>
    obtain ⟨hi, rfl⟩ := Array.getElem?_eq_some_iff.1 hs
    split at he
    · exact ⟨hi, he⟩
    · cases he
  · cases he

/-- Vacating a slot in use leaves one slot fewer in use. -/
theorem used_vacate {p : Pool α} {h : Handle} {e : Entry α} (he : p.entry? h = some e) :
    (p.vacate h.index).used + 1 = p.used := by
  obtain ⟨hi, hs⟩ := exists_slot_of_entry? he
  have hu : inUse p.slots[h.index] = true := by simp [inUse, hs]
  have hp : 0 < p.slots.countP inUse := Array.countP_pos_iff.2 ⟨_, Array.getElem_mem hi, hu⟩
  simp only [used, vacate, Array.setIfInBounds, dif_pos hi, Array.countP_set, hu]
  simp [inUse]
  omega

/-- Changing what a slot in use holds keeps it in use. -/
theorem used_put {p : Pool α} {h : Handle} {e : Entry α} (he : p.entry? h = some e)
    (e' : Entry α) : (p.put h.index e').used = p.used := by
  obtain ⟨hi, hs⟩ := exists_slot_of_entry? he
  have hu : inUse p.slots[h.index] = true := by simp [inUse, hs]
  have hp : 0 < p.slots.countP inUse := Array.countP_pos_iff.2 ⟨_, Array.getElem_mem hi, hu⟩
  simp only [used, put, Array.setIfInBounds, dif_pos hi, Array.countP_set, hu]
  simp [inUse]
  omega

theorem used_release_some {p q : Pool α} {h : Handle} {a : α} (hr : p.release h = (some a, q)) :
    q.used + 1 = p.used := by
  unfold release at hr
  split at hr
  · next e he =>
    split at hr
    · cases hr; exact used_vacate he
    · cases hr
  · cases hr

theorem used_release_none {p q : Pool α} {h : Handle} (hr : p.release h = (none, q)) :
    q.used = p.used := by
  unfold release at hr
  split at hr
  · next e he =>
    split at hr
    · cases hr
    · cases hr; exact used_put he _
  · cases hr; rfl

theorem used_reclaim_some {p q : Pool α} {h : Handle} {a : α} (hr : p.reclaim h = (some a, q)) :
    q.used + 1 = p.used := by
  unfold reclaim at hr
  split at hr
  · next e he => cases hr; exact used_vacate he
  · cases hr

theorem used_reclaim_none {p q : Pool α} {h : Handle} (hr : p.reclaim h = (none, q)) :
    q.used = p.used := by
  unfold reclaim at hr
  split at hr
  · cases hr
  · cases hr; rfl

end Pool

end PoolScript
