import Mathlib.Computability.StateTransition
import PoolScript.Proofs.Heap.Draining
import PoolScript.Proofs.Pool.Evolution

/-!
# The list of what remains to be given back

References are given back in a loop: one is taken off the list of those that remain, and if it was
the last one to an array, the elements of the array are freed in an inner loop, which puts their
keys and values on the list. Here the two loops are the rounds that they take (`Releasing.round`),
and nothing says that there is a last one.

There is one in every heap, whatever its cells are linked to. A cell that has been freed is stale,
so an inner loop that comes to it again stops there, and a cell can be freed only once. The list
grows by two for each element that is freed, so references are taken off it once for the first one
and at most twice for each element that there was (`Heap.release_ends`).

What has been freed is the same in all of that: slots that were in use, and each of them once
(`Pool.Sheds`).
-/

namespace PoolScript

namespace Pool

variable {α : Type} {p q r : Pool α} {h : Handle} {e : Entry α} {is js : List Nat}

/-- The slot `i` is open and in use. -/
def Uses (p : Pool α) (i : Nat) : Prop :=
  ∃ s e, p.slots[i]? = some s ∧ s.entry = some e

/-- The slots `is` of `p` are vacated in `q`, from the last one to the first one. They were in use,
    and each of them was vacated once. -/
structure Sheds (p q : Pool α) (is : List Nat) : Prop where
  free : q.free = is ++ p.free
  nodup : is.Nodup
  used : ∀ i ∈ is, p.Uses i
  uses : ∀ i, q.Uses i ↔ p.Uses i ∧ i ∉ is
  freesAt : ∀ i, q.freesAt i = p.freesAt i + is.count i

theorem uses_of_entry? (he : p.entry? h = some e) : p.Uses h.index :=
  have ⟨s, hs, _, hse⟩ := entry?_eq_some.1 he
  ⟨s, e, hs, hse⟩

namespace Sheds

theorem refl (p : Pool α) : p.Sheds p [] :=
  ⟨rfl, List.nodup_nil, nofun, by simp, by simp⟩

/-- What is shed later was still there before. -/
theorem trans (hpq : p.Sheds q is) (hqr : q.Sheds r js) : p.Sheds r (js ++ is) := by
  have hlater : ∀ j ∈ js, p.Uses j ∧ j ∉ is := fun j hj => (hpq.uses j).1 (hqr.used j hj)
  refine ⟨?_, ?_, ?_, fun i => ?_, fun i => ?_⟩
  · rw [hqr.free, hpq.free, List.append_assoc]
  · exact hqr.nodup.append hpq.nodup fun j hj => (hlater j hj).2
  · intro i hi
    rcases List.mem_append.1 hi with hi | hi
    · exact (hlater i hi).1
    · exact hpq.used i hi
  · rw [hqr.uses, hpq.uses, List.mem_append]
    tauto
  · rw [hqr.freesAt, hpq.freesAt, List.count_append]
    omega

theorem put (he : p.entry? h = some e) (e' : Entry α) : p.Sheds (p.put h.index e') [] := by
  refine ⟨rfl, List.nodup_nil, nofun, fun i => ?_, fun i => by simp [freesAt_put]⟩
  by_cases hi : h.index = i
  · subst hi
    have hput : (p.put h.index e').Uses h.index := by simp [Uses, Pool.put, index_lt he]
    simp [hput, uses_of_entry? he]
  · simp [Uses, Pool.put, Array.getElem?_setIfInBounds_ne hi]

theorem vacate (he : p.entry? h = some e) : p.Sheds (p.vacate h.index) [h.index] := by
  refine ⟨rfl, List.nodup_singleton _, ?_, fun i => ?_, fun i => ?_⟩
  · simpa using uses_of_entry? he
  · by_cases hi : h.index = i
    · subst hi
      simp [Uses, Pool.vacate, index_lt he]
    · simp [Uses, Pool.vacate, Array.getElem?_setIfInBounds_ne hi, Ne.symm hi]
  · rw [freesAt_vacate he, List.count_singleton]
    by_cases hi : i = h.index
    · simp [hi]
    · simp [hi, Ne.symm hi]

/-- A reference that is given back is the last one to what it vacates. -/
theorem release (p : Pool α) (h : Handle) : ∃ is, p.Sheds (p.release h).2 is := by
  rw [Pool.release]
  split
  · next e he =>
    split
    · exact ⟨_, vacate he⟩
    · exact ⟨_, put he _⟩
  · exact ⟨_, refl p⟩

theorem reclaim (p : Pool α) (h : Handle) : ∃ is, p.Sheds (p.reclaim h).2 is := by
  rw [Pool.reclaim]
  split
  · next e he => exact ⟨_, vacate he⟩
  · exact ⟨_, refl p⟩

end Sheds

/-! ### What is held -/

theorem contents_release (p : Pool α) (h : Handle) :
    p.contents.Perm ((p.release h).1.toList ++ (p.release h).2.contents) := by
  rw [Pool.release]
  split
  · next e he =>
    split
    · exact contents_vacate he
    · obtain ⟨rest, hr, hr'⟩ := contents_put he { e with refs := e.refs - 1 }
      exact hr.trans hr'.symm
  · exact .refl _

theorem contents_reclaim (p : Pool α) (h : Handle) :
    p.contents.Perm ((p.reclaim h).1.toList ++ (p.reclaim h).2.contents) := by
  rw [Pool.reclaim]
  split
  · next e he => exact contents_vacate he
  · exact .refl _

end Pool

/-- Whether a cell is that of an element. -/
def Cell.isElement : Cell → Bool
  | .head _ => false
  | .element _ => true

/-- Where the loops are: how many references have been taken off the list, the link at which the
    inner loop goes on if it is on, the list of what remains to be given back, and the heap. -/
structure Releasing where
  taken : Nat
  link : Option Handle
  pending : List Value
  heap : Heap

/-- A round of the inner loop if that is on, and of the outer one otherwise. There is none if
    nothing remains to be given back. -/
def Releasing.round : Releasing → Option Releasing
  | ⟨taken, some h, pending, ⟨strings, cells⟩⟩ =>
    match cells.reclaim h with
    | (some (.element e), cells) =>
      some ⟨taken, e.next, e.value :: e.key :: pending, ⟨strings, cells⟩⟩
    | (_, cells) => some ⟨taken, none, pending, ⟨strings, cells⟩⟩
  | ⟨_, none, [], _⟩ => none
  | ⟨taken, none, .str h :: pending, ⟨strings, cells⟩⟩ =>
    some ⟨taken + 1, none, pending, ⟨(strings.release h).2, cells⟩⟩
  | ⟨taken, none, .array h :: pending, ⟨strings, cells⟩⟩ =>
    match cells.release h with
    | (some c, cells) => some ⟨taken + 1, Heap.elementsOf c, pending, ⟨strings, cells⟩⟩
    | (none, cells) => some ⟨taken + 1, none, pending, ⟨strings, cells⟩⟩
  | ⟨taken, none, _ :: pending, heap⟩ => some ⟨taken + 1, none, pending, heap⟩

namespace Heap

open StateTransition (Reaches eval mem_eval)

variable {cells cells' : Pool Cell} {h : Handle}

/-! ### The loops end -/

/-- The inner loop ends, for each round of it but the last one frees a cell. -/
theorem reaches_collect (taken : Nat) (link : Option Handle) (pending : List Value)
    (strings : Pool String) (cells : Pool Cell) :
    Reaches Releasing.round ⟨taken, link, pending, ⟨strings, cells⟩⟩
      ⟨taken, none, (collect link pending cells).1, ⟨strings, (collect link pending cells).2⟩⟩ := by
  fun_induction collect link pending cells with
  | case1 pending cells => exact .refl
  | case2 pending cells h e cells' hr ih =>
    refine .head ?_ ih
    rw [Option.mem_def, Releasing.round, hr]
  | case3 pending cells h c cells' hc hr =>
    refine .single ?_
    rw [Option.mem_def, Releasing.round, hr]
    rcases c with _ | _ | e
    · rfl
    · rfl
    · exact (hc e rfl).elim

/-- The outer loop gives one reference back, and goes on when the inner one has ended. -/
theorem reaches_giveBack (taken : Nat) (v : Value) (pending : List Value) (heap : Heap) :
    Reaches Releasing.round ⟨taken, none, v :: pending, heap⟩
      ⟨taken + 1, none, (heap.giveBack v).1 ++ pending, (heap.giveBack v).2⟩ := by
  obtain ⟨strings, cells⟩ := heap
  cases v with
  | int | float | str => exact .single rfl
  | array h =>
    simp only [giveBack]
    split
    · next c cells' hr =>
      -- What is collected comes before what remained to be given back.
      have hcollect := collect_append (elementsOf c) [] pending cells'
      have hloop := reaches_collect (taken + 1) (elementsOf c) pending strings cells'
      rw [List.nil_append] at hcollect
      rw [hcollect] at hloop
      refine .head ?_ hloop
      rw [Option.mem_def, Releasing.round, hr]
    · next cells' hr =>
      refine .single ?_
      rw [Option.mem_def, Releasing.round, hr]
      rfl

/-! ### How often a reference is taken off -/

/-- How many elements there are, in all arrays. -/
def elementCells (cells : Pool Cell) : Nat :=
  cells.contents.countP Cell.isElement

theorem elementCells_release (cells : Pool Cell) (h : Handle) :
    elementCells (cells.release h).2 ≤ elementCells cells := by
  rw [elementCells, elementCells, (cells.contents_release h).countP_eq, List.countP_append]
  exact Nat.le_add_left ..

theorem elementCells_reclaim (cells : Pool Cell) (h : Handle) :
    elementCells (cells.reclaim h).2 ≤ elementCells cells := by
  rw [elementCells, elementCells, (cells.contents_reclaim h).countP_eq, List.countP_append]
  exact Nat.le_add_left ..

theorem elementCells_reclaim_element {e : Element}
    (hr : cells.reclaim h = (some (.element e), cells')) :
    elementCells cells' + 1 = elementCells cells := by
  have hp := (cells.contents_reclaim h).countP_eq Cell.isElement
  rw [hr] at hp
  exact (hp.trans (List.countP_cons_of_pos rfl)).symm

/-- Collecting puts two references on the list for each element that it frees. -/
theorem collect_elements (link : Option Handle) (pending : List Value) (cells : Pool Cell) :
    (collect link pending cells).1.length + 2 * elementCells (collect link pending cells).2 ≤
      pending.length + 2 * elementCells cells := by
  fun_induction collect link pending cells with
  | case1 => exact Nat.le_refl _
  | case2 pending cells h e cells' hr ih =>
    have := elementCells_reclaim_element hr
    simp only [List.length_cons] at ih
    omega
  | case3 pending cells h c cells' _ hr =>
    have hle := elementCells_reclaim cells h
    rw [hr] at hle
    exact Nat.add_le_add_left (Nat.mul_le_mul_left 2 hle) _

theorem giveBack_elements (v : Value) (heap : Heap) :
    (heap.giveBack v).1.length + 2 * elementCells (heap.giveBack v).2.cells ≤
      2 * elementCells heap.cells := by
  obtain ⟨strings, cells⟩ := heap
  cases v with
  | array h =>
    have hle := elementCells_release cells h
    simp only [giveBack]
    split
    · next c cells' hr =>
      rw [hr] at hle
      have := collect_elements (elementsOf c) [] cells'
      simp only [List.length_nil] at this hle ⊢
      omega
    · next cells' hr =>
      rw [hr] at hle
      simp only [List.length_nil] at hle ⊢
      omega
  | _ => exact Nat.le_of_eq (Nat.zero_add _)

/-- Each round of the outer loop takes one reference off the list, and no more are put there than
    two for each element that is freed. -/
theorem reaches_drain (taken : Nat) (pending : List Value) (heap : Heap) :
    ∃ n, Reaches Releasing.round ⟨taken, none, pending, heap⟩
        ⟨taken + n, none, [], heap.drain pending⟩ ∧
      n ≤ pending.length + 2 * elementCells heap.cells := by
  induction pending, heap using drain_induction generalizing taken with
  | nil heap =>
    rw [drain_nil]
    exact ⟨0, .refl, Nat.zero_le _⟩
  | cons v pending heap ih =>
    obtain ⟨n, hn, hle⟩ := ih (taken + 1)
    -- What the list grows by is paid for by the elements that are no longer there.
    have hgrow := giveBack_elements v heap
    rw [List.length_append] at hle
    refine ⟨n + 1, ?_, ?_⟩
    · rw [drain_cons, Nat.add_comm n 1, ← Nat.add_assoc]
      exact (reaches_giveBack taken v pending heap).trans hn
    · rw [List.length_cons]
      omega

/-! ### What is freed -/

/-- Slots of both pools are vacated, each of them once. -/
def Sheds (a b : Heap) : Prop :=
  (∃ is, a.strings.Sheds b.strings is) ∧ ∃ is, a.cells.Sheds b.cells is

theorem Sheds.refl (heap : Heap) : heap.Sheds heap :=
  ⟨⟨_, .refl _⟩, _, .refl _⟩

theorem Sheds.trans {a b c : Heap} (hab : a.Sheds b) (hbc : b.Sheds c) : a.Sheds c :=
  have ⟨⟨_, hs⟩, _, hc⟩ := hab
  have ⟨⟨_, hs'⟩, _, hc'⟩ := hbc
  ⟨⟨_, hs.trans hs'⟩, _, hc.trans hc'⟩

theorem collect_sheds (link : Option Handle) (pending : List Value) (cells : Pool Cell) :
    ∃ is, cells.Sheds (collect link pending cells).2 is := by
  fun_induction collect link pending cells with
  | case1 => exact ⟨_, .refl _⟩
  | case2 pending cells h e cells' hr ih =>
    obtain ⟨is, hfirst⟩ := Pool.Sheds.reclaim cells h
    obtain ⟨js, hrest⟩ := ih
    rw [hr] at hfirst
    exact ⟨_, hfirst.trans hrest⟩
  | case3 pending cells h c cells' _ hr =>
    have hlast := Pool.Sheds.reclaim cells h
    rwa [hr] at hlast

theorem giveBack_sheds (v : Value) (heap : Heap) : heap.Sheds (heap.giveBack v).2 := by
  obtain ⟨strings, cells⟩ := heap
  cases v with
  | int | float => exact .refl _
  | str h => exact ⟨Pool.Sheds.release strings h, _, .refl _⟩
  | array h =>
    obtain ⟨is, hfirst⟩ := Pool.Sheds.release cells h
    simp only [giveBack]
    split
    · next c cells' hr =>
      rw [hr] at hfirst
      obtain ⟨js, hrest⟩ := collect_sheds (elementsOf c) [] cells'
      exact ⟨⟨_, .refl _⟩, _, hfirst.trans hrest⟩
    · next cells' hr =>
      rw [hr] at hfirst
      exact ⟨⟨_, .refl _⟩, _, hfirst⟩

theorem drain_sheds (pending : List Value) (heap : Heap) : heap.Sheds (heap.drain pending) := by
  induction pending, heap using drain_induction with
  | nil heap =>
    rw [drain_nil]
    exact .refl heap
  | cons v pending heap ih =>
    rw [drain_cons]
    exact (giveBack_sheds v heap).trans ih

/-- The loops that give a reference back end in every heap, and so does the inner one by itself,
    wherever it is. No more references are taken off the list after the first one than two for each
    element that there was, and no slot is vacated twice. -/
theorem release_ends (v : Value) (heap : Heap) :
    (∃ taken, ⟨taken, none, [], heap.release v⟩ ∈ eval Releasing.round ⟨0, none, [v], heap⟩ ∧
      taken ≤ 1 + 2 * elementCells heap.cells) ∧
    (∀ taken link pending strings cells, ∃ rest cells', Reaches Releasing.round
      ⟨taken, link, pending, ⟨strings, cells⟩⟩ ⟨taken, none, rest, ⟨strings, cells'⟩⟩) ∧
    heap.Sheds (heap.release v) := by
  refine ⟨?_, fun taken link pending strings cells => ?_, drain_sheds [v] heap⟩
  · obtain ⟨n, hn, hle⟩ := reaches_drain 0 [v] heap
    rw [Nat.zero_add] at hn
    exact ⟨n, mem_eval.2 ⟨hn, rfl⟩, hle⟩
  · exact ⟨_, _, reaches_collect taken link pending strings cells⟩

end Heap

end PoolScript
