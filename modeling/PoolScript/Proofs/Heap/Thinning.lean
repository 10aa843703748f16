import PoolScript.Proofs.Heap.Copying
import PoolScript.Proofs.Heap.Draining
import PoolScript.Proofs.Pool.Evolution

/-!
# Thinning

Counting, pinning and giving back change no string and no cell: they recount what is there or
take it away. What a heap holds after such operations it held before, in the same place
(`Heap.Thins`).

* `Thins.retain`, `Thins.pin`, `Thins.drain`, `Thins.unpin`: the operations that thin a heap;
* `Thins.strings_get?`, `Thins.cells_get?`: what is left was there before.
-/

namespace PoolScript

namespace Pool

/-- `q` is what is left of `p`, with other counts. -/
inductive Thins {α : Type} (p : Pool α) : Pool α → Prop
  | refl : Thins p p
  | recount {q : Pool α} {h : Handle} {e : Entry α} (n : Nat) (pinned : Bool) :
      Thins p q → q.entry? h = some e → Thins p (q.put h.index ⟨e.content, n, pinned⟩)
  | vacate {q : Pool α} {h : Handle} {e : Entry α} :
      Thins p q → q.entry? h = some e → Thins p (q.vacate h.index)

namespace Thins

variable {α : Type} {p q r : Pool α} {h : Handle} {a : α}

theorem trans (hpq : p.Thins q) (hqr : q.Thins r) : p.Thins r := by
  induction hqr with
  | refl => exact hpq
  | recount n pinned _ he ih => exact ih.recount n pinned he
  | vacate _ he ih => exact ih.vacate he

/-- No slot is vacated less often in what is left. -/
theorem evolves (hpq : p.Thins q) : p.Evolves q := by
  induction hpq with
  | refl => exact .refl
  | recount n pinned _ he ih => exact ih.put _ he
  | vacate _ he ih => exact ih.vacate he

/-- What is left is where it was before. -/
theorem get?_eq_some (hpq : p.Thins q) (ha : q.get? h = some a) : p.get? h = some a := by
  induction hpq with
  | refl => exact ha
  | @recount q k e n pinned _ he ih =>
    rw [get?_put he] at ha
    by_cases hk : h = k
    · subst hk
      rw [Function.update_self] at ha
      refine ih ?_
      rw [get?, he]
      exact ha
    · exact ih (by rwa [Function.update_of_ne hk] at ha)
  | @vacate q k e _ he ih =>
    rw [get?_vacate he] at ha
    by_cases hk : h = k
    · subst hk; simp at ha
    · exact ih (by rwa [Function.update_of_ne hk] at ha)

/-- A pool in which one more reference is counted holds what it held. -/
theorem retain (p : Pool α) (h : Handle) : p.Thins (p.retain h).2 := by
  rw [Pool.retain]
  split
  · split <;> [exact .recount _ _ .refl ‹_›; exact .refl]
  · exact .refl

/-- Giving a reference back recounts a slot or vacates it. -/
theorem release (p : Pool α) (h : Handle) : p.Thins (p.release h).2 := by
  rw [Pool.release]
  split
  · split <;> [exact .vacate .refl ‹_›; exact .recount _ _ .refl ‹_›]
  · exact .refl

theorem pin (p : Pool α) (h : Handle) : p.Thins (p.pin h).2 := by
  unfold Pool.pin; split <;> [exact .recount _ _ .refl ‹_›; exact .refl]

theorem unpin (p : Pool α) (h : Handle) : p.Thins (p.unpin h).2 := by
  rw [Pool.unpin]
  split
  · split <;> [exact .vacate .refl ‹_›; exact .recount _ _ .refl ‹_›]
  · exact .refl

/-- A slot that is vacated whatever its count. -/
theorem reclaim (p : Pool α) (h : Handle) : p.Thins (p.reclaim h).2 := by
  unfold Pool.reclaim; split <;> [exact .vacate .refl ‹_›; exact .refl]

end Thins

end Pool

namespace Heap

/-- `b` is what is left of `a`, with other counts. -/
structure Thins (a b : Heap) : Prop where
  strings : a.strings.Thins b.strings
  cells : a.cells.Thins b.cells

namespace Thins

variable {a b c : Heap} {h : Handle} {v : Value}

theorem refl (heap : Heap) : heap.Thins heap := ⟨.refl, .refl⟩

theorem trans (hab : a.Thins b) (hbc : b.Thins c) : a.Thins c :=
  ⟨hab.strings.trans hbc.strings, hab.cells.trans hbc.cells⟩

/-- Only strings are recounted or taken away. -/
theorem of_strings {strings strings' : Pool String} (hs : strings.Thins strings')
    (cells : Pool Cell) : Thins ⟨strings, cells⟩ ⟨strings', cells⟩ :=
  ⟨hs, .refl⟩

/-- Only cells are recounted or taken away. -/
theorem of_cells (strings : Pool String) {cells cells' : Pool Cell} (hc : cells.Thins cells') :
    Thins ⟨strings, cells⟩ ⟨strings, cells'⟩ :=
  ⟨.refl, hc⟩

/-! ### Operations that thin -/

theorem retain (heap : Heap) (v : Value) : heap.Thins (heap.retain v).2 := by
  cases v with
  | int => exact refl _
  | float => exact refl _
  | str k => exact of_strings (.retain _ k) _
  | array k => exact of_cells _ (.retain _ k)

theorem pin (heap : Heap) (v : Value) : heap.Thins (heap.pin v) := by
  cases v with
  | int => exact refl _
  | float => exact refl _
  | str k => exact of_strings (.pin _ k) _
  | array k => exact of_cells _ (.pin _ k)

/-- The elements of a chain are taken away one after another. -/
theorem collect (link : Option Handle) (pending : List Value) (cells : Pool Cell) :
    cells.Thins (Heap.collect link pending cells).2 := by
  fun_induction Heap.collect link pending cells with
  | case1 => exact .refl
  | case2 pending cells c e cells' hr ih => exact (hr ▸ Pool.Thins.reclaim cells c :).trans ih
  | case3 pending cells c _ cells' _ hr => exact (hr ▸ Pool.Thins.reclaim cells c :)

/-- A reference that is given back may take an array with its elements away. -/
theorem giveBack (v : Value) (heap : Heap) : heap.Thins (heap.giveBack v).2 := by
  obtain ⟨strings, cells⟩ := heap
  cases v with
  | int | float => exact refl _
  | str k => exact of_strings (.release strings k) cells
  | array k =>
    have hc := Pool.Thins.release cells k
    simp only [Heap.giveBack]
    split
    · next c cells' hr =>
      rw [hr] at hc
      exact of_cells strings (hc.trans (collect ..))
    · next cells' hr =>
      rw [hr] at hc
      exact of_cells strings hc

/-- What is given back in turn is less and less. -/
theorem drain (pending : List Value) (heap : Heap) : heap.Thins (heap.drain pending) := by
  induction pending, heap using drain_induction with
  | nil heap =>
    rw [drain_nil]
    exact refl _
  | cons v pending heap ih =>
    rw [drain_cons]
    exact (giveBack v heap).trans ih

theorem releaseAll (heap : Heap) (vs : List Value) : heap.Thins (heap.releaseAll vs) :=
  drain vs heap

theorem unpin (heap : Heap) (v : Value) : heap.Thins (heap.unpin v) := by
  simp only [Heap.unpin]
  split
  · next k strings cells => exact of_strings (.unpin strings k) cells
  · next k strings cells =>
    have hc := Pool.Thins.unpin cells k
    split
    · next c cells' hu =>
      rw [hu] at hc
      exact (of_cells strings (hc.trans (collect ..))).trans (drain ..)
    · next cells' hu =>
      rw [hu] at hc
      exact of_cells strings hc
  · exact refl _

/-- Fetching counts one more reference to the value that is found. -/
theorem fetch (heap : Heap) (array : Handle) (key : Value) :
    heap.Thins (heap.fetch array key).2 := by
  unfold Heap.fetch; split <;> [exact retain ..; exact refl _; exact refl _]

/-- A copy is one more reference. -/
theorem retains {heap heap' : Heap} (hr : heap.Retains v heap') : heap.Thins heap' := by
  cases hr with
  | number => exact refl _
  | str he => exact of_strings (.recount _ _ .refl he) _
  | array he => exact of_cells _ (.recount _ _ .refl he)

/-- Copies of a key and a value, or the copy of the key given back again. -/
theorem entry (heap : Heap) (cell : Handle) : heap.Thins (heap.entry cell).2 := by
  rcases heap.entry_cases cell with ⟨-, hr⟩ | ⟨e, -, h⟩
  · exact hr ▸ refl _
  · rcases h with ⟨_, _, hk, hv, hr⟩ | ⟨_, hr, -⟩ | ⟨_, _, hk, hr, -⟩
    · exact hr ▸ (retains hk).trans (retains hv)
    · exact hr ▸ refl _
    · exact hr ▸ (retains hk).trans (releaseAll ..)

/-! ### Reading what is left -/

/-- A string that is left was there. -/
theorem strings_get? (hab : a.Thins b) {text : String} (ht : b.strings.get? h = some text) :
    a.strings.get? h = some text :=
  hab.strings.get?_eq_some ht

/-- A cell that is left was there, with the same links. -/
theorem cells_get? (hab : a.Thins b) {c : Cell} (hc : b.cells.get? h = some c) :
    a.cells.get? h = some c :=
  hab.cells.get?_eq_some hc

end Thins

end Heap

end PoolScript
