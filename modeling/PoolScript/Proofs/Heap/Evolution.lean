import PoolScript.Host
import PoolScript.Intrinsic
import PoolScript.Operator
import PoolScript.Proofs.Heap.Thinning

/-!
# How heaps evolve

Everything that is done with a heap, from counting a reference to running a host function, comes
down to a few operations (`Heap.Becomes`). Each lemma adds one to what has been done with a heap
before. And all of it is done with the pools of the heap (`Heap.Becomes.evolves`).
-/

namespace PoolScript

namespace Pool.Evolves

variable {α : Type} {p q : Pool α}

/-- What a slot holds is changed, and nothing else. -/
theorem modify (hq : p.Evolves q) (h : Handle) (f : α → α) : p.Evolves (q.modify h f) := by
  unfold Pool.modify; split <;> [exact hq.put _ ‹_›; exact hq]

/-- A slot that is in use is vacated. -/
theorem clearSlot (hq : p.Evolves q) (i : Nat) : p.Evolves (q.clearSlot i) := by
  rw [Pool.clearSlot]
  split
  · next s hs =>
    split
    · next hu =>
      obtain ⟨e, he⟩ := Option.isSome_iff_exists.1 hu
      exact hq.vacate (h := ⟨i, s.generation⟩) (entry?_eq_some.2 ⟨s, hs, rfl, he⟩)
    · exact hq
  · exact hq

/-- Slots are vacated one after another, as many as are walked over. -/
theorem clear (hq : p.Evolves q) : p.Evolves q.clear := by
  rw [Pool.clear]
  generalize List.range _ = is
  induction is generalizing q with
  | nil => exact hq
  | cons i is ih => exact ih (hq.clearSlot i)

end Pool.Evolves

namespace Heap

/-- `b` comes about from `a` by operations on its pools. -/
structure Evolves (a b : Heap) : Prop where
  strings : a.strings.Evolves b.strings
  cells : a.cells.Evolves b.cells

namespace Evolves

variable {base heap : Heap}

theorem refl (heap : Heap) : heap.Evolves heap := ⟨.refl, .refl⟩

theorem trans {a b c : Heap} (hab : a.Evolves b) (hbc : b.Evolves c) : a.Evolves c :=
  ⟨hab.strings.trans hbc.strings, hab.cells.trans hbc.cells⟩

theorem clear (h : base.Evolves heap) : base.Evolves heap.clear :=
  ⟨h.strings.clear, h.cells.clear⟩

/-! ### Allocation and counting -/

/-- A string takes a slot. -/
theorem allocString (h : base.Evolves heap) (text : String) :
    base.Evolves (heap.allocString text).2 :=
  ⟨h.strings.alloc text, h.cells⟩

/-- So does a head. -/
theorem allocArray (h : base.Evolves heap) : base.Evolves heap.allocArray.2 :=
  ⟨h.strings, h.cells.alloc _⟩

/-- Thinning a heap evolves it. -/
theorem thins {heap' : Heap} (h : base.Evolves heap) (ht : heap.Thins heap') :
    base.Evolves heap' :=
  h.trans ⟨ht.strings.evolves, ht.cells.evolves⟩

theorem releaseAll (h : base.Evolves heap) (vs : List Value) : base.Evolves (heap.releaseAll vs) :=
  h.thins (.releaseAll heap vs)

/-! ### Elements -/

theorem modifyCell (h : base.Evolves heap) (c : Handle) (f : Cell → Cell) :
    base.Evolves (heap.modifyCell c f) :=
  ⟨h.strings, h.cells.modify c f⟩

/-- An element takes a slot, and the head leads to it. -/
theorem insertFirst (h : base.Evolves heap) (array : Handle) (link : Option Handle)
    (key value : Value) : base.Evolves (heap.insertFirst array link key value).2 := by
  unfold Heap.insertFirst
  split
  next strings cells =>
  have hc := h.cells.alloc (.element ⟨key, value, link⟩)
  split
  · next c cells' ha =>
    rw [ha] at hc
    exact ⟨h.strings, hc.modify _ _⟩
  · next f cells' ha =>
    rw [ha] at hc
    exact ⟨h.strings, hc⟩

/-- A value is exchanged, or an element inserted, or what was given is given back. -/
theorem set (h : base.Evolves heap) (array : Handle) (key value : Value) :
    base.Evolves (heap.set array key value).2 := by
  rw [Heap.set]
  split
  · split <;> [exact (h.modifyCell _ _).releaseAll _; exact h.releaseAll _]
  · split
    · exact h.releaseAll _
    · split <;> [exact h.insertFirst ..; exact h]
  · exact h.releaseAll _

/-- A link is led around an element, whose slot is vacated. -/
theorem unlink (h : base.Evolves heap) (array : Handle) (link : Option Handle) (c : Handle)
    (e : Element) : base.Evolves (heap.unlink array link c e).2 := by
  rw [Heap.unlink]
  split
  · next before _ =>
    have hm := h.modifyCell before (·.withNext e.next)
    split
    next strings cells hc =>
    rw [hc] at hm
    have hb : base.Evolves ⟨strings, (cells.reclaim c).2⟩ :=
      ⟨hm.strings, hm.cells.trans (Pool.Thins.reclaim cells c).evolves⟩
    exact hb.releaseAll _
  · exact h

/-- An element that is found is unlinked, and what it held is given back. -/
theorem remove (h : base.Evolves heap) (array : Handle) (key : Scalar) :
    base.Evolves (heap.remove array key).2 := by
  rw [Heap.remove]
  split
  · next c e _ =>
    split
    · next link _ =>
      have := h.unlink array link c e
      split <;> next hu => exact (hu ▸ this :)
    · exact h
  · exact h
  · exact h

end Evolves

/-- `heap` comes about from `base` by what is done with heaps, short of clearing them. -/
inductive Becomes (base : Heap) : Heap → Prop
  | refl : Becomes base base
  | thins {heap heap' : Heap} (h : Becomes base heap) (ht : heap.Thins heap') : Becomes base heap'
  | allocString {heap : Heap} (h : Becomes base heap) (text : String) :
      Becomes base (heap.allocString text).2
  | allocArray {heap : Heap} (h : Becomes base heap) : Becomes base heap.allocArray.2
  | set {heap : Heap} (h : Becomes base heap) (array : Handle) (key value : Value) :
      Becomes base (heap.set array key value).2
  | remove {heap : Heap} (h : Becomes base heap) (array : Handle) (key : Scalar) :
      Becomes base (heap.remove array key).2

namespace Becomes

variable {base heap : Heap}

/-- All of that is done with the pools of the heap. -/
theorem evolves (h : base.Becomes heap) : base.Evolves heap := by
  induction h with
  | refl => exact .refl _
  | thins _ ht ih => exact ih.thins ht
  | allocString _ text ih => exact ih.allocString text
  | allocArray _ ih => exact ih.allocArray
  | set _ array key value ih => exact ih.set ..
  | remove _ array key ih => exact ih.remove ..

theorem trans {a b c : Heap} (hab : a.Becomes b) (hbc : b.Becomes c) : a.Becomes c := by
  induction hbc with
  | refl => exact hab
  | thins _ ht ih => exact ih.thins ht
  | allocString _ text ih => exact ih.allocString text
  | allocArray _ ih => exact ih.allocArray
  | set _ array key value ih => exact ih.set ..
  | remove _ array key ih => exact ih.remove ..

/-! ### Allocation and counting -/

theorem allocScalar (h : base.Becomes heap) (s : Scalar) : base.Becomes (heap.allocScalar s).2 := by
  cases s with
  | int => exact h
  | float => exact h
  | str text => exact h.allocString text

theorem retain (h : base.Becomes heap) (v : Value) : base.Becomes (heap.retain v).2 :=
  h.thins (.retain heap v)

theorem pin (h : base.Becomes heap) (v : Value) : base.Becomes (heap.pin v) :=
  h.thins (.pin heap v)

theorem entry (h : base.Becomes heap) (cell : Handle) : base.Becomes (heap.entry cell).2 :=
  h.thins (.entry heap cell)

theorem releaseAll (h : base.Becomes heap) (vs : List Value) : base.Becomes (heap.releaseAll vs) :=
  h.thins (.releaseAll heap vs)

theorem release (h : base.Becomes heap) (v : Value) : base.Becomes (heap.release v) :=
  h.releaseAll [v]

theorem unpin (h : base.Becomes heap) (v : Value) : base.Becomes (heap.unpin v) :=
  h.thins (.unpin heap v)

/-! ### Elements -/

theorem fetch (h : base.Becomes heap) (array : Handle) (key : Value) :
    base.Becomes (heap.fetch array key).2 :=
  h.thins (.fetch heap array key)

theorem removeValue (h : base.Becomes heap) (array : Handle) (key : Value) :
    base.Becomes (heap.removeValue array key).2 := by
  unfold Heap.removeValue; split <;> [exact h.remove ..; exact h]

/-! ### Operators and intrinsics -/

theorem concat (h : base.Becomes heap) (lhs : Handle) (rhs : Value) :
    base.Becomes (heap.concat lhs rhs).2 := by
  unfold Heap.concat; split <;> [exact h.allocString _; exact h; exact h]

theorem operate (h : base.Becomes heap) (sign : NaNSign) (op : BinOp) (lhs rhs : Value) :
    base.Becomes (heap.operate sign op lhs rhs).2 := by
  simp only [Heap.operate]
  split <;> first | exact h | exact h.concat ..

/-- An operator makes a string at most, and gives its operands back. -/
theorem binary (h : base.Becomes heap) (sign : NaNSign) (op : BinOp) (lhs rhs : Value) :
    base.Becomes (heap.binary sign op lhs rhs).2 :=
  (h.operate sign op lhs rhs).releaseAll _

theorem negate (h : base.Becomes heap) (v : Value) : base.Becomes (heap.negate v).2 := by
  unfold Heap.negate; split <;> [exact h; exact h; exact h.release _]

theorem intrinsic_apply (h : base.Becomes heap) (i : Intrinsic) (args : List Value)
    (out : LineWriter) : base.Becomes (i.apply args heap out).2.1 := by
  simp only [Intrinsic.apply]
  split <;> try exact h
  · split <;> exact h
  · exact h.removeValue ..

/-- An intrinsic changes an array at most, and gives its arguments back. -/
theorem intrinsic_call (h : base.Becomes heap) (i : Intrinsic) (args : List Value)
    (out : LineWriter) : base.Becomes (i.call args heap out).2.1 :=
  (h.intrinsic_apply i args out).releaseAll _

/-! ### Host functions -/

theorem bind (h : base.Becomes heap) (name : String) (v : Value) (frame : Frame) :
    base.Becomes (HostRequest.bind name v heap frame).1 :=
  h.releaseAll _

/-- What a host function makes it binds to a variable. -/
theorem bindNew {made : Except Fault Value × Heap} (h : base.Becomes made.2) (name : String)
    (frame : Frame) : base.Becomes (HostRequest.bindNew name made frame).2.1 := by
  unfold HostRequest.bindNew; split <;> [exact bind h ..; exact h]

/-- What a host function stores it makes first. -/
theorem store (h : base.Becomes heap) (name : String) (key value : Scalar) (frame : Frame) :
    base.Becomes (HostRequest.store name key value heap frame).2 := by
  have hk := h.allocScalar key
  rw [HostRequest.store]
  split
  · next he => rwa [he] at hk
  · next k heap' he =>
    rw [he] at hk
    have hv : base.Becomes (heap'.allocScalar value).2 := Heap.Becomes.allocScalar hk value
    split
    · next he' =>
      rw [he'] at hv
      exact Heap.Becomes.release hv k
    · next v heap'' he' =>
      rw [he'] at hv
      split <;> [exact Heap.Becomes.set hv ..; exact Heap.Becomes.releaseAll hv _]

/-- Whatever a host function asks for comes down to the operations. -/
theorem answer (h : base.Becomes heap) (r : HostRequest) (frame : Frame) :
    base.Becomes (r.answer heap frame).2.1 := by
  cases r with
  | setInt name n => exact h.bind ..
  | setFloat name x => exact h.bind ..
  | setStr name text => exact bindNew (h.allocString text) ..
  | makeArray name => exact bindNew h.allocArray ..
  | arraySet name key value =>
    simp only [HostRequest.answer]
    split
    · next heap' frame' he =>
      refine store ?_ ..
      split at he
      · cases he; exact h
      · have := bindNew h.allocArray name frame
        rwa [he] at this
    · next heap' frame' he =>
      split at he
      · cases he
      · have := bindNew h.allocArray name frame
        rwa [he] at this
  | arrayRemove name key =>
    simp only [HostRequest.answer]
    split <;> [exact h.remove ..; exact h]
  | get => exact h
  | has => exact h
  | typeOf => exact h
  | getText => exact h
  | refs => exact h
  | live => exact h
  | getInt => simp only [HostRequest.answer]; split <;> exact h
  | getFloat => simp only [HostRequest.answer]; split <;> [(split <;> exact h); exact h]
  | getStr => simp only [HostRequest.answer]; split <;> exact h
  | arrayGet => simp only [HostRequest.answer]; split <;> [(split <;> exact h); exact h]
  | arraySize => simp only [HostRequest.answer]; split <;> exact h
  | entries => simp only [HostRequest.answer]; split <;> exact h

/-- So does all that it asks for until it is done. -/
theorem host (h : base.Becomes heap) (p : HostProgram) (frame : Frame) (cursors : List Handle)
    (journal : List String) : base.Becomes (p.run heap frame cursors journal).2.1 := by
  induction p generalizing heap frame cursors journal with
  | done => exact h
  | raise f => exact h
  | request r next ih => exact ih _ (h.answer r frame) ..
  | look l next ih => exact ih _ h ..
  | note line next ih => exact ih h ..

end Becomes

/-! ### Retired values -/

/-- The slot of a value was vacated since the value was made. -/
def Retired (heap : Heap) : Value → Prop
  | .str h => heap.strings.Retired h
  | .array h => heap.cells.Retired h
  | _ => False

/-- No slot was vacated as often as there are generations. -/
structure Young (heap : Heap) : Prop where
  strings : heap.strings.Young
  cells : heap.cells.Young

instance (heap : Heap) : Decidable heap.Young :=
  decidable_of_iff (heap.strings.Young ∧ heap.cells.Young)
    ⟨fun h => ⟨h.1, h.2⟩, fun h => ⟨h.strings, h.cells⟩⟩

variable {a b : Heap} {v : Value}

/-- What leads nowhere any more goes on leading nowhere. -/
theorem Evolves.retired (h : a.Evolves b) (hv : a.Retired v) : b.Retired v := by
  cases v with
  | int => exact hv
  | float => exact hv
  | str k => exact h.strings.retired hv
  | array k => exact h.cells.retired hv

/-- Numbers are never retired. -/
theorem Retired.isCounted (hv : a.Retired v) : v.isCounted := by
  cases v with
  | int => exact hv.elim
  | float => exact hv.elim
  | str => rfl
  | array => rfl

/-- What did not come to the end of its generations did not before. -/
theorem Evolves.young (h : a.Evolves b) (hb : b.Young) : a.Young :=
  ⟨h.strings.young hb.strings, h.cells.young hb.cells⟩

/-- A retired value is stale. -/
theorem Retired.isLive_eq_false (hv : a.Retired v) (hy : a.Young) : a.isLive v = false := by
  cases v with
  | int => exact hv.elim
  | float => exact hv.elim
  | str k => simp [isLive, Pool.isLive, Pool.Retired.entry?_eq_none hv hy.strings]
  | array k => simp [isLive, Pool.isLive, Pool.Retired.entry?_eq_none hv hy.cells]

/-- What a heap held when it was cleared is retired. -/
theorem Evolves.retired_of_clear (h : a.Evolves b.clear) (hs : a.strings.WellFormed)
    (hc : a.cells.WellFormed) (hl : a.isLive v) (hv : v.isCounted) : b.clear.Retired v := by
  have hsizes : b.strings.slots.size < UInt32.size ∧ b.cells.slots.size < UInt32.size :=
    ⟨b.strings.size_clear ▸ (h.strings.wellFormed hs).size_lt,
      b.cells.size_clear ▸ (h.cells.wellFormed hc).size_lt⟩
  cases v with
  | int => cases hv
  | float => cases hv
  | str k =>
    refine (h.strings.live_or_retired hs hl).resolve_left ?_
    intro hk
    simp [Heap.clear, Pool.isLive, Pool.entry?_clear hsizes.1] at hk
  | array k =>
    refine (h.cells.live_or_retired hc hl).resolve_left ?_
    intro hk
    simp [Heap.clear, Pool.isLive, Pool.entry?_clear hsizes.2] at hk

end Heap

end PoolScript
