import PoolScript.Intrinsic
import PoolScript.Proofs.Heap.Elements

/-!
# Operators and intrinsics

Operators and intrinsics consume the values that they are given and give out one value. They
read them as long as they own them, so they never meet a handle that leads nowhere.
-/

namespace PoolScript

open Fault (Sane)

/-! ### Numbers -/

/-- A result, if there is one, is a number, and a fault is no stale handle. -/
def Numeric (r : Except Fault Value) : Prop :=
  Sane r ∧ ∀ v, r = .ok v → v.isCounted = false

theorem Numeric.ok {v : Value} (hv : v.isCounted = false) : Numeric (.ok v) :=
  ⟨trivial, fun _ h => Except.ok.inj h ▸ hv⟩

theorem Numeric.error {f : Fault} (hf : ¬f.Dangling) : Numeric (.error f) :=
  ⟨hf, nofun⟩

namespace BinOp

/-- Integers make integers, or there is a zero to divide by. -/
theorem onInts_numeric (op : BinOp) (a b : Int64) : Numeric (op.onInts a b) := by
  cases op with
  | div => simp only [onInts]; split <;> [exact .error (by rintro ⟨⟩); exact .ok rfl]
  | mod => simp only [onInts]; split <;> [exact .error (by rintro ⟨⟩); exact .ok rfl]
  | _ => exact .ok rfl

/-- Doubles make doubles or truth values. -/
theorem onFloats_numeric (sign : NaNSign) (op : BinOp) (x y : Double) :
    Numeric (op.onFloats sign x y) := by
  cases op with
  | div => simp only [onFloats]; split <;> [exact .error (by rintro ⟨⟩); exact .ok rfl]
  | mod => simp only [onFloats]; split <;> [exact .error (by rintro ⟨⟩); exact .ok rfl]
  | _ => exact .ok rfl

/-- What is no number is a fault of types. -/
theorem onNumbers_numeric (sign : NaNSign) (op : BinOp) (lhs rhs : Value) :
    Numeric (op.onNumbers sign lhs rhs) := by
  simp only [onNumbers]
  split
  · exact op.onInts_numeric _ _
  · split
    · exact op.onFloats_numeric sign _ _
    · exact .error (by rintro ⟨⟩)

end BinOp

namespace Heap

variable {α : Type} {heap : Heap} {a b : Handle} {m : Multiset Value} {pins : Set Value}
  {v lhs rhs : Value} {vs : List Value} {r : Except Fault α}

/-- What is owned after an operation that gives out a value. -/
abbrev single (v : Value) : Multiset Value := {v}

namespace Yields

/-- A result that owns nothing leaves what is owned as it was. -/
theorem of_sane (hb : heap.Balanced m pins) (hr : Sane r) : Yields nothing m pins (r, heap) := by
  cases r with
  | ok a => rwa [← zero_add m] at hb
  | error f => exact ⟨hb, hr⟩

/-- A number is owned by nobody. -/
theorem map_number {r : Except Fault α × Heap} (h : Yields nothing m pins r) {g : α → Value}
    (hg : ∀ a, (g a).isCounted = false) : Yields single m pins (r.1.map g, r.2) := by
  obtain ⟨r, heap⟩ := r
  cases r with
  | ok a => exact Balanced.number (zero_add m ▸ h) (hg a)
  | error f => exact h

theorem of_numeric (hb : heap.Balanced m pins) {r : Except Fault Value} (hr : Numeric r) :
    Yields single m pins (r, heap) := by
  cases r with
  | ok v => exact hb.number (hr.2 v rfl)
  | error f => exact ⟨hb, hr.1⟩

/-- What an operation was given is given back after it. -/
theorem releaseAll {own : α → Multiset Value} {r : Except Fault α × Heap}
    (h : Yields own (vs + m) pins r) : Yields own m pins (r.1, r.2.releaseAll vs) := by
  obtain ⟨r, heap⟩ := r
  cases r with
  | ok a =>
    refine Balanced.releaseAll ?_
    rw [add_left_comm]
    exact h
  | error f => exact ⟨h.1.releaseAll, h.2⟩

end Yields

namespace Balanced

/-! ### New values -/

/-- A new string is owned by who made it. -/
theorem yields_allocString (hb : heap.Balanced m pins) (text : String) :
    Yields single m pins (heap.allocString text) := by
  rcases hb.allocString text with ⟨v, heap', ha, hb'⟩ | ha
  · rwa [ha]
  · rw [ha]
    exact ⟨hb, by rintro ⟨⟩⟩

theorem allocScalar (hb : heap.Balanced m pins) (s : Scalar) :
    Yields single m pins (heap.allocScalar s) := by
  cases s with
  | int => exact hb.number rfl
  | float => exact hb.number rfl
  | str text => exact hb.yields_allocString text

theorem yields_allocArray (hb : heap.Balanced m pins) :
    Yields single m pins heap.allocArray := by
  rcases hb.allocArray with ⟨v, heap', ha, hb'⟩ | ha
  · rwa [ha]
  · rw [ha]
    exact ⟨hb, by rintro ⟨⟩⟩

/-! ### Operators -/

/-- The new string is owned besides the operands, which stay. -/
theorem concat (hb : heap.Balanced m pins) (ha : heap.Live (.str a)) (hv : heap.Live v) :
    Yields single m pins (heap.concat a v) := by
  rw [Heap.concat]
  obtain ⟨s, hs⟩ := str ha
  have hd := hb.display hv
  rw [hs]
  generalize heap.display v = r at hd ⊢
  cases r with
  | ok t => exact hb.yields_allocString _
  | error f => exact ⟨hb, hd⟩

/-- Live strings have texts to compare. -/
theorem sameText (ha : heap.Live (.str a)) (hv : heap.Live (.str b)) :
    Sane (heap.sameText a b) := by
  obtain ⟨s, hs⟩ := str ha
  obtain ⟨t, ht⟩ := str hv
  rw [Heap.sameText, hs, ht]
  trivial

/-- An operator reads its operands while they are owned, and makes one value. -/
theorem operate (hb : heap.Balanced m pins) (sign : NaNSign) (op : BinOp) (hl : heap.Live lhs)
    (hr : heap.Live rhs) : Yields single m pins (heap.operate sign op lhs rhs) := by
  simp only [Heap.operate]
  split
  · exact .of_numeric hb (BinOp.onNumbers_numeric ..)
  · exact hb.concat hl hr
  · obtain ⟨t, ht⟩ := str hr
    rw [ht]
    exact hb.number rfl
  · obtain ⟨t, ht⟩ := str hr
    rw [ht]
    exact hb.number rfl
  · exact (Yields.of_sane hb (sameText hl hr)).map_number fun _ => rfl
  · exact (Yields.of_sane hb (sameText hl hr)).map_number fun _ => rfl
  · exact .of_numeric hb (BinOp.onNumbers_numeric ..)

/-- The operands are given back then. -/
theorem binary (hb : heap.Balanced ({lhs} + ({rhs} + m)) pins) (sign : NaNSign) (op : BinOp) :
    Yields single m pins (heap.binary sign op lhs rhs) := by
  have h := hb.operate sign op (hb.live (v := lhs) (by simp)) (hb.live (v := rhs) (by simp))
  rw [← add_assoc, ← coe_pair] at h
  exact h.releaseAll

theorem negate (hb : heap.Balanced ({v} + m) pins) : Yields single m pins (heap.negate v) := by
  simp only [Heap.negate]
  split
  · exact (hb.of_number rfl).number rfl
  · exact (hb.of_number rfl).number rfl
  · exact ⟨hb.release, by rintro ⟨⟩⟩

/-! ### Intrinsics -/

/-- An intrinsic reads its arguments while they are owned. -/
theorem intrinsic_apply (hb : heap.Balanced m pins) (i : Intrinsic) {args : List Value}
    (hargs : ∀ v ∈ args, heap.Live v) (out : LineWriter) :
    Yields single m pins ((i.apply args heap out).1, (i.apply args heap out).2.1) := by
  simp only [Intrinsic.apply]
  split
  · next v _ =>
    have hd := hb.display (hargs v (by simp))
    split
    · exact hb.number rfl
    · next f hf => exact ⟨hb, by rwa [hf] at hd⟩
  · next a key _ =>
    have hy := hb.removeValue (hargs (.array a) (by simp)) (hargs key (by simp))
    exact hy.map_number fun _ => rfl
  · exact ⟨hb, by rintro ⟨⟩⟩
  · next a _ =>
      have hy := Yields.of_sane hb (hb.size (hargs (.array a) (by simp)))
      exact hy.map_number fun _ => rfl
  · exact ⟨hb, by rintro ⟨⟩⟩
  · exact hb.number rfl
  · exact hb.number rfl
  · exact hb.number rfl
  · exact hb.number rfl
  · exact ⟨hb, by rintro ⟨⟩⟩

/-- The arguments are given back then. -/
theorem intrinsic_call {args : List Value} (hb : heap.Balanced (args + m) pins) (i : Intrinsic)
    (out : LineWriter) :
    Yields single m pins ((i.call args heap out).1, (i.call args heap out).2.1) :=
  (hb.intrinsic_apply i (fun _ hv => hb.live (Multiset.mem_add.2 (.inl hv))) out).releaseAll

end Balanced

end Heap

end PoolScript
