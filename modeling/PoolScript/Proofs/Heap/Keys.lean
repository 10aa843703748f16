import Mathlib
import PoolScript.Proofs.Heap.Elements
import PoolScript.Proofs.Heap.Thinning

/-!
# Keys

Keys are compared by type and content (`Scalar.same`). This is symmetric and transitive, but a NaN
is not the same as itself. What is compared is found in the heap (`keyMatches_eq`): the text of a
string may be there or not, and a handle that leads nowhere matches nothing.

The keys of an array are *distinct* (`Heap.Distinct`): each of them is a scalar, and no two of them
match. They remain so as long as they remain what they are.

All of Mathlib is imported for the comparison of doubles (`PartialEquivBEq Float`), which no module
of it has by itself.

* `Distinct.cons`: a key that was not found comes to distinct keys;
* `Booked.scalar_kept`: what an element stores is the scalar that it was.
-/

namespace PoolScript

/-! ### Comparing scalars -/

namespace Scalar

variable {r s t : Scalar}

/-- Whether two scalars are the same as keys: of one type, and equal. -/
def same : Scalar → Scalar → Bool
  | .int a, .int b => a == b
  | .float a, .float b => a.number == b.number
  | .str a, .str b => a == b
  | _, _ => false

theorem same_comm (s t : Scalar) : s.same t = t.same s := by
  cases s <;> cases t <;> first | rfl | exact BEq.comm

theorem same_trans (hrs : r.same s = true) (hst : s.same t = true) : r.same t = true := by
  cases s <;> cases r <;> cases t <;> simp only [same, Bool.false_eq_true] at hrs hst ⊢ <;>
    exact BEq.trans hrs hst

/-- What is the same as one of two scalars that are the same is the same as the other. -/
theorem same_congr (hst : s.same t = true) (r : Scalar) : r.same s = r.same t := by
  rw [Bool.eq_iff_iff]
  exact ⟨fun h => same_trans h hst, fun h => same_trans h (same_comm s t ▸ hst)⟩

theorem same_congr_left (hst : s.same t = true) (r : Scalar) : s.same r = t.same r := by
  rw [same_comm s, same_comm t, same_congr hst]

end Scalar

namespace Heap

variable {heap heap' : Heap} {φ : Handle → List (Handle × Element)} {m : Multiset Value}
  {pins gone : Set Value} {key : Value} {keys : List Value} {s t : Scalar}

/-- A key matches the scalars that are the same as the one that it is. -/
theorem keyMatches_eq (hk : heap.scalar key = .ok t) (s : Scalar) :
    heap.keyMatches key s = t.same s := by
  cases key with
  | int => cases hk; cases s <;> rfl
  | float => cases hk; cases s <;> rfl
  | str h =>
    rw [scalar, str] at hk
    cases ht : heap.strings.get? h with
    | none => rw [ht] at hk; cases hk
    | some text =>
      rw [ht] at hk
      cases hk
      cases s <;> simp [keyMatches, ht, Scalar.same]
  | array => cases hk

/-- What has a scalar is live. -/
theorem isLive_of_scalar (hk : heap.scalar key = .ok s) : heap.isLive key = true := by
  cases key with
  | int => rfl
  | float => rfl
  | str h =>
    rw [scalar, str] at hk
    cases ht : heap.strings.get? h with
    | none => rw [ht] at hk; cases hk
    | some text =>
      obtain ⟨n, pinned, he⟩ := Pool.get?_eq_some.1 ht
      simp [isLive, Pool.isLive, he]
  | array => cases hk

theorem isKey_of_scalar (hk : heap.scalar key = .ok s) : key.isKey = true := by
  cases key with
  | array => cases hk
  | _ => rfl

/-! ### Distinct keys -/

/-- The keys `k` and `k'` are scalars that are not the same. -/
def Apart (heap : Heap) (k k' : Value) : Prop :=
  ∃ s t, heap.scalar k = .ok s ∧ heap.scalar k' = .ok t ∧ s.same t = false

theorem Apart.symm {k k' : Value} (h : heap.Apart k k') : heap.Apart k' k := by
  obtain ⟨s, t, hs, ht, hst⟩ := h
  exact ⟨t, s, ht, hs, (Scalar.same_comm t s).trans hst⟩

/-- The `keys` are scalars, and no two of them match. -/
structure Distinct (heap : Heap) (keys : List Value) : Prop where
  scalar : ∀ k ∈ keys, ∃ s, heap.scalar k = .ok s
  apart : keys.Pairwise fun k k' => ∀ s, heap.scalar k' = .ok s → heap.keyMatches k s = false

namespace Distinct

theorem nil (heap : Heap) : heap.Distinct [] := ⟨nofun, .nil⟩

theorem sublist (hd : heap.Distinct keys) {keys' : List Value} (hs : keys'.Sublist keys) :
    heap.Distinct keys' :=
  ⟨fun k hk => hd.scalar k (hs.subset hk), hd.apart.sublist hs⟩

/-- Keys that remain the scalars that they are remain distinct. -/
theorem congr (hd : heap.Distinct keys)
    (hs : ∀ k ∈ keys, ∀ s, heap.scalar k = .ok s → heap'.scalar k = .ok s) :
    heap'.Distinct keys := by
  refine ⟨fun k hk => ?_, hd.apart.imp_of_mem fun {k k'} hk hk' hkk' s hs' => ?_⟩
  · obtain ⟨s, hks⟩ := hd.scalar k hk
    exact ⟨s, hs k hk s hks⟩
  · obtain ⟨t, ht⟩ := hd.scalar k hk
    obtain ⟨t', ht'⟩ := hd.scalar k' hk'
    cases (hs k' hk' t' ht').symm.trans hs'
    rw [keyMatches_eq (hs k hk t ht), ← keyMatches_eq ht]
    exact hkk' _ ht'

theorem pairwise (hd : heap.Distinct keys) : keys.Pairwise heap.Apart := by
  refine hd.apart.imp_of_mem fun {k k'} hk hk' hkk' => ?_
  obtain ⟨s, hs⟩ := hd.scalar k hk
  obtain ⟨t, ht⟩ := hd.scalar k' hk'
  exact ⟨s, t, hs, ht, (keyMatches_eq hs t).symm.trans (hkk' t ht)⟩

/-- A key that none of the others matches comes to them. -/
theorem cons (hd : heap.Distinct keys) (hk : heap.scalar key = .ok s)
    (hn : ∀ k ∈ keys, heap.keyMatches k s = false) : heap.Distinct (key :: keys) := by
  refine ⟨fun k hkm => ?_, List.pairwise_cons.2 ⟨fun k hkm t ht => ?_, hd.apart⟩⟩
  · rcases List.mem_cons.1 hkm with rfl | hkm
    · exact ⟨s, hk⟩
    · exact hd.scalar k hkm
  · -- Keys are compared by their scalars, in either direction.
    have := hn k hkm
    rw [keyMatches_eq ht] at this
    rw [keyMatches_eq hk, Scalar.same_comm, this]

end Distinct

/-! ### Strings that stay -/

/-- Strings that are there before and after have one text. -/
def SameTexts (a b : Heap) : Prop :=
  ∀ h text text', a.strings.get? h = some text → b.strings.get? h = some text' → text' = text

theorem SameTexts.of_strings (hs : heap'.strings = heap.strings) : heap.SameTexts heap' :=
  fun _ _ _ h h' => Option.some.inj ((hs ▸ h').symm.trans h)

theorem Thins.sameTexts {heap'' : Heap} (ht : heap'.Thins heap'') (h : heap.SameTexts heap') :
    heap.SameTexts heap'' :=
  fun k text text' hk hk' => h k text text' hk (ht.strings_get? hk')

/-- What is stored, and was a scalar before, is the same scalar still. -/
theorem Booked.scalar_kept (hk : heap'.Booked φ m pins gone) (ht : heap.SameTexts heap')
    (hg : ∀ v ∈ gone, heap.isLive v = false) (hm : key ∈ heap'.stored)
    (hs : heap.scalar key = .ok s) : heap'.scalar key = .ok s := by
  have hl : heap'.Live key := (hk.known_stored hm).resolve_right fun hgone => by
    have := hg key hgone
    rw [isLive_of_scalar hs] at this
    cases this
  cases key with
  | int => exact hs
  | float => exact hs
  | str h =>
    obtain ⟨text', ht'⟩ := live_str.1 hl
    rw [scalar, str] at hs ⊢
    cases hh : heap.strings.get? h with
    | none => rw [hh] at hs; cases hs
    | some text => rwa [ht', ht h text text' hh ht', ← hh]
  | array => cases hs

end Heap

end PoolScript
