import Mathlib

/-!
# The sign of a double

A double is negated by its bits: the sign is flipped, and exponent and mantissa stay. Negating
twice gives the double back, zeros and infinities included (`float_neg_neg`).

All of Mathlib is imported for what is known of the bits of doubles, which no module of it has by
itself.
-/

namespace PoolScript

open Float.Model Float.Model.UnpackedFloat

/-- The bits of a double, with the sign flipped. -/
def flipped (b : BitVec Format.binary64.numBits) : BitVec Format.binary64.numBits :=
  packComponents Format.binary64 (-Sign.ofBitVec (unpackSign b)) (unpackExponent b)
    (unpackMantissa b)

theorem unpack_flipped (b : BitVec Format.binary64.numBits) :
    UnpackedFloat.unpack Format.binary64 (flipped b) =
      (UnpackedFloat.unpack Format.binary64 b).neg := by
  simp only [UnpackedFloat.unpack, flipped, unpackExponent_packComponents,
    unpackMantissa_packComponents, unpackSign_packComponents, Sign.ofBitVec_toBitVec]
  split
  · split <;> rfl
  · split
    · split <;> rfl
    · rfl

theorem unpack_pack_neg (b : BitVec Format.binary64.numBits) :
    UnpackedFloat.unpack Format.binary64
        (UnpackedFloat.pack Format.binary64 (UnpackedFloat.unpack Format.binary64 b).neg) =
      (UnpackedFloat.unpack Format.binary64 b).neg := by
  rw [← unpack_flipped, pack_unpack]
  split
  · rename_i h
    rw [unpack_packedNaN]
    obtain ⟨hexp, hmant⟩ := of_decide_eq_true h
    rw [UnpackedFloat.unpack]
    simp only [hexp, hmant, if_true, if_false]
  · rfl

theorem neg_neg_unpacked (u : UnpackedFloat) : u.neg.neg = u := by
  rcases u with s | _ | s | ⟨s, m, e⟩ <;> first | rfl | (cases s <;> rfl)

theorem float_neg_neg (x : Float) : - -x = x := by
  have hbits : (- -x.toModel).toBits.toBitVec = x.toModel.toBits.toBitVec := by
    show UnpackedFloat.pack _ (UnpackedFloat.unpack _ (UnpackedFloat.pack _ _)).neg = _
    rw [Float.Model.unpack, unpack_pack_neg, neg_neg_unpacked, pack_unpack_of_valid x.toModel.valid]
  exact Float.toBits_inj.1 (UInt64.toBitVec_inj.1 hbits)

end PoolScript
