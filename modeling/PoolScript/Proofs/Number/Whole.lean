import Mathlib
import PoolScript.Value

/-!
# Whole numbers as doubles

A whole number that is not zero is at least one, and stays so when it is rounded to a double. So an
integer counts as zero beside a double exactly when it is zero (`intToFloat_beq_zero`).

Doubles are followed through rounding, packing and multiplication by one as long as they are
*large*: infinite, or with a full mantissa that makes them at least one.

All of Mathlib is imported for what is known of unpacked doubles, which no module of it has by
itself.
-/

namespace PoolScript

open Float.Model Float.Model.UnpackedFloat

/-- An infinite number, or one of at least one with all bits of its mantissa. -/
inductive Large : UnpackedFloat → Prop
  | infinity (s : Sign) : Large (.infinity s)
  | finite (s : Sign) {m : Nat} {e : Int} (h0 : 0 < m) (log2 : m.log2 = 52) (le : -52 ≤ e) :
      Large (.finite s m e h0)

/-! ### Rounding -/

theorem log2_div_two_pow {m : Nat} (hm : 52 ≤ m.log2) : (m / 2 ^ (m.log2 - 52)).log2 = 52 := by
  have h0 : m ≠ 0 := by rintro rfl; simp at hm
  have hlo := Nat.log2_self_le h0
  have hhi := Nat.lt_log2_self (n := m)
  have hq : 2 ^ 52 ≤ m / 2 ^ (m.log2 - 52) := by
    rw [Nat.le_div_iff_mul_le (Nat.two_pow_pos _), ← Nat.pow_add]
    rwa [Nat.add_sub_cancel' hm]
  refine (Nat.log2_eq_iff (by omega)).2 ⟨hq, ?_⟩
  rw [Nat.div_lt_iff_lt_mul (Nat.two_pow_pos _), ← Nat.pow_add]
  rwa [show 52 + 1 + (m.log2 - 52) = m.log2 + 1 by omega]

theorem mantissa_shiftRight (em : ExtendedMantissa) (n : Nat) :
    (em >>> n).mantissa = em.mantissa / 2 ^ n := by
  induction n with
  | zero => exact (Nat.div_one _).symm
  | succ n ih =>
    change (em >>> n).mantissa / 2 = _
    rw [ih, Nat.div_div_eq_div_mul, Nat.pow_succ]

theorem mantissa_ofMantissaAndAccuracy (m : Nat) (acc : Accuracy) :
    (ExtendedMantissa.ofMantissaAndAccuracy m acc).mantissa = m := by
  rcases acc with _ | _ | _ | _ <;> rfl

/-- Where no exponent is too small, a mantissa is shifted to its full length. -/
theorem shiftToTargetExponent_large {m : Nat} {e : Int} (hm : 52 ≤ m.log2)
    (he : 0 ≤ m.log2 + e) (acc : Accuracy) :
    (shiftToTargetExponent Format.binary64 m e acc).1.mantissa.log2 = 52 ∧
      (shiftToTargetExponent Format.binary64 m e acc).2 = e + (m.log2 - 52 : Nat) := by
  have ht : Format.binary64.targetExponent (totalExponent m e) - e = (m.log2 - 52 : Nat) := by
    simp only [Format.targetExponent, totalExponent, Format.mantissaBits, Format.minExponent]
    omega
  rw [shiftToTargetExponent, shiftToExponent, ht, Int.toNat_natCast]
  refine ⟨?_, rfl⟩
  rw [mantissa_shiftRight, mantissa_ofMantissaAndAccuracy]
  exact log2_div_two_pow hm

theorem le_roundedMantissa (em : ExtendedMantissa) : em.mantissa ≤ em.roundedMantissa := by
  obtain ⟨m, _ | _, _ | _⟩ := em
  · exact Nat.le_refl m
  · exact Nat.le_refl m
  · exact Nat.le_add_right m _
  · exact Nat.le_succ m

theorem large_round {m : Nat} {e : Int} (hm : 52 ≤ m.log2) (he : 0 ≤ m.log2 + e) (s : Sign)
    (acc : Accuracy) : Large (roundWithAccuracy Format.binary64 s m e acc) := by
  obtain ⟨hm₁, he₁⟩ := shiftToTargetExponent_large hm he acc
  rw [roundWithAccuracy]
  generalize shiftToTargetExponent Format.binary64 m e acc = p at hm₁ he₁ ⊢
  obtain ⟨em, e₁⟩ := p
  -- Rounding up may make the mantissa longer, and then it is shifted once more.
  have hr : 52 ≤ em.roundedMantissa.log2 := by
    have h0 : em.mantissa ≠ 0 := by rintro h0; rw [h0] at hm₁; cases hm₁
    have hle := le_roundedMantissa em
    rw [Nat.le_log2 (by omega)]
    exact ((Nat.le_log2 h0).1 hm₁.ge).trans hle
  have he₁' : e₁ = e + (m.log2 - 52 : Nat) := he₁
  obtain ⟨hm₂, he₂⟩ := shiftToTargetExponent_large (e := e₁) hr (by omega) .exact
  dsimp only
  generalize shiftToTargetExponent Format.binary64 em.roundedMantissa e₁ .exact = q at hm₂ he₂ ⊢
  obtain ⟨em', e₂⟩ := q
  have he₂' : e₂ = e₁ + (em.roundedMantissa.log2 - 52 : Nat) := he₂
  have h0 : em'.mantissa ≠ 0 := by rintro h0; rw [h0] at hm₂; cases hm₂
  simp only [dif_neg h0]
  exact .finite s _ hm₂ (by omega)

/-! ### Packing -/

/-- The bits of a large number are those of a large number. -/
theorem large_unpack_pack {u : UnpackedFloat} (hu : Large u) :
    Large (UnpackedFloat.unpack Format.binary64 (UnpackedFloat.pack Format.binary64 u)) := by
  rcases hu with s | @⟨s, m, e, h0, hm, he⟩
  · cases s <;> exact .infinity _
  obtain ⟨hlo, hhi⟩ := (Nat.log2_eq_iff (by omega)).1 hm
  -- The exponent is in the middle of its range, or the number becomes infinite.
  set b := (e + Format.binary64.exponentBias + Format.binary64.mantissaBitsWithoutImplicit).toNat
    with hb
  have hb' : (b : Int) = e + 1075 := by
    have : (1023 : Int) ≤ e + 1075 := by omega
    simp only [hb, Format.exponentBias]
    omega
  simp only [UnpackedFloat.pack, ← hb]
  split
  · cases s <;> exact .infinity _
  next hmax =>
  have hmax : ¬2048 ≤ b + 1 := hmax
  rw [if_pos (by rw [hm]; rfl)]
  simp only [UnpackedFloat.unpack, unpackMantissa_packComponents, unpackExponent_packComponents]
  have hbits : (BitVec.ofNat 11 b).toNat = b := Nat.mod_eq_of_lt (by omega)
  have hnan : BitVec.ofNat 11 b ≠ -1#11 := fun h => by
    have := congrArg BitVec.toNat h
    rw [hbits] at this
    change b = 2047 at this
    omega
  have hzero : BitVec.ofNat 11 b ≠ 0#11 := fun h => by
    have := congrArg BitVec.toNat h
    rw [hbits] at this
    change b = 0 at this
    omega
  rw [if_neg hnan, if_neg hzero]
  have hmant : (1#1 ++ BitVec.ofNat 52 m).toNat = m := by
    rw [BitVec.toNat_append, BitVec.toNat_ofNat, Nat.shiftLeft_eq]
    change 2 ^ 52 ||| m % 2 ^ 52 = m
    rw [Nat.or_comm, Nat.or_two_pow_eq_add_of_lt (Nat.mod_lt m (Nat.two_pow_pos 52))]
    omega
  refine .finite _ _ ?_ ?_
  · change (1#1 ++ BitVec.ofNat 52 m).toNat.log2 = 52
    rw [hmant, hm]
  · change -52 ≤ ((BitVec.ofNat 11 b).toNat : Int) - (1023 + 52)
    omega

/-! ### Converting -/

theorem large_neg {u : UnpackedFloat} (hu : Large u) : Large u.neg := by
  rcases hu with s | ⟨s, h0, hm, he⟩
  · exact .infinity _
  · exact .finite _ h0 hm he

/-- Multiplying by one leaves a large number large. -/
theorem large_mul_one {u : UnpackedFloat} (hu : Large u) :
    Large (u.mul Format.binary64 (.finite .positive (2 ^ 52) (-52) (Nat.two_pow_pos 52))) := by
  rcases hu with s | @⟨s, m, e, h0, hm, he⟩
  · exact .infinity _
  have hlog : 104 ≤ (m * 2 ^ 52).log2 := by
    rw [Nat.le_log2 (Nat.mul_pos h0 (Nat.two_pow_pos 52)).ne']
    have := ((Nat.log2_eq_iff h0.ne').1 hm).1
    omega
  exact large_round (by omega) (by omega) _ _

theorem le_log2_shiftLeft {n : Nat} (hn : 0 < n) (k : Nat) : n.log2 + k ≤ (n <<< k).log2 := by
  rw [Nat.shiftLeft_eq, Nat.le_log2 (Nat.mul_pos hn (Nat.two_pow_pos k)).ne', Nat.pow_add]
  exact Nat.mul_le_mul_right _ (Nat.log2_self_le hn.ne')

theorem large_ofNat {n : Nat} (hn : 0 < n) : Large (.ofNat Format.binary64 n) := by
  have hc : compare (n : Int) 0 = .gt := Int.compare_eq_gt.2 (by omega)
  rw [UnpackedFloat.ofNat, UnpackedFloat.ofInt, UnpackedFloat.normalize, hc]
  -- A short mantissa is filled up with zeros first.
  have hk : (0 - Format.binary64.targetExponent (totalExponent n 0)).toNat = 52 - n.log2 := by
    simp only [Format.targetExponent, totalExponent, Format.mantissaBits, Format.minExponent]
    omega
  have hlog := le_log2_shiftLeft hn (52 - n.log2)
  simp only [UnpackedFloat.round, decreaseExponent, Int.toNat_natCast, hk]
  exact large_round (by omega) (by omega) _ _

theorem large_floatOfNat {n : Nat} (hn : 0 < n) : Large (Float.ofNat n).toModel.unpack := by
  change Large (Float.ofScientific n false 0).toModel.unpack
  rw [Float.ofScientific]
  split
  · next h =>
    -- A short number is converted exactly, and multiplied by one.
    have hnat : n.toUInt64.toNat = n := by
      have := h.1
      exact Nat.mod_eq_of_lt (by omega)
    have hu : Large n.toUInt64.toFloat.toModel.unpack := by
      change Large (UnpackedFloat.unpack _ (UnpackedFloat.pack _ (.ofNat _ n.toUInt64.toNat)))
      rw [hnat]
      exact large_unpack_pack (large_ofNat hn)
    have hone : Float.exactlyRepresentablePowersOfTen[0].toModel.unpack =
        .finite .positive (2 ^ 52) (-52) (Nat.two_pow_pos 52) := rfl
    have hmul := large_mul_one hu
    rw [← hone] at hmul
    exact large_unpack_pack hmul
  · refine large_unpack_pack ?_
    have hlog := le_log2_shiftLeft hn 53
    have hu : UnpackedFloat.ofScientific Format.binary64 n 0 =
        roundWithAccuracy Format.binary64 .positive (n <<< 53 * 10 ^ 0) (-53) .exact := by
      rw [UnpackedFloat.ofScientific, dif_neg hn.ne', if_neg (by decide), if_neg (by simp),
        if_pos (by decide)]
      rfl
    have hround := large_round (m := n <<< 53) (e := -53) (by omega) (by omega) .positive .exact
    rw [Nat.pow_zero, Nat.mul_one] at hu
    rw [← hu] at hround
    exact hround

/-- A large number is no zero. -/
theorem beq_zero_of_large {x : Float} (hx : Large x.toModel.unpack) : (x == 0.0) = false := by
  rw [Bool.eq_false_iff]
  intro h
  have h : x.toModel.unpack.beq (.zero .positive) = true := h
  rw [beq_iff_ne_notANumber_and_eq] at h
  rcases h.2.2 with h | ⟨h, -⟩ | ⟨h, -⟩ <;> rw [h] at hx <;> cases hx

/-- The double of an integer is zero only if the integer is. -/
theorem intToFloat_beq_zero (n : Int64) : (intToFloat n == 0.0) = (n == 0) := by
  by_cases hn : n = 0
  · subst hn
    decide +kernel
  · rw [beq_eq_false_iff_ne.2 hn]
    refine beq_zero_of_large ?_
    have h0 : n.toInt ≠ 0 := fun h => hn (Int64.toInt_inj.1 h)
    rw [intToFloat]
    generalize n.toInt = i at h0
    cases i with
    | ofNat m => exact large_floatOfNat (Nat.pos_of_ne_zero fun hm => h0 (by rw [hm]; rfl))
    | negSucc m => exact large_unpack_pack (large_neg (large_floatOfNat m.succ_pos))

end PoolScript
