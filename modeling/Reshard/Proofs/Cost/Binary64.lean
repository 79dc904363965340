import Mathlib
import Reshard.Cost.Binary64
import Reshard.Proofs.Cost.Format

/-! Every numeral that is read stands for a number.

    Reading starts from a machine word, which is a number of moderate size. It is multiplied by one
    power of ten, and the product is refused if it overflows; or it is divided by powers of ten,
    which are at least one, so the quotient stays moderate. What is followed here is the power of
    two of the unpacked number: `Within` bounds it from above, `Above` from below, and each
    operation, rounded and packed again, moves the bounds by what it adds or subtracts and by the
    bits that rounding may drop. -/

namespace Reshard.Binary64

open Float.Model (Format UnpackedFloat totalExponent)
open Float.Model.UnpackedFloat

/-- The value is zero, or a number whose power of two is at most `bound`. -/
def Within (bound : Int) : UnpackedFloat → Prop
  | .zero _ => True
  | .finite _ _ q _ => q ≤ bound
  | _ => False

/-- The value is a positive number whose power of two is at least `least`. -/
def Above (least : Int) : UnpackedFloat → Bool
  | .finite .positive _ q _ => least ≤ q
  | _ => false

theorem Within.mono {low high : Int} (h : low ≤ high) {x : UnpackedFloat} (hsmall : Within low x) :
    Within high x := by
  cases x with
  | zero => trivial
  | finite => exact Int.le_trans hsmall h
  | infinity | notANumber => exact hsmall

theorem isFinite_of_within {bound : Int} {x : UnpackedFloat} (hsmall : Within bound x) :
    x.isFinite := by
  cases x with
  | zero | finite => rfl
  | infinity | notANumber => exact hsmall.elim

/-! ### Rounding -/

theorem mantissa_shiftRight (em : ExtendedMantissa) (n : Nat) :
    (em >>> n).mantissa = em.mantissa / 2 ^ n := by
  induction n with
  | zero => exact (Nat.div_one _).symm
  | succ n ih =>
    rw [Nat.pow_succ, ← Nat.div_div_eq_div_mul, ← ih]
    rfl

theorem roundedMantissa_bounds (em : ExtendedMantissa) :
    em.mantissa ≤ em.roundedMantissa ∧ em.roundedMantissa ≤ em.mantissa + 1 := by
  rcases em with ⟨m, _ | _, _ | _⟩ <;>
    simp only [ExtendedMantissa.roundedMantissa, ExtendedMantissa.accuracy,
      Accuracy.roundToNearestEven] <;> omega

theorem mantissa_ofMantissaAndAccuracy (m : Nat) (accuracy : Accuracy) :
    (ExtendedMantissa.ofMantissaAndAccuracy m accuracy).mantissa = m := by
  rcases accuracy with _ | _ | _ | _ <;> rfl

/-- Shifting a significand of at most `k` bits raises the power of two by at most `k`. -/
theorem shiftToTargetExponent_le {m k : Nat} (hm : m < 2 ^ k) (hk : 0 < k) (q : Int)
    (accuracy : Accuracy) :
    (shiftToTargetExponent Format.binary64 m q accuracy).1.mantissa ≤ m ∧
      (shiftToTargetExponent Format.binary64 m q accuracy).2 ≤ max q (-1074) + k := by
  constructor
  · simp only [shiftToTargetExponent, shiftToExponent, mantissa_shiftRight,
      mantissa_ofMantissaAndAccuracy]
    exact Nat.div_le_self _ _
  · have hbits : m.log2 < k := by
      rcases Nat.eq_zero_or_pos m with rfl | hpos
      · simpa using hk
      · exact (Nat.log2_lt (Nat.ne_of_gt hpos)).2 hm
    simp only [shiftToTargetExponent, shiftToExponent, Format.targetExponent, totalExponent,
      Format.minExponent, Format.mantissaBits]
    omega

/-- Rounding a significand of at most `k` bits raises the power of two by little more than `2 * k`:
    once when bits are dropped, and once more when the rounded significand carries. -/
theorem within_roundWithAccuracy {m k : Nat} (hm : m < 2 ^ k) (hk : 0 < k) (s : Sign) (q : Int)
    (accuracy : Accuracy) :
    Within (max q (-1074) + (2 * k + 1)) (roundWithAccuracy Format.binary64 s m q accuracy) := by
  obtain ⟨hsmall, hlow⟩ := shiftToTargetExponent_le hm hk q accuracy
  unfold roundWithAccuracy
  generalize shiftToTargetExponent Format.binary64 m q accuracy = first at hsmall hlow
  have hcarried : first.1.roundedMantissa < 2 ^ (k + 1) := by
    have := (roundedMantissa_bounds first.1).2
    rw [Nat.pow_succ]
    omega
  have hhigh := (shiftToTargetExponent_le hcarried k.succ_pos first.2 .exact).2
  dsimp only
  split
  · trivial
  · simp only [Within]
    omega

/-- A significand of more than 53 bits is cut to its 53 leading ones. -/
theorem shiftToTargetExponent_of_normal (m : Nat) {q : Int} (hnormal : -1074 ≤ q)
    (accuracy : Accuracy) :
    (shiftToTargetExponent Format.binary64 m q accuracy).1.mantissa = m / 2 ^ (m.log2 - 52) ∧
      (shiftToTargetExponent Format.binary64 m q accuracy).2 = q + (m.log2 - 52 : Nat) := by
  have hshift : (Format.binary64.targetExponent (totalExponent m q) - q).toNat = m.log2 - 52 := by
    simp only [Format.targetExponent, totalExponent, Format.minExponent, Format.mantissaBits]
    omega
  simp only [shiftToTargetExponent, shiftToExponent, hshift, mantissa_shiftRight,
    mantissa_ofMantissaAndAccuracy, and_self]

theorem log2_div_two_pow {m : Nat} (hlong : 52 ≤ m.log2) : (m / 2 ^ (m.log2 - 52)).log2 = 52 := by
  have hlow := Nat.log2_self_le (n := m) (by rintro rfl; simp at hlong)
  have hhigh := Nat.lt_log2_self (n := m)
  have hsplit : 2 ^ m.log2 = 2 ^ 52 * 2 ^ (m.log2 - 52) := by
    rw [← Nat.pow_add, Nat.add_sub_cancel' hlong]
  have hpos : 0 < 2 ^ (m.log2 - 52) := Nat.two_pow_pos _
  have hleast : 2 ^ 52 ≤ m / 2 ^ (m.log2 - 52) := by rw [Nat.le_div_iff_mul_le hpos]; omega
  have hmost : m / 2 ^ (m.log2 - 52) < 2 ^ 53 := by rw [Nat.div_lt_iff_lt_mul hpos]; omega
  exact (Nat.log2_eq_iff (by omega)).2 ⟨hleast, hmost⟩

/-- A significand of at least 53 bits is rounded to 53 bits. The power of two rises by the number of
    bits dropped, and by one more if the rounded significand carries. -/
theorem roundWithAccuracy_of_normal {m : Nat} {q : Int} (hlong : 52 ≤ m.log2) (hnormal : -1074 ≤ q)
    (s : Sign) (accuracy : Accuracy) :
    ∃ m' q' hpos, roundWithAccuracy Format.binary64 s m q accuracy = .finite s m' q' hpos ∧
      m'.log2 = 52 ∧ q ≤ q' ∧ q' ≤ q + m.log2 - 51 := by
  obtain ⟨hcut, hpower⟩ := shiftToTargetExponent_of_normal m hnormal accuracy
  unfold roundWithAccuracy
  generalize shiftToTargetExponent Format.binary64 m q accuracy = first at hcut hpower
  have hbits := log2_div_two_pow hlong
  rw [← hcut] at hbits
  have hrounded : 52 ≤ first.1.roundedMantissa.log2 ∧ first.1.roundedMantissa.log2 < 54 := by
    obtain ⟨hlow, hhigh⟩ := roundedMantissa_bounds first.1
    obtain ⟨hleast, hmost⟩ := (Nat.log2_eq_iff (fun hzero => by simp [hzero] at hbits)).1 hbits
    rw [Nat.le_log2 (by omega), Nat.log2_lt (by omega)]
    omega
  obtain ⟨hcut', hpower'⟩ := shiftToTargetExponent_of_normal first.1.roundedMantissa
    (q := first.2) (by omega) .exact
  have hbits' := log2_div_two_pow hrounded.1
  rw [← hcut'] at hbits'
  dsimp only
  rw [dif_neg (fun hzero => by simp [hzero] at hbits')]
  exact ⟨_, _, _, rfl, hbits', by omega, by omega⟩

/-! ### Packing -/

/-- Every exponent field but the greatest belongs to a number. -/
theorem within_unpack_packComponents {bound : Int} (s : Sign) (x : BitVec 11) (m : BitVec 52)
    (hmost : x.toNat < 2047) (hsmall : (x.toNat : Int) - 1075 ≤ bound) (hleast : -1074 ≤ bound) :
    Within bound (unpack Format.binary64 (packComponents Format.binary64 s x m)) := by
  have hproper : x ≠ -1#11 := by rintro rfl; exact absurd hmost (by decide)
  simp only [unpack, unpackExponent_packComponents, unpackMantissa_packComponents, hproper,
    if_false]
  split
  · next hzero =>
    subst hzero
    split
    · trivial
    · exact hleast
  · exact hsmall

/-- An exponent field that is neither the least nor the greatest is kept. -/
theorem unpack_packComponents_of_normal (s : Sign) {x : BitVec 11} (m : BitVec 52)
    (hleast : 0 < x.toNat) (hmost : x.toNat < 2047) :
    ∃ m' hpos, unpack Format.binary64 (packComponents Format.binary64 s x m) =
      .finite s m' ((x.toNat : Int) - 1075) hpos := by
  have hproper : x ≠ -1#11 := by rintro rfl; exact absurd hmost (by decide)
  have hnormal : x ≠ 0#11 := by rintro rfl; exact absurd hleast (by decide)
  simp only [unpack, unpackExponent_packComponents, unpackMantissa_packComponents,
    unpackSign_packComponents, Sign.ofBitVec_toBitVec, hproper, hnormal, if_false]
  refine ⟨(1#1 ++ m).toNat, ?_, rfl⟩
  rw [BitVec.toNat_append]
  exact Nat.lt_of_lt_of_le (by decide) Nat.left_le_or

theorem unpack_packedInfinity (s : Sign) :
    unpack Format.binary64 (packedInfinity Format.binary64 s) = .infinity s := by
  simp [unpack, packedInfinity]

theorem exponentBias_binary64 : Format.binary64.exponentBias = 1023 := by decide

/-- Packing keeps the bound of a number that does not overflow. -/
theorem within_unpack_pack {bound : Int} {x : UnpackedFloat} (hsmall : Within bound x)
    (hleast : -1074 ≤ bound) (hmost : bound ≤ 971) : Within bound (Float.Model.pack x).unpack := by
  show Within bound (unpack Format.binary64 (UnpackedFloat.pack Format.binary64 x))
  cases x with
  | infinity | notANumber => exact hsmall.elim
  | zero s =>
    rw [show UnpackedFloat.pack _ (.zero s) = packedZero Format.binary64 s from rfl,
      unpack_packedZero]
    trivial
  | finite s m q =>
    have hupper : q ≤ bound := hsmall
    unfold UnpackedFloat.pack
    simp only [exponentBias_binary64]
    split
    · next hoverflow =>
      change 2048 ≤ _ at hoverflow
      omega
    · next hfits =>
      change ¬2048 ≤ _ at hfits
      split
      · exact within_unpack_packComponents s _ _ (by simp; omega) (by simp; omega) hleast
      · exact within_unpack_packComponents s _ _ (by decide) (by simp; omega) hleast

/-- Packing keeps the power of two of a number with 53 bits that does not overflow. -/
theorem above_unpack_pack {m : Nat} {q least : Int} {hpos : 0 < m} (hnormal : m.log2 = 52)
    (hlow : -1074 ≤ q) (hhigh : q ≤ 971) (h : least ≤ q) :
    Above least (Float.Model.pack (.finite .positive m q hpos)).unpack := by
  have hfield : (BitVec.ofNat 11 (q + 1023 + 52).toNat).toNat = (q + 1075).toNat := by
    simp only [BitVec.toNat_ofNat]
    omega
  show Above least (unpack Format.binary64 (UnpackedFloat.pack Format.binary64 _))
  unfold UnpackedFloat.pack
  simp only [exponentBias_binary64]
  rw [if_neg (by change ¬2048 ≤ _; omega), if_pos (by rw [hnormal]; rfl)]
  obtain ⟨_, _, hunpacked⟩ := unpack_packComponents_of_normal .positive
    (x := BitVec.ofNat 11 (q + 1023 + 52).toNat) (BitVec.ofNat 52 m) (by omega) (by omega)
  refine (congrArg (Above least) hunpacked).trans ?_
  simp only [Above, decide_eq_true_eq]
  omega

/-- Packing a number may overflow, but never makes it undefined. -/
theorem isFinite_or_isInf_unpack_pack {x : UnpackedFloat} (hfinite : x.isFinite) :
    (Float.Model.pack x).unpack.isFinite ∨ (Float.Model.pack x).unpack.isInf := by
  cases x with
  | infinity | notANumber => cases hfinite
  | zero s =>
    have hsmall : Within 0 (.zero s) := trivial
    exact .inl (isFinite_of_within (within_unpack_pack hsmall (by decide) (by decide)))
  | finite s m q h =>
    by_cases hfits : q ≤ 971
    · have hsmall : Within (max q (-1074)) (.finite s m q h) := Int.le_max_left ..
      exact .inl (isFinite_of_within (within_unpack_pack hsmall (by omega) (by omega)))
    · right
      show (unpack Format.binary64 (UnpackedFloat.pack Format.binary64 (.finite s m q h))).isInf
      unfold UnpackedFloat.pack
      simp only [exponentBias_binary64]
      rw [if_pos (by change 2048 ≤ _; omega), unpack_packedInfinity]
      rfl

/-- The greatest power of two of a float is 971. -/
theorem within_of_isFinite {x : Float} (hfinite : x.isFinite) : Within 971 x.toModel.unpack := by
  revert hfinite
  show (unpack Format.binary64 x.toModel.toBits.toBitVec).isFinite →
    Within 971 (unpack Format.binary64 x.toModel.toBits.toBitVec)
  generalize x.toModel.toBits.toBitVec = b
  rw [← @packComponents_unpackSign_unpackExponent_unpackMantissa Format.binary64 b]
  intro hfinite
  have hproper : @unpackExponent Format.binary64 b ≠ -1#11 := by
    intro hspecial
    simp only [unpack, unpackExponent_packComponents, unpackMantissa_packComponents, hspecial,
      if_true] at hfinite
    split at hfinite <;> cases hfinite
  have hfield : (@unpackExponent Format.binary64 b).toNat < 2047 := by
    have : _ < 2 ^ 11 := (@unpackExponent Format.binary64 b).isLt
    exact Nat.lt_of_le_of_ne (by omega) fun hgreatest => hproper (BitVec.eq_of_toNat_eq hgreatest)
  exact within_unpack_packComponents _ _ _ hfield (by omega) (by decide)

/-- The significand of a float has at most 53 bits. -/
theorem mantissa_lt {x : Float} {s : Sign} {m : Nat} {q : Int} {h : 0 < m}
    (heq : x.toModel.unpack = .finite s m q h) : m < 2 ^ 53 := by
  revert heq
  show unpack Format.binary64 x.toModel.toBits.toBitVec = _ → _
  unfold unpack
  dsimp only
  intro heq
  split at heq
  · split at heq <;> cases heq
  · split at heq
    · split at heq
      · cases heq
      · cases heq
        exact Nat.lt_of_lt_of_le (BitVec.isLt _) (by decide)
    · cases heq
      exact BitVec.isLt _

/-! ### Operations -/

theorem isFinite_neg {x : Float} (hfinite : x.isFinite) : (-x).isFinite := by
  have hsmall : Within 971 x.toModel.unpack.neg := by
    have := within_of_isFinite hfinite
    cases hunpacked : x.toModel.unpack <;> rw [hunpacked] at this
    case zero => trivial
    all_goals exact this
  exact isFinite_of_within (within_unpack_pack hsmall (by decide) (by decide))

/-- A product that does not overflow is a number. -/
theorem isFinite_mul {x y : Float} (hx : x.isFinite) (hy : y.isFinite)
    (hfits : (x * y).isInf = false) : (x * y).isFinite := by
  have hproduct :
      (UnpackedFloat.mul Format.binary64 x.toModel.unpack y.toModel.unpack).isFinite := by
    have hx : x.toModel.unpack.isFinite := hx
    have hy : y.toModel.unpack.isFinite := hy
    generalize x.toModel.unpack = u at hx
    generalize y.toModel.unpack = v at hy
    rcases u with _ | _ | _ | ⟨s, m, q, _⟩ <;> try cases hx
    all_goals rcases v with _ | _ | _ | ⟨s', m', q', _⟩ <;> try cases hy
    all_goals try rfl
    exact isFinite_of_within
      (within_roundWithAccuracy Nat.lt_log2_self (Nat.succ_pos (m * m').log2) ..)
  rcases isFinite_or_isInf_unpack_pack hproduct with hfinite | hinfinite
  · exact hfinite
  · exact absurd (hinfinite.symm.trans hfits) (by decide)

/-- A quotient of significands of 53 bits has at most 158 bits before it is rounded. -/
theorem within_div_finite {bound : Int} {m₁ m₂ : Nat} {q₁ q₂ : Int} (s₁ s₂ : Sign) (hpos₁ : 0 < m₁)
    (hpos₂ : 0 < m₂) (h₁ : m₁ < 2 ^ 53) (h₂ : m₂ < 2 ^ 53) (hq : q₁ - q₂ ≤ bound) :
    Within (max bound (-1074) + 317)
      (UnpackedFloat.div Format.binary64 (.finite s₁ m₁ q₁ hpos₁) (.finite s₂ m₂ q₂ hpos₂)) := by
  simp only [UnpackedFloat.div, divCore]
  generalize htarget : min (q₁ - q₂)
    (Format.binary64.targetExponent (totalExponent m₁ q₁ - totalExponent m₂ q₂)) = q
  have hshift : (q₁ - q₂ - q).toNat ≤ 105 := by
    have : m₂.log2 < 53 := (Nat.log2_lt (by omega)).2 h₂
    simp only [← htarget, Format.targetExponent, totalExponent, Format.minExponent,
      Format.mantissaBits]
    omega
  generalize (q₁ - q₂ - q).toNat = k at hshift
  have hquotient : (m₁ <<< k) / m₂ < 2 ^ 158 :=
    calc (m₁ <<< k) / m₂ ≤ m₁ * 2 ^ k := Nat.shiftLeft_eq .. ▸ Nat.div_le_self _ _
      _ < 2 ^ 53 * 2 ^ k := Nat.mul_lt_mul_of_pos_right h₁ (Nat.two_pow_pos k)
      _ ≤ 2 ^ 53 * 2 ^ 105 := Nat.mul_le_mul_left _ (Nat.pow_le_pow_right (by decide) hshift)
      _ = 2 ^ 158 := by decide
  exact (within_roundWithAccuracy hquotient (by decide) _ q _).mono (by omega)

/-- A divisor with a great power of two makes the quotient small. -/
theorem within_div {bound least : Int} {x y : Float} (hx : Within bound x.toModel.unpack)
    (hy : Above least y.toModel.unpack) (hfits : max (bound - least) (-1074) + 317 ≤ 971) :
    Within (max (bound - least) (-1074) + 317) (x / y).toModel.unpack := by
  refine within_unpack_pack
    (x := UnpackedFloat.div Format.binary64 x.toModel.unpack y.toModel.unpack) ?_ (by omega) hfits
  rcases huy : y.toModel.unpack with _ | _ | _ | ⟨_ | _, m, q, _⟩ <;> rw [huy] at hy <;>
    try cases hy
  rcases hux : x.toModel.unpack with _ | _ | _ | ⟨s', m', q', _⟩ <;> rw [hux] at hx
  case infinity | notANumber => exact hx.elim
  case zero => trivial
  case finite =>
    have hhigh : q' ≤ bound := hx
    have hlow : least ≤ q := of_decide_eq_true hy
    exact within_div_finite _ _ _ _ (mantissa_lt hux) (mantissa_lt huy) (by omega)

/-! ### Powers of ten -/

theorem log2_two_pow_mul_ten_pow {e : Nat} (h : e ≤ 307) :
    53 ≤ (2 ^ 53 * 10 ^ e).log2 ∧ (2 ^ 53 * 10 ^ e).log2 < 1073 := by
  have hpos : 2 ^ 53 * 10 ^ e ≠ 0 :=
    Nat.mul_ne_zero (by decide) (Nat.ne_of_gt (Nat.pow_pos (by decide)))
  rw [Nat.le_log2 hpos, Nat.log2_lt hpos]
  constructor
  · exact Nat.le_mul_of_pos_right _ (Nat.pow_pos (by decide))
  · calc 2 ^ 53 * 10 ^ e ≤ 2 ^ 53 * 10 ^ 307 :=
          Nat.mul_le_mul_left _ (Nat.pow_le_pow_right (by decide) h)
      _ < 2 ^ 1073 := by decide +kernel

theorem above_power_greatest : Above 971 (power 308).toModel.unpack := by decide +kernel

/-- A power of ten is a number, and it is no fraction. -/
theorem above_power {e : Nat} (he : e ≤ 308) : Above (-53) (power e).toModel.unpack := by
  by_cases htabled : e ≤ 22
  · exact (by decide +kernel : ∀ e : Fin 23, Above (-53) (power e).toModel.unpack) ⟨e, by omega⟩
  by_cases hgreatest : e = 308
  · subst hgreatest
    decide +kernel
  -- The others are computed, and only the greatest one comes near the range of floats.
  have hvalue : power e = .ofModel (.pack (UnpackedFloat.ofScientific Format.binary64 1 e)) := by
    simp only [power, Float.ofScientific, htabled]
    rfl
  obtain ⟨hlong, hshort⟩ := log2_two_pow_mul_ten_pow (e := e) (by omega)
  have hsize : 1 <<< Format.binary64.mantissaBits * 10 ^ (e : Int).toNat = 2 ^ 53 * 10 ^ e := rfl
  have hscale : -(Format.binary64.mantissaBits : Int) + 0 = -53 := rfl
  rw [hvalue]
  simp only [UnpackedFloat.ofScientific]
  rw [dif_neg (by decide), if_neg (by simp; omega), if_neg (by simp; omega), if_pos (by omega)]
  simp only [UnpackedFloat.mul]
  rw [hsize, hscale]
  obtain ⟨m', q, hpos, hrounded, hnormal, hleast, hmost⟩ :=
    roundWithAccuracy_of_normal (q := -53) (Nat.le_of_succ_le hlong) (by decide)
      (.positive * .positive) .exact
  rw [hrounded]
  exact above_unpack_pack hnormal (by omega) (by omega) (by omega)

theorem isFinite_of_above {least : Int} {x : UnpackedFloat} (h : Above least x) : x.isFinite := by
  cases x with
  | zero | finite => rfl
  | infinity | notANumber => cases h

/-! ### Reading -/

/-- A machine word is a number of moderate size. -/
theorem within_toFloat (n : UInt64) : Within 300 n.toFloat.toModel.unpack := by
  refine within_unpack_pack (x := UnpackedFloat.ofUInt64 Format.binary64 n) ?_ (by decide)
    (by decide)
  simp only [ofUInt64, ofNat, ofInt, UnpackedFloat.normalize]
  split
  · next hneg =>
    rw [Int.compare_eq_lt] at hneg
    omega
  · trivial
  · next hpos =>
    rw [Int.compare_eq_gt] at hpos
    simp only [UnpackedFloat.round, decreaseExponent, Int.toNat_natCast]
    have hbits : n.toNat.log2 < 64 := (Nat.log2_lt (by omega)).2 n.toNat_lt
    generalize hshift_eq :
      ((0 : Int) - Format.binary64.targetExponent (totalExponent n.toNat 0)).toNat = k
    have hshift : k ≤ 52 := by
      simp only [← hshift_eq, Format.targetExponent, totalExponent, Format.minExponent,
        Format.mantissaBits]
      omega
    have hshifted : n.toNat <<< k < 2 ^ 116 :=
      calc n.toNat <<< k = n.toNat * 2 ^ k := Nat.shiftLeft_eq ..
        _ < 2 ^ 64 * 2 ^ k := Nat.mul_lt_mul_of_pos_right n.toNat_lt (Nat.two_pow_pos k)
        _ ≤ 2 ^ 64 * 2 ^ 52 := Nat.mul_le_mul_left _ (Nat.pow_le_pow_right (by decide) hshift)
        _ = 2 ^ 116 := by decide
    exact (within_roundWithAccuracy hshifted (by decide) ..).mono (by omega)

/-- Scaling a number of moderate size gives a number, or nothing. -/
theorem isFinite_of_scale? {f x : Float} {e : Int} (hsmall : Within 300 f.toModel.unpack)
    (h : scale? f e = some x) : x.isFinite := by
  fun_induction scale? f e with
  | case1 | case6 => cases h; exact isFinite_of_within hsmall
  | case2 | case3 => cases h
  | case4 f e _ _ product hfits =>
    rw [← Option.some.inj h]
    have hpower := isFinite_of_above (above_power (e := e.toNat) (by omega))
    exact isFinite_mul (isFinite_of_within hsmall) hpower (by simpa using hfits)
  | case5 f e _ _ _ =>
    cases h
    have hpower := above_power (e := (-e).toNat) (by omega)
    exact isFinite_of_within (within_div hsmall hpower (by decide))
  | case7 f e _ _ _ _ ih =>
    exact ih ((within_div hsmall above_power_greatest (by decide)).mono (by decide)) h

/-- A numeral that is read stands for a number. -/
theorem isFinite_of_ofNumeral? {n : Numeral} {x : Float} (h : ofNumeral? n = some x) :
    x.isFinite := by
  simp only [ofNumeral?, bind, Option.bind_eq_some_iff] at h
  obtain ⟨size, hscaled, h⟩ := h
  cases h
  have hnumber := isFinite_of_scale? (within_toFloat _) hscaled
  split
  · exact isFinite_neg hnumber
  · exact hnumber

/-! ### The infeasible cost -/

theorem unpack_infeasible : (Cost.infeasible : Float).toModel.unpack = .infinity .positive := by
  rfl

theorem unpack_inj {x y : Float} (h : x.toModel.unpack = y.toModel.unpack) : x = y := by
  rw [← Float.toBits_inj, ← UInt64.toBitVec_inj]
  exact (unpack_inj_of_valid x.toModel.valid y.toModel.valid).1 h

/-- No other float is at least positive infinity. -/
theorem eq_infeasible_of_le {x : Float} (h : Cost.infeasible ≤ x) : x = Cost.infeasible := by
  have h : UnpackedFloat.le (Cost.infeasible : Float).toModel.unpack x.toModel.unpack :=
    of_decide_eq_true h
  apply unpack_inj
  rw [unpack_infeasible] at h ⊢
  generalize x.toModel.unpack = u at h
  rcases u with (_ | _) | _ | _ | ⟨_, _, _, _⟩
  case infinity.positive => rfl
  all_goals cases h

/-! ### Valid costs -/

theorem unpack_zero : (0 : Float).toModel.unpack = .zero .positive := by
  rfl

/-- A cost is valid unless it is undefined or negative. -/
theorem valid_iff {x : Float} : Cost.Valid x ↔ x.isNaN = false ∧ ¬ x < 0 := by
  have hle : Cost.Valid x ↔ UnpackedFloat.le (.zero .positive) x.toModel.unpack := by
    rw [← unpack_zero]
    exact decide_eq_true_iff
  have hlt : x < 0 ↔ UnpackedFloat.lt x.toModel.unpack (.zero .positive) := by
    rw [← unpack_zero]
    exact decide_eq_true_iff
  have hnan : x.isNaN = x.toModel.unpack.isNaN := rfl
  rw [hle, hlt, hnan]
  rcases x.toModel.unpack with (_ | _) | _ | _ | ⟨_ | _, _, _, _⟩ <;>
    simp [UnpackedFloat.le, UnpackedFloat.lt, UnpackedFloat.compare, UnpackedFloat.isNaN]

instance : LawfulCostFormat Float where
  isFinite_infeasible := rfl
  infeasible_le_infeasible := by decide +kernel
  eq_infeasible_of_le := eq_infeasible_of_le
  isFinite_of_ofNumeral? := isFinite_of_ofNumeral?

end Reshard.Binary64
