import Markers.Decimal.Dyadic
import Markers.Decimal.Numeral
import Mathlib.Algebra.Order.Ring.Int

/-!
# Whole numbers as floats

A float keeps 53 binary digits of a number. A whole number of more digits becomes the nearest one of
so many digits, on a tie the one whose last digit is even (`roundBinary`), and this is the number
that the float holds (`wholeNumber?_toFloat`).
-/

namespace Markers

open Float.Model (Format)
open Float.Model.UnpackedFloat

/-- The quotient rounded to the nearest number, ties to even. -/
def divEven (n unit : Nat) : Nat :=
  if 2 * (n % unit) < unit ∨ 2 * (n % unit) = unit ∧ n / unit % 2 = 0 then n / unit
  else n / unit + 1

/-- The number rounded to its 53 leading binary digits, ties to even. -/
def roundBinary (n : Nat) : Nat :=
  divEven n (2 ^ (n.log2 - 52)) * 2 ^ (n.log2 - 52)

/-- An integer with its magnitude rounded. -/
def rounded (n : Int) : Int := n.sign * roundBinary n.natAbs

variable {n m k unit : Nat}

theorem divEven_mul {c : Nat} (hc : 0 < c) : divEven (n * c) (unit * c) = divEven n unit := by
  rw [divEven, divEven, Nat.mul_div_mul_right _ _ hc, Nat.mul_mod_mul_right, ← Nat.mul_assoc]
  simp only [Nat.mul_lt_mul_right hc, Nat.mul_left_inj (Nat.ne_of_gt hc)]

theorem divEven_bounds : n / unit ≤ divEven n unit ∧ divEven n unit ≤ n / unit + 1 := by
  unfold divEven
  split <;> omega

/-! ### Shifting digits out -/

/-- What is left of a number behind a shift: the digit behind the last one that stays, and whether
there is anything behind that. -/
theorem shiftRight_succ (m k : Nat) :
    (⟨m, false, false⟩ : ExtendedMantissa) >>> (k + 1) =
      ⟨m / 2 ^ (k + 1), m / 2 ^ k % 2 != 0, m % 2 ^ k != 0⟩ := by
  induction k with
  | zero => simp [HShiftRight.hShiftRight, Nat.repeat, ExtendedMantissa.shiftRightOne, Nat.mod_one]
  | succ k ih =>
    have hstep : (⟨m, false, false⟩ : ExtendedMantissa) >>> (k + 1 + 1) =
      ((⟨m, false, false⟩ : ExtendedMantissa) >>> (k + 1)).shiftRightOne := rfl
    rw [hstep, ih, ExtendedMantissa.shiftRightOne]
    have hmod : m % 2 ^ (k + 1) = m % 2 ^ k + 2 ^ k * (m / 2 ^ k % 2) := by
      rw [Nat.pow_succ, Nat.mod_mul]
    have hpos : 0 < 2 ^ k := Nat.two_pow_pos k
    have hsticky : (m / 2 ^ k % 2 != 0 || m % 2 ^ k != 0) = (m % 2 ^ (k + 1) != 0) := by
      rw [hmod, Bool.eq_iff_iff]
      simp only [Bool.or_eq_true, bne_iff_ne, ne_eq, Nat.add_eq_zero_iff, Nat.mul_eq_zero]
      omega
    simp only [hsticky, Nat.div_div_eq_div_mul, ← Nat.pow_succ]

theorem roundedMantissa_shiftRight (m k : Nat) :
    ((⟨m, false, false⟩ : ExtendedMantissa) >>> k).roundedMantissa = divEven m (2 ^ k) := by
  cases k with
  | zero =>
    rw [Nat.pow_zero, divEven, if_pos (.inl (by rw [Nat.mod_one]; decide)), Nat.div_one]
    rfl
  | succ k =>
    have hmod : m % 2 ^ (k + 1) = m % 2 ^ k + 2 ^ k * (m / 2 ^ k % 2) := by
      rw [Nat.pow_succ, Nat.mod_mul]
    have hlt : m % 2 ^ k < 2 ^ k := Nat.mod_lt _ (Nat.two_pow_pos k)
    have hunit : 2 ^ (k + 1) = 2 * 2 ^ k := by rw [Nat.pow_succ, Nat.mul_comm]
    rw [shiftRight_succ, divEven, hmod]
    generalize m / 2 ^ (k + 1) = q
    rcases Nat.mod_two_eq_zero_or_one (m / 2 ^ k) with hround | hround
    · -- less than half a unit is shifted out
      rw [hround, Nat.mul_zero, Nat.add_zero, if_pos (.inl (by omega))]
      cases hsticky : m % 2 ^ k != 0 <;> rfl
    · rw [hround, Nat.mul_one]
      by_cases htie : m % 2 ^ k = 0
      · rw [htie, Nat.zero_add]
        have hrounded : (⟨q, true, false⟩ : ExtendedMantissa).roundedMantissa = q + q % 2 := rfl
        refine hrounded.trans ?_
        split <;> omega
      · have hsticky : (m % 2 ^ k != 0) = true := bne_iff_ne.mpr htie
        rw [hsticky, if_neg (by omega)]
        rfl

/-! ### Leading digits -/

theorem log2_bounds (hn : n ≠ 0) : 2 ^ n.log2 ≤ n ∧ n < 2 ^ (n.log2 + 1) :=
  ⟨Nat.log2_self_le hn, Nat.lt_log2_self⟩

theorem log2_mul_two_pow (hn : n ≠ 0) (k : Nat) : (n * 2 ^ k).log2 = n.log2 + k := by
  obtain ⟨hlow, hhigh⟩ := log2_bounds hn
  have hpos : 0 < 2 ^ k := Nat.two_pow_pos k
  rw [Nat.log2_eq_iff (Nat.mul_ne_zero hn (Nat.ne_of_gt hpos))]
  constructor
  · rw [Nat.pow_add]
    exact Nat.mul_le_mul_right _ hlow
  · rw [Nat.add_right_comm, Nat.pow_add _ (n.log2 + 1)]
    exact Nat.mul_lt_mul_of_pos_right hhigh hpos

/-- Rounding keeps 53 digits, or one more where it carries over all of them. -/
theorem divEven_log2_bounds (hn : 2 ^ 53 ≤ n) :
    2 ^ 52 ≤ divEven n (2 ^ (n.log2 - 52)) ∧ divEven n (2 ^ (n.log2 - 52)) ≤ 2 ^ 53 := by
  have hne : n ≠ 0 := by omega
  have hlog : 53 ≤ n.log2 := (Nat.le_log2 hne).mpr hn
  obtain ⟨hlow, hhigh⟩ := log2_bounds hne
  have hbounds := @divEven_bounds n (2 ^ (n.log2 - 52))
  have hpos : 0 < 2 ^ (n.log2 - 52) := Nat.two_pow_pos _
  have hge : 2 ^ 52 ≤ n / 2 ^ (n.log2 - 52) := by
    rw [Nat.le_div_iff_mul_le hpos, ← Nat.pow_add]
    rwa [Nat.add_sub_cancel' (by omega)]
  have hlt : n / 2 ^ (n.log2 - 52) < 2 ^ 53 := by
    rw [Nat.div_lt_iff_lt_mul hpos, ← Nat.pow_add]
    rwa [(by omega : 53 + (n.log2 - 52) = n.log2 + 1)]
  omega

/-! ### Around the bounds of 64 bits -/

/-- Rounding does not lose the leading digit. -/
theorem two_pow_le_roundBinary (hk : 53 ≤ k) (hn : 2 ^ k ≤ n) : 2 ^ k ≤ roundBinary n := by
  have hle : 2 ^ 53 ≤ n := Nat.le_trans (Nat.pow_le_pow_right (by decide) hk) hn
  have hlog : k ≤ n.log2 := (Nat.le_log2 (by omega)).mpr hn
  calc 2 ^ k
    _ ≤ 2 ^ (52 + (n.log2 - 52)) := Nat.pow_le_pow_right (by decide) (by omega)
    _ = 2 ^ 52 * 2 ^ (n.log2 - 52) := Nat.pow_add ..
    _ ≤ roundBinary n := Nat.mul_le_mul_right _ (divEven_log2_bounds hle).1

/-- Between two powers of two the unit is the same. -/
theorem roundBinary_eq (hlow : 2 ^ k ≤ n) (hhigh : n < 2 ^ (k + 1)) :
    roundBinary n = divEven n (2 ^ (k - 52)) * 2 ^ (k - 52) := by
  have hpos : 0 < 2 ^ k := Nat.two_pow_pos k
  rw [roundBinary, (Nat.log2_eq_iff (by omega)).mpr ⟨hlow, hhigh⟩]

/-- Next to the bound of 64 signed bits half a unit is a thousand and twenty-four. -/
theorem two_pow_lt_roundBinary_iff (hn : 2 ^ 63 ≤ n) :
    2 ^ 63 < roundBinary n ↔ 2 ^ 63 + 2 ^ 10 < n := by
  rcases Nat.lt_or_ge n (2 ^ 64) with hlt | hge
  · rw [roundBinary_eq hn hlt, divEven]
    split <;> omega
  · have hround := two_pow_le_roundBinary (by decide) hge
    omega

/-- Next to the bound of 64 unsigned bits as well, since the unit is that of the numbers below. -/
theorem two_pow_le_roundBinary_iff (hn : 2 ^ 63 ≤ n) :
    2 ^ 64 ≤ roundBinary n ↔ 2 ^ 64 - 2 ^ 10 ≤ n := by
  rcases Nat.lt_or_ge n (2 ^ 64) with hlt | hge
  · rw [roundBinary_eq hn hlt, divEven]
    split <;> omega
  · have hround := two_pow_le_roundBinary (by decide) hge
    omega

theorem rounded_of_neg {n : Int} (hn : n < 0) : rounded n = -(roundBinary n.natAbs : Int) := by
  rw [rounded, Int.sign_eq_neg_one_of_neg hn, Int.neg_one_mul]

theorem rounded_of_pos {n : Int} (hn : 0 < n) : rounded n = roundBinary n.natAbs := by
  rw [rounded, Int.sign_eq_one_of_pos hn, Int.one_mul]

/-- The numbers up to half a unit below the least integer of 64 bits are rounded onto it. -/
theorem rounded_bounds_of_lt {n : Int} (hn : n < -2 ^ 63) :
    rounded n ≤ -2 ^ 63 ∧ (rounded n < -2 ^ 63 ↔ n < -2 ^ 63 - 2 ^ 10) := by
  have habs : 2 ^ 63 ≤ n.natAbs := by omega
  have hle := two_pow_le_roundBinary (by decide) habs
  have hlt := two_pow_lt_roundBinary_iff habs
  rw [rounded_of_neg (by omega)]
  omega

/-- No number above the greatest integer of 64 bits is rounded down to it. Those from half a unit
below the end of 64 bits without a sign are rounded up to that end. -/
theorem rounded_bounds_of_le {n : Int} (hn : 2 ^ 63 ≤ n) :
    2 ^ 63 ≤ rounded n ∧ (2 ^ 64 ≤ rounded n ↔ 2 ^ 64 - 2 ^ 10 ≤ n) := by
  have habs : 2 ^ 63 ≤ n.natAbs := by omega
  have hle := two_pow_le_roundBinary (by decide) habs
  have hge := two_pow_le_roundBinary_iff habs
  rw [rounded_of_pos (by omega)]
  omega

/-! ### Rounding to the format of floats -/

theorem shiftToTargetExponent_exact {e : Int}
    (hk : Format.binary64.targetExponent (Float.Model.totalExponent m e) - e = k) :
    shiftToTargetExponent .binary64 m e .exact =
      ((⟨m, false, false⟩ : ExtendedMantissa) >>> k, e + k) := by
  simp only [shiftToTargetExponent, shiftToExponent, hk, Int.toNat_natCast,
    ExtendedMantissa.ofMantissaAndAccuracy]

theorem targetExponent_eq {e : Int} (he : -1074 ≤ m.log2 + e - 52) :
    Format.binary64.targetExponent (Float.Model.totalExponent m e) = m.log2 + e - 52 := by
  have htarget : Format.binary64.targetExponent (Float.Model.totalExponent m e) =
      max (m.log2 + 1 + e - 53) (-1074) := rfl
  omega

/-- A digit that rounding carries over is shifted out again, and it is zero. -/
theorem exists_shiftToTargetExponent {q e : Nat} (hlow : 2 ^ 52 ≤ q) (hhigh : q ≤ 2 ^ 53) :
    ∃ (em : ExtendedMantissa) (e' : Nat),
      shiftToTargetExponent .binary64 q e .exact = (em, (e' : Int)) ∧
      2 ^ 52 ≤ em.mantissa ∧ em.mantissa < 2 ^ 53 ∧ em.mantissa * 2 ^ e' = q * 2 ^ e := by
  rcases Nat.lt_or_eq_of_le hhigh with hlt | rfl
  · have hlog : q.log2 = 52 := (Nat.log2_eq_iff (by omega)).mpr ⟨hlow, hlt⟩
    have htarget := @targetExponent_eq q e (by omega)
    have hshift := @shiftToTargetExponent_exact q 0 e (by omega)
    rw [Int.natCast_zero, Int.add_zero] at hshift
    exact ⟨_, e, hshift, hlow, hlt, rfl⟩
  · have hlog : (2 ^ 53).log2 = 53 := Nat.log2_two_pow
    have htarget := @targetExponent_eq (2 ^ 53) e (by omega)
    have hshift := @shiftToTargetExponent_exact (2 ^ 53) 1 e (by omega)
    rw [shiftRight_succ] at hshift
    refine ⟨_, e + 1, hshift, by decide, by decide, ?_⟩
    have hhalf : 2 ^ 53 / 2 ^ (0 + 1) = 2 ^ 52 := by decide
    dsimp only
    omega

/-- A number is rounded to 53 digits and an exponent, and they give the rounded number. -/
theorem exists_ofScientific (hn : 2 ^ 53 ≤ n) :
    ∃ (q e : Nat) (hq : 0 < q), ofScientific .binary64 n 0 = .finite .positive q e hq ∧
      2 ^ 52 ≤ q ∧ q < 2 ^ 53 ∧ q * 2 ^ e = roundBinary n := by
  have hne : n ≠ 0 := by omega
  have hlog : 53 ≤ n.log2 := (Nat.le_log2 hne).mpr hn
  have hround : ofScientific .binary64 n 0 =
      roundWithAccuracy .binary64 .positive (n * 2 ^ 53) (-53) .exact := by
    have hrange : (2 : Int) ^ Format.binary64.exponentBits = 2048 := rfl
    have hmantissa : n <<< 53 * 10 ^ 0 = n * 2 ^ 53 := by
      rw [Nat.shiftLeft_eq, Nat.pow_zero, Nat.mul_one]
    rw [ofScientific, dif_neg hne, hrange, if_neg (by decide), if_neg (by omega),
      if_pos (Int.le_refl 0), ← hmantissa]
    rfl
  have hshift : shiftToTargetExponent .binary64 (n * 2 ^ 53) (-53) .exact =
      ((⟨n * 2 ^ 53, false, false⟩ : ExtendedMantissa) >>> (n.log2 + 1),
        ((n.log2 - 52 : Nat) : Int)) := by
    have hlog2 : (n * 2 ^ 53).log2 = n.log2 + 53 := log2_mul_two_pow hne 53
    have htarget := @targetExponent_eq (n * 2 ^ 53) (-53) (by omega)
    rw [shiftToTargetExponent_exact (k := n.log2 + 1) (by omega)]
    congr 1
    omega
  have hrounded : ((⟨n * 2 ^ 53, false, false⟩ : ExtendedMantissa) >>>
      (n.log2 + 1)).roundedMantissa = divEven n (2 ^ (n.log2 - 52)) := by
    have hunit : 2 ^ (n.log2 + 1) = 2 ^ (n.log2 - 52) * 2 ^ 53 := by
      rw [← Nat.pow_add]
      congr 1
      omega
    rw [roundedMantissa_shiftRight, hunit, divEven_mul (Nat.two_pow_pos 53)]
  obtain ⟨hlow, hhigh⟩ := divEven_log2_bounds hn
  obtain ⟨em, e, hcarry, hqlow, hqhigh, hvalue⟩ :=
    @exists_shiftToTargetExponent _ (n.log2 - 52) hlow hhigh
  have hq : 0 < em.mantissa := by omega
  refine ⟨em.mantissa, e, hq, ?_, hqlow, hqhigh, hvalue⟩
  rw [hround, roundWithAccuracy, hshift]
  dsimp only
  rw [hrounded, hcarry, dif_neg (Nat.ne_of_gt hq)]

/-! ### Packing -/

section
variable {s : Sign} {q e : Nat} {hq : 0 < q} {x : BitVec 11} {y : BitVec 52}

theorem biasedExponent_eq (e : Nat) :
    ((e : Int) + Format.binary64.exponentBias + (52 : Nat)).toNat = e + 1075 := by
  have hbias : Format.binary64.exponentBias = 1023 := rfl
  omega

theorem pack_finite_eq :
    pack .binary64 (.finite s q e hq) =
      if 2 ^ 11 ≤ e + 1075 + 1 then packedInfinity .binary64 s
      else if q.log2 + 1 = 53 then
        packComponents .binary64 s (BitVec.ofNat 11 (e + 1075)) (BitVec.ofNat 52 q)
      else packComponents .binary64 s 0#11 (BitVec.ofNat 52 q) := by
  rw [← biasedExponent_eq]
  rfl

theorem pack_finite (hlow : 2 ^ 52 ≤ q) (hhigh : q < 2 ^ 53) (he : e ≤ 971) :
    pack .binary64 (.finite s q e hq) =
      packComponents .binary64 s (BitVec.ofNat 11 (e + 1075)) (BitVec.ofNat 52 q) := by
  have hlog : q.log2 = 52 := (Nat.log2_eq_iff (by omega)).mpr ⟨hlow, hhigh⟩
  rw [pack_finite_eq, if_neg (by omega), if_pos (by rw [hlog])]

/-- Beyond the largest exponent all numbers are infinite. -/
theorem pack_finite_of_lt (he : 971 < e) :
    pack .binary64 (.finite s q e hq) = pack .binary64 (.infinity s) := by
  rw [pack_finite_eq, if_pos (by omega)]
  rfl

/-- The bits of a float are its sign, its exponent and its mantissa. -/
theorem toNat_packComponents :
    (packComponents .binary64 s x y).toNat =
      s.toBitVec.toNat * 2 ^ 63 + x.toNat * 2 ^ 52 + y.toNat := by
  have happend : (packComponents .binary64 s x y).toNat = (s.toBitVec ++ x ++ y).toNat := rfl
  rw [happend, BitVec.toNat_append, BitVec.toNat_append, ← Nat.shiftLeft_add_eq_or_of_lt y.isLt,
    ← Nat.shiftLeft_add_eq_or_of_lt x.isLt, Nat.shiftLeft_eq, Nat.shiftLeft_eq]
  omega

theorem sign_packComponents (s : Sign) (x : BitVec 11) (y : BitVec 52) :
    Sign.ofBitVec (unpackSign (packComponents .binary64 s x y)) = s := by
  have hsign : unpackSign (packComponents .binary64 s x y) = s.toBitVec := by
    have hread : (unpackSign (packComponents .binary64 s x y)).toNat =
        ((packComponents .binary64 s x y).toNat >>> 63) % 2 := rfl
    have hs : s.toBitVec.toNat < 2 := s.toBitVec.isLt
    have hx : x.toNat < 2 ^ 11 := x.isLt
    have hy : y.toNat < 2 ^ 52 := y.isLt
    apply BitVec.eq_of_toNat_eq
    rw [hread, toNat_packComponents, Nat.shiftRight_eq_div_pow]
    omega
  rw [hsign]
  cases s <;> rfl

theorem finite_congr {s' : Sign} {q' : Nat} {e e' : Int} {hq' : 0 < q'} (hs : s = s')
    (hqq : q = q') (he : e = e') :
    Float.Model.UnpackedFloat.finite s q e hq = .finite s' q' e' hq' := by
  subst hs hqq he
  rfl

theorem unpack_packComponents (hinfinite : x ≠ -1#11) (hzero : x ≠ 0#11)
    (hpos : 0 < (1#1 ++ y).toNat) :
    unpack .binary64 (packComponents .binary64 s x y) =
      .finite s (1#1 ++ y).toNat ((x.toNat : Int) - 1075) hpos := by
  unfold unpack
  dsimp only
  rw [if_neg (by rwa [unpackExponent_packComponents]),
    if_neg (by rwa [unpackExponent_packComponents])]
  refine finite_congr (sign_packComponents s x y) ?_ ?_
  · rw [unpackMantissa_packComponents]
  · rw [unpackExponent_packComponents]
    rfl

theorem unpack_infinity : unpack .binary64 (pack .binary64 (.infinity s)) = .infinity s := by
  have hpack : pack .binary64 (.infinity s) = packComponents .binary64 s (-1#11) 0#52 := rfl
  rw [hpack]
  unfold unpack
  dsimp only
  rw [if_pos unpackExponent_packComponents, if_pos unpackMantissa_packComponents,
    sign_packComponents]

theorem unpack_pack (hlow : 2 ^ 52 ≤ q) (hhigh : q < 2 ^ 53) (he : e ≤ 971) :
    unpack .binary64 (pack .binary64 (.finite s q e hq)) = .finite s q e hq := by
  have hexponent : (BitVec.ofNat 11 (e + 1075)).toNat = e + 1075 := by
    rw [BitVec.toNat_ofNat]
    omega
  have hmantissa : (1#1 ++ BitVec.ofNat 52 q).toNat = q := by
    rw [BitVec.toNat_append, BitVec.toNat_ofNat, BitVec.toNat_ofNat,
      ← Nat.shiftLeft_add_eq_or_of_lt (Nat.mod_lt _ (Nat.two_pow_pos 52)), Nat.shiftLeft_eq]
    omega
  have hinfinite : BitVec.ofNat 11 (e + 1075) ≠ -1#11 := by
    intro h
    have hmax : (-1#11).toNat = 2047 := rfl
    rw [h] at hexponent
    omega
  have hzero : BitVec.ofNat 11 (e + 1075) ≠ 0#11 := by
    intro h
    have hmin : (0#11).toNat = 0 := rfl
    rw [h] at hexponent
    omega
  have hcancel : ((e + 1075 : Nat) : Int) - 1075 = e := by omega
  rw [pack_finite hlow hhigh he, unpack_packComponents hinfinite hzero (by omega)]
  exact finite_congr rfl hmantissa (by rw [hexponent, hcancel])

theorem toBits_ofModel (f : Float.Model.UnpackedFloat) :
    (Float.ofModel (.pack f)).toBits.toNat = (pack .binary64 f).toNat :=
  rfl

theorem neg_ofModel (f : Float.Model.UnpackedFloat) :
    -Float.ofModel (.pack f) = .ofModel (.pack (unpack .binary64 (pack .binary64 f)).neg) :=
  rfl

theorem isFinite_ofModel (f : Float.Model.UnpackedFloat) :
    (Float.ofModel (.pack f)).isFinite = (unpack .binary64 (pack .binary64 f)).isFinite :=
  rfl

/-- Two floats of the same bits are the same float. -/
theorem model_eq_of_toBits_eq : ∀ {a b : Float.Model}, a.toBits = b.toBits → a = b
  | ⟨_, _⟩, ⟨_, _⟩, rfl => rfl

theorem pack_congr {f g : Float.Model.UnpackedFloat} (h : pack .binary64 f = pack .binary64 g) :
    Float.Model.pack f = .pack g :=
  model_eq_of_toBits_eq (congrArg UInt64.ofBitVec h)

theorem neg_pack (hlow : 2 ^ 52 ≤ q) (hhigh : q < 2 ^ 53) :
    -Float.ofModel (.pack (.finite s q e hq)) = .ofModel (.pack (.finite (-s) q e hq)) := by
  rw [neg_ofModel]
  rcases Nat.lt_or_ge 971 e with he | he
  · rw [pack_finite_of_lt he, unpack_infinity]
    exact congrArg Float.ofModel (pack_congr (pack_finite_of_lt he).symm)
  · rw [unpack_pack hlow hhigh he]
    rfl

theorem isFinite_pack (hlow : 2 ^ 52 ≤ q) (hhigh : q < 2 ^ 53) :
    (Float.ofModel (.pack (.finite s q e hq))).isFinite = decide (e ≤ 971) := by
  rw [isFinite_ofModel]
  rcases Nat.lt_or_ge 971 e with he | he
  · rw [pack_finite_of_lt he, unpack_infinity, decide_eq_false (Nat.not_le.mpr he)]
    rfl
  · rw [unpack_pack hlow hhigh he, decide_eq_true he]
    rfl

end

/-! ### Reading the bits -/

section
variable {x : Float} {sign scale fraction : Nat}

theorem Dyadic.ofFloat_of_toBits
    (hbits : x.toBits.toNat = sign * 2 ^ 63 + scale * 2 ^ 52 + fraction)
    (hpos : 0 < scale) (hscale : scale < 2 ^ 11) (hfraction : fraction < 2 ^ 52) :
    ofFloat x =
      ⟨0x10000000000000 + fraction, scale - 1075, fraction = 0 ∧ 1 < scale⟩ := by
  have hread : (x.toBits >>> 52 &&& 0x7ff).toNat = scale := by
    have hmask : (0x7ff : UInt64).toNat = 2 ^ 11 - 1 := rfl
    have hwidth : (52 : UInt64).toNat % 64 = 52 := rfl
    rw [UInt64.toNat_and, UInt64.toNat_shiftRight, hbits, hmask, hwidth,
      Nat.and_two_pow_sub_one_eq_mod, Nat.shiftRight_eq_div_pow]
    omega
  have hrest : (x.toBits &&& 0xfffffffffffff).toNat = fraction := by
    have hmask : (0xfffffffffffff : UInt64).toNat = 2 ^ 52 - 1 := rfl
    rw [UInt64.toNat_and, hbits, hmask, Nat.and_two_pow_sub_one_eq_mod]
    omega
  rw [ofFloat, hread, hrest]
  simp only [if_neg (Nat.ne_of_gt hpos)]

theorem isNegative_of_toBits
    (hbits : x.toBits.toNat = sign * 2 ^ 63 + scale * 2 ^ 52 + fraction)
    (hscale : scale < 2 ^ 11) (hfraction : fraction < 2 ^ 52) :
    isNegative x = decide (sign = 1) := by
  have hread : (x.toBits >>> 63).toNat = sign := by
    have hwidth : (63 : UInt64).toNat % 64 = 63 := rfl
    rw [UInt64.toNat_shiftRight, hbits, hwidth, Nat.shiftRight_eq_div_pow]
    omega
  simp only [isNegative, ← UInt64.toNat_inj, hread]
  rfl

end

/-- A large float holds its mantissa at its exponent. -/
theorem wholeNumber?_pack {s : Sign} {q e : Nat} {hq : 0 < q} (hlow : 2 ^ 52 ≤ q)
    (hhigh : q < 2 ^ 53) (he : e ≤ 971) :
    wholeNumber? (.ofModel (.pack (.finite s q e hq))) =
      some (s.apply ((q * 2 ^ e : Nat) : Int)) := by
  have hbits : (Float.ofModel (.pack (.finite s q e hq))).toBits.toNat =
      s.toBitVec.toNat * 2 ^ 63 + (e + 1075) * 2 ^ 52 + (q - 2 ^ 52) := by
    rw [toBits_ofModel, pack_finite hlow hhigh he, toNat_packComponents, BitVec.toNat_ofNat,
      BitVec.toNat_ofNat]
    omega
  have hfraction : q - 2 ^ 52 < 2 ^ 52 := by omega
  have hscale : e + 1075 < 2 ^ 11 := by omega
  have hnat : (Dyadic.ofFloat (.ofModel (.pack (.finite s q e hq)))).nat? = some (q * 2 ^ e) := by
    have hexponent : ((e + 1075 : Nat) : Int) - 1075 = e := by omega
    have hunit : (-(e : Int)).toNat = 0 := by omega
    have hmantissa : 0x10000000000000 + (q - 2 ^ 52) = q := by omega
    rw [Dyadic.ofFloat_of_toBits hbits (by omega) hscale hfraction, Dyadic.nat?]
    simp only [hexponent, hunit, hmantissa, Nat.pow_eq, Nat.pow_zero, Nat.mod_one, Nat.div_one,
      if_true, Int.toNat_natCast]
  rw [wholeNumber?, isFinite_pack hlow hhigh, decide_eq_true he, if_pos rfl, hnat,
    isNegative_of_toBits hbits hscale hfraction]
  cases s <;> rfl

namespace Numeral
variable {negative : Bool} {n : Nat}

theorem magnitude_eq (hn : 2 ^ 53 ≤ n) :
    magnitude ⟨negative, n, 0⟩ = .ofModel (.pack (ofScientific .binary64 n 0)) := by
  have hzero : ¬(n = 0 ∨ (0 : Int) + n.log2 < -400) := by omega
  rw [magnitude, if_neg hzero, if_neg (by decide : ¬(0 : Int) > 400), Float.ofScientific,
    dif_neg fun hsmall => Nat.not_lt.mpr hn hsmall.1]
  rfl

/-- A large whole number becomes a float that holds it in 53 digits, or an infinite one. -/
theorem wholeNumber?_toFloat (hn : 2 ^ 53 ≤ n)
    (hfinite : (toFloat ⟨negative, n, 0⟩).isFinite = true) :
    wholeNumber? (toFloat ⟨negative, n, 0⟩) =
      some (if negative then -(roundBinary n : Int) else roundBinary n) := by
  obtain ⟨q, e, hq, hrounded, hlow, hhigh, hvalue⟩ := exists_ofScientific hn
  have hfloat : toFloat ⟨negative, n, 0⟩ =
      .ofModel (.pack (.finite (if negative then .negative else .positive) q e hq)) := by
    rw [toFloat, magnitude_eq hn, hrounded]
    cases negative
    · rfl
    · exact neg_pack hlow hhigh
  rw [hfloat, isFinite_pack hlow hhigh, decide_eq_true_iff] at hfinite
  rw [hfloat, wholeNumber?_pack hlow hhigh hfinite, hvalue]
  cases negative <;> rfl

end Numeral

end Markers
