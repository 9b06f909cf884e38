import Blockwork.Decimal.Nearest
import Mathlib

/-!
# Doubles nearest to integers

A finite double has a value (`value?`), an integer of 53 binary digits times a power of two. The
double that `nearest` takes for an integer of 64 bits is nearest to it (`isNearest_nearest`): no
double is nearer, so it has the value of the integer if any double has it
(`IsNearest.value?_eq_or`).

Rounding shifts digits out of a mantissa and keeps two bits that locate what is lost (`Locates`).
With these the mantissa is rounded to a nearest point of a grid, and what 53 digits can write either
lies on the grid too or below all the numbers of this size (`closest_of_grid`).
-/

namespace Blockwork.Decimal

open Float.Model Float.Model.UnpackedFloat

/-! ## The value of a double -/

/-- The value of a finite double. -/
def value? (x : Float) : Option ℚ :=
  match x.toModel.unpack with
  | .finite s m e _ => some ((s.apply m : Int) * 2 ^ e)
  | .zero _ => some 0
  | _ => none

/-- The double is finite, and no double is nearer to the integer. -/
def IsNearest (x : Float) (n : Int) : Prop :=
  ∃ r, value? x = some r ∧ ∀ y q, value? y = some q → |r - n| ≤ |q - n|

/-- A double nearest to an integer has its value, or no double has. -/
theorem IsNearest.value?_eq_or {x : Float} {n : Int} (h : IsNearest x n) :
    value? x = some (n : ℚ) ∨ ∀ y, value? y ≠ some (n : ℚ) := by
  obtain ⟨r, hr, hnearest⟩ := h
  rw [or_iff_not_imp_right, not_forall_not]
  rintro ⟨y, hy⟩
  have hle := hnearest y n hy
  rw [sub_self, abs_zero, abs_nonpos_iff, sub_eq_zero] at hle
  rw [hr, hle]

/-- Nothing that 53 binary digits can write is closer to the number. -/
def Closest (r x : ℚ) : Prop :=
  ∀ z e : Int, |z| < 2 ^ 53 → |r - x| ≤ |z * 2 ^ e - x|

theorem Closest.neg {r x : ℚ} (h : Closest r x) : Closest (-r) (-x) := by
  intro z e hz
  have hle := h (-z) e (by rwa [abs_neg])
  have hleft : -r - -x = -(r - x) := by ring
  have hright : (z : ℚ) * 2 ^ e - -x = -((-z : Int) * 2 ^ e - x) := by
    push_cast
    ring
  rwa [hleft, hright, abs_neg, abs_neg]

/-! ## Bits -/

/-- The mantissa of a double has 53 digits. -/
theorem mantissa_lt_of_unpack {b : BitVec Format.binary64.numBits} {s : Sign} {m : Nat} {e : Int}
    {hm : 0 < m} (h : UnpackedFloat.unpack Format.binary64 b = .finite s m e hm) :
    m < 2 ^ 53 := by
  have hsubnormal : (unpackMantissa b).toNat < 2 ^ 52 := (unpackMantissa b).isLt
  have hnormal : (1#1 ++ unpackMantissa b).toNat < 2 ^ 53 := (1#1 ++ unpackMantissa b).isLt
  unfold UnpackedFloat.unpack at h
  dsimp only at h
  split at h
  · split at h <;> cases h
  · split at h
    · split at h
      · cases h
      · injection h with _ hm
        omega
    · injection h with _ hm
      omega

theorem exists_of_value? {x : Float} {q : ℚ} (h : value? x = some q) :
    ∃ z e : Int, |z| < 2 ^ 53 ∧ q = z * 2 ^ e := by
  unfold value? at h
  split at h
  · rename_i s m e hm hunpack
    have hlt := mantissa_lt_of_unpack hunpack
    refine ⟨s.apply m, e, ?_, (Option.some.inj h).symm⟩
    rw [abs_lt]
    cases s with
    | negative => exact ⟨by simp only [Sign.apply]; omega, by simp only [Sign.apply]; omega⟩
    | positive => exact ⟨by simp only [Sign.apply]; omega, by simp only [Sign.apply]; omega⟩
  · exact ⟨0, 0, by decide, by rw [← Option.some.inj h, Int.cast_zero, zero_mul]⟩
  · cases h

/-- A float with all its digits and an exponent in the range, of a sign and a magnitude. -/
inductive Normal (s : Sign) (r : ℚ) : UnpackedFloat → Prop
  | mk {m : Nat} {e : Int} {hm : 0 < m} (hlow : 2 ^ 52 ≤ m) (hhigh : m < 2 ^ 53) (hle : -1074 ≤ e)
    (hge : e ≤ 971) (hr : (m : ℚ) * 2 ^ e = r) : Normal s r (.finite s m e hm)

theorem log2_eq {m : Nat} (hlow : 2 ^ 52 ≤ m) (hhigh : m < 2 ^ 53) : m.log2 = 52 :=
  (Nat.log2_eq_iff (by omega)).2 ⟨hlow, hhigh⟩

section Normal

variable {s : Sign} {r : ℚ} {u : UnpackedFloat} (h : Normal s r u)
include h

/-- Normal floats are unpacked as they were packed. -/
theorem Normal.unpack_pack : (Float.Model.pack u).unpack = u := by
  obtain @⟨m, e, hm, hlow, hhigh, hle, hge, -⟩ := h
  have hbias : Format.binary64.exponentBias = 1023 := rfl
  have hbits : Format.binary64.mantissaBits = 53 := rfl
  have hexponent : (BitVec.ofNat 11 (e + 1023 + 52).toNat).toNat = (e + 1075).toNat := by
    rw [BitVec.toNat_ofNat, Nat.mod_eq_of_lt (by omega)]
    omega
  have hmantissa : (1#1 ++ BitVec.ofNat 52 m).toNat = m := by
    rw [BitVec.toNat_append, ← Nat.shiftLeft_add_eq_or_of_lt (BitVec.isLt _), BitVec.toNat_ofNat,
      Nat.shiftLeft_eq, BitVec.toNat_ofNat]
    omega
  have hne : ∀ c : BitVec 11, c.toNat = 0 ∨ c.toNat = 2047 →
      BitVec.ofNat 11 (e + 1023 + 52).toNat ≠ c := by
    rintro c hc rfl
    omega
  have hpack : UnpackedFloat.pack Format.binary64 (.finite s m e hm) =
      packComponents Format.binary64 s (BitVec.ofNat 11 (e + 1023 + 52).toNat)
        (BitVec.ofNat 52 m) := by
    unfold UnpackedFloat.pack
    rw [log2_eq hlow hhigh, hbias, hbits]
    exact (if_neg (by norm_num; omega)).trans (if_pos rfl)
  unfold Float.Model.unpack Float.Model.pack
  dsimp only [UInt64.toBitVec_ofBitVec]
  rw [hpack]
  unfold UnpackedFloat.unpack
  simp only [unpackMantissa_packComponents, unpackExponent_packComponents,
    unpackSign_packComponents, Sign.ofBitVec_toBitVec, hbias]
  rw [if_neg (hne _ (.inr rfl)), if_neg (hne _ (.inl rfl))]
  congr 1
  omega

theorem Normal.neg : Normal (-s) r u.neg := by
  obtain ⟨hlow, hhigh, hle, hge, hr⟩ := h
  exact .mk hlow hhigh hle hge hr

end Normal

theorem Normal.value?_eq {s : Sign} {r : ℚ} {x : Float} (h : Normal s r x.toModel.unpack) :
    value? x = some ((s.apply 1 : Int) * r) := by
  unfold value?
  generalize x.toModel.unpack = u at h
  obtain ⟨-, -, -, -, rfl⟩ := h
  cases s <;> simp [Sign.apply]

/-! ## The bits behind the mantissa -/

/-- The number lies where the mantissa and the two bits behind it tell. -/
def Locates (em : ExtendedMantissa) (x : ℚ) : Prop :=
  match em.roundBit, em.stickyBit with
  | false, false => x = em.mantissa
  | false, true => em.mantissa < x ∧ x < em.mantissa + 1 / 2
  | true, false => x = em.mantissa + 1 / 2
  | true, true => em.mantissa + 1 / 2 < x ∧ x < em.mantissa + 1

namespace Locates

variable {em : ExtendedMantissa} {x : ℚ}

theorem shiftRightOne (h : Locates em x) : Locates em.shiftRightOne (x / 2) := by
  obtain ⟨m, round, sticky⟩ := em
  have hm : (m : ℚ) = 2 * (m / 2 : Nat) + (m % 2 : Nat) := by
    exact_mod_cast (Nat.div_add_mod m 2).symm
  rcases Nat.mod_two_eq_zero_or_one m with heven | hodd
  · rw [heven] at hm
    cases round <;> cases sticky <;>
      simp only [Locates, ExtendedMantissa.shiftRightOne, heven, hm] at h ⊢ <;> grind
  · rw [hodd] at hm
    cases round <;> cases sticky <;>
      simp only [Locates, ExtendedMantissa.shiftRightOne, hodd, hm] at h ⊢ <;> grind

theorem shiftRight (h : Locates em x) (k : Nat) : Locates (em >>> k) (x / 2 ^ k) := by
  induction k with
  | zero => rwa [pow_zero, div_one]
  | succ k ih =>
    rw [pow_succ, ← div_div]
    exact ih.shiftRightOne

/-- The rounded mantissa is an integer nearest to the number. -/
theorem abs_roundedMantissa (h : Locates em x) :
    |((em.roundedMantissa : Int) : ℚ) - x| ≤ 1 / 2 := by
  obtain ⟨m, round, sticky⟩ := em
  rw [abs_le]
  rcases Nat.mod_two_eq_zero_or_one m with hm | hm <;> cases round <;> cases sticky <;>
    simp only [Locates, ExtendedMantissa.roundedMantissa, ExtendedMantissa.accuracy,
      Accuracy.roundToNearestEven, hm] at h ⊢ <;> push_cast <;> constructor <;> linarith

end Locates

/-! ## The grid of a size -/

/-- The multiple of `g` nearest to `x`, from the integer nearest to their quotient. -/
theorem abs_sub_le_of_grid {g x : ℚ} (hg : 0 < g) {r : Int} (hr : |r - x / g| ≤ 1 / 2) (z : Int) :
    |r * g - x| ≤ |z * g - x| := by
  have hscale : ∀ w : Int, |w * g - x| = |w - x / g| * g := fun w => by
    rw [← abs_of_pos hg, ← abs_mul, abs_of_pos hg, sub_mul, div_mul_cancel₀ x hg.ne']
  rw [hscale, hscale]
  refine mul_le_mul_of_nonneg_right ?_ hg.le
  by_cases hz : z = r
  · rw [hz]
  · have hone : (1 : ℚ) ≤ |(z : ℚ) - r| := by
      exact_mod_cast Int.one_le_abs (sub_ne_zero.2 hz)
    have htriangle : |(z : ℚ) - r| ≤ |z - x / g| + |r - x / g| := by
      rw [abs_sub_comm (r : ℚ)]
      exact abs_sub_le _ _ _
    linarith

/-- The nearest point of the grid `2 ^ t` is closest to a number of at least 53 digits on it. -/
theorem closest_of_grid {x : ℚ} {r t : Int} (hr : |r - x / 2 ^ t| ≤ 1 / 2)
    (hx : 2 ^ 52 * 2 ^ t ≤ x) : Closest (r * 2 ^ t) x := by
  have hgrid := abs_sub_le_of_grid (zpow_pos two_pos t) hr
  intro z e hz
  rcases le_or_gt t e with hle | hlt
  · -- The other number lies on the grid too.
    obtain ⟨d, rfl⟩ := Int.le.dest hle
    have hmultiple : (z : ℚ) * 2 ^ (t + d) = (z * 2 ^ d : Int) * 2 ^ t := by
      rw [zpow_add₀ two_ne_zero, zpow_natCast]
      push_cast
      ring
    rw [hmultiple]
    exact hgrid _
  · -- The other number is not above the least one with 53 digits on the grid.
    have hz : (z : ℚ) ≤ 2 ^ 53 := by exact_mod_cast (le_abs_self z).trans hz.le
    have he : (2 : ℚ) ^ e ≤ 2 ^ (t - 1) := zpow_le_zpow_right₀ one_le_two (by omega)
    have hbelow : (z : ℚ) * 2 ^ e ≤ 2 ^ 52 * 2 ^ t := by
      calc (z : ℚ) * 2 ^ e ≤ 2 ^ 53 * 2 ^ (t - 1) :=
            mul_le_mul hz he (zpow_pos two_pos e).le (pow_pos two_pos 53).le
        _ = 2 ^ 52 * 2 ^ t := by
            rw [zpow_sub_one₀ two_ne_zero]
            ring
    refine (hgrid (2 ^ 52)).trans ?_
    have hleast : ((2 ^ 52 : Int) : ℚ) * 2 ^ t = 2 ^ 52 * 2 ^ t := by norm_num
    rw [hleast, abs_sub_comm, abs_of_nonneg (sub_nonneg.2 hx), abs_sub_comm,
      abs_of_nonneg (sub_nonneg.2 (hbelow.trans hx))]
    linarith

/-! ## Rounding -/

section Round

variable {s : Sign} {m k : Nat} {e : Int}

theorem targetExponent_eq (he : -1022 ≤ m.log2 + e) :
    Format.binary64.targetExponent (totalExponent m e) = m.log2 + e - 52 := by
  have hbits : Format.binary64.mantissaBits = 53 := rfl
  have hmin : Format.binary64.minExponent = -1074 := rfl
  unfold Format.targetExponent totalExponent
  rw [hbits, hmin]
  omega

/-- All digits but 53 are shifted out. -/
theorem shiftToTargetExponent_eq (hk : m.log2 = 52 + k) (he : -1022 ≤ m.log2 + e) :
    shiftToTargetExponent Format.binary64 m e .exact =
      ((⟨m, false, false⟩ : ExtendedMantissa) >>> k, e + k) := by
  have hshift : (Format.binary64.targetExponent (totalExponent m e) - e).toNat = k := by
    rw [targetExponent_eq he]
    omega
  unfold shiftToTargetExponent shiftToExponent
  simp only [hshift]
  rfl

theorem roundWithAccuracy_eq {e₁ e₂ : Int} {em₁ em₂ : ExtendedMantissa}
    (h₁ : shiftToTargetExponent Format.binary64 m e .exact = (em₁, e₁))
    (h₂ : shiftToTargetExponent Format.binary64 em₁.roundedMantissa e₁ .exact = (em₂, e₂))
    (hpos : 0 < em₂.mantissa) : roundWithAccuracy Format.binary64 s m e .exact =
      .finite s em₂.mantissa e₂ hpos := by
  unfold roundWithAccuracy
  simp only [h₁, h₂]
  exact dif_neg hpos.ne'

/-- What has 53 digits is not rounded. -/
theorem roundWithAccuracy_self {hm : 0 < m} (hlow : 2 ^ 52 ≤ m) (hhigh : m < 2 ^ 53)
    (he : -1074 ≤ e) : roundWithAccuracy Format.binary64 s m e .exact = .finite s m e hm := by
  have hlog := log2_eq hlow hhigh
  have hstay := shiftToTargetExponent_eq (e := e) (k := 0) hlog (by omega)
  rw [Nat.cast_zero, add_zero] at hstay
  exact roundWithAccuracy_eq hstay hstay hm

/-- A number of more than 53 digits, with the rest of them behind the point. -/
theorem div_two_pow_bounds (hm : m ≠ 0) (hk : m.log2 = 52 + k) :
    (2 : ℚ) ^ 52 ≤ m / 2 ^ k ∧ (m : ℚ) / 2 ^ k < 2 ^ 53 := by
  have hpow : (0 : ℚ) < 2 ^ k := pow_pos two_pos k
  have hlow := Nat.log2_self_le hm
  have hhigh := Nat.lt_log2_self (n := m)
  rw [hk] at hlow hhigh
  rw [Nat.add_right_comm] at hhigh
  rw [le_div_iff₀ hpow, div_lt_iff₀ hpow, ← pow_add, ← pow_add]
  exact_mod_cast And.intro hlow hhigh

/-- A rounded mantissa of 53 digits makes a normal float, also if it has carried into a digit
more. -/
theorem normal_of_rounded {em : ExtendedMantissa} {e₁ : Int}
    (hshift : shiftToTargetExponent Format.binary64 m e .exact = (em, e₁))
    (hlow : 2 ^ 52 ≤ em.roundedMantissa) (hhigh : em.roundedMantissa ≤ 2 ^ 53) (hle : -1074 ≤ e₁)
    (hge : e₁ ≤ 970) : Normal s ((em.roundedMantissa : Int) * 2 ^ e₁)
      (roundWithAccuracy Format.binary64 s m e .exact) := by
  rcases hhigh.lt_or_eq with hlt | hcarry
  · have hlog := log2_eq hlow hlt
    have hstay := shiftToTargetExponent_eq (e := e₁) (k := 0) hlog (by omega)
    rw [roundWithAccuracy_eq hshift hstay (Nat.lt_of_lt_of_le (by decide) hlow)]
    refine .mk hlow hlt (by omega) (by omega) ?_
    rw [Int.cast_natCast, Nat.cast_zero, add_zero]
    rfl
  · -- The mantissa is shifted again.
    have hlog : em.roundedMantissa.log2 = 52 + 1 := by
      rw [hcarry]
      exact Nat.log2_two_pow
    have hagain := shiftToTargetExponent_eq (e := e₁) hlog (by omega)
    have hhalf : ((⟨em.roundedMantissa, false, false⟩ : ExtendedMantissa) >>> 1).mantissa =
        2 ^ 52 := by
      rw [hcarry]
      rfl
    rw [roundWithAccuracy_eq hshift hagain (hhalf ▸ by decide)]
    refine .mk hhalf.ge (hhalf ▸ by decide) (by omega) (by omega) ?_
    rw [hhalf, hcarry, zpow_add₀ two_ne_zero]
    norm_num
    ring

/-- A number of at least 53 digits within the range is rounded to a normal float closest to it. -/
theorem exists_normal_round {x : ℚ} (hm : 2 ^ 52 ≤ m) (hle : -1022 ≤ m.log2 + e)
    (hge : m.log2 + e ≤ 1022) (hx : (m : ℚ) * 2 ^ e = x) :
    ∃ r, Normal s r (roundWithAccuracy Format.binary64 s m e .exact) ∧ Closest r x := by
  have hne : m ≠ 0 := by omega
  obtain ⟨k, hk⟩ := Nat.exists_eq_add_of_le ((Nat.le_log2 hne).2 hm)
  obtain ⟨hlow, hhigh⟩ := div_two_pow_bounds hne hk
  obtain ⟨em, hem⟩ : ∃ em, (⟨m, false, false⟩ : ExtendedMantissa) >>> k = em := ⟨_, rfl⟩
  have hround : |((em.roundedMantissa : Int) : ℚ) - m / 2 ^ k| ≤ 1 / 2 := by
    have hexact : Locates ⟨m, false, false⟩ m := rfl
    exact hem ▸ (hexact.shiftRight k).abs_roundedMantissa
  have hbounds : 2 ^ 52 ≤ em.roundedMantissa ∧ em.roundedMantissa ≤ 2 ^ 53 := by
    rw [abs_le, Int.cast_natCast] at hround
    have hlower : (2 : ℚ) ^ 52 < em.roundedMantissa + 1 := by linarith
    have hupper : (em.roundedMantissa : ℚ) < 2 ^ 53 + 1 := by linarith
    norm_cast at hlower hupper
    omega
  have hgrid : x / 2 ^ (e + k) = m / 2 ^ k := by
    rw [← hx, zpow_add₀ two_ne_zero, zpow_natCast, mul_comm (m : ℚ),
      mul_div_mul_left _ _ (zpow_pos two_pos e).ne']
  refine ⟨_, normal_of_rounded (hem ▸ shiftToTargetExponent_eq hk hle) hbounds.1 hbounds.2
    (by omega) (by omega), closest_of_grid (hgrid ▸ hround) ?_⟩
  rwa [← le_div_iff₀ (zpow_pos two_pos _), hgrid]

theorem mul_eq {s₁ s₂ : Sign} {m₁ m₂ : Nat} {e₁ e₂ : Int} {h₁ : 0 < m₁} {h₂ : 0 < m₂} :
    UnpackedFloat.mul Format.binary64 (.finite s₁ m₁ e₁ h₁) (.finite s₂ m₂ e₂ h₂) =
      roundWithAccuracy Format.binary64 (s₁ * s₂) (m₁ * m₂) (e₁ + e₂) .exact :=
  rfl

end Round

/-! ## Integers -/

section Integers

variable {n : Nat}

theorem log2_mul_two_pow (hn : n ≠ 0) (k : Nat) : (n * 2 ^ k).log2 = n.log2 + k := by
  have hpow : 0 < 2 ^ k := Nat.two_pow_pos k
  refine (Nat.log2_eq_iff (Nat.mul_ne_zero hn hpow.ne')).2 ⟨?_, ?_⟩
  · rw [Nat.pow_add]
    exact Nat.mul_le_mul_right _ (Nat.log2_self_le hn)
  · rw [Nat.add_right_comm, Nat.pow_add]
    exact Nat.mul_lt_mul_of_pos_right Nat.lt_log2_self hpow

/-- An integer of up to 53 digits is taken as it is, with zeros behind. -/
theorem exists_ofNat_eq (hpos : 0 < n) (hn : n < 2 ^ 53) :
    ∃ (k : Nat) (h : 0 < n * 2 ^ k), k ≤ 52 ∧ 2 ^ 52 ≤ n * 2 ^ k ∧ n * 2 ^ k < 2 ^ 53 ∧
      UnpackedFloat.ofNat Format.binary64 n = .finite .positive (n * 2 ^ k) (-k) h := by
  obtain ⟨k, hk⟩ := Nat.exists_eq_add_of_le
    (Nat.lt_succ_iff.1 ((Nat.log2_lt hpos.ne').2 hn))
  have h : 0 < n * 2 ^ k := Nat.mul_pos hpos (Nat.two_pow_pos k)
  have hlog : (n * 2 ^ k).log2 = 52 := by rw [log2_mul_two_pow hpos.ne', hk]
  obtain ⟨hlow, hhigh⟩ := (Nat.log2_eq_iff h.ne').1 hlog
  refine ⟨k, h, by omega, hlow, hhigh, ?_⟩
  have hdecrease : decreaseExponent n 0 (Format.binary64.targetExponent (totalExponent n 0)) =
      (n * 2 ^ k, (-k : Int)) := by
    have hshift : (0 - (n.log2 + 0 - 52 : Int)).toNat = k := by omega
    rw [targetExponent_eq (by omega)]
    unfold decreaseExponent
    simp only [hshift]
    rw [Nat.shiftLeft_eq, zero_sub]
  have hround : UnpackedFloat.round Format.binary64 .positive n 0 =
      .finite .positive (n * 2 ^ k) (-k) h := by
    unfold UnpackedFloat.round
    simp only [hdecrease]
    exact roundWithAccuracy_self hlow hhigh (by omega)
  have hcompare : compare (n : Int) 0 = .gt := compare_gt_iff_gt.2 (by omega)
  unfold UnpackedFloat.ofNat UnpackedFloat.ofInt UnpackedFloat.normalize
  rw [hcompare]
  exact hround

theorem nearest_eq (n : Nat) : nearest n 0 = Float.ofScientific n false 0 :=
  if_pos le_rfl

/-- An integer of up to 53 digits is multiplied by one. -/
theorem exists_normal_nearest_of_lt (hpos : 0 < n) (hn : n < 2 ^ 53) :
    ∃ r, Normal .positive r (nearest n 0).toModel.unpack ∧ Closest r n := by
  obtain ⟨k, h, hk, hlow, hhigh, heq⟩ := exists_ofNat_eq hpos hn
  have hleft : n.toUInt64.toFloat.toModel.unpack = .finite .positive (n * 2 ^ k) (-k) h := by
    have hword : n.toUInt64.toNat = n := Nat.mod_eq_of_lt (by omega)
    have hnormal : Normal .positive _ (.finite .positive (n * 2 ^ k) (-k) h) :=
      .mk hlow hhigh (by omega) (by omega) rfl
    show (Float.Model.pack (UnpackedFloat.ofNat Format.binary64 n.toUInt64.toNat)).unpack = _
    rw [hword, heq, hnormal.unpack_pack]
  have hone : (Float.ofBits 0x3FF0000000000000).toModel.unpack =
      .finite .positive (2 ^ 52) (-52) (by decide) :=
    rfl
  have hmodel : (nearest n 0).toModel = Float.Model.pack (UnpackedFloat.mul Format.binary64
      n.toUInt64.toFloat.toModel.unpack (Float.ofBits 0x3FF0000000000000).toModel.unpack) := by
    have hproduct : Float.ofScientific n false 0 =
        n.toUInt64.toFloat * Float.ofBits 0x3FF0000000000000 :=
      dif_pos ⟨hn, by decide⟩
    rw [nearest_eq, hproduct]
    rfl
  have hlog : (n * 2 ^ k * 2 ^ 52).log2 = 52 + 52 := by
    rw [log2_mul_two_pow h.ne', log2_eq hlow hhigh]
  have hvalue : ((n * 2 ^ k * 2 ^ 52 : Nat) : ℚ) * 2 ^ (-k + -52 : Int) = n := by
    rw [zpow_add₀ two_ne_zero, zpow_neg, zpow_neg, zpow_natCast]
    push_cast
    field_simp
  obtain ⟨r, hnormal, hclosest⟩ := exists_normal_round (s := .positive * .positive)
    (by omega) (by omega) (by omega) hvalue
  refine ⟨r, ?_, hclosest⟩
  rw [hmodel, hleft, hone, mul_eq, hnormal.unpack_pack]
  exact hnormal

/-- A longer integer is rounded. -/
theorem exists_normal_nearest_of_le (hlow : 2 ^ 53 ≤ n) (hn : n < 2 ^ 64) :
    ∃ r, Normal .positive r (nearest n 0).toModel.unpack ∧ Closest r n := by
  have hpos : n ≠ 0 := by omega
  have hlt : n.log2 < 64 := (Nat.log2_lt hpos).2 hn
  have hlog : (n * 2 ^ 53).log2 = n.log2 + 53 := log2_mul_two_pow hpos 53
  have hmodel : (nearest n 0).toModel =
      Float.Model.pack (UnpackedFloat.ofScientific Format.binary64 n 0) := by
    rw [nearest_eq]
    exact congrArg Float.toModel (dif_neg fun h => by omega)
  have hproduct : UnpackedFloat.ofScientific Format.binary64 n 0 =
      roundWithAccuracy Format.binary64 (.positive * .positive) (n * 2 ^ 53) (-53 + 0) .exact := by
    have hbits : Format.binary64.mantissaBits = 53 := rfl
    have hrange : ¬(0 : Int) < -((2 ^ Format.binary64.exponentBits : Int) + n.log2) := by
      have : (0 : Int) < 2 ^ Format.binary64.exponentBits := pow_pos two_pos _
      omega
    unfold UnpackedFloat.ofScientific
    rw [dif_neg hpos, if_neg (by decide), if_neg hrange, if_pos le_rfl, mul_eq, hbits,
      Int.toNat_zero, pow_zero, mul_one, Nat.shiftLeft_eq]
    rfl
  have hvalue : ((n * 2 ^ 53 : Nat) : ℚ) * 2 ^ (-53 + 0 : Int) = n := by
    rw [add_zero, Nat.cast_mul, mul_assoc]
    norm_num
  obtain ⟨r, hnormal, hclosest⟩ := exists_normal_round (s := .positive * .positive)
    (by omega) (by omega) (by omega) hvalue
  refine ⟨r, ?_, hclosest⟩
  rw [hmodel, hproduct, hnormal.unpack_pack]
  exact hnormal

theorem exists_normal_nearest (hpos : 0 < n) (hn : n < 2 ^ 64) :
    ∃ r, Normal .positive r (nearest n 0).toModel.unpack ∧ Closest r n :=
  (Nat.lt_or_ge n (2 ^ 53)).elim (exists_normal_nearest_of_lt hpos)
    fun hlow => exists_normal_nearest_of_le hlow hn

end Integers

theorem IsNearest.of_closest {x : Float} {n : Int} {r : ℚ} (hx : value? x = some r)
    (h : Closest r n) : IsNearest x n := by
  refine ⟨r, hx, fun y q hq => ?_⟩
  obtain ⟨z, e, hz, rfl⟩ := exists_of_value? hq
  exact h z e hz

/-- The double taken for an integer of 64 bits is nearest to it. -/
theorem isNearest_nearest {n : Nat} (hn : n < 2 ^ 64) : IsNearest (nearest n 0) n := by
  rcases Nat.eq_zero_or_pos n with rfl | hpos
  · refine ⟨0, rfl, fun y q _ => ?_⟩
    rw [Nat.cast_zero, Int.cast_zero, sub_zero, abs_zero]
    exact abs_nonneg _
  · obtain ⟨r, hnormal, hclosest⟩ := exists_normal_nearest hpos hn
    refine .of_closest hnormal.value?_eq ?_
    rwa [Sign.apply, Int.cast_one, one_mul, Int.cast_natCast]

/-- The double taken for a negative integer of 64 bits is nearest to it. -/
theorem isNearest_neg_nearest {n : Nat} (hpos : 0 < n) (hn : n < 2 ^ 64) :
    IsNearest (Float.neg (nearest n 0)) (-n) := by
  obtain ⟨r, hnormal, hclosest⟩ := exists_normal_nearest hpos hn
  have hneg : Normal .negative r (Float.neg (nearest n 0)).toModel.unpack := by
    show Normal .negative r (Float.Model.pack (nearest n 0).toModel.unpack.neg).unpack
    rw [hnormal.neg.unpack_pack]
    exact hnormal.neg
  refine .of_closest hneg.value?_eq ?_
  rw [Sign.apply, Int.cast_neg, Int.cast_one, neg_one_mul, Int.cast_neg, Int.cast_natCast]
  exact hclosest.neg

end Blockwork.Decimal
