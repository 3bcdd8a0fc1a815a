import Mathlib.Algebra.Order.Field.Power
import Mathlib.Algebra.Order.Floor.Semiring
import Mathlib.Data.Int.Log
import Mathlib.Data.Rat.Floor
import Mathlib.Tactic.NormNum
import Mathlib.Tactic.Positivity
import Scad.Number.Shortest

/-!
# Rounding to doubles

Which double is nearest depends on the value of a fraction, not on how the fraction is written
(`nearest_congr`), so zeros may move between the digits and the exponent of a decimal
(`toMagnitude_shift`). A finite double is the nearest one to its own exact decimal
(`toMagnitude_exact`).
-/

namespace Scad
namespace Double

/-! ## Equal fractions -/

theorem two_zpow_le_div {num den : Nat} (hd : 0 < den) (k : Int) :
    (2 : ℚ) ^ k ≤ (num : ℚ) / den ↔ den * Nat.pow 2 k.toNat ≤ num * Nat.pow 2 (-k).toNat := by
  have hd' : (0 : ℚ) < den := by exact_mod_cast hd
  rw [le_div_iff₀ hd', Nat.pow_eq, Nat.pow_eq]
  rcases Int.le_total 0 k with h | h
  · obtain ⟨n, rfl⟩ := Int.eq_ofNat_of_zero_le h
    have h0 : (-(n : Int)).toNat = 0 := by omega
    rw [h0, Int.toNat_natCast, zpow_natCast, pow_zero, mul_one, mul_comm den]
    exact_mod_cast Iff.rfl
  · obtain ⟨n, rfl⟩ : ∃ n : Nat, k = -(n : Int) := ⟨(-k).toNat, by omega⟩
    have h0 : (-(n : Int)).toNat = 0 := by omega
    rw [h0, neg_neg, Int.toNat_natCast, zpow_neg, zpow_natCast, pow_zero, mul_one,
      inv_mul_le_iff₀ (by positivity), mul_comm]
    exact_mod_cast Iff.rfl

/-- The floor of the binary logarithm, as in the library. -/
theorem floorLog2_eq_log {num den : Nat} (hn : 0 < num) (hd : 0 < den) :
    floorLog2 num den = Int.log 2 ((num : ℚ) / den) := by
  have hn' : (0 : ℚ) < num := by exact_mod_cast hn
  have hd' : (0 : ℚ) < den := by exact_mod_cast hd
  have hr : (0 : ℚ) < num / den := div_pos hn' hd'
  have hlow : (2 : ℚ) ^ ((num.log2 : Int) - den.log2 - 1) ≤ num / den := by
    have h1 : (2 : ℚ) ^ num.log2 ≤ num := by exact_mod_cast Nat.log2_self_le (by omega)
    have h2 : (den : ℚ) ≤ 2 ^ (den.log2 + 1) := by exact_mod_cast (Nat.lt_log2_self).le
    rw [show (num.log2 : Int) - den.log2 - 1 = (num.log2 : Int) - ((den.log2 + 1 : Nat) : Int) by
      push_cast; ring, zpow_sub₀ (by norm_num), zpow_natCast, zpow_natCast]
    gcongr
  have hhigh : (num : ℚ) / den < 2 ^ ((num.log2 : Int) - den.log2 + 1) := by
    have h1 : (num : ℚ) < 2 ^ (num.log2 + 1) := by exact_mod_cast Nat.lt_log2_self
    have h2 : (2 : ℚ) ^ den.log2 ≤ den := by exact_mod_cast Nat.log2_self_le (by omega)
    rw [show (num.log2 : Int) - den.log2 + 1 = ((num.log2 + 1 : Nat) : Int) - (den.log2 : Int) by
      push_cast; ring, zpow_sub₀ (by norm_num), zpow_natCast, zpow_natCast]
    exact div_lt_div₀ h1 h2 (by positivity) (by positivity)
  have low := (Int.zpow_le_iff_le_log (b := 2) (by norm_num) hr).1 (by rwa [Nat.cast_ofNat])
  have high := (Int.lt_zpow_iff_log_lt (b := 2) (by norm_num) hr).1 (by rwa [Nat.cast_ofNat])
  have step := (@two_zpow_le_div num den hd ((num.log2 : Int) - den.log2)).symm.trans
    (Int.zpow_le_iff_le_log (b := 2) (by norm_num) hr)
  unfold floorLog2
  dsimp only
  split
  · rename_i h
    have := step.1 h
    omega
  · rename_i h
    have := mt step.2 h
    omega

theorem roundQuotient_mul_right (num den : Nat) {c : Nat} (hc : 0 < c) :
    roundQuotient (num * c) (den * c) = roundQuotient num den := by
  unfold roundQuotient
  have h1 : 2 * (num % den * c) < den * c ↔ 2 * (num % den) < den := by
    rw [← Nat.mul_assoc, Nat.mul_lt_mul_right hc]
  have h2 : 2 * (num % den * c) = den * c ↔ 2 * (num % den) = den := by
    rw [← Nat.mul_assoc, Nat.mul_left_inj (by omega)]
  simp only [Nat.mul_div_mul_right _ _ hc, Nat.mul_mod_mul_right, h1, h2]

theorem roundQuotient_congr {num den num' den' : Nat} (hd : 0 < den) (hd' : 0 < den')
    (h : num * den' = num' * den) (a b : Nat) :
    roundQuotient (num * a) (den * b) = roundQuotient (num' * a) (den' * b) := by
  rw [← roundQuotient_mul_right (num * a) (den * b) hd',
    ← roundQuotient_mul_right (num' * a) (den' * b) hd]
  congr 1
  · rw [Nat.mul_right_comm, h, Nat.mul_right_comm]
  · rw [Nat.mul_right_comm, Nat.mul_right_comm den', Nat.mul_comm den den']

/-- Equal fractions have the same nearest double. -/
theorem nearest_congr {num den num' den' : Nat} (hd : 0 < den) (hd' : 0 < den')
    (h : num * den' = num' * den) : nearest num den = nearest num' den' := by
  have hz : num = 0 ↔ num' = 0 := by
    constructor
    · rintro rfl
      have h' : 0 = num' * den := by rw [← h, Nat.zero_mul]
      rcases Nat.mul_eq_zero.1 h'.symm with h | h
      · exact h
      · omega
    · rintro rfl
      rw [Nat.zero_mul] at h
      rcases Nat.mul_eq_zero.1 h with h | h
      · exact h
      · omega
  unfold nearest
  by_cases hn : num = 0
  · rw [if_pos hn, if_pos (hz.1 hn)]
  · have hn' : num' ≠ 0 := mt hz.2 hn
    have hlog : floorLog2 num den = floorLog2 num' den' := by
      rw [floorLog2_eq_log (by omega) hd, floorLog2_eq_log (by omega) hd']
      congr 1
      have h1 : (den : ℚ) ≠ 0 := by exact_mod_cast hd.ne'
      have h2 : (den' : ℚ) ≠ 0 := by exact_mod_cast hd'.ne'
      rw [div_eq_div_iff h1 h2]
      exact_mod_cast h
    rw [if_neg hn, if_neg hn', hlog]
    simp only [roundQuotient_congr hd hd' h]

theorem nearest_le_infinityBits (num den : Nat) : nearest num den ≤ infinityBits := by
  unfold nearest
  split
  · exact Nat.zero_le _
  · exact Nat.min_le_right _ _

/-! ## The parts of a double -/

theorem infinityBits_lt_signBit : infinityBits < signBit := by decide

theorem magnitude_ofMagnitude {m : Nat} (h : m ≤ infinityBits) :
    (ofMagnitude false m).magnitude = m := by
  have h64 : infinityBits < 2 ^ 64 := by decide
  have := infinityBits_lt_signBit
  rw [magnitude, ofMagnitude, if_neg (by decide), UInt64.toNat_ofNat', Nat.mod_eq_of_lt (by omega),
    Nat.mod_eq_of_lt (by omega)]

theorem isNegative_ofMagnitude {m : Nat} (h : m ≤ infinityBits) :
    (ofMagnitude false m).isNegative = false := by
  have h64 : infinityBits < 2 ^ 64 := by decide
  have := infinityBits_lt_signBit
  rw [isNegative, ofMagnitude, if_neg (by decide), UInt64.toNat_ofNat', Nat.mod_eq_of_lt (by omega)]
  exact decide_eq_false (by omega)

theorem scale_mul_add_mantissa (x : Double) : x.scale * exponentUnit + x.mantissa = x.magnitude := by
  unfold scale mantissa exponentUnit
  split <;> omega

theorem mantissa_lt (x : Double) : x.mantissa < 2 ^ 53 := by
  unfold mantissa exponentUnit
  split <;> omega

theorem scale_lt {x : Double} (h : x.magnitude < infinityBits) : x.scale < 2046 := by
  unfold scale
  unfold infinityBits exponentUnit at *
  omega

theorem mantissa_pos {x : Double} (h : x.magnitude ≠ 0) : 0 < x.mantissa := by
  unfold mantissa exponentUnit
  split <;> omega

/-- A mantissa has its full length unless the scale is the lowest. -/
theorem scale_of_log2_mantissa {x : Double} (h : x.magnitude ≠ 0) :
    ((x.mantissa.log2 : Int) + x.scale - 52).toNat = x.scale := by
  have hpos := mantissa_pos h
  have hlt : x.mantissa.log2 < 53 := (Nat.log2_lt (by omega)).2 x.mantissa_lt
  by_cases hm : x.magnitude < exponentUnit
  · have hs : x.scale = 0 := by unfold scale exponentUnit at *; omega
    have : x.mantissa < 2 ^ 52 := by unfold mantissa; rw [if_pos hm]; exact hm
    have := (Nat.log2_lt (by omega)).2 this
    omega
  · have : 2 ^ 52 ≤ x.mantissa := by unfold mantissa exponentUnit at *; rw [if_neg hm]; omega
    have := (Nat.le_log2 (by omega)).2 this
    omega

theorem floorLog2_mul_two_pow {m : Nat} (hm : 0 < m) (s : Nat) :
    floorLog2 (m * 2 ^ (s - 1074)) (2 ^ (1074 - s)) = (m.log2 : Int) + s - 1074 := by
  have hm' : (0 : ℚ) < m := by exact_mod_cast hm
  have hratio : ((m * 2 ^ (s - 1074) : Nat) : ℚ) / ((2 ^ (1074 - s) : Nat) : ℚ) =
      m * 2 ^ ((s : Int) - 1074) := by
    have hexp : ((s - 1074 : Nat) : Int) - ((1074 - s : Nat) : Int) = (s : Int) - 1074 := by omega
    rw [Nat.cast_mul, Nat.cast_pow, Nat.cast_pow, Nat.cast_ofNat, mul_div_assoc, ← zpow_natCast,
      ← zpow_natCast, ← zpow_sub₀ (by norm_num), hexp]
  have hr : (0 : ℚ) < m * 2 ^ ((s : Int) - 1074) := by positivity
  rw [floorLog2_eq_log (by positivity) (by positivity), hratio]
  have hlow : (2 : ℚ) ^ ((m.log2 : Int) + s - 1074) ≤ m * 2 ^ ((s : Int) - 1074) := by
    have h1 : (2 : ℚ) ^ m.log2 ≤ m := by exact_mod_cast Nat.log2_self_le (by omega)
    rw [Int.add_sub_assoc, zpow_add₀ (by norm_num), zpow_natCast]
    gcongr
  have hhigh : (m : ℚ) * 2 ^ ((s : Int) - 1074) < 2 ^ ((m.log2 : Int) + s - 1074 + 1) := by
    have h1 : (m : ℚ) < 2 ^ (m.log2 + 1) := by exact_mod_cast Nat.lt_log2_self
    rw [show (m.log2 : Int) + s - 1074 + 1 = ((m.log2 + 1 : Nat) : Int) + ((s : Int) - 1074) by
      push_cast; ring, zpow_add₀ (by norm_num), zpow_natCast]
    gcongr
  have low := (Int.zpow_le_iff_le_log (b := 2) (by norm_num) hr).1 (by rwa [Nat.cast_ofNat])
  have high := (Int.lt_zpow_iff_log_lt (b := 2) (by norm_num) hr).1 (by rwa [Nat.cast_ofNat])
  omega

/-- A finite double is nearest to its own value. -/
theorem nearest_mantissa {x : Double} (h0 : x.magnitude ≠ 0) (h : x.magnitude < infinityBits) :
    nearest (x.mantissa * 2 ^ (x.scale - 1074)) (2 ^ (1074 - x.scale)) = x.magnitude := by
  have hpos := mantissa_pos h0
  have hscale : (floorLog2 (x.mantissa * 2 ^ (x.scale - 1074)) (2 ^ (1074 - x.scale)) - 52 +
      1074).toNat = x.scale := by
    rw [floorLog2_mul_two_pow hpos, ← scale_of_log2_mantissa h0]
    congr 1
    rw [scale_of_log2_mantissa h0]
    ring
  have hround : ∀ c, 0 < c → roundQuotient (x.mantissa * c) c = x.mantissa := by
    intro c hc
    have := roundQuotient_mul_right x.mantissa 1 hc
    rw [Nat.one_mul] at this
    rw [this]
    simp [roundQuotient, Nat.mod_one]
  have hup : (-((x.scale : Int) - 1074)).toNat = 1074 - x.scale := by omega
  have hdown : ((x.scale : Int) - 1074).toNat = x.scale - 1074 := by omega
  unfold nearest
  rw [if_neg (by positivity)]
  simp only [hscale, hup, hdown, Nat.pow_eq]
  rw [Nat.mul_assoc, Nat.mul_comm (2 ^ (1074 - x.scale)), hround _ (by positivity),
    scale_mul_add_mantissa]
  exact Nat.min_eq_left h.le

end Double

namespace Decimal

open Double

/-! ## Decimals -/

theorem width_le_iff {n k : Nat} (hk : 0 < k) : width n ≤ k ↔ n < 10 ^ k :=
  Nat.length_toDigits_le_iff (by decide) hk

theorem lt_width_iff {n k : Nat} (hn : 0 < n) : k < width n ↔ 10 ^ k ≤ n := by
  rcases Nat.eq_zero_or_pos k with rfl | hk
  · have : 0 < width n := Nat.length_toDigits_pos
    simp only [this, pow_zero, true_iff]
    omega
  · rw [← Nat.not_le, width_le_iff hk, Nat.not_lt]

/-- Zeros at the end count as digits. -/
theorem width_mul_pow {n : Nat} (hn : 0 < n) (k : Nat) : width (n * 10 ^ k) = width n + k := by
  have hw : 0 < width n := Nat.length_toDigits_pos
  have hlow : 10 ^ (width n - 1) ≤ n := (lt_width_iff hn).1 (by omega)
  have hhigh : n < 10 ^ width n := (width_le_iff hw).1 (Nat.le_refl _)
  have h1 : width (n * 10 ^ k) ≤ width n + k := by
    rw [width_le_iff (by omega), pow_add]
    gcongr
  have h2 : width n - 1 + k < width (n * 10 ^ k) := by
    rw [lt_width_iff (by positivity), pow_add]
    gcongr
  omega

/-- A decimal reads the same wherever its zeros are kept. -/
theorem toMagnitude_shift (n : Nat) (e : Int) (k : Nat) :
    (⟨n * 10 ^ k, e⟩ : Decimal).toMagnitude = (⟨n, e + k⟩ : Decimal).toMagnitude := by
  rcases Nat.eq_zero_or_pos n with rfl | hn
  · simp [toMagnitude]
  · have hnz : n * 10 ^ k ≠ 0 := by positivity
    have htop : e + (width (n * 10 ^ k) : Int) = e + k + width n := by
      rw [width_mul_pow hn]
      push_cast
      ring
    unfold toMagnitude
    simp only [htop, if_neg hnz, if_neg hn.ne', Nat.pow_eq]
    refine if_congr Iff.rfl rfl (if_congr Iff.rfl rfl (nearest_congr (by positivity) (by positivity) ?_))
    rw [Nat.mul_assoc, Nat.mul_assoc, Nat.mul_assoc, ← pow_add, ← pow_add, ← pow_add]
    congr 2
    omega

theorem toMagnitude_le_infinityBits (d : Decimal) : d.toMagnitude ≤ infinityBits := by
  unfold toMagnitude
  dsimp only
  split
  · exact Nat.zero_le _
  · split
    · exact Nat.le_refl _
    · split
      · exact Nat.zero_le _
      · exact nearest_le_infinityBits _ _

/-- The decimal of a finite double is within the range in which powers of ten are computed. -/
theorem top_exact {x : Double} (h0 : x.magnitude ≠ 0) (h : x.magnitude < infinityBits) :
    (exact x).exponent + width (exact x).digits ≤ 310 ∧
      -330 ≤ (exact x).exponent + width (exact x).digits := by
  have hpos := mantissa_pos h0
  have hlt := x.mantissa_lt
  have hscale := scale_lt h
  unfold exact
  split
  · rename_i hs
    obtain ⟨j, hj⟩ : ∃ j, 1074 - x.scale = j := ⟨_, rfl⟩
    have hexp : (x.scale : Int) - 1074 = -(j : Int) := by omega
    simp only [hexp, hj, Nat.pow_eq]
    have hup : width (x.mantissa * 5 ^ j) ≤ j + 310 := by
      rw [width_le_iff (by omega), Nat.add_comm, pow_add]
      have h1 : x.mantissa < 10 ^ 310 := hlt.trans (by decide +kernel)
      have h2 : 5 ^ j ≤ 10 ^ j := Nat.pow_le_pow_left (by norm_num) j
      exact Nat.mul_lt_mul_of_lt_of_le h1 h2 (by positivity)
    have hdown : j < width (x.mantissa * 5 ^ j) + 331 := by
      rcases Nat.lt_or_ge j 331 with hj' | hj'
      · omega
      · obtain ⟨i, rfl⟩ := Nat.exists_eq_add_of_le hj'
        have hi : i ≤ 743 := by omega
        have h1 : 2 ^ i ≤ 5 ^ 331 := (Nat.pow_le_pow_right (by norm_num) hi).trans (by decide +kernel)
        have h2 : 10 ^ i ≤ x.mantissa * 5 ^ (331 + i) := by
          calc 10 ^ i = 2 ^ i * 5 ^ i := by rw [← Nat.mul_pow]
            _ ≤ 5 ^ 331 * 5 ^ i := Nat.mul_le_mul_right _ h1
            _ = 5 ^ (331 + i) := (pow_add 5 331 i).symm
            _ ≤ x.mantissa * 5 ^ (331 + i) := Nat.le_mul_of_pos_left _ hpos
        have := (lt_width_iff (by positivity)).2 h2
        omega
    omega
  · have hup : width (x.mantissa * 2 ^ (x.scale - 1074)) ≤ 310 := by
      rw [width_le_iff (by norm_num)]
      calc x.mantissa * 2 ^ (x.scale - 1074) < 2 ^ 53 * 2 ^ 971 :=
            Nat.mul_lt_mul_of_lt_of_le hlt (Nat.pow_le_pow_right (by norm_num) (by omega))
              (by positivity)
        _ ≤ 10 ^ 310 := by decide +kernel
    simp only [Nat.pow_eq]
    omega

/-- The exact decimal of a finite double reads back. -/
theorem toMagnitude_exact {x : Double} (h0 : x.magnitude ≠ 0) (h : x.magnitude < infinityBits) :
    (exact x).toMagnitude = x.magnitude := by
  obtain ⟨htop, hlow⟩ := top_exact h0 h
  have hpos := mantissa_pos h0
  have hd : (exact x).digits ≠ 0 := by
    unfold exact
    split <;> simp only [Nat.pow_eq] <;> positivity
  unfold toMagnitude
  dsimp only
  rw [if_neg hd, if_neg (by omega), if_neg (by omega), ← nearest_mantissa h0 h]
  refine nearest_congr (by rw [Nat.pow_eq]; positivity) (by positivity) ?_
  unfold exact
  split
  · rename_i hs
    have h1 : ((x.scale : Int) - 1074).toNat = 0 := by omega
    have h2 : (-((x.scale : Int) - 1074)).toNat = 1074 - x.scale := by omega
    have h3 : x.scale - 1074 = 0 := by omega
    simp only [h1, h2, h3, Nat.pow_eq, pow_zero, Nat.mul_one]
    rw [Nat.mul_assoc, ← Nat.mul_pow]
  · rename_i hs
    have h3 : 1074 - x.scale = 0 := by omega
    simp [h3]

end Decimal
end Scad
