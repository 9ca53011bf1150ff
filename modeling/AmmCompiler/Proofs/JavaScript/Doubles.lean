import Mathlib.Algebra.Order.Field.Rat
import Mathlib.Data.Int.Log
import Mathlib.Data.Rat.Floor
import Mathlib.Tactic.Linarith
import Mathlib.Tactic.Positivity
import Mathlib.Tactic.Ring

namespace AmmCompiler

/-- A Number of JavaScript by its value, so that both zeros are one. -/
inductive Number
  | finite (value : ℚ)
  | infinity (negative : Bool)
  deriving DecidableEq

def Number.neg : Number → Number
  | finite v => finite (-v)
  | infinity n => infinity !n

/-- A double has 53 binary digits, the last of which stands at -1074 at least. -/
def IsDouble (v : ℚ) : Prop :=
  |v| < 2 ^ 1024 ∧ ∃ m k : ℤ, |m| < 2 ^ 53 ∧ -1074 ≤ k ∧ v = m * 2 ^ k

def lastPlace (v : ℚ) : ℤ :=
  max (-1074) (Int.log 2 |v| - 52)

def halfEven (q : ℚ) : ℤ :=
  if Int.fract q < 1 / 2 ∨ Int.fract q = 1 / 2 ∧ Even ⌊q⌋ then ⌊q⌋ else ⌊q⌋ + 1

/-- The double that is nearest to a value, the even one of two. -/
def nearest (v : ℚ) : Number :=
  let w : ℚ := halfEven (v / 2 ^ lastPlace v) * 2 ^ lastPlace v
  if |w| < 2 ^ 1024 then .finite w else .infinity (decide (v < 0))

variable {v w q : ℚ}

lemma Number.neg_involutive : Function.Involutive Number.neg := by
  intro n
  cases n with
  | finite v => exact congrArg finite (neg_neg v)
  | infinity n => exact congrArg infinity (Bool.not_not n)

lemma halfEven_intCast (z : ℤ) : halfEven z = z := by
  simp [halfEven]

lemma halfEven_le (q : ℚ) (z : ℤ) : |halfEven q - q| ≤ |z - q| := by
  have hq : (⌊q⌋ : ℚ) + Int.fract q = q := Int.floor_add_fract q
  have h₀ : 0 ≤ Int.fract q := Int.fract_nonneg q
  have h₁ : Int.fract q < 1 := Int.fract_lt_one q
  rcases le_or_gt z ⌊q⌋ with hz | hz
  · have hz' : (z : ℚ) ≤ ⌊q⌋ := by exact_mod_cast hz
    rw [abs_of_nonpos (by linarith : (z : ℚ) - q ≤ 0)]
    unfold halfEven
    split_ifs with h
    · rw [abs_of_nonpos (by linarith)]
      linarith
    · have h₂ : 1 / 2 ≤ Int.fract q := le_of_not_gt fun hl => h (.inl hl)
      push_cast
      rw [abs_of_nonneg (by linarith)]
      linarith
  · have hz' : (⌊q⌋ : ℚ) + 1 ≤ z := by exact_mod_cast hz
    rw [abs_of_nonneg (by linarith : 0 ≤ (z : ℚ) - q)]
    unfold halfEven
    split_ifs with h
    · have h₂ : Int.fract q ≤ 1 / 2 := by
        rcases h with h | ⟨h, -⟩
        · exact h.le
        · exact h.le
      rw [abs_of_nonpos (by linarith)]
      linarith
    · push_cast
      rw [abs_of_nonneg (by linarith)]
      linarith

lemma abs_lt_unit (v : ℚ) : |v| < 2 ^ 53 * 2 ^ lastPlace v := by
  have h := Int.lt_zpow_succ_log_self (b := 2) one_lt_two |v|
  have hle : Int.log 2 |v| + 1 ≤ 53 + lastPlace v := by
    unfold lastPlace
    omega
  calc |v| < 2 ^ (Int.log 2 |v| + 1) := by exact_mod_cast h
    _ ≤ 2 ^ (53 + lastPlace v) := zpow_le_zpow_right₀ one_le_two hle
    _ = 2 ^ 53 * 2 ^ lastPlace v := by rw [zpow_add₀ two_ne_zero]; rfl

lemma place_pos (v : ℚ) : (0 : ℚ) < 2 ^ lastPlace v :=
  zpow_pos two_pos _

lemma abs_scaled (m k : ℤ) : |(m : ℚ) * 2 ^ k| = |(m : ℚ)| * 2 ^ k := by
  rw [abs_mul, abs_of_pos (zpow_pos two_pos k : (0 : ℚ) < 2 ^ k)]

lemma lastPlace_le_or {m k : ℤ} (hm : |m| < 2 ^ 53) (hk : -1074 ≤ k) (hv : v ≠ 0) :
    lastPlace v ≤ k ∨ |(m : ℚ) * 2 ^ k| < 2 ^ 52 * 2 ^ lastPlace v ∧ 2 ^ 52 * 2 ^ lastPlace v ≤ |v| := by
  rcases le_or_gt (lastPlace v) k with hl | hl
  · exact .inl hl
  have hplace : lastPlace v = Int.log 2 |v| - 52 := by
    unfold lastPlace at hl ⊢
    omega
  have hm' : |(m : ℚ)| < 2 ^ 53 := by exact_mod_cast hm
  have hunit : (2 : ℚ) ^ 52 * 2 ^ lastPlace v = 2 ^ Int.log 2 |v| := by
    rw [hplace, ← zpow_natCast, ← zpow_add₀ two_ne_zero]
    congr 1
    ring
  right
  constructor
  · calc |(m : ℚ) * 2 ^ k| = |(m : ℚ)| * 2 ^ k := abs_scaled m k
      _ < 2 ^ 53 * 2 ^ k := mul_lt_mul_of_pos_right hm' (zpow_pos two_pos k)
      _ = 2 ^ 52 * 2 ^ (k + 1) := by rw [zpow_add_one₀ two_ne_zero]; ring
      _ ≤ 2 ^ 52 * 2 ^ lastPlace v := by
        exact mul_le_mul_of_nonneg_left (zpow_le_zpow_right₀ one_le_two hl) (by positivity)
  · rw [hunit]
    exact_mod_cast Int.zpow_log_le_self (b := 2) one_lt_two (abs_pos.mpr hv)

lemma scaled_of_le {k : ℤ} (m : ℤ) (h : lastPlace v ≤ k) :
    ∃ z : ℤ, (m : ℚ) * 2 ^ k = z * 2 ^ lastPlace v := by
  obtain ⟨n, rfl⟩ := Int.le.dest h
  refine ⟨m * 2 ^ n, ?_⟩
  rw [zpow_add₀ two_ne_zero, zpow_natCast]
  push_cast
  ring

lemma nearest_eq_finite (h : nearest v = .finite w) :
    w = halfEven (v / 2 ^ lastPlace v) * 2 ^ lastPlace v ∧ |w| < 2 ^ 1024 := by
  simp only [nearest] at h
  split_ifs at h with hw
  cases h
  exact ⟨rfl, hw⟩

lemma rounded_le (v : ℚ) (z : ℤ) :
    |halfEven (v / 2 ^ lastPlace v) * 2 ^ lastPlace v - v| ≤ |z * 2 ^ lastPlace v - v| := by
  have hu := place_pos v
  have hscale (x : ℚ) : |x * 2 ^ lastPlace v - v| = |x - v / 2 ^ lastPlace v| * 2 ^ lastPlace v := by
    rw [← abs_of_pos hu, ← abs_mul, abs_of_pos hu, sub_mul, div_mul_cancel₀ _ hu.ne']
  rw [hscale, hscale]
  exact mul_le_mul_of_nonneg_right (halfEven_le _ z) hu.le

lemma rounded_le_of_le (n : ℕ) (h : n * 2 ^ lastPlace v ≤ |v|) :
    |halfEven (v / 2 ^ lastPlace v) * 2 ^ lastPlace v - v| ≤ |v| - n * 2 ^ lastPlace v := by
  rcases le_or_gt 0 v with hv | hv
  · rw [abs_of_nonneg hv] at h ⊢
    refine (rounded_le v n).trans_eq ?_
    rw [Int.cast_natCast, abs_sub_comm, abs_of_nonneg (sub_nonneg.mpr h)]
  · rw [abs_of_neg hv] at h ⊢
    refine (rounded_le v (-n)).trans_eq ?_
    rw [Int.cast_neg, Int.cast_natCast, neg_mul, abs_of_nonneg (by linarith)]
    ring

/-- No double is nearer to a value than the one that it is rounded to. -/
theorem nearest_le (h : nearest v = .finite w) {d : ℚ} (hd : IsDouble d) : |w - v| ≤ |d - v| := by
  obtain ⟨rfl, -⟩ := nearest_eq_finite h
  obtain ⟨-, m, k, hm, hk, rfl⟩ := hd
  rcases eq_or_ne v 0 with rfl | hv
  · refine (rounded_le 0 0).trans ?_
    rw [Int.cast_zero, zero_mul, sub_zero, abs_zero]
    exact abs_nonneg _
  rcases lastPlace_le_or hm hk hv with hl | ⟨hd, hp⟩
  · obtain ⟨z, hz⟩ := scaled_of_le m hl
    rw [hz]
    exact rounded_le v z
  · have hpower := rounded_le_of_le (v := v) (2 ^ 52) (by exact_mod_cast hp)
    push_cast at hpower
    calc _ ≤ |v| - 2 ^ 52 * 2 ^ lastPlace v := by exact_mod_cast hpower
      _ ≤ |v| - |(m : ℚ) * 2 ^ k| := sub_le_sub_left hd.le _
      _ ≤ |v - m * 2 ^ k| := abs_sub_abs_le_abs_sub _ _
      _ = |m * 2 ^ k - v| := abs_sub_comm _ _

theorem nearest_eq_self_iff : nearest v = .finite v ↔ IsDouble v := by
  constructor
  · intro h
    obtain ⟨hw, hlt⟩ := nearest_eq_finite h
    refine ⟨hlt, _, lastPlace v, ?_, le_max_left _ _, hw⟩
    have hu := place_pos v
    have hlt := abs_lt_unit v
    rw [hw, abs_scaled, ← hw] at hlt
    exact_mod_cast lt_of_mul_lt_mul_right hlt hu.le
  · rintro ⟨hlt, m, k, hm, hk, hv⟩
    have hle : lastPlace v ≤ k ∨ v = 0 := by
      by_contra! hn
      rcases lastPlace_le_or hm hk hn.2 with hl | ⟨hd, hp⟩
      · exact absurd hl hn.1.not_ge
      · rw [← hv] at hd
        exact absurd hp hd.not_ge
    obtain ⟨z, hz⟩ : ∃ z : ℤ, v = z * 2 ^ lastPlace v := by
      rcases hle with hl | h0
      · obtain ⟨z, hz⟩ := scaled_of_le m hl
        exact ⟨z, hv.trans hz⟩
      · exact ⟨0, by rw [h0, Int.cast_zero, zero_mul]⟩
    have hq : v / 2 ^ lastPlace v = z := (div_eq_iff (place_pos v).ne').mpr hz
    rw [nearest, hq, halfEven_intCast, ← hz, if_pos hlt]

example : nearest 9007199254740993 = .finite 9007199254740992 := by
  decide +kernel

end AmmCompiler
