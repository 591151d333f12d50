import Mathlib.Data.Nat.Basic
import Mathlib.Tactic.Ring

/-!
# Products by halves

The upper half of a product from the four products of halves, and how large the sum of the two
middle ones can get.
-/

namespace ModernArch.Framework

/-- What is carried from the lower half into the upper one, before the last division. -/
def middle (s a b : Nat) : Nat :=
  (a % s) * (b / s) + (a / s) * (b % s) + (a % s) * (b % s) / s

variable {s a b : Nat}

theorem upper_half (hs : 0 < s) : a * b / (s * s) = middle s a b / s + (a / s) * (b / s) := by
  have ha := Nat.div_add_mod a s
  have hb := Nat.div_add_mod b s
  have hproduct : a * b = s * (s * ((a / s) * (b / s)) + ((a % s) * (b / s) +
      (a / s) * (b % s))) + (a % s) * (b % s) := by
    conv_lhs => rw [← ha, ← hb]
    ring
  rw [← Nat.div_div_eq_div_mul, hproduct, Nat.mul_add_div hs, Nat.add_assoc, Nat.mul_add_div hs,
    Nat.add_comm, middle]

/-- The three summands for halves of at most `t`. -/
theorem middle_parts {t : Nat} (ha : a < (t + 1) * (t + 1)) (hb : b < (t + 1) * (t + 1)) :
    (a % (t + 1)) * (b / (t + 1)) ≤ t * t ∧ (a / (t + 1)) * (b % (t + 1)) ≤ t * t ∧
      (a % (t + 1)) * (b % (t + 1)) / (t + 1) ≤ t := by
  have hs : 0 < t + 1 := Nat.succ_pos t
  have hal : a % (t + 1) ≤ t := Nat.le_of_lt_succ (Nat.mod_lt _ hs)
  have hbl : b % (t + 1) ≤ t := Nat.le_of_lt_succ (Nat.mod_lt _ hs)
  have hah : a / (t + 1) ≤ t := Nat.le_of_lt_succ ((Nat.div_lt_iff_lt_mul hs).mpr ha)
  have hbh : b / (t + 1) ≤ t := Nat.le_of_lt_succ ((Nat.div_lt_iff_lt_mul hs).mpr hb)
  refine ⟨Nat.mul_le_mul hal hbh, Nat.mul_le_mul hah hbl, ?_⟩
  exact (Nat.div_le_div_right (Nat.mul_le_mul hal hbl)).trans
    (Nat.div_le_of_le_mul (Nat.mul_le_mul_right t (Nat.le_succ t)))

/-- The middle sum has at most one bit more than a product. -/
theorem middle_lt (hs : 0 < s) (ha : a < s * s) (hb : b < s * s) :
    middle s a b < 2 * (s * s) := by
  obtain ⟨t, rfl⟩ := Nat.exists_eq_add_one_of_ne_zero hs.ne'
  obtain ⟨h1, h2, h3⟩ := middle_parts ha hb
  have hsquare : (t + 1) * (t + 1) = t * t + 2 * t + 1 := by ring
  rw [middle]
  omega

/-- Without a product of the upper halves it has none more. -/
theorem middle_lt_of_zero (hs : 0 < s) (ha : a < s * s) (hb : b < s * s)
    (hzero : (a / s) * (b / s) = 0) : middle s a b < s * s := by
  obtain ⟨t, rfl⟩ := Nat.exists_eq_add_one_of_ne_zero hs.ne'
  obtain ⟨h1, h2, h3⟩ := middle_parts ha hb
  have hsquare : (t + 1) * (t + 1) = t * t + 2 * t + 1 := by ring
  rw [middle]
  rcases Nat.mul_eq_zero.mp hzero with hah | hbh
  · rw [hah, Nat.zero_mul]
    omega
  · rw [hbh, Nat.mul_zero]
    omega

end ModernArch.Framework
