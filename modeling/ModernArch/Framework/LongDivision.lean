import Mathlib.Data.Nat.Bitwise
import Mathlib.Tactic.Ring

/-!
# Long division

A division that takes the bits of the dividend in one after another may subtract any multiple of
the divisor that fits, at any time.
-/

namespace ModernArch.Framework

/-- Quotient and remainder of the dividend without its last `k` bits; the remainder need not be
reduced. -/
def Dividing (dividend divisor k quotient remainder : Nat) : Prop :=
  quotient * divisor + remainder = dividend / 2 ^ k

namespace Dividing

variable {n d k q r : Nat}

theorem start (n d k : Nat) : Dividing n d k 0 (n / 2 ^ k) := by
  simp [Dividing]

theorem shift (h : Dividing n d (k + 1) q r) :
    Dividing n d k (2 * q) (2 * r + (n.testBit k).toNat) := by
  have hbit := Nat.div_add_mod (n / 2 ^ k) 2
  rw [Nat.div_div_eq_div_mul, ← Nat.pow_succ, ← h, ← Nat.toNat_testBit] at hbit
  rw [Dividing, ← hbit]
  ring

theorem subtract (h : Dividing n d k q r) {t : Nat} (ht : t * d ≤ r) :
    Dividing n d k (q + t) (r - t * d) := by
  rw [Dividing, Nat.add_mul]
  unfold Dividing at h
  omega

theorem finish (h : Dividing n d 0 q r) (hr : r < d) : q = n / d ∧ r = n % d := by
  have hn : r + d * q = n := by
    rw [Dividing, Nat.pow_zero, Nat.div_one] at h
    rw [← h]
    ring
  have huniq := (Nat.div_mod_unique (Nat.zero_lt_of_lt hr)).mpr ⟨hn, hr⟩
  exact ⟨huniq.1.symm, huniq.2.symm⟩

end Dividing

/-- A multiple of `d` by a power of two that is aligned with `r` has no more bits than `r`, and if it
is larger it has been shifted. -/
theorem aligned_fits {d r : Nat} (hd : d ≠ 0) (hle : d ≤ r) :
    2 ^ (r.log2 - d.log2) * d < 2 ^ (r.log2 + 1) ∧
      (r < 2 ^ (r.log2 - d.log2) * d → 0 < r.log2 - d.log2) := by
  have hlog : d.log2 ≤ r.log2 := (Nat.le_log2 (by omega)).mpr ((Nat.log2_self_le hd).trans hle)
  obtain ⟨s, hs⟩ := Nat.exists_eq_add_of_le hlog
  have hshift : r.log2 - d.log2 = s := by omega
  rw [hshift, hs]
  refine ⟨?_, fun hlt => ?_⟩
  · calc 2 ^ s * d < 2 ^ s * 2 ^ (d.log2 + 1) :=
          Nat.mul_lt_mul_of_pos_left Nat.lt_log2_self (Nat.two_pow_pos s)
      _ = 2 ^ (d.log2 + s + 1) := by ring
  · rcases Nat.eq_zero_or_pos s with rfl | h
    · omega
    · exact h

end ModernArch.Framework
