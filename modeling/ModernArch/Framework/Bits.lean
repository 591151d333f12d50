import Mathlib.Data.Nat.Bitwise

/-!
# Words and powers of two

Masks of the low bits as remainders and quotients, and the next boundary above a word.
-/

namespace ModernArch.Framework

variable {w k : Nat}

private theorem two_pow_sub_one (hk : k < w) :
    BitVec.ofNat w (2 ^ k) - 1 = BitVec.ofNat w (2 ^ k - 1) := by
  have hlt : 2 ^ k < 2 ^ w := Nat.pow_lt_pow_right (by decide) hk
  have hpos : 0 < 2 ^ k := Nat.two_pow_pos k
  have hone : (1 : BitVec w).toNat = 1 := BitVec.toNat_one (Nat.zero_lt_of_lt hk)
  apply BitVec.eq_of_toNat_eq
  rw [BitVec.toNat_sub, hone, BitVec.toNat_ofNat, BitVec.toNat_ofNat, Nat.mod_eq_of_lt hlt,
    Nat.mod_eq_of_lt (by omega : 2 ^ k - 1 < 2 ^ w)]
  have hsum : 2 ^ w - 1 + 2 ^ k = 2 ^ k - 1 + 2 ^ w := by omega
  rw [hsum, Nat.add_mod_right, Nat.mod_eq_of_lt (by omega)]

/-- Clearing the low bits rounds down. -/
theorem and_not_low (x : BitVec w) (hk : k < w) :
    (x &&& ~~~(BitVec.ofNat w (2 ^ k) - 1)).toNat = x.toNat / 2 ^ k * 2 ^ k := by
  have hshift : x &&& ~~~(BitVec.ofNat w (2 ^ k) - 1) = (x >>> k) <<< k := by
    rw [two_pow_sub_one hk]
    ext i hi
    have hbit : (BitVec.ofNat w (2 ^ k - 1))[i] = decide (i < k) := by
      rw [BitVec.getElem_eq_testBit_toNat, BitVec.toNat_ofNat, Nat.testBit_mod_two_pow,
        Nat.testBit_two_pow_sub_one]
      simp [hi]
    by_cases hik : i < k
    · simp [hbit, hik]
    · have hadd : k + (i - k) = i := by omega
      simp [hbit, hik, hadd, hi]
  rw [hshift, BitVec.toNat_shiftLeft, BitVec.toNat_ushiftRight, Nat.shiftLeft_eq,
    Nat.shiftRight_eq_div_pow, Nat.mod_eq_of_lt]
  exact (Nat.div_mul_le_self _ _).trans_lt x.isLt

/-- Rounding up, and a step further on a boundary, gives the next boundary. -/
theorem next_boundary (x : BitVec w) (hk : k < w) :
    let up := (x + BitVec.ofNat w (2 ^ k) - 1) &&& ~~~(BitVec.ofNat w (2 ^ k) - 1)
    (if x = up then up + BitVec.ofNat w (2 ^ k) else up) =
      x + BitVec.ofNat w (2 ^ k - x.toNat % 2 ^ k) := by
  intro up
  obtain ⟨d, hd⟩ : 2 ^ k ∣ 2 ^ w := Nat.pow_dvd_pow 2 hk.le
  have hpos : 0 < 2 ^ k := Nat.two_pow_pos k
  have hx := Nat.div_add_mod x.toNat (2 ^ k)
  have hr := Nat.mod_lt x.toNat hpos
  have hq : x.toNat / 2 ^ k < d := by
    rw [Nat.div_lt_iff_lt_mul hpos, Nat.mul_comm, ← hd]
    exact x.isLt
  have hle : 2 ^ k * (x.toNat / 2 ^ k) + 2 ^ k ≤ 2 ^ w := by
    rw [hd, ← Nat.mul_succ]
    exact Nat.mul_le_mul_left _ hq
  have hup : up.toNat = (x + BitVec.ofNat w (2 ^ k - 1)).toNat / 2 ^ k * 2 ^ k := by
    have hsum : x + BitVec.ofNat w (2 ^ k) - 1 = x + BitVec.ofNat w (2 ^ k - 1) := by
      rw [← two_pow_sub_one hk, BitVec.sub_eq_add_neg, BitVec.sub_eq_add_neg, BitVec.add_assoc]
    rw [← hsum]
    exact and_not_low _ hk
  rw [BitVec.toNat_add, BitVec.toNat_ofNat, Nat.add_mod_mod] at hup
  generalize x.toNat / 2 ^ k = q at *
  generalize x.toNat % 2 ^ k = r at *
  generalize hc : 2 ^ k = c at *
  by_cases hzero : r = 0
  · have hdiv : (c * q + (c - 1)) / c = q := by
      rw [Nat.mul_add_div hpos, Nat.div_eq_of_lt (by omega), Nat.add_zero]
    have hsame : x = up := by
      apply BitVec.eq_of_toNat_eq
      rw [hup, Nat.mod_eq_of_lt (by omega), ← hx, hzero, Nat.add_zero, hdiv, Nat.mul_comm]
    rw [if_pos hsame, ← hsame, hzero, Nat.sub_zero]
  · have hvalue : up.toNat = (c * q + c) % 2 ^ w := by
      have hdiv : (c * q + r + (c - 1)) / c = q + 1 := by
        rw [show c * q + r + (c - 1) = c * (q + 1) + (r - 1) by rw [Nat.mul_succ]; omega,
          Nat.mul_add_div hpos, Nat.div_eq_of_lt (by omega), Nat.add_zero]
      by_cases hlast : c * q + c = 2 ^ w
      · rw [hup, hlast, Nat.mod_self, ← hx,
          show c * q + r + (c - 1) = r - 1 + 2 ^ w by omega, Nat.add_mod_right,
          Nat.mod_eq_of_lt (by omega), Nat.div_eq_of_lt (by omega), Nat.zero_mul]
      · have hlt : c * q + c < 2 ^ w := by omega
        obtain ⟨e, he⟩ : c ∣ 2 ^ w := ⟨d, hd⟩
        have hnext : c * q + c + c ≤ 2 ^ w := by
          rw [he, ← Nat.mul_succ, ← Nat.mul_succ]
          rw [he, ← Nat.mul_succ] at hlt
          exact Nat.mul_le_mul_left _ (Nat.lt_of_mul_lt_mul_left hlt)
        rw [hup, ← hx, Nat.mod_eq_of_lt (by omega), hdiv, Nat.mod_eq_of_lt hlt, Nat.succ_mul,
          Nat.mul_comm]
    have hne : x ≠ up := by
      intro heq
      have hnat := congrArg BitVec.toNat heq
      rw [hvalue, ← hx] at hnat
      by_cases hlast : c * q + c = 2 ^ w
      · rw [hlast, Nat.mod_self] at hnat
        omega
      · rw [Nat.mod_eq_of_lt (by omega)] at hnat
        omega
    rw [if_neg hne]
    apply BitVec.eq_of_toNat_eq
    rw [hvalue, BitVec.toNat_add, BitVec.toNat_ofNat, Nat.add_mod_mod, ← hx]
    congr 1
    omega

end ModernArch.Framework
