import Mathlib.Logic.Function.Iterate
import Mathlib.Order.Basic

/-!
# Settling

A function that lowers a rank whenever it moves comes to rest, and does not come back to what it
has left.
-/

namespace ModernArch.Framework

variable {α : Type} {P : α → Prop} {f : α → α} {rank : α → Nat}

/-- Inside `P`, which `f` does not leave, every move lowers the rank. -/
structure Lowers (P : α → Prop) (f : α → α) (rank : α → Nat) : Prop where
  keeps : ∀ a, P a → P (f a)
  lowers : ∀ a, P a → f a = a ∨ rank (f a) < rank a

theorem Lowers.iterate (h : Lowers P f rank) {a : α} (ha : P a) (n : Nat) : P (f^[n] a) := by
  induction n with
  | zero => exact ha
  | succ n ih =>
      rw [Function.iterate_succ_apply']
      exact h.keeps _ ih

theorem Lowers.rank_le (h : Lowers P f rank) {a : α} (ha : P a) (n : Nat) :
    rank (f^[n] a) ≤ rank a := by
  induction n with
  | zero => exact Nat.le_refl _
  | succ n ih =>
      rw [Function.iterate_succ_apply']
      rcases h.lowers _ (h.iterate ha n) with heq | hlt
      · rw [heq]
        exact ih
      · exact Nat.le_trans (Nat.le_of_lt hlt) ih

theorem Lowers.rests (h : Lowers P f rank) {a : α} (ha : P a) :
    ∃ n ≤ rank a, (∀ k < n, rank (f^[k + 1] a) < rank (f^[k] a)) ∧
      ∀ k, n ≤ k → f^[k] a = f^[n] a := by
  induction hr : rank a using Nat.strongRecOn generalizing a with
  | _ r ih =>
      rcases h.lowers a ha with heq | hlt
      · refine ⟨0, Nat.zero_le _, ?_, ?_⟩
        · intro k hk
          exact absurd hk (Nat.not_lt_zero k)
        · intro k _
          exact Function.iterate_fixed heq k
      · obtain ⟨n, hn, hmove, hrest⟩ := ih (rank (f a)) (hr ▸ hlt) (h.keeps a ha) rfl
        refine ⟨n + 1, by omega, ?_, ?_⟩
        · intro k hk
          cases k with
          | zero => exact hlt
          | succ k => exact hmove k (Nat.lt_of_succ_lt_succ hk)
        · intro k hk
          cases k with
          | zero => exact absurd hk (Nat.not_succ_le_zero n)
          | succ k => exact hrest k (Nat.le_of_succ_le_succ hk)

/-- Between two visits with one rank nothing moves. -/
theorem Lowers.no_return (h : Lowers P f rank) {a : α} (ha : P a) {i j k : Nat} (hij : i ≤ j)
    (hjk : j ≤ k) (heq : rank (f^[k] a) = rank (f^[i] a)) : f^[j] a = f^[i] a := by
  have hstay (m : Nat) (hm : i + m ≤ k) : f^[i + m] a = f^[i] a := by
    induction m with
    | zero => rfl
    | succ m ih =>
        have hsame := ih (by omega)
        rw [← Nat.add_assoc, Function.iterate_succ_apply', hsame]
        rcases h.lowers _ (h.iterate ha i) with hfix | hlt
        · exact hfix
        · have hlater := h.rank_le (h.keeps _ (h.iterate ha i)) (k - (i + 1))
          rw [← Function.iterate_succ_apply' f i a, ← Function.iterate_add_apply] at hlater
          have hk : k - (i + 1) + i.succ = k := by omega
          rw [hk, heq, Function.iterate_succ_apply'] at hlater
          omega
  have hj := hstay (j - i) (by omega)
  rwa [Nat.add_sub_cancel' hij] at hj

end ModernArch.Framework
