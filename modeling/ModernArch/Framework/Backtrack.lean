import Mathlib.Data.List.Basic
import Mathlib.Data.List.Flatten
import Mathlib.Data.List.Lex

/-!
# Backtracking enumeration

Sequences grown one choice at a time, as long as every choice is allowed after the ones before.
-/

namespace ModernArch.Framework

variable {α : Type} (choices : List α) (ok : List α → α → Prop) [∀ p, DecidablePred (ok p)]

/-- The completions of a prefix by `k` more choices, in the order a search meets them. -/
def completions : Nat → List α → List (List α)
  | 0, p => [p]
  | k + 1, p => choices.flatMap fun a => if ok p a then completions k (p ++ [a]) else []

/-- Every choice of the second list is allowed after what stands before it. -/
def Fits : List α → List α → Prop
  | _, [] => True
  | p, a :: t => (a ∈ choices ∧ ok p a) ∧ Fits (p ++ [a]) t

theorem mem_completions {k : Nat} {p q : List α} :
    q ∈ completions choices ok k p ↔ ∃ t, t.length = k ∧ q = p ++ t ∧ Fits choices ok p t := by
  induction k generalizing p with
  | zero =>
      simp only [completions, List.mem_singleton, List.length_eq_zero_iff]
      constructor
      · rintro rfl
        exact ⟨[], rfl, by simp, trivial⟩
      · rintro ⟨t, rfl, rfl, -⟩
        simp
  | succ k ih =>
      simp only [completions, List.mem_flatMap]
      constructor
      · rintro ⟨a, ha, hq⟩
        by_cases hok : ok p a
        · rw [if_pos hok, ih] at hq
          obtain ⟨t, hlen, rfl, hfits⟩ := hq
          exact ⟨a :: t, by simp [hlen], by simp, ⟨ha, hok⟩, hfits⟩
        · simp [hok] at hq
      · rintro ⟨t, hlen, rfl, hfits⟩
        cases t with
        | nil => simp at hlen
        | cons a t =>
            obtain ⟨⟨ha, hok⟩, hrest⟩ := hfits
            refine ⟨a, ha, ?_⟩
            rw [if_pos hok, ih]
            exact ⟨t, by simpa using hlen, by simp, hrest⟩

variable {choices ok}

private theorem prefix_of_mem_completions {k : Nat} {p q : List α}
    (h : q ∈ completions choices ok k p) : p <+: q := by
  obtain ⟨t, -, rfl, -⟩ := (mem_completions choices ok).mp h
  exact List.prefix_append p t

omit [∀ p, DecidablePred (ok p)] in
private theorem lex_of_prefix {r : α → α → Prop} {p q q' : List α} {a b : α} (hab : r a b)
    (hq : p ++ [a] <+: q) (hq' : p ++ [b] <+: q') : List.Lex r q q' := by
  obtain ⟨t, rfl⟩ := hq
  obtain ⟨t', rfl⟩ := hq'
  simp only [List.append_assoc, List.singleton_append]
  exact List.Lex.append_left r (List.Lex.rel hab) p

/-- Choices tried in increasing order give increasing sequences. -/
theorem completions_sorted {r : α → α → Prop} (hsorted : choices.Pairwise r) (k : Nat)
    (p : List α) : (completions choices ok k p).Pairwise (List.Lex r) := by
  induction k generalizing p with
  | zero => exact List.pairwise_singleton _ _
  | succ k ih =>
      rw [completions, List.pairwise_flatMap]
      constructor
      · intro a _
        split_ifs
        · exact ih _
        · exact List.Pairwise.nil
      · refine hsorted.imp fun {a b} hab q hq q' hq' => ?_
        split_ifs at hq with ha
        · split_ifs at hq' with hb
          · exact lex_of_prefix hab (prefix_of_mem_completions hq) (prefix_of_mem_completions hq')
          · simp at hq'
        · simp at hq

end ModernArch.Framework
