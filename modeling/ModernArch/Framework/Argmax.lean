import ModernArch.Framework.Loop

/-! # Greatest elements of a range -/

namespace ModernArch.Framework

variable {F : Type} [LinearOrder F]

/-- `std::max_element(a, a + n) - a`: a later element replaces the best only when greater. -/
def maxElement (a : Int → F) (n : Int) : Int :=
  (steps 1 n 1).foldl (fun best i => if a best < a i then i else best) 0

/-- `k` is the first index below `n` of the greatest value. -/
structure IsFirstMax (a : Int → F) (n k : Int) : Prop where
  mem : 0 ≤ k ∧ k < n
  greatest : ∀ i, 0 ≤ i → i < n → a i ≤ a k
  first : ∀ i, 0 ≤ i → i < k → a i < a k

theorem IsFirstMax.unique {a : Int → F} {n j k : Int} (hj : IsFirstMax a n j)
    (hk : IsFirstMax a n k) : j = k := by
  rcases lt_trichotomy j k with h | h | h
  · exact absurd (hj.greatest k hk.mem.1 hk.mem.2) (not_le.mpr (hk.first j hj.mem.1 h))
  · exact h
  · exact absurd (hk.greatest j hj.mem.1 hj.mem.2) (not_le.mpr (hj.first k hk.mem.1 h))

theorem IsFirstMax.congr {a b : Int → F} {n k : Int} (h : IsFirstMax a n k)
    (hab : ∀ i, 0 ≤ i → i < n → a i = b i) : IsFirstMax b n k := by
  have hk := hab k h.mem.1 h.mem.2
  apply IsFirstMax.mk h.mem
  · intro i hi hin
    rw [← hab i hi hin, ← hk]
    exact h.greatest i hi hin
  · intro i hi hik
    rw [← hab i hi (hik.trans h.mem.2), ← hk]
    exact h.first i hi hik

/-- Cutting off below shows the greatest value as soon as one passes the cut. -/
theorem IsFirstMax.of_max {a : Int → F} {c : F} {n k : Int}
    (h : IsFirstMax (fun i => max (a i) c) n k) (hpass : ∃ i, (0 ≤ i ∧ i < n) ∧ c < a i) :
    IsFirstMax a n k := by
  obtain ⟨j, hj, hlt⟩ := hpass
  have hk : c < a k := by
    by_contra hle
    have hmax := h.greatest j hj.1 hj.2
    rw [max_eq_left hlt.le, max_eq_right (not_lt.mp hle)] at hmax
    exact absurd hlt (not_lt.mpr hmax)
  apply IsFirstMax.mk h.mem
  · intro i h0 hi
    have hmax := h.greatest i h0 hi
    rw [max_eq_left hk.le] at hmax
    exact (le_max_left _ _).trans hmax
  · intro i h0 hi
    have hmax := h.first i h0 hi
    rw [max_eq_left hk.le] at hmax
    exact (le_max_left _ _).trans_lt hmax

/-- With everything cut off the first index wins. -/
theorem IsFirstMax.eq_zero_of_le {a : Int → F} {c : F} {n k : Int}
    (h : IsFirstMax (fun i => max (a i) c) n k) (hle : ∀ i, 0 ≤ i → i < n → a i ≤ c) : k = 0 := by
  by_contra hk
  have hmem := h.mem
  have hlt := h.first 0 le_rfl (by omega)
  rw [max_eq_right (hle 0 le_rfl (by omega)), max_eq_right (hle k hmem.1 hmem.2)] at hlt
  exact lt_irrefl _ hlt

private theorem steps_succ (n : Nat) :
    steps 1 (n + 2) 1 = steps 1 (n + 1) 1 ++ [(n : Int) + 1] := by
  have h₁ : (((n : Int) + 2 - 1 + 1 - 1) / 1).toNat = n + 1 := by omega
  have h₂ : (((n : Int) + 1 - 1 + 1 - 1) / 1).toNat = n := by omega
  rw [steps, steps, h₁, h₂, List.range_succ, List.map_append]
  simp [add_comm]

private theorem maxElement_succ (a : Int → F) (n : Nat) :
    IsFirstMax a (n + 1) (maxElement a (n + 1)) := by
  induction n with
  | zero =>
      have h0 : maxElement a ((0 : Nat) + 1) = 0 := rfl
      rw [h0]
      exact ⟨⟨le_rfl, by simp⟩, fun i hi hin => by rw [show i = 0 by push_cast at hin; omega],
        fun i hi hik => by omega⟩
  | succ n ih =>
      have hcast : ((n + 1 : Nat) : Int) + 1 = n + 2 := by push_cast; omega
      rw [hcast]
      have hfold : maxElement a (n + 2) =
          if a (maxElement a (n + 1)) < a (n + 1) then (n : Int) + 1 else maxElement a (n + 1) := by
        rw [maxElement, steps_succ, List.foldl_append]
        rfl
      have hmem := ih.mem
      by_cases hlt : a (maxElement a (n + 1)) < a (n + 1)
      · rw [hfold, if_pos hlt]
        refine ⟨⟨by omega, by omega⟩, ?_, ?_⟩
        · intro i hi hin
          by_cases hlast : i = (n : Int) + 1
          · rw [hlast]
          · exact (ih.greatest i hi (by omega)).trans hlt.le
        · intro i hi hik
          exact (ih.greatest i hi hik).trans_lt hlt
      · rw [hfold, if_neg hlt]
        refine ⟨⟨hmem.1, by omega⟩, ?_, ih.first⟩
        intro i hi hin
        by_cases hlast : i = (n : Int) + 1
        · rw [hlast]
          exact not_lt.mp hlt
        · exact ih.greatest i hi (by omega)

theorem maxElement_spec (a : Int → F) {n : Int} (hn : 0 < n) :
    IsFirstMax a n (maxElement a n) := by
  have h := maxElement_succ a (n - 1).toNat
  rwa [show ((n - 1).toNat : Int) + 1 = n by omega] at h

theorem maxElement_congr {a b : Int → F} {n : Int} (hn : 0 < n)
    (hab : ∀ i, 0 ≤ i → i < n → a i = b i) : maxElement a n = maxElement b n :=
  ((maxElement_spec a hn).congr hab).unique (maxElement_spec b hn)

example : maxElement (fun i => ![3, 7, 7, 1] (Fin.ofNat 4 i.toNat)) 4 = 1 := by decide

section RunningMax

variable {ι : Type}

/-- A fold whose steps each take the greatest of the accumulator and more values. -/
theorem isGreatest_foldl {g : F → ι → F} {S : ι → Set F} (l : List ι)
    (hg : ∀ acc, ∀ i ∈ l, IsGreatest (insert acc (S i)) (g acc i)) (a : F) :
    IsGreatest (insert a (⋃ i ∈ l, S i)) (l.foldl g a) := by
  induction l generalizing a with
  | nil => simp
  | cons i l ih =>
      rw [List.foldl_cons]
      have hhead := hg a i List.mem_cons_self
      have hrest := ih (fun acc j hj => hg acc j (List.mem_cons_of_mem i hj)) (g a i)
      have hset : (⋃ j ∈ i :: l, S j) = S i ∪ ⋃ j ∈ l, S j := by simp
      rw [hset]
      constructor
      · rcases hrest.1 with heq | hmem
        · rw [heq]
          exact Set.insert_subset_insert Set.subset_union_left hhead.1
        · exact Or.inr (Or.inr hmem)
      · have hfirst : ∀ v ∈ insert a (S i), v ≤ l.foldl g (g a i) := fun v hv =>
          (hhead.2 hv).trans (hrest.2 (Set.mem_insert _ _))
        intro v hv
        rcases hv with hv | hv | hv
        · exact hfirst v (Or.inl hv)
        · exact hfirst v (Or.inr hv)
        · exact hrest.2 (Or.inr hv)

/-- A start value is harmless exactly when some value reaches it. -/
theorem isGreatest_insert_iff {S : Set F} {a v : F} (h : IsGreatest (insert a S) v) :
    IsGreatest S v ↔ ∃ b ∈ S, a ≤ b := by
  constructor
  · intro hv
    exact ⟨v, hv.1, h.2 (Set.mem_insert a S)⟩
  · intro hb
    obtain ⟨b, hb, hab⟩ := hb
    have hbound : v ∈ upperBounds S := fun w hw => h.2 (Set.mem_insert_of_mem a hw)
    rcases h.1 with heq | hmem
    · have hbv : v = b := le_antisymm (heq.trans_le hab) (hbound hb)
      exact ⟨hbv ▸ hb, hbound⟩
    · exact ⟨hmem, hbound⟩

end RunningMax

end ModernArch.Framework
