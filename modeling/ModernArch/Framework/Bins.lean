import Mathlib

/-!
# Sorted bins of stacks

A queue by key: a list of bins, strictly increasing in their keys, each a stack of the items of
that key. `order` lists the items of the queue with the latest first.
-/

namespace ModernArch.Framework

variable {κ α : Type} [LinearOrder κ]

/-- Push onto the bin of a key, or put a new bin where the keys want it. -/
def pushBin (k : κ) (a : α) : List (κ × List α) → List (κ × List α)
  | [] => [(k, [a])]
  | (k', b) :: bs =>
    if k < k' then (k, [a]) :: (k', b) :: bs
    else if k = k' then (k', a :: b) :: bs
    else (k', b) :: pushBin k a bs

/-- The bins with `b` in front, unless it is empty. -/
def consBin (k : κ) (b : List α) (bs : List (κ × List α)) : List (κ × List α) :=
  match b with
  | [] => bs
  | a :: b => (k, a :: b) :: bs

def dropBin [DecidableEq α] (k : κ) (a : α) : List (κ × List α) → List (κ × List α)
  | [] => []
  | (k', b) :: bs => if k' = k then consBin k' (b.erase a) bs else (k', b) :: dropBin k a bs

/-- The items of the bin of a key. -/
def binAt (k : κ) : List (κ × List α) → List α
  | [] => []
  | (k', b) :: bs => if k' = k then b else binAt k bs

abbrev SortedBins (bins : List (κ × List α)) : Prop := bins.Pairwise fun p q => p.1 < q.1

omit [LinearOrder κ] in
private theorem mem_consBin {k : κ} {b : List α} {bs : List (κ × List α)} {p : κ × List α} :
    p ∈ consBin k b bs ↔ (p = (k, b) ∧ b ≠ []) ∨ p ∈ bs := by
  cases b with
  | nil => simp [consBin]
  | cons a b => simp [consBin]

omit [LinearOrder κ] in
theorem mem_items_consBin {k : κ} {x : α} {b : List α} {bs : List (κ × List α)} :
    x ∈ (consBin k b bs).flatMap (·.2) ↔ x ∈ b ∨ x ∈ bs.flatMap (·.2) := by
  cases b with
  | nil => simp [consBin]
  | cons a b => rw [consBin, List.flatMap_cons, List.mem_append]

private theorem binAt_of_mem {bins : List (κ × List α)} (hs : SortedBins bins) {p : κ × List α}
    (hp : p ∈ bins) : binAt p.1 bins = p.2 := by
  induction bins with
  | nil => simp at hp
  | cons q bs ih =>
      obtain ⟨hq, hs⟩ := List.pairwise_cons.mp hs
      rcases List.mem_cons.mp hp with rfl | hp
      · simp [binAt]
      · have hne : q.1 ≠ p.1 := (hq p hp).ne
        rw [binAt, if_neg hne]
        exact ih hs hp

private theorem binAt_eq_nil {k : κ} {bins : List (κ × List α)} (h : ∀ p ∈ bins, p.1 ≠ k) :
    binAt k bins = [] := by
  induction bins with
  | nil => rfl
  | cons q bs ih =>
      rw [binAt, if_neg (h q List.mem_cons_self)]
      exact ih fun p hp => h p (List.mem_cons_of_mem q hp)

private theorem mem_pushBin {k : κ} {a : α} {bins : List (κ × List α)} (hs : SortedBins bins)
    {p : κ × List α} :
    p ∈ pushBin k a bins ↔ (p.1 ≠ k ∧ p ∈ bins) ∨ p = (k, a :: binAt k bins) := by
  induction bins with
  | nil => simp [pushBin, binAt]
  | cons q bs ih =>
      obtain ⟨k', b⟩ := q
      obtain ⟨hq, hs⟩ := List.pairwise_cons.mp hs
      rcases lt_trichotomy k k' with hlt | rfl | hgt
      · have hne (p : κ × List α) (hp : p ∈ (k', b) :: bs) : p.1 ≠ k := by
          rcases List.mem_cons.mp hp with rfl | hp
          · exact hlt.ne'
          · exact (hlt.trans (hq p hp)).ne'
        rw [pushBin, if_pos hlt, binAt_eq_nil hne, List.mem_cons]
        constructor
        · intro h
          rcases h with rfl | h
          · exact Or.inr rfl
          · exact Or.inl ⟨hne p h, h⟩
        · intro h
          rcases h with h | rfl
          · exact Or.inr h.2
          · exact Or.inl rfl
      · have hne (hp : p ∈ bs) : p.1 ≠ k := (hq p hp).ne'
        rw [pushBin, if_neg (lt_irrefl k), if_pos rfl, binAt, if_pos rfl, List.mem_cons,
          List.mem_cons]
        constructor
        · intro h
          rcases h with rfl | h
          · exact Or.inr rfl
          · exact Or.inl ⟨hne h, Or.inr h⟩
        · intro h
          rcases h with ⟨hk, rfl | h⟩ | rfl
          · exact absurd rfl hk
          · exact Or.inr h
          · exact Or.inl rfl
      · rw [pushBin, if_neg hgt.not_gt, if_neg hgt.ne', binAt, if_neg hgt.ne, List.mem_cons, ih hs,
          List.mem_cons]
        constructor
        · intro h
          rcases h with rfl | h | rfl
          · exact Or.inl ⟨hgt.ne, Or.inl rfl⟩
          · exact Or.inl ⟨h.1, Or.inr h.2⟩
          · exact Or.inr rfl
        · intro h
          rcases h with ⟨hk, rfl | h⟩ | rfl
          · exact Or.inl rfl
          · exact Or.inr (Or.inl ⟨hk, h⟩)
          · exact Or.inr (Or.inr rfl)

theorem mem_items_pushBin {k : κ} {a x : α} {bins : List (κ × List α)} :
    x ∈ (pushBin k a bins).flatMap (·.2) ↔ x = a ∨ x ∈ bins.flatMap (·.2) := by
  induction bins with
  | nil => simp [pushBin]
  | cons q bs ih =>
      obtain ⟨k', b⟩ := q
      rw [pushBin]
      split_ifs
      · simp
      · simp
      · rw [List.flatMap_cons, List.flatMap_cons, List.mem_append, List.mem_append, ih]
        exact or_left_comm

private theorem sorted_pushBin {k : κ} {a : α} {bins : List (κ × List α)} (hs : SortedBins bins) :
    SortedBins (pushBin k a bins) := by
  induction bins with
  | nil => simp [pushBin]
  | cons q bs ih =>
      obtain ⟨k', b⟩ := q
      have hcons := List.pairwise_cons.mp hs
      rcases lt_trichotomy k k' with hlt | rfl | hgt
      · rw [pushBin, if_pos hlt]
        apply List.pairwise_cons.mpr ⟨_, hs⟩
        intro p hp
        rcases List.mem_cons.mp hp with rfl | hp
        · exact hlt
        · exact hlt.trans (hcons.1 p hp)
      · rw [pushBin, if_neg (lt_irrefl k), if_pos rfl]
        exact List.pairwise_cons.mpr ⟨hcons.1, hcons.2⟩
      · rw [pushBin, if_neg hgt.not_gt, if_neg hgt.ne']
        apply List.pairwise_cons.mpr ⟨_, ih hcons.2⟩
        intro p hp
        rcases (mem_pushBin hcons.2).mp hp with hp | rfl
        · exact hcons.1 p hp.2
        · exact hgt

section Drop

variable [DecidableEq α]

private theorem mem_dropBin {k : κ} {a : α} {bins : List (κ × List α)} (hs : SortedBins bins)
    {p : κ × List α} :
    p ∈ dropBin k a bins ↔ (p.1 ≠ k ∧ p ∈ bins) ∨
      (p = (k, (binAt k bins).erase a) ∧ p.2 ≠ []) := by
  induction bins with
  | nil =>
      simp only [dropBin, binAt, List.not_mem_nil, List.erase_nil, and_false, false_or]
      constructor
      · exact False.elim
      · intro h
        exact h.2 (by rw [h.1])
  | cons q bs ih =>
      obtain ⟨k', b⟩ := q
      obtain ⟨hq, hs⟩ := List.pairwise_cons.mp hs
      by_cases hk : k' = k
      · subst hk
        have hne (hp : p ∈ bs) : p.1 ≠ k' := (hq p hp).ne'
        rw [dropBin, if_pos rfl, binAt, if_pos rfl, mem_consBin, List.mem_cons]
        constructor
        · intro h
          rcases h with ⟨rfl, hb⟩ | h
          · exact Or.inr ⟨rfl, hb⟩
          · exact Or.inl ⟨hne h, Or.inr h⟩
        · intro h
          rcases h with ⟨hp, rfl | h⟩ | ⟨rfl, hb⟩
          · exact absurd rfl hp
          · exact Or.inr h
          · exact Or.inl ⟨rfl, hb⟩
      · rw [dropBin, if_neg hk, binAt, if_neg hk, List.mem_cons, ih hs, List.mem_cons]
        constructor
        · intro h
          rcases h with rfl | h | h
          · exact Or.inl ⟨hk, Or.inl rfl⟩
          · exact Or.inl ⟨h.1, Or.inr h.2⟩
          · exact Or.inr h
        · intro h
          rcases h with ⟨hp, rfl | h⟩ | h
          · exact Or.inl rfl
          · exact Or.inr (Or.inl ⟨hp, h⟩)
          · exact Or.inr (Or.inr h)

private theorem sorted_dropBin {k : κ} {a : α} {bins : List (κ × List α)} (hs : SortedBins bins) :
    SortedBins (dropBin k a bins) := by
  induction bins with
  | nil => simp [dropBin]
  | cons q bs ih =>
      obtain ⟨k', b⟩ := q
      obtain ⟨hq, hs'⟩ := List.pairwise_cons.mp hs
      by_cases hk : k' = k
      · rw [dropBin, if_pos hk]
        cases b.erase a with
        | nil => exact hs'
        | cons a' b' => exact List.pairwise_cons.mpr ⟨hq, hs'⟩
      · rw [dropBin, if_neg hk]
        apply List.pairwise_cons.mpr ⟨_, ih hs'⟩
        intro p hp
        rcases (mem_dropBin hs').mp hp with hp | ⟨rfl, hb⟩
        · exact hq p hp.2
        · have hmem : ∃ q ∈ bs, q.1 = k := by
            by_contra hnone
            simp only [not_exists, not_and] at hnone
            exact hb (by rw [binAt_eq_nil hnone, List.erase_nil])
          obtain ⟨q, hqs, rfl⟩ := hmem
          exact hq q hqs

end Drop

/-- Sorted bins that hold exactly the items of `order`, each bin in the same order. -/
structure Binned (key : α → κ) (order : List α) (bins : List (κ × List α)) : Prop where
  sorted : SortedBins bins
  bin : ∀ p ∈ bins, p.2 ≠ [] ∧ p.2 = order.filter fun a => key a = p.1
  covered : ∀ a ∈ order, ∃ p ∈ bins, p.1 = key a

namespace Binned

variable {key : α → κ} {order : List α} {bins : List (κ × List α)}

theorem nil (key : α → κ) : Binned key [] [] := by
  constructor <;> simp

theorem congr {key' : α → κ} (h : Binned key order bins) (hk : ∀ a ∈ order, key' a = key a) :
    Binned key' order bins := by
  constructor
  · exact h.sorted
  · intro p hp
    refine ⟨(h.bin p hp).1, (h.bin p hp).2.trans ?_⟩
    apply List.filter_congr
    intro a ha
    rw [hk a ha]
  · intro a ha
    rw [hk a ha]
    exact h.covered a ha

private theorem binAt_eq (h : Binned key order bins) (k : κ) :
    binAt k bins = order.filter fun a => key a = k := by
  by_cases hk : ∃ p ∈ bins, p.1 = k
  · obtain ⟨p, hp, rfl⟩ := hk
    rw [binAt_of_mem h.sorted hp]
    exact (h.bin p hp).2
  · simp only [not_exists, not_and] at hk
    rw [binAt_eq_nil hk]
    symm
    rw [List.filter_eq_nil_iff]
    intro a ha hkey
    obtain ⟨p, hp, hpk⟩ := h.covered a ha
    exact hk p hp (hpk.trans (of_decide_eq_true hkey))

theorem push (h : Binned key order bins) (a : α) :
    Binned key (a :: order) (pushBin (key a) a bins) := by
  constructor
  · exact sorted_pushBin h.sorted
  · intro p hp
    rcases (mem_pushBin h.sorted).mp hp with ⟨hne, hp⟩ | rfl
    · rw [List.filter_cons_of_neg (by simpa using hne.symm)]
      exact h.bin p hp
    · refine ⟨List.cons_ne_nil _ _, ?_⟩
      rw [List.filter_cons_of_pos (by simp), h.binAt_eq]
  · intro b hb
    by_cases hk : key b = key a
    · exact ⟨_, (mem_pushBin h.sorted).mpr (Or.inr rfl), hk.symm⟩
    · rcases List.mem_cons.mp hb with rfl | hb
      · exact absurd rfl hk
      · obtain ⟨p, hp, hpk⟩ := h.covered b hb
        have hne : p.1 ≠ key a := fun he => hk (hpk.symm.trans he)
        exact ⟨p, (mem_pushBin h.sorted).mpr (Or.inl ⟨hne, hp⟩), hpk⟩

theorem drop [DecidableEq α] (h : Binned key order bins) (hn : order.Nodup) (a : α) :
    Binned key (order.erase a) (dropBin (key a) a bins) := by
  have herase (k : κ) : (order.erase a).filter (fun b => key b = k) =
      (order.filter fun b => key b = k).erase a := by
    rw [hn.erase_eq_filter, (hn.filter _).erase_eq_filter, List.filter_filter, List.filter_filter]
    apply List.filter_congr
    intro b _
    rw [Bool.and_comm]
  constructor
  · exact sorted_dropBin h.sorted
  · intro p hp
    rcases (mem_dropBin h.sorted).mp hp with ⟨hne, hp⟩ | ⟨rfl, hb⟩
    · refine ⟨(h.bin p hp).1, ?_⟩
      rw [herase, ← (h.bin p hp).2, List.erase_of_not_mem]
      intro ha
      rw [(h.bin p hp).2, List.mem_filter] at ha
      exact hne (of_decide_eq_true ha.2).symm
    · refine ⟨hb, ?_⟩
      rw [herase, h.binAt_eq]
  · intro b hb
    obtain ⟨hba, hb⟩ := hn.mem_erase_iff.mp hb
    obtain ⟨p, hp, hpk⟩ := h.covered b hb
    by_cases hk : p.1 = key a
    · have hmem : b ∈ (binAt (key a) bins).erase a := by
        rw [h.binAt_eq, (hn.filter _).mem_erase_iff, List.mem_filter]
        exact ⟨hba, hb, decide_eq_true (hpk.symm.trans hk)⟩
      exact ⟨_, (mem_dropBin h.sorted).mpr (Or.inr ⟨rfl, List.ne_nil_of_mem hmem⟩),
        hk.symm.trans hpk⟩
    · exact ⟨p, (mem_dropBin h.sorted).mpr (Or.inl ⟨hk, hp⟩), hpk⟩

theorem mem_iff (h : Binned key order bins) {a : α} :
    a ∈ bins.flatMap (·.2) ↔ a ∈ order := by
  rw [List.mem_flatMap]
  constructor
  · intro hp
    obtain ⟨p, hp, ha⟩ := hp
    rw [(h.bin p hp).2] at ha
    exact (List.mem_filter.mp ha).1
  · intro ha
    obtain ⟨p, hp, hpk⟩ := h.covered a ha
    refine ⟨p, hp, ?_⟩
    rw [(h.bin p hp).2, List.mem_filter]
    exact ⟨ha, decide_eq_true hpk.symm⟩

private theorem key_eq (h : Binned key order bins) {p : κ × List α} (hp : p ∈ bins) {a : α}
    (ha : a ∈ p.2) : key a = p.1 := by
  rw [(h.bin p hp).2, List.mem_filter] at ha
  exact of_decide_eq_true ha.2

theorem nodup (h : Binned key order bins) (hn : order.Nodup) : (bins.flatMap (·.2)).Nodup := by
  rw [List.nodup_flatMap]
  constructor
  · intro p hp
    rw [(h.bin p hp).2]
    exact hn.filter _
  · apply h.sorted.imp_of_mem
    intro p q hp hq hlt a hap haq
    have heq := (h.key_eq hp hap).symm.trans (h.key_eq hq haq)
    exact hlt.ne heq

/-- The top of the first bin is the latest of the items of least key. -/
theorem top {k : κ} {a : α} {b : List α} {bs : List (κ × List α)}
    (h : Binned key order ((k, a :: b) :: bs)) :
    a ∈ order ∧ (∀ x ∈ order, key a ≤ key x) ∧
      order.find? (fun x => key x = key a) = some a := by
  have hk : key a = k := h.key_eq List.mem_cons_self List.mem_cons_self
  refine ⟨?_, ?_, ?_⟩
  · apply h.mem_iff.mp
    simp
  · intro x hx
    obtain ⟨p, hp, hpk⟩ := h.covered x hx
    rw [hk, ← hpk]
    rcases List.mem_cons.mp hp with rfl | hp
    · exact le_rfl
    · exact ((List.pairwise_cons.mp h.sorted).1 p hp).le
  · rw [hk, ← List.head?_filter, ← (h.bin _ List.mem_cons_self).2]
    rfl

end Binned

end ModernArch.Framework
