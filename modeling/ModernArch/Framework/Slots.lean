import Mathlib.Data.List.Nodup
import Mathlib.Logic.Function.Basic

/-!
# A cache of slots

A cache of a finite map: a list of slots, the latest first, some of them empty. A search takes
the first slot of its key, and so does an erasure.
-/

namespace ModernArch.Framework

variable {κ α : Type} [DecidableEq κ]

def findSlot (k : κ) : List (Option (κ × α)) → Option α
  | [] => none
  | none :: l => findSlot k l
  | some p :: l => if p.1 = k then some p.2 else findSlot k l

/-- Empty the first slot of a key. -/
def clearSlot (k : κ) : List (Option (κ × α)) → List (Option (κ × α))
  | [] => []
  | none :: l => none :: clearSlot k l
  | some p :: l => if p.1 = k then none :: l else some p :: clearSlot k l

def slotKeys (l : List (Option (κ × α))) : List κ := l.filterMap fun s => s.map Prod.fst

/-- Each key has one slot at most, which holds what the map has. -/
structure Agrees (f : κ → Option α) (l : List (Option (κ × α))) : Prop where
  nodup : (slotKeys l).Nodup
  value : ∀ k a, some (k, a) ∈ l → f k = some a

/-- More slots of a key than the map accounts for. -/
def Stale (f : κ → Option α) (k : κ) (l : List (Option (κ × α))) : Prop :=
  (if (f k).isSome then 2 else 1) ≤ (slotKeys l).count k

omit [DecidableEq κ] in
@[simp] theorem slotKeys_none (l : List (Option (κ × α))) : slotKeys (none :: l) = slotKeys l := rfl

omit [DecidableEq κ] in
@[simp] theorem slotKeys_some (p : κ × α) (l : List (Option (κ × α))) :
    slotKeys (some p :: l) = p.1 :: slotKeys l := rfl

omit [DecidableEq κ] in
theorem mem_slotKeys {k : κ} {l : List (Option (κ × α))} :
    k ∈ slotKeys l ↔ ∃ a, some (k, a) ∈ l := by
  simp [slotKeys]

omit [DecidableEq κ] in
private theorem slotKeys_take (l : List (Option (κ × α))) (m : Nat) :
    (slotKeys (l.take m)).Sublist (slotKeys l) := (l.take_sublist m).filterMap _

theorem findSlot_eq_none {k : κ} {l : List (Option (κ × α))} :
    findSlot k l = none ↔ k ∉ slotKeys l := by
  induction l with
  | nil => simp [findSlot, slotKeys]
  | cons s l ih =>
      cases s with
      | none => simpa [findSlot] using ih
      | some p =>
          by_cases hp : p.1 = k
          · simp [findSlot, hp]
          · simp [findSlot, hp, ih, Ne.symm hp]

private theorem mem_of_findSlot {k : κ} {a : α} {l : List (Option (κ × α))}
    (h : findSlot k l = some a) : some (k, a) ∈ l := by
  induction l with
  | nil => simp [findSlot] at h
  | cons s l ih =>
      cases s with
      | none => exact List.mem_cons_of_mem _ (ih h)
      | some p =>
          by_cases hp : p.1 = k
          · rw [findSlot, if_pos hp] at h
            cases h
            subst hp
            exact List.mem_cons_self
          · rw [findSlot, if_neg hp] at h
            exact List.mem_cons_of_mem _ (ih h)

theorem slotKeys_clear (k : κ) (l : List (Option (κ × α))) :
    slotKeys (clearSlot k l) = (slotKeys l).erase k := by
  induction l with
  | nil => rfl
  | cons s l ih =>
      cases s with
      | none => exact ih
      | some p =>
          by_cases hp : p.1 = k
          · simp [clearSlot, hp]
          · rw [clearSlot, if_neg hp, slotKeys_some, slotKeys_some,
              List.erase_cons_tail (by simpa using hp), ih]

private theorem mem_of_mem_clear {k : κ} {p : κ × α} {l : List (Option (κ × α))}
    (h : some p ∈ clearSlot k l) : some p ∈ l := by
  induction l with
  | nil => simp [clearSlot] at h
  | cons s l ih =>
      cases s with
      | none =>
          simp only [clearSlot, List.mem_cons, reduceCtorEq, false_or] at h
          exact List.mem_cons_of_mem _ (ih h)
      | some q =>
          by_cases hq : q.1 = k
          · simp only [clearSlot, if_pos hq, List.mem_cons, reduceCtorEq, false_or] at h
            exact List.mem_cons_of_mem _ h
          · rw [clearSlot, if_neg hq] at h
            rcases List.mem_cons.mp h with h | h
            · rw [h]
              exact List.mem_cons_self
            · exact List.mem_cons_of_mem _ (ih h)

theorem clearSlot_take (k : κ) (l : List (Option (κ × α))) (m : Nat) :
    (clearSlot k l).take m = clearSlot k (l.take m) := by
  induction l generalizing m with
  | nil => simp [clearSlot]
  | cons s l ih =>
      cases m with
      | zero => rfl
      | succ m =>
          cases s with
          | none => simp [clearSlot, ih]
          | some p =>
              by_cases hp : p.1 = k
              · simp [clearSlot, hp]
              · simp [clearSlot, hp, ih]

namespace Agrees

variable {f : κ → Option α} {l : List (Option (κ × α))}

omit [DecidableEq κ] in
theorem nil (f : κ → Option α) : Agrees f [] := ⟨List.nodup_nil, by simp⟩

/-- A search of the cache, and of the map when the cache has no slot, searches the map. -/
theorem find (h : Agrees f l) (k : κ) : (findSlot k l).or (f k) = f k := by
  cases hk : findSlot k l with
  | none => rfl
  | some a => exact (h.value k a (mem_of_findSlot hk)).symm

omit [DecidableEq κ] in
theorem take (h : Agrees f l) (m : Nat) : Agrees f (l.take m) :=
  ⟨h.nodup.sublist (slotKeys_take l m), fun k a ha => h.value k a (List.mem_of_mem_take ha)⟩

theorem not_mem_clear (h : Agrees f l) (k : κ) : k ∉ slotKeys (clearSlot k l) := by
  rw [slotKeys_clear, h.nodup.mem_erase_iff]
  exact fun hk => hk.1 rfl

theorem clear (h : Agrees f l) (k : κ) : Agrees (Function.update f k none) (clearSlot k l) := by
  constructor
  · rw [slotKeys_clear]
    exact h.nodup.erase k
  · intro k' a ha
    have hne : k' ≠ k := by
      rintro rfl
      exact h.not_mem_clear k' (mem_slotKeys.mpr ⟨a, ha⟩)
    rw [Function.update_of_ne hne]
    exact h.value k' a (mem_of_mem_clear ha)

theorem push (h : Agrees f l) {k : κ} (hk : k ∉ slotKeys l) (a : α) :
    Agrees (Function.update f k (some a)) (some (k, a) :: l) := by
  constructor
  · exact List.nodup_cons.mpr ⟨hk, h.nodup⟩
  · intro k' a' ha
    rcases List.mem_cons.mp ha with hs | hl
    · cases hs
      exact Function.update_self _ _ _
    · have hne : k' ≠ k := by
        rintro rfl
        exact hk (mem_slotKeys.mpr ⟨a', hl⟩)
      rw [Function.update_of_ne hne]
      exact h.value k' a' hl

end Agrees

namespace Stale

variable {f : κ → Option α} {l : List (Option (κ × α))} {k : κ}

theorem clear (h : Stale f k l) (hk : (f k).isSome) :
    Stale (Function.update f k none) k (clearSlot k l) := by
  rw [Stale, if_pos hk] at h
  rw [Stale, Function.update_self, slotKeys_clear, List.count_erase_self]
  simp only [Option.isSome_none, Bool.false_eq_true, if_false]
  omega

theorem clear_of_ne (h : Stale f k l) {k' : κ} (hne : k ≠ k') (b : Option α) :
    Stale (Function.update f k' b) k (clearSlot k' l) := by
  rw [Stale, Function.update_of_ne hne, slotKeys_clear, List.count_erase_of_ne hne]
  exact h

theorem push_of_ne (h : Stale f k l) {k' : κ} (hne : k ≠ k') (a : α) :
    Stale (Function.update f k' (some a)) k (some (k', a) :: l) := by
  rw [Stale, Function.update_of_ne hne, slotKeys_some, List.count_cons_of_ne (Ne.symm hne)]
  exact h

/-- A slot of the key is left below the new one. -/
theorem of_push (h : k ∈ slotKeys l) (a : α) :
    Stale (Function.update f k (some a)) k (some (k, a) :: l) := by
  have hcount := List.count_pos_iff.mpr h
  rw [Stale, Function.update_self, slotKeys_some, List.count_cons_self]
  simp only [Option.isSome_some, if_true]
  omega

/-- Without the key in the map the search still finds it. -/
theorem find (h : Stale f k l) (hk : f k = none) : (findSlot k l).or (f k) ≠ f k := by
  rw [Stale, hk] at h
  have hmem : k ∈ slotKeys l := List.count_pos_iff.mp h
  cases hs : findSlot k l with
  | none => exact absurd hmem (findSlot_eq_none.mp hs)
  | some a => simp [hk]

end Stale

end ModernArch.Framework
