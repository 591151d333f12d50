import Mathlib.Data.List.Nodup
import Mathlib.Data.Set.Basic
import Mathlib.Logic.Function.Basic

/-!
# Cells with one owner

Cells are handed out from a memory and are not given back. What an owner may do to the memory
leaves the cells of the others alone, and no step of its makes a cell of theirs its own.
-/

namespace ModernArch.Framework

variable {κ φ β : Type}

/-- The cells that were handed out, and what every cell holds. -/
structure Store (φ β : Type) where
  used : Set φ
  mem : φ → β

/-- From the owner of `own` to the owner of `own'`: the new cells were not in use, and of those in
use only its own may change. -/
structure Evolves (own : Set φ) (s : Store φ β) (own' : Set φ) (s' : Store φ β) : Prop where
  used : s.used ⊆ s'.used
  fresh : ∀ f ∈ own', f ∈ own ∨ f ∉ s.used
  kept : ∀ f ∈ s.used, f ∉ own → s'.mem f = s.mem f

namespace Evolves

variable {own own' own'' other : Set φ} {s s' s'' : Store φ β}

theorem refl (own : Set φ) (s : Store φ β) : Evolves own s own s :=
  ⟨fun _ h => h, fun _ h => Or.inl h, fun _ _ _ => rfl⟩

theorem trans (h : Evolves own s own' s') (h' : Evolves own' s' own'' s'') :
    Evolves own s own'' s'' := by
  refine ⟨h.used.trans h'.used, ?_, ?_⟩
  · intro f hf
    rcases h'.fresh f hf with hown | hnot
    · exact h.fresh f hown
    · exact Or.inr fun hused => hnot (h.used hused)
  · intro f hused hown
    have hown' : f ∉ own' := by
      intro hf
      rcases h.fresh f hf with hf | hf
      · exact hown hf
      · exact hf hused
    rw [h'.kept f (h.used hused) hown', h.kept f hused hown]

/-- Another owner keeps its cells to itself. -/
theorem disjoint (h : Evolves own s own' s') (hused : other ⊆ s.used)
    (hother : ∀ f ∈ other, f ∉ own) : ∀ f ∈ other, f ∉ own' := by
  intro f hf hown
  rcases h.fresh f hown with hown | hnot
  · exact hother f hf hown
  · exact hnot (hused hf)

theorem others (h : Evolves own s own' s') (hused : other ⊆ s.used)
    (hother : ∀ f ∈ other, f ∉ own) {f : φ} (hf : f ∈ other) : s'.mem f = s.mem f :=
  h.kept f (hused hf) (hother f hf)

end Evolves

/-- The space `s'` has what `s` has, and new places that are blank. -/
def Grows (blank : β) (s s' : κ → Option β) : Prop :=
  ∀ k, s' k = s k ∨ s k = none ∧ s' k = some blank

namespace Grows

variable {blank : β} {s s' s'' : κ → Option β}

theorem refl (s : κ → Option β) : Grows blank s s := fun _ => Or.inl rfl

theorem at_trans {k : κ} (h : s' k = s k ∨ s k = none ∧ s' k = some blank)
    (h' : s'' k = s' k ∨ s' k = none ∧ s'' k = some blank) :
    s'' k = s k ∨ s k = none ∧ s'' k = some blank := by
  rcases h' with hsame | ⟨hnone, hblank⟩
  · rw [hsame]
    exact h
  · rcases h with hsame | ⟨-, hblank'⟩
    · exact Or.inr ⟨hsame.symm.trans hnone, hblank⟩
    · rw [hnone] at hblank'
      cases hblank'

theorem trans (h : Grows blank s s') (h' : Grows blank s' s'') : Grows blank s s'' :=
  fun k => at_trans (h k) (h' k)

theorem mapped (h : Grows blank s s') {k : κ} {b : β} (hk : s k = some b) : s' k = some b := by
  rcases h k with hsame | ⟨hnone, -⟩
  · rw [hsame, hk]
  · rw [hk] at hnone
    cases hnone

end Grows

section Moves

variable [DecidableEq κ] {F : κ → Option φ}

/-- No cell is at two places. -/
def Exclusive (F : κ → Option φ) : Prop := ∀ v w f, F v = some f → F w = some f → v = w

/-- What is at `v` goes to `w`. -/
def move (F : κ → Option φ) (v w : κ) : κ → Option φ :=
  Function.update (Function.update F v none) w (F v)

def moves (F : κ → Option φ) : List (κ × κ) → κ → Option φ
  | [] => F
  | (v, w) :: l => moves (move F v w) l

private theorem move_some {v w x : κ} {f : φ} (h : move F v w x = some f) :
    x = w ∧ F v = some f ∨ x ≠ w ∧ x ≠ v ∧ F x = some f := by
  rw [move] at h
  by_cases hw : x = w
  · subst hw
    rw [Function.update_self] at h
    exact Or.inl ⟨rfl, h⟩
  · rw [Function.update_of_ne hw] at h
    by_cases hv : x = v
    · subst hv
      rw [Function.update_self] at h
      cases h
    · rw [Function.update_of_ne hv] at h
      exact Or.inr ⟨hw, hv, h⟩

theorem moves_some {l : List (κ × κ)} {x : κ} {f : φ} (h : moves F l x = some f) :
    ∃ y, F y = some f := by
  induction l generalizing F with
  | nil => exact ⟨x, h⟩
  | cons m l ih =>
      obtain ⟨y, hy⟩ := ih h
      rcases move_some hy with ⟨-, hf⟩ | ⟨-, -, hf⟩
      · exact ⟨_, hf⟩
      · exact ⟨_, hf⟩

theorem Exclusive.move (h : Exclusive F) (v w : κ) : Exclusive (move F v w) := by
  intro x y f hx hy
  rcases move_some hx with ⟨rfl, hfx⟩ | ⟨-, hxv, hfx⟩
  · rcases move_some hy with ⟨rfl, -⟩ | ⟨-, hyv, hfy⟩
    · rfl
    · exact absurd (h _ _ f hfx hfy).symm hyv
  · rcases move_some hy with ⟨rfl, hfy⟩ | ⟨-, -, hfy⟩
    · exact absurd (h _ _ f hfx hfy) hxv
    · exact h _ _ f hfx hfy

theorem Exclusive.moves {l : List (κ × κ)} (h : Exclusive F) : Exclusive (moves F l) := by
  induction l generalizing F with
  | nil => exact h
  | cons m l ih => exact ih (h.move m.1 m.2)

theorem moves_other {l : List (κ × κ)} {x : κ} (hv : x ∉ l.map Prod.fst)
    (hw : x ∉ l.map Prod.snd) : moves F l x = F x := by
  induction l generalizing F with
  | nil => rfl
  | cons m l ih =>
      rw [List.map_cons, List.mem_cons, not_or] at hv hw
      rw [moves, ih hv.2 hw.2, move, Function.update_of_ne hw.1, Function.update_of_ne hv.1]

/-- Moves to other places than those they leave take what was there to begin with. -/
theorem moves_spec {l : List (κ × κ)} (hv : (l.map Prod.fst).Nodup)
    (hw : (l.map Prod.snd).Nodup) (hdisjoint : ∀ m ∈ l, ∀ m' ∈ l, m.1 ≠ m'.2) :
    ∀ m ∈ l, moves F l m.2 = F m.1 ∧ moves F l m.1 = none := by
  induction l generalizing F with
  | nil => simp
  | cons d l ih =>
      rw [List.map_cons, List.nodup_cons] at hv hw
      have hfirst : d.1 ≠ d.2 := hdisjoint d List.mem_cons_self d List.mem_cons_self
      have hsrc : d.1 ∉ l.map Prod.snd := by
        intro hmem
        obtain ⟨m, hm, he⟩ := List.mem_map.mp hmem
        exact hdisjoint d List.mem_cons_self m (List.mem_cons_of_mem _ hm) he.symm
      have htgt : d.2 ∉ l.map Prod.fst := by
        intro hmem
        obtain ⟨m, hm, he⟩ := List.mem_map.mp hmem
        exact hdisjoint m (List.mem_cons_of_mem _ hm) d List.mem_cons_self he
      intro m hm
      rcases List.mem_cons.mp hm with rfl | hm
      · constructor
        · rw [moves, moves_other htgt hw.1, move, Function.update_self]
        · rw [moves, moves_other hv.1 hsrc, move, Function.update_of_ne hfirst,
            Function.update_self]
      · have hrest := ih (F := move F d.1 d.2) hv.2 hw.2 (fun m hm m' hm' =>
          hdisjoint m (List.mem_cons_of_mem _ hm) m' (List.mem_cons_of_mem _ hm')) m hm
        have hne : m.1 ≠ d.2 := hdisjoint m (List.mem_cons_of_mem _ hm) d List.mem_cons_self
        have hne' : m.1 ≠ d.1 := fun he => hv.1 (he ▸ List.mem_map_of_mem hm)
        rw [moves]
        refine ⟨hrest.1.trans ?_, hrest.2⟩
        rw [move, Function.update_of_ne hne, Function.update_of_ne hne']

end Moves

end ModernArch.Framework
