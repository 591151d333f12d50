import ModernArch.Framework.Backtrack
import Mathlib.Data.Nat.Basic
import Mathlib.Logic.Function.Basic

/-!
# The queens search

`find` places one queen a level. Three arrays keep the level of the queen that owns a file or a
diagonal; an entry that is not below the level is free.
-/

namespace ModernArch.Queens
open Framework

structure Config where
  queens : Nat
  maxQueens : Nat
  printing : Bool
  findall : Bool

namespace Config

variable (cfg : Config)

def ranks : Nat := cfg.queens

def files : Nat := cfg.queens

def empty : Nat := cfg.maxQueens + 1

end Config

/-- The globals. `boards` has every board the search completes, `out` what `pboard` prints. -/
structure State where
  solutions : Nat
  queen : Nat → Nat
  file : Nat → Nat
  fordiag : Nat → Nat
  bakdiag : Nat → Nat
  boards : List (List Nat) := []
  out : List (Option Nat × List Nat) := []

/-- `exit(0)`, or no fuel for another call. -/
inductive Stop where
  | exit (s : State)
  | fuel

namespace State

variable (cfg : Config) (s : State)

def board : List Nat := (List.range cfg.ranks).map s.queen

def pboard : State :=
  { s with out := s.out ++ [(if cfg.findall then some s.solutions else none, s.board cfg)] }

/-- No queen on the file or the diagonals. -/
def free (level f : Nat) : Bool :=
  decide (level ≤ s.file f) && decide (level ≤ s.fordiag (level + f)) &&
    decide (level ≤ s.bakdiag (level + cfg.files - 1 - f))

def place (level f : Nat) : State := { s with
  queen := Function.update s.queen level f
  file := Function.update s.file f level
  fordiag := Function.update s.fordiag (level + f) level
  bakdiag := Function.update s.bakdiag (level + cfg.files - 1 - f) level }

def remove (level f : Nat) : State := { s with
  file := Function.update s.file f cfg.empty
  fordiag := Function.update s.fordiag (level + f) cfg.empty
  bakdiag := Function.update s.bakdiag (level + cfg.files - 1 - f) cfg.empty }

end State

/-- All queens are placed. -/
def report (cfg : Config) (s : State) : Except Stop State :=
  let s := { s with solutions := s.solutions + 1 }
  let s := { s with boards := s.boards ++ [s.board cfg] }
  let s := if cfg.printing then s.pboard cfg else s
  if cfg.findall then .ok s else .error (.exit s)

/-- The body of the loop over the files, with the call for the next level. -/
def tryFile (cfg : Config) (level : Nat) (findNext : State → Except Stop State) (s : State)
    (f : Nat) : Except Stop State :=
  if s.free cfg level f then do
    let s ← findNext (s.place cfg level f)
    return s.remove cfg level f
  else return s

def find (cfg : Config) (fuel level : Nat) (s : State) : Except Stop State :=
  if level = cfg.queens then report cfg s
  else match fuel with
    | 0 => .error .fuel
    | fuel + 1 => (List.range cfg.files).foldlM (tryFile cfg level (find cfg fuel (level + 1))) s

/-- The globals when `main` calls `find(0)`; `queen` holds anything. -/
def State.start (cfg : Config) (queen : Nat → Nat) : State where
  solutions := 0
  queen
  file _ := cfg.empty
  fordiag _ := cfg.empty
  bakdiag _ := cfg.empty

/-- No two queens on one file or diagonal. -/
def Peaceful (p : List Nat) : Prop :=
  ∀ i j f g : Nat, i < j → p[i]? = some f → p[j]? = some g →
    f ≠ g ∧ i + f ≠ j + g ∧ (i : Int) - f ≠ j - g

/-- `n` queens by rank, with distinct files, sums and differences. -/
structure IsPlacement (n : Nat) (p : List Nat) : Prop where
  length : p.length = n
  inRange : ∀ f ∈ p, f < n
  peaceful : Peaceful p

/-- A next queen is attacked by none before. -/
def Unattacked (p : List Nat) (f : Nat) : Prop :=
  ∀ x ∈ p.zipIdx, x.1 ≠ f ∧ x.2 + x.1 ≠ p.length + f ∧ x.2 + f ≠ p.length + x.1

instance (p : List Nat) : DecidablePred (Unattacked p) := fun f => by
  unfold Unattacked
  infer_instance

theorem getElem?_snoc {p : List Nat} {f i g : Nat} :
    (p ++ [f])[i]? = some g ↔ p[i]? = some g ∧ i < p.length ∨ i = p.length ∧ f = g := by
  rcases Nat.lt_trichotomy i p.length with hi | rfl | hi
  · rw [List.getElem?_append_left hi]
    simp [hi, Nat.ne_of_lt hi]
  · simp
  · rw [List.getElem?_append_right hi.le, List.getElem?_eq_none (by simp; omega)]
    simp [hi.ne', Nat.not_lt_of_gt hi]

theorem unattacked_iff {p : List Nat} {f : Nat} : Unattacked p f ↔ ∀ i g, p[i]? = some g →
    g ≠ f ∧ i + g ≠ p.length + f ∧ i + f ≠ p.length + g := by
  simp only [Unattacked, Prod.forall, List.mem_zipIdx_iff_getElem?]
  exact forall_comm

theorem peaceful_snoc {p : List Nat} {f : Nat} :
    Peaceful (p ++ [f]) ↔ Peaceful p ∧ Unattacked p f := by
  have hlt {i g : Nat} (h : p[i]? = some g) : i < p.length :=
    (List.getElem?_eq_some_iff.mp h).1
  rw [unattacked_iff]
  constructor
  · intro h
    refine ⟨fun i j g g' hij hi hj => ?_, fun i g hi => ?_⟩
    · exact h i j g g' hij (getElem?_snoc.mpr (Or.inl ⟨hi, hlt hi⟩))
        (getElem?_snoc.mpr (Or.inl ⟨hj, hlt hj⟩))
    · obtain ⟨hfile, hsum, hdiff⟩ := h i p.length g f (hlt hi)
        (getElem?_snoc.mpr (Or.inl ⟨hi, hlt hi⟩)) (getElem?_snoc.mpr (Or.inr ⟨rfl, rfl⟩))
      exact ⟨hfile, hsum, by omega⟩
  · rintro ⟨hp, hf⟩ i j g g' hij hi hj
    rcases getElem?_snoc.mp hj with ⟨hj, hjlt⟩ | ⟨rfl, rfl⟩
    · rcases getElem?_snoc.mp hi with ⟨hi, -⟩ | ⟨rfl, -⟩
      · exact hp i j g g' hij hi hj
      · omega
    · rcases getElem?_snoc.mp hi with ⟨hi, -⟩ | ⟨rfl, -⟩
      · obtain ⟨hfile, hsum, hdiff⟩ := hf i g hi
        exact ⟨hfile, hsum, by omega⟩
      · omega

private theorem fits_iff {n : Nat} {p t : List Nat} (hp : Peaceful p) :
    Fits (List.range n) Unattacked p t ↔ (∀ f ∈ t, f < n) ∧ Peaceful (p ++ t) := by
  induction t generalizing p with
  | nil => simp [Fits, hp]
  | cons f t ih =>
      have hsplit : p ++ f :: t = p ++ [f] ++ t := by simp
      rw [hsplit, Fits, List.mem_range, List.forall_mem_cons]
      constructor
      · rintro ⟨⟨hf, hun⟩, hrest⟩
        have hnext := (ih (peaceful_snoc.mpr ⟨hp, hun⟩)).mp hrest
        exact ⟨⟨hf, hnext.1⟩, hnext.2⟩
      · rintro ⟨⟨hf, ht⟩, hpeace⟩
        have hnext : Peaceful (p ++ [f]) := by
          intro i j g g' hij hi hj
          have hj' := (List.getElem?_eq_some_iff.mp hj).1
          apply hpeace i j g g' hij <;> rw [List.getElem?_append_left (by omega)] <;> assumption
        exact ⟨⟨hf, (peaceful_snoc.mp hnext).2⟩, (ih hnext).mpr ⟨ht, hpeace⟩⟩

theorem mem_placements {n : Nat} {p : List Nat} :
    p ∈ completions (List.range n) Unattacked n [] ↔ IsPlacement n p := by
  have hnil : Peaceful [] := by
    intro i j f g hij hi
    simp at hi
  rw [mem_completions]
  constructor
  · rintro ⟨t, hlen, rfl, hfits⟩
    obtain ⟨hrange, hpeace⟩ := (fits_iff hnil).mp hfits
    exact ⟨hlen, hrange, hpeace⟩
  · intro h
    exact ⟨p, h.length, rfl, (fits_iff hnil).mpr ⟨h.inRange, h.peaceful⟩⟩

end ModernArch.Queens
