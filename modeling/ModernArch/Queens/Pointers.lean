import ModernArch.Queens.Search

/-!
# The queens search with its pointers

The loop of `find` walks three arrays by pointers. Here every access through a pointer checks its
array; in range the search is the one over indices.
-/

namespace ModernArch.Queens

namespace Config

variable (cfg : Config)

def maxRanks : Nat := cfg.maxQueens

def maxFiles : Nat := cfg.maxQueens

def maxDiags : Nat := cfg.maxRanks + cfg.maxFiles - 1

end Config

/-- The search stops, or it accesses an element outside its array. -/
inductive Fault where
  | stop (e : Stop)
  | outside

def load (size : Nat) (a : Nat → Nat) (p : Int) : Except Fault Nat :=
  if 0 ≤ p ∧ p < size then .ok (a p.toNat) else .error .outside

def store (size : Nat) (a : Nat → Nat) (p : Int) (v : Nat) : Except Fault (Nat → Nat) :=
  if 0 ≤ p ∧ p < size then .ok (Function.update a p.toNat v) else .error .outside

/-- `fp`, `fdp` and `bdp`, as positions in `file`, `fordiag` and `bakdiag`. -/
structure Pointers where
  fp : Int
  fdp : Int
  bdp : Int

namespace Pointers

def first (cfg : Config) (level : Nat) : Pointers := ⟨0, level, level + cfg.files - 1⟩

def next (ptr : Pointers) : Pointers := ⟨ptr.fp + 1, ptr.fdp + 1, ptr.bdp - 1⟩

end Pointers

namespace State

variable (cfg : Config) (s : State) (ptr : Pointers)

def freeAt (level : Nat) : Except Fault Bool := do
  if level ≤ (← load cfg.maxFiles s.file ptr.fp) then
    if level ≤ (← load cfg.maxDiags s.fordiag ptr.fdp) then
      return decide (level ≤ (← load cfg.maxDiags s.bakdiag ptr.bdp))
    else return false
  else return false

/-- `*fp = *fdp = *bdp = v`. -/
def assignAt (v : Nat) : Except Fault State := do
  let bakdiag ← store cfg.maxDiags s.bakdiag ptr.bdp v
  let fordiag ← store cfg.maxDiags s.fordiag ptr.fdp v
  let file ← store cfg.maxFiles s.file ptr.fp v
  return { s with file := file, fordiag := fordiag, bakdiag := bakdiag }

def placeAt (level f : Nat) : Except Fault State := do
  let queen ← store cfg.maxRanks s.queen level f
  { s with queen := queen }.assignAt cfg ptr level

end State

def tryFileAt (cfg : Config) (level : Nat) (findNext : State → Except Fault State)
    (c : Pointers × State) (f : Nat) : Except Fault (Pointers × State) := do
  if ← c.2.freeAt cfg c.1 level then
    let s ← c.2.placeAt cfg c.1 level f
    let s ← findNext s
    let s ← s.assignAt cfg c.1 cfg.empty
    return (c.1.next, s)
  else return (c.1.next, c.2)

def findAt (cfg : Config) (fuel level : Nat) (s : State) : Except Fault State :=
  if level = cfg.queens then (report cfg s).mapError .stop
  else match fuel with
    | 0 => .error (.stop .fuel)
    | fuel + 1 => do
        let c ← (List.range cfg.files).foldlM (tryFileAt cfg level (findAt cfg fuel (level + 1)))
          (Pointers.first cfg level, s)
        return c.2

private theorem load_of_lt {size k : Nat} (a : Nat → Nat) (h : k < size) {p : Int} (hp : p = k) :
    load size a p = .ok (a k) := by
  subst hp
  rw [load, if_pos ⟨Int.natCast_nonneg k, Int.ofNat_lt.mpr h⟩, Int.toNat_natCast]

private theorem store_of_lt {size k : Nat} (a : Nat → Nat) (v : Nat) (h : k < size) {p : Int}
    (hp : p = k) : store size a p v = .ok (Function.update a k v) := by
  subst hp
  rw [store, if_pos ⟨Int.natCast_nonneg k, Int.ofNat_lt.mpr h⟩, Int.toNat_natCast]

/-- The pointers when the loop tries a file. -/
def Pointers.of (cfg : Config) (level f : Nat) : Pointers :=
  ⟨f, level + f, level + cfg.files - 1 - f⟩

private theorem Pointers.first_eq (cfg : Config) (level : Nat) :
    Pointers.first cfg level = Pointers.of cfg level 0 := by
  simp [Pointers.first, Pointers.of]

private theorem Pointers.of_next (cfg : Config) (level f : Nat) :
    (Pointers.of cfg level f).next = Pointers.of cfg level (f + 1) := by
  simp only [Pointers.next, Pointers.of, Pointers.mk.injEq]
  omega

private theorem Pointers.of_fp (cfg : Config) (level f : Nat) :
    (Pointers.of cfg level f).fp = f := rfl

private theorem Pointers.of_fdp (cfg : Config) (level f : Nat) :
    (Pointers.of cfg level f).fdp = (level + f : Nat) := rfl

private theorem Pointers.of_bdp {cfg : Config} (level : Nat) {f : Nat} (hf : f < cfg.files) :
    (Pointers.of cfg level f).bdp = (level + cfg.files - 1 - f : Nat) := by
  simp only [Pointers.of]
  omega

section InRange

variable {cfg : Config} (hmax : cfg.queens ≤ cfg.maxQueens) {level f : Nat}
  (hlevel : level < cfg.queens) (hf : f < cfg.files)

include hmax hlevel hf

/-- The three positions are inside the arrays. -/
theorem positions_lt : f < cfg.maxFiles ∧ level + f < cfg.maxDiags ∧
    level + cfg.files - 1 - f < cfg.maxDiags := by
  simp only [Config.files] at hf
  simp only [Config.maxFiles, Config.maxDiags, Config.maxRanks, Config.files]
  omega


theorem freeAt_eq (s : State) :
    s.freeAt cfg (Pointers.of cfg level f) level = .ok (s.free cfg level f) := by
  obtain ⟨hfile, hfor, hbak⟩ := positions_lt hmax hlevel hf
  rw [State.freeAt, load_of_lt s.file hfile (Pointers.of_fp cfg level f),
    load_of_lt s.fordiag hfor (Pointers.of_fdp cfg level f),
    load_of_lt s.bakdiag hbak (Pointers.of_bdp level hf)]
  by_cases h₁ : level ≤ s.file f <;> by_cases h₂ : level ≤ s.fordiag (level + f) <;>
    simp [State.free, h₁, h₂, bind, Except.bind, pure, Except.pure]

private theorem assignAt_eq (s : State) (v : Nat) :
    s.assignAt cfg (Pointers.of cfg level f) v = .ok { s with
      file := Function.update s.file f v
      fordiag := Function.update s.fordiag (level + f) v
      bakdiag := Function.update s.bakdiag (level + cfg.files - 1 - f) v } := by
  obtain ⟨hfile, hfor, hbak⟩ := positions_lt hmax hlevel hf
  rw [State.assignAt, store_of_lt s.file v hfile (Pointers.of_fp cfg level f),
    store_of_lt s.fordiag v hfor (Pointers.of_fdp cfg level f),
    store_of_lt s.bakdiag v hbak (Pointers.of_bdp level hf)]
  rfl

theorem placeAt_eq (s : State) :
    s.placeAt cfg (Pointers.of cfg level f) level f = .ok (s.place cfg level f) := by
  have hqueen : level < cfg.maxRanks := Nat.lt_of_lt_of_le hlevel hmax
  rw [State.placeAt, store_of_lt s.queen f hqueen rfl]
  exact assignAt_eq hmax hlevel hf _ level

end InRange

private theorem mapError_bind {α β : Type} (r : Except Stop α) (k : α → Except Stop β) :
    (r >>= k).mapError Fault.stop = r.mapError Fault.stop >>= fun a => (k a).mapError .stop := by
  cases r <;> rfl

section Search

variable {cfg : Config} (hmax : cfg.queens ≤ cfg.maxQueens) {level : Nat}
  (hlevel : level < cfg.queens) {findNext : State → Except Stop State}
  {findNextAt : State → Except Fault State}
  (hnext : ∀ s, findNextAt s = (findNext s).mapError .stop)

include hmax hlevel hnext

private theorem tryFileAt_eq {f : Nat} (hf : f < cfg.files) (s : State) :
    tryFileAt cfg level findNextAt (Pointers.of cfg level f, s) f =
      (tryFile cfg level findNext s f).mapError Fault.stop >>= fun s =>
        .ok (Pointers.of cfg level (f + 1), s) := by
  rw [tryFileAt, freeAt_eq hmax hlevel hf, tryFile]
  cases hfree : s.free cfg level f with
  | false => simp [bind, Except.bind, Except.mapError, pure, Except.pure, Pointers.of_next]
  | true =>
      simp only [bind, Except.bind, placeAt_eq hmax hlevel hf, hnext, if_true]
      cases findNext (s.place cfg level f) with
      | error e => rfl
      | ok t =>
          simp only [Except.mapError, assignAt_eq hmax hlevel hf, Pointers.of_next, pure,
            Except.pure]
          rfl

theorem filesAt_eq (s : State) {n : Nat} (hn : n ≤ cfg.files) :
    (List.range n).foldlM (tryFileAt cfg level findNextAt) (Pointers.first cfg level, s) =
      ((List.range n).foldlM (tryFile cfg level findNext) s).mapError Fault.stop >>= fun s =>
        .ok (Pointers.of cfg level n, s) := by
  induction n with
  | zero =>
      rw [Pointers.first_eq]
      rfl
  | succ n ih =>
      rw [List.range_succ, List.foldlM_append, List.foldlM_append, ih (Nat.le_of_succ_le hn),
        mapError_bind, bind_assoc, bind_assoc]
      congr 1
      funext t
      have hstep := tryFileAt_eq hmax hlevel hnext hn t
      simp only [List.foldlM_cons, List.foldlM_nil, bind_pure]
      exact hstep

end Search

/-- Up to the array bound the search accesses nothing outside its arrays. -/
theorem findAt_eq {cfg : Config} (hmax : cfg.queens ≤ cfg.maxQueens) {level : Nat}
    (hlevel : level ≤ cfg.queens) (fuel : Nat) (s : State) :
    findAt cfg fuel level s = (find cfg fuel level s).mapError .stop := by
  induction fuel generalizing level s with
  | zero =>
      rw [findAt.eq_def, find.eq_def]
      split_ifs <;> rfl
  | succ fuel ih =>
      rw [findAt.eq_def, find.eq_def]
      by_cases hlast : level = cfg.queens
      · rw [if_pos hlast, if_pos hlast]
      · have hlt := Nat.lt_of_le_of_ne hlevel hlast
        rw [if_neg hlast, if_neg hlast]
        dsimp only
        rw [filesAt_eq hmax hlt (fun t => ih hlt t) s (Nat.le_refl _), bind_assoc]
        exact bind_pure _

end ModernArch.Queens
