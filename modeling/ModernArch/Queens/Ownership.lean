import ModernArch.Queens.Correctness
import ModernArch.Queens.Pointers

/-!
# What the arrays hold at every call

At the entry of every call of `find` the three arrays name the queens of the levels below, and a
call that returns has put them back.
-/

namespace ModernArch.Queens

/-- The calls of `find` that a run of `main` makes, with the globals at their entry. -/
inductive Called (cfg : Config) : Nat → State → Prop where
  | main (queen : Nat → Nat) : Called cfg 0 (State.start cfg queen)
  | next {level : Nat} {s t u : State} (h : Called cfg level s) (hlevel : level ≠ cfg.queens)
      {fuel f : Nat} (hf : f < cfg.files) {ptr : Pointers}
      (htried : (List.range f).foldlM (tryFileAt cfg level (findAt cfg fuel (level + 1)))
        (Pointers.first cfg level, s) = .ok (ptr, t))
      (hfree : t.freeAt cfg ptr level = .ok true)
      (hplace : t.placeAt cfg ptr level f = .ok u) : Called cfg (level + 1) u

/-- Every entry is empty or the one queen below the level on its line, and the entries from the
level on are the lines without a queen. -/
structure Owned (level empty : Nat) (line : Nat → Nat) (a : Nat → Nat) : Prop where
  entry : ∀ k, (a k = empty ∧ ∀ i < level, line i ≠ k) ∨
    (a k < level ∧ ∀ i < level, line i = k ↔ i = a k)
  free : ∀ k, level ≤ a k ↔ ∀ i < level, line i ≠ k

private theorem Owns.owned {key : Nat → Nat → Nat} {empty : Nat} {p : List Nat}
    {a queen : Nat → Nat} (h : Owns key empty p a) (hempty : p.length ≤ empty)
    (hqueen : ∀ i f : Nat, p[i]? = some f → queen i = f)
    (hinj : ∀ i j f g : Nat, p[i]? = some f → p[j]? = some g → key i f = key j g → i = j) :
    Owned p.length empty (fun i => key i (queen i)) a := by
  have hget {i : Nat} (hi : i < p.length) : p[i]? = some (queen i) := by
    rw [List.getElem?_eq_getElem hi]
    exact congrArg some (hqueen i _ (List.getElem?_eq_getElem hi)).symm
  have hlines (k : Nat) : (∀ i f : Nat, p[i]? = some f → key i f ≠ k) ↔
      ∀ i < p.length, key i (queen i) ≠ k := by
    constructor
    · intro hno i hi
      exact hno i _ (hget hi)
    · intro hno i f hi
      have hlt := (List.getElem?_eq_some_iff.mp hi).1
      rw [← hqueen i f hi]
      exact hno i hlt
  constructor
  · intro k
    rcases h k with ⟨i, f, hi, hkey, hk⟩ | ⟨hno, hk⟩
    · right
      have hlt := (List.getElem?_eq_some_iff.mp hi).1
      refine ⟨hk ▸ hlt, ?_⟩
      intro j hj
      rw [hk]
      constructor
      · intro hline
        exact hinj j i _ f (hget hj) hi (hline.trans hkey.symm)
      · rintro rfl
        rw [hqueen j f hi]
        exact hkey
    · exact Or.inl ⟨hk, (hlines k).mp hno⟩
  · intro k
    rw [h.free_iff hempty]
    exact hlines k

section Keeps

variable {cfg : Config} {p : List Nat} {findNext : State → Except Stop State}

private theorem report_keeps {level : Nat} {s s' : State} (h : report cfg s = .ok s') :
    Keeps level s s' := by
  have hgives := report_gives cfg (s := s) level
  by_cases hcontinue : cfg.findall = true ∨ [s.board cfg] = []
  · rw [h, Gives, if_pos hcontinue] at hgives
    obtain ⟨t, hok, -, hkeeps⟩ := hgives
    cases hok
    exact hkeeps
  · rw [h, Gives, if_neg hcontinue] at hgives
    obtain ⟨t, hok, -⟩ := hgives
    cases hok

private theorem tryFile_keeps {s s' : State} {f : Nat} (hrep : Represents cfg p s)
    (hnext : ∀ t t', Represents cfg (p ++ [f]) t → findNext t = .ok t' →
      Keeps (p.length + 1) t t')
    (h : tryFile cfg p.length findNext s f = .ok s') : Keeps p.length s s' := by
  rw [tryFile] at h
  cases hfree : s.free cfg p.length f with
  | false =>
      rw [hfree] at h
      cases h
      exact Keeps.refl _ s
  | true =>
      rw [hfree] at h
      cases ht : findNext (s.place cfg p.length f) with
      | error e =>
          rw [if_pos rfl, ht] at h
          cases h
      | ok t =>
          rw [if_pos rfl, ht] at h
          cases h
          exact hrep.remove hfree (hnext _ t (hrep.place f) ht)

private theorem files_keep {s s' : State} {fs : List Nat} (hrep : Represents cfg p s)
    (hnext : ∀ f t t', Represents cfg (p ++ [f]) t → findNext t = .ok t' →
      Keeps (p.length + 1) t t')
    (h : fs.foldlM (tryFile cfg p.length findNext) s = .ok s') : Keeps p.length s s' := by
  induction fs generalizing s with
  | nil =>
      cases h
      exact Keeps.refl _ _
  | cons f fs ih =>
      rw [List.foldlM_cons] at h
      cases ht : tryFile cfg p.length findNext s f with
      | error e =>
          rw [ht] at h
          cases h
      | ok t =>
          rw [ht] at h
          have hkeep := tryFile_keeps hrep (hnext f) ht
          exact hkeep.trans (ih (hkeep.represents hrep) h)

private theorem find_keeps {s s' : State} {fuel : Nat} (hrep : Represents cfg p s)
    (h : find cfg fuel p.length s = .ok s') : Keeps p.length s s' := by
  induction fuel generalizing p s s' with
  | zero =>
      rw [find.eq_def] at h
      split_ifs at h
      exact report_keeps h
  | succ fuel ih =>
      rw [find.eq_def] at h
      split_ifs at h with hlast
      · exact report_keeps h
      · apply files_keep hrep _ h
        intro f t t' ht hok
        have hlen : (p ++ [f]).length = p.length + 1 := by simp
        rw [← hlen] at hok ⊢
        exact ih ht hok

end Keeps

/-- The queens of the levels below a call. -/
structure Entered (cfg : Config) (p : List Nat) (s : State) : Prop where
  length : p.length ≤ cfg.queens
  inRange : ∀ g ∈ p, g < cfg.files
  peaceful : Peaceful p
  represents : Represents cfg p s

theorem Entered.start (cfg : Config) (queen : Nat → Nat) :
    Entered cfg [] (State.start cfg queen) := by
  refine ⟨Nat.zero_le _, by simp, ?_, represents_start queen⟩
  intro i j f g hij hi
  simp at hi

theorem Entered.place {cfg : Config} {p : List Nat} {s : State} {f : Nat} (h : Entered cfg p s)
    (hmax : cfg.queens ≤ cfg.maxQueens) (hlevel : p.length ≠ cfg.queens) (hf : f < cfg.files)
    (hfree : s.free cfg p.length f = true) :
    Entered cfg (p ++ [f]) (s.place cfg p.length f) := by
  have hlen := h.length
  have hempty : p.length ≤ cfg.empty := by
    simp only [Config.empty]
    omega
  constructor
  · rw [List.length_append, List.length_singleton]
    omega
  · simpa [or_imp, forall_and, hf] using h.inRange
  · exact peaceful_snoc.mpr ⟨h.peaceful, (h.represents.free_iff hempty h.inRange hf).mp hfree⟩
  · exact h.represents.place f

private theorem Called.entered {cfg : Config} (hmax : cfg.queens ≤ cfg.maxQueens) {level : Nat}
    {s : State} (h : Called cfg level s) : ∃ p, p.length = level ∧ Entered cfg p s := by
  induction h with
  | main queen => exact ⟨[], rfl, Entered.start cfg queen⟩
  | @next level s t u _ hlevel fuel f hf ptr htried hfree hplace ih =>
      obtain ⟨p, rfl, hp⟩ := ih
      have hlt := Nat.lt_of_le_of_ne hp.length hlevel
      rw [filesAt_eq hmax hlt (findAt_eq hmax hlt fuel) s (Nat.le_of_lt hf)] at htried
      cases ht : (List.range f).foldlM (tryFile cfg p.length (find cfg fuel (p.length + 1))) s with
      | error e =>
          rw [ht] at htried
          cases htried
      | ok t' =>
          rw [ht] at htried
          cases htried
          rw [freeAt_eq hmax hlt hf] at hfree
          rw [placeAt_eq hmax hlt hf] at hplace
          cases hplace
          have hkeep := files_keep hp.represents (fun g t t' hrep hok => by
            have hlen : (p ++ [g]).length = p.length + 1 := by simp
            rw [← hlen] at hok ⊢
            exact find_keeps hrep hok) ht
          have ht' : Entered cfg p t := ⟨hp.length, hp.inRange, hp.peaceful,
            hkeep.represents hp.represents⟩
          exact ⟨p ++ [f], by simp, ht'.place hmax hlevel hf (Except.ok.inj hfree)⟩

/-- No two queens share a line. -/
theorem Entered.owned {cfg : Config} {p : List Nat} {s : State} (h : Entered cfg p s)
    (hmax : cfg.queens ≤ cfg.maxQueens) :
    Owned p.length cfg.empty s.queen s.file ∧
      Owned p.length cfg.empty (fun i => i + s.queen i) s.fordiag ∧
      Owned p.length cfg.empty (fun i => i + cfg.files - 1 - s.queen i) s.bakdiag := by
  have hlen := h.length
  have hempty : p.length ≤ cfg.empty := by
    simp only [Config.empty]
    omega
  have hinj (key : Nat → Nat → Nat)
      (hkey : ∀ i j f g : Nat, i < j → p[i]? = some f → p[j]? = some g → key i f ≠ key j g)
      (i j f g : Nat) (hi : p[i]? = some f) (hj : p[j]? = some g) (heq : key i f = key j g) :
      i = j := by
    rcases Nat.lt_trichotomy i j with hlt | hij | hlt
    · exact absurd heq (hkey i j f g hlt hi hj)
    · exact hij
    · exact absurd heq.symm (hkey j i g f hlt hj hi)
  have hqueen := h.represents.queen
  refine ⟨h.represents.file.owned hempty hqueen (hinj _ ?_),
    h.represents.fordiag.owned hempty hqueen (hinj _ ?_),
    h.represents.bakdiag.owned hempty hqueen (hinj _ ?_)⟩
  · intro i j f g hij hi hj
    exact (h.peaceful i j f g hij hi hj).1
  · intro i j f g hij hi hj
    exact (h.peaceful i j f g hij hi hj).2.1
  · intro i j f g hij hi hj
    have hdiff := (h.peaceful i j f g hij hi hj).2.2
    have hf := h.inRange f (List.mem_of_getElem? hi)
    have hg := h.inRange g (List.mem_of_getElem? hj)
    omega

/-- At the entry of every call the arrays hold the levels of the queens on their lines. The call
accesses nothing outside its arrays, and leaves them as they were if it returns. -/
theorem find_owns {cfg : Config} (hmax : cfg.queens ≤ cfg.maxQueens) {level : Nat} {s : State}
    (h : Called cfg level s) :
    (Owned level cfg.empty s.queen s.file ∧
      Owned level cfg.empty (fun i => i + s.queen i) s.fordiag ∧
      Owned level cfg.empty (fun i => i + cfg.files - 1 - s.queen i) s.bakdiag) ∧
    ∀ fuel, findAt cfg fuel level s ≠ .error .outside ∧
      ∀ s', findAt cfg fuel level s = .ok s' →
        s'.file = s.file ∧ s'.fordiag = s.fordiag ∧ s'.bakdiag = s.bakdiag := by
  obtain ⟨p, rfl, hp⟩ := h.entered hmax
  refine ⟨hp.owned hmax, ?_⟩
  intro fuel
  rw [findAt_eq hmax hp.length]
  cases hfind : find cfg fuel p.length s with
  | error e =>
      refine ⟨?_, ?_⟩
      · intro he
        cases he
      · intro s' hs'
        cases hs'
  | ok t =>
      refine ⟨?_, ?_⟩
      · intro he
        cases he
      · intro s' hs'
        cases hs'
        have hkeep := find_keeps hp.represents hfind
        exact ⟨hkeep.file, hkeep.fordiag, hkeep.bakdiag⟩

/-- The call for the second rank, with a queen in the first corner. -/
theorem find_owns_corner :
    let cfg : Config := ⟨4, 100, false, true⟩
    let s := (State.start cfg fun _ => 0).place cfg 0 0
    Owned 1 101 s.queen s.file := by
  intro cfg s
  have htried : (List.range 0).foldlM (tryFileAt cfg 0 (findAt cfg 4 1))
      (Pointers.first cfg 0, State.start cfg fun _ => 0) =
        .ok (Pointers.of cfg 0 0, State.start cfg fun _ => 0) := rfl
  have hcalled : Called cfg 1 s := (Called.main _).next (by decide) (by decide) htried
    (freeAt_eq (by decide) (by decide) (by decide) _)
    (placeAt_eq (by decide) (by decide) (by decide) _)
  exact (find_owns (by decide) hcalled).1.1

end ModernArch.Queens
