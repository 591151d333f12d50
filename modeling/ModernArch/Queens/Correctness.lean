import ModernArch.Queens.Search
import Mathlib.Data.Set.Card

/-!
# The queens search finds every placement once

The arrays of a state represent the queens placed so far. A call completes them in the order of
the enumeration and leaves the arrays as it found them.
-/

namespace ModernArch.Queens
open Framework

/-- Every line that queen `i` on file `f` is on, `key i f`, has `i`, every other is empty. -/
def Owns (key : Nat → Nat → Nat) (empty : Nat) (p : List Nat) (a : Nat → Nat) : Prop :=
  ∀ k, (∃ i f : Nat, p[i]? = some f ∧ key i f = k ∧ a k = i) ∨
    ((∀ i f : Nat, p[i]? = some f → key i f ≠ k) ∧ a k = empty)

section Owns

variable {key : Nat → Nat → Nat} {empty : Nat} {p : List Nat} {a : Nat → Nat}

private theorem owns_nil : Owns key empty [] fun _ => empty := by
  intro k
  exact Or.inr ⟨fun i f h => by simp at h, rfl⟩

theorem Owns.free_iff (h : Owns key empty p a) (hlen : p.length ≤ empty) (k : Nat) :
    p.length ≤ a k ↔ ∀ i f : Nat, p[i]? = some f → key i f ≠ k := by
  rcases h k with ⟨i, f, hi, hkey, hk⟩ | ⟨hno, hk⟩
  · have hlt := (List.getElem?_eq_some_iff.mp hi).1
    constructor
    · intro hle
      omega
    · intro hno
      exact absurd hkey (hno i f hi)
  · exact ⟨fun _ => hno, fun _ => hk ▸ hlen⟩

/-- A free line is empty. -/
theorem Owns.eq_empty (h : Owns key empty p a) {k : Nat} (hk : p.length ≤ a k) : a k = empty := by
  rcases h k with ⟨i, f, hi, -, hki⟩ | ⟨-, hke⟩
  · have hlt := (List.getElem?_eq_some_iff.mp hi).1
    omega
  · exact hke

theorem Owns.snoc (h : Owns key empty p a) (f : Nat) :
    Owns key empty (p ++ [f]) (Function.update a (key p.length f) p.length) := by
  intro k
  by_cases hk : k = key p.length f
  · left
    exact ⟨p.length, f, getElem?_snoc.mpr (Or.inr ⟨rfl, rfl⟩), hk.symm,
      by rw [hk, Function.update_self]⟩
  · rw [Function.update_of_ne hk]
    rcases h k with ⟨i, g, hi, hkey, hki⟩ | ⟨hno, hke⟩
    · have hlt := (List.getElem?_eq_some_iff.mp hi).1
      exact Or.inl ⟨i, g, getElem?_snoc.mpr (Or.inl ⟨hi, hlt⟩), hkey, hki⟩
    · refine Or.inr ⟨?_, hke⟩
      intro i g hi
      rcases getElem?_snoc.mp hi with ⟨hi, -⟩ | ⟨rfl, rfl⟩
      · exact hno i g hi
      · exact Ne.symm hk

end Owns

/-- The state after placing the queens `p`. -/
structure Represents (cfg : Config) (p : List Nat) (s : State) : Prop where
  queen : ∀ i f : Nat, p[i]? = some f → s.queen i = f
  file : Owns (fun _ f => f) cfg.empty p s.file
  fordiag : Owns (fun i f => i + f) cfg.empty p s.fordiag
  bakdiag : Owns (fun i f => i + cfg.files - 1 - f) cfg.empty p s.bakdiag

section Represents

variable {cfg : Config} {p : List Nat} {s : State}

theorem represents_start (queen : Nat → Nat) : Represents cfg [] (State.start cfg queen) :=
  ⟨fun i f h => by simp at h, owns_nil, owns_nil, owns_nil⟩

theorem Represents.free_iff (h : Represents cfg p s) (hlen : p.length ≤ cfg.empty)
    (hrange : ∀ g ∈ p, g < cfg.files) {f : Nat} (hf : f < cfg.files) :
    s.free cfg p.length f = true ↔ Unattacked p f := by
  rw [unattacked_iff]
  simp only [State.free, Bool.and_eq_true, decide_eq_true_eq, h.file.free_iff hlen,
    h.fordiag.free_iff hlen, h.bakdiag.free_iff hlen]
  constructor
  · rintro ⟨⟨hfile, hfor⟩, hbak⟩ i g hi
    have hg := hrange g (List.mem_of_getElem? hi)
    have hdiff := hbak i g hi
    exact ⟨hfile i g hi, hfor i g hi, by omega⟩
  · intro hall
    refine ⟨⟨fun i g hi => (hall i g hi).1, fun i g hi => (hall i g hi).2.1⟩, ?_⟩
    intro i g hi
    have hg := hrange g (List.mem_of_getElem? hi)
    have hdiff := (hall i g hi).2.2
    omega

theorem Represents.place (h : Represents cfg p s) (f : Nat) :
    Represents cfg (p ++ [f]) (s.place cfg p.length f) := by
  refine ⟨?_, h.file.snoc f, h.fordiag.snoc f, h.bakdiag.snoc f⟩
  intro i g hi
  simp only [State.place]
  rcases getElem?_snoc.mp hi with ⟨hi, hlt⟩ | ⟨rfl, rfl⟩
  · rw [Function.update_of_ne hlt.ne]
    exact h.queen i g hi
  · rw [Function.update_self]

end Represents

/-- The queens below a level and the arrays are the same. -/
structure Keeps (level : Nat) (s s' : State) : Prop where
  queen : ∀ i < level, s'.queen i = s.queen i
  file : s'.file = s.file
  fordiag : s'.fordiag = s.fordiag
  bakdiag : s'.bakdiag = s.bakdiag

theorem Keeps.refl (level : Nat) (s : State) : Keeps level s s := ⟨fun _ _ => rfl, rfl, rfl, rfl⟩

theorem Keeps.trans {level : Nat} {s t u : State} (h : Keeps level s t) (h' : Keeps level t u) :
    Keeps level s u :=
  ⟨fun i hi => (h'.queen i hi).trans (h.queen i hi), h'.file.trans h.file,
    h'.fordiag.trans h.fordiag, h'.bakdiag.trans h.bakdiag⟩

theorem Keeps.represents {cfg : Config} {p : List Nat} {s s' : State} (h : Keeps p.length s s')
    (hrep : Represents cfg p s) : Represents cfg p s' := by
  refine ⟨?_, h.file ▸ hrep.file, h.fordiag ▸ hrep.fordiag, h.bakdiag ▸ hrep.bakdiag⟩
  intro i f hi
  rw [h.queen i (List.getElem?_eq_some_iff.mp hi).1]
  exact hrep.queen i f hi

/-- A queen taken back after what keeps the arrays. -/
theorem Represents.remove {cfg : Config} {p : List Nat} {s s' : State} {f : Nat}
    (h : Represents cfg p s) (hfree : s.free cfg p.length f = true)
    (hkeeps : Keeps (p.length + 1) (s.place cfg p.length f) s') :
    Keeps p.length s (s'.remove cfg p.length f) := by
  simp only [State.free, Bool.and_eq_true, decide_eq_true_eq] at hfree
  obtain ⟨⟨hfile, hfor⟩, hbak⟩ := hfree
  constructor
  · intro i hi
    simp only [State.remove]
    rw [hkeeps.queen i (by omega)]
    simp only [State.place]
    rw [Function.update_of_ne hi.ne]
  · simp only [State.remove, hkeeps.file, State.place, Function.update_idem]
    rw [← h.file.eq_empty hfile, Function.update_eq_self]
  · simp only [State.remove, hkeeps.fordiag, State.place, Function.update_idem]
    rw [← h.fordiag.eq_empty hfor, Function.update_eq_self]
  · simp only [State.remove, hkeeps.bakdiag, State.place, Function.update_idem]
    rw [← h.bakdiag.eq_empty hbak, Function.update_eq_self]

/-- What completing the boards `bs` leaves. -/
structure Reports (cfg : Config) (bs : List (List Nat)) (s s' : State) : Prop where
  boards : s'.boards = s.boards ++ bs
  solutions : s'.solutions = s.solutions + bs.length
  out : s'.out.map Prod.snd = s.out.map Prod.snd ++ if cfg.printing then bs else []

theorem Reports.nil (cfg : Config) (s : State) : Reports cfg [] s s :=
  ⟨by simp, rfl, by simp⟩

theorem Reports.trans {cfg : Config} {bs cs : List (List Nat)} {s t u : State}
    (h : Reports cfg bs s t) (h' : Reports cfg cs t u) : Reports cfg (bs ++ cs) s u := by
  refine ⟨?_, ?_, ?_⟩
  · rw [h'.boards, h.boards, List.append_assoc]
  · rw [h'.solutions, h.solutions, List.length_append, Nat.add_assoc]
  · rw [h'.out, h.out]
    split_ifs <;> simp

/-- The outcome of a search that meets the boards `bs`. -/
def Gives (cfg : Config) (level : Nat) (bs : List (List Nat)) (s : State)
    (r : Except Stop State) : Prop :=
  if cfg.findall ∨ bs = [] then ∃ s', r = .ok s' ∧ Reports cfg bs s s' ∧ Keeps level s s'
  else ∃ s', r = .error (.exit s') ∧ Reports cfg (bs.take 1) s s'

private theorem gives_ok {cfg : Config} {level : Nat} {bs : List (List Nat)} {s s' : State}
    (hcontinue : cfg.findall = true ∨ bs = []) (hreports : Reports cfg bs s s')
    (hkeeps : Keeps level s s') : Gives cfg level bs s (.ok s') := by
  rw [Gives, if_pos hcontinue]
  exact ⟨s', rfl, hreports, hkeeps⟩

/-- One search after another. -/
theorem Gives.bind {cfg : Config} {level : Nat} {bs cs : List (List Nat)} {s : State}
    {r : Except Stop State} {next : State → Except Stop State} (h : Gives cfg level bs s r)
    (hnext : ∀ t, Keeps level s t → Gives cfg level cs t (next t)) :
    Gives cfg level (bs ++ cs) s (r.bind next) := by
  by_cases hcontinue : cfg.findall = true ∨ bs = []
  · rw [Gives, if_pos hcontinue] at h
    obtain ⟨t, rfl, hreports, hkeeps⟩ := h
    have htail := hnext t hkeeps
    by_cases hlast : cfg.findall = true ∨ cs = []
    · rw [Gives, if_pos hlast] at htail
      obtain ⟨u, hu, hreports', hkeeps'⟩ := htail
      change Gives cfg level (bs ++ cs) s (next t)
      rw [hu]
      refine gives_ok ?_ (hreports.trans hreports') (hkeeps.trans hkeeps')
      rcases hcontinue with hall | rfl
      · exact Or.inl hall
      · simpa using hlast
    · have hbs : bs = [] := hcontinue.resolve_left fun hall => hlast (Or.inl hall)
      subst hbs
      rw [Gives, if_neg hlast] at htail
      obtain ⟨u, hu, hreports'⟩ := htail
      rw [List.nil_append, Gives, if_neg hlast]
      refine ⟨u, hu, ?_⟩
      have hboth := hreports.trans hreports'
      rwa [List.nil_append] at hboth
  · rw [Gives, if_neg hcontinue] at h
    obtain ⟨t, rfl, hreports⟩ := h
    have hstop : ¬ (cfg.findall = true ∨ bs ++ cs = []) := by
      rintro (hall | hempty)
      · exact hcontinue (Or.inl hall)
      · exact hcontinue (Or.inr (List.append_eq_nil_iff.mp hempty).1)
    rw [Gives, if_neg hstop]
    refine ⟨t, rfl, ?_⟩
    cases bs with
    | nil => exact absurd (Or.inr rfl) hcontinue
    | cons b bs => simpa using hreports

theorem report_gives (cfg : Config) {s : State} (level : Nat) :
    Gives cfg level [s.board cfg] s (report cfg s) := by
  cases hall : cfg.findall with
  | true =>
      rw [report, hall]
      refine gives_ok (Or.inl hall) ⟨?_, ?_, ?_⟩ ⟨?_, ?_, ?_, ?_⟩ <;>
        cases hprint : cfg.printing <;> simp [State.pboard, State.board]
  | false =>
      rw [Gives, if_neg (by simp [hall]), report, hall]
      refine ⟨_, rfl, ?_, ?_, ?_⟩ <;>
        cases hprint : cfg.printing <;> simp [State.pboard, State.board]

/-- The board is what the queens say. -/
theorem Represents.board {cfg : Config} {p : List Nat} {s : State} (h : Represents cfg p s)
    (hlen : p.length = cfg.queens) : s.board cfg = p := by
  apply List.ext_getElem?
  intro i
  rw [State.board, Config.ranks, ← hlen, List.getElem?_map]
  rcases Nat.lt_or_ge i p.length with hi | hi
  · rw [List.getElem?_range hi, List.getElem?_eq_getElem hi]
    exact congrArg some (h.queen i _ (List.getElem?_eq_getElem hi))
  · rw [List.getElem?_eq_none (by simpa using hi), List.getElem?_eq_none hi]
    rfl

private theorem tryFile_gives {cfg : Config} {p : List Nat} {s : State} {f : Nat}
    {bs : List (List Nat)} {findNext : State → Except Stop State} (hrep : Represents cfg p s)
    (hfree : s.free cfg p.length f = true ↔ Unattacked p f)
    (hnext : ∀ t, Unattacked p f → Represents cfg (p ++ [f]) t →
      Gives cfg (p.length + 1) bs t (findNext t)) :
    Gives cfg p.length (if Unattacked p f then bs else []) s
      (tryFile cfg p.length findNext s f) := by
  by_cases hun : Unattacked p f
  · have hsub := hnext _ hun (hrep.place f)
    rw [if_pos hun, tryFile, if_pos (hfree.mpr hun)]
    by_cases hcontinue : cfg.findall = true ∨ bs = []
    · rw [Gives, if_pos hcontinue] at hsub
      obtain ⟨t, ht, hreports, hkeeps⟩ := hsub
      rw [ht]
      exact gives_ok hcontinue ⟨hreports.boards, hreports.solutions, hreports.out⟩
        (hrep.remove (hfree.mpr hun) hkeeps)
    · rw [Gives, if_neg hcontinue] at hsub ⊢
      obtain ⟨t, ht, hreports⟩ := hsub
      rw [ht]
      exact ⟨t, rfl, hreports.boards, hreports.solutions, hreports.out⟩
  · rw [if_neg hun, tryFile, if_neg (mt hfree.mp hun)]
    exact gives_ok (Or.inr rfl) (Reports.nil cfg s) (Keeps.refl _ s)

private theorem files_give {cfg : Config} {p : List Nat} {bs : Nat → List (List Nat)}
    {findNext : State → Except Stop State} (hempty : p.length ≤ cfg.empty)
    (hrange : ∀ g ∈ p, g < cfg.files)
    (hnext : ∀ f t, f < cfg.files → Unattacked p f → Represents cfg (p ++ [f]) t →
      Gives cfg (p.length + 1) (bs f) t (findNext t))
    {fs : List Nat} (hfs : ∀ f ∈ fs, f < cfg.files) {s : State} (hrep : Represents cfg p s) :
    Gives cfg p.length (fs.flatMap fun f => if Unattacked p f then bs f else []) s
      (fs.foldlM (tryFile cfg p.length findNext) s) := by
  induction fs generalizing s with
  | nil => exact gives_ok (Or.inr rfl) (Reports.nil cfg s) (Keeps.refl _ s)
  | cons f fs ih =>
      have hf := hfs f List.mem_cons_self
      rw [List.foldlM_cons, List.flatMap_cons]
      apply Gives.bind
      · exact tryFile_gives hrep (hrep.free_iff hempty hrange hf) fun t => hnext f t hf
      · intro t hkeeps
        exact ih (fun g hg => hfs g (List.mem_cons_of_mem _ hg)) (hkeeps.represents hrep)

private theorem find_gives {cfg : Config} (hmax : cfg.queens ≤ cfg.maxQueens) {k fuel : Nat}
    (hfuel : k ≤ fuel) {p : List Nat} (hlen : p.length + k = cfg.queens)
    (hrange : ∀ g ∈ p, g < cfg.files) {s : State} (hrep : Represents cfg p s) :
    Gives cfg p.length (completions (List.range cfg.files) Unattacked k p) s
      (find cfg fuel p.length s) := by
  induction k generalizing fuel p s with
  | zero =>
      rw [Nat.add_zero] at hlen
      have hreport := report_gives cfg (s := s) p.length
      rw [hrep.board hlen] at hreport
      rw [find.eq_def, if_pos hlen]
      exact hreport
  | succ k ih =>
      have hempty : p.length ≤ cfg.empty := by
        simp only [Config.empty]
        omega
      cases fuel with
      | zero => omega
      | succ fuel =>
          rw [find.eq_def, if_neg (by omega)]
          apply files_give hempty hrange _ (fun f hf => List.mem_range.mp hf) hrep
          intro f t hf hun ht
          have hnext := @ih fuel (by omega) (p ++ [f])
            (by rw [List.length_append, List.length_singleton]; omega)
            (by simpa [or_imp, forall_and, hf] using hrange) t ht
          rwa [List.length_append, List.length_singleton] at hnext

/-- The search from the empty board, with fuel for every level. -/
def search (cfg : Config) (queen : Nat → Nat) : Except Stop State :=
  find cfg cfg.queens 0 (State.start cfg queen)

private theorem placements_sorted (n : Nat) :
    (completions (List.range n) Unattacked n []).Pairwise (List.Lex (· < ·)) :=
  completions_sorted List.pairwise_lt_range n []

private theorem placements_card (n : Nat) :
    (completions (List.range n) Unattacked n []).length = {p | IsPlacement n p}.ncard := by
  have hnodup : (completions (List.range n) Unattacked n []).Nodup :=
    (placements_sorted n).imp fun {p q} h heq => by
      subst heq
      exact List.lt_irrefl p h
  have hset : {p | IsPlacement n p} =
      ((completions (List.range n) Unattacked n []).toFinset : Set (List Nat)) := by
    ext p
    simp [mem_placements]
  rw [hset, Set.ncard_coe_finset, List.toFinset_card_of_nodup hnodup]

/-- With `findall` the search meets every placement exactly once, in lexicographic order, and
counts them; without it stops at the first one, or returns when there is none. -/
theorem search_correct (cfg : Config) (queen : Nat → Nat) (hmax : cfg.queens ≤ cfg.maxQueens) :
    (cfg.findall = true → ∃ s, search cfg queen = .ok s ∧
      s.boards.Pairwise (List.Lex (· < ·)) ∧ (∀ p, p ∈ s.boards ↔ IsPlacement cfg.queens p) ∧
      s.solutions = {p | IsPlacement cfg.queens p}.ncard ∧
      s.out.map Prod.snd = if cfg.printing then s.boards else []) ∧
    (cfg.findall = false →
      (∃ s, search cfg queen = .ok s ∧ s.solutions = 0 ∧ s.boards = [] ∧ s.out = [] ∧
        ∀ p, ¬ IsPlacement cfg.queens p) ∨
      ∃ s p, search cfg queen = .error (.exit s) ∧ s.solutions = 1 ∧ s.boards = [p] ∧
        s.out.map Prod.snd = (if cfg.printing then [p] else []) ∧ IsPlacement cfg.queens p ∧
        ∀ q, IsPlacement cfg.queens q → q = p ∨ List.Lex (· < ·) p q) := by
  have hgives := @find_gives cfg hmax cfg.queens cfg.queens le_rfl [] (Nat.zero_add _)
    (by simp) _ (represents_start queen)
  change Gives cfg 0 _ _ (search cfg queen) at hgives
  have hmem (p : List Nat) : p ∈ completions (List.range cfg.files) Unattacked cfg.queens [] ↔
      IsPlacement cfg.queens p := mem_placements
  have hsorted := placements_sorted cfg.queens
  constructor
  · intro hall
    rw [Gives, if_pos (Or.inl hall)] at hgives
    obtain ⟨s, hs, hreports, -⟩ := hgives
    have hboards := hreports.boards
    have hsolutions := hreports.solutions
    have hout := hreports.out
    simp only [State.start, List.nil_append, Nat.zero_add, List.map_nil] at hboards hsolutions hout
    refine ⟨s, hs, ?_, ?_, ?_, ?_⟩
    · rw [hboards]
      exact hsorted
    · intro p
      rw [hboards]
      exact hmem p
    · rw [hsolutions]
      exact placements_card cfg.queens
    · rw [hout, hboards]
  · intro hfirst
    by_cases hnone : completions (List.range cfg.files) Unattacked cfg.queens [] = []
    · left
      rw [Gives, if_pos (Or.inr hnone)] at hgives
      obtain ⟨s, hs, hreports, -⟩ := hgives
      rw [hnone] at hreports
      have hboards := hreports.boards
      have hsolutions := hreports.solutions
      have hout := hreports.out
      simp only [State.start, List.nil_append, List.map_nil, ite_self] at hboards hsolutions hout
      refine ⟨s, hs, hsolutions, hboards, List.map_eq_nil_iff.mp hout, ?_⟩
      intro p hp
      have hin := (hmem p).mpr hp
      rw [hnone] at hin
      cases hin
    · right
      rw [Gives, if_neg (by simp [hfirst, hnone])] at hgives
      obtain ⟨s, hs, hreports⟩ := hgives
      obtain ⟨p, ps, hps⟩ := List.exists_cons_of_ne_nil hnone
      rw [hps] at hreports
      have hboards := hreports.boards
      have hsolutions := hreports.solutions
      have hout := hreports.out
      simp only [State.start, List.nil_append, List.map_nil, List.take_succ_cons,
        List.take_zero] at hboards hsolutions hout
      refine ⟨s, p, hs, hsolutions, hboards, hout, ?_, ?_⟩
      · apply (hmem p).mp
        rw [hps]
        exact List.mem_cons_self
      · intro q hq
        have hin := (hmem q).mpr hq
        change (completions (List.range cfg.files) Unattacked cfg.queens []).Pairwise _ at hsorted
        rw [hps] at hin hsorted
        rcases List.mem_cons.mp hin with rfl | hin
        · exact Or.inl rfl
        · exact Or.inr ((List.pairwise_cons.mp hsorted).1 q hin)

example : (match search ⟨4, 100, true, true⟩ fun _ => 0 with
    | .ok s => s.boards
    | .error _ => []) = [[1, 3, 0, 2], [2, 0, 3, 1]] := by decide +kernel

theorem search_correct_four : ∃ s, search ⟨4, 100, true, true⟩ (fun _ => 0) = .ok s ∧
    s.solutions = {p | IsPlacement 4 p}.ncard := by
  obtain ⟨s, hs, -, -, hsolutions, -⟩ :=
    (search_correct ⟨4, 100, true, true⟩ (fun _ => 0) (by decide)).1 rfl
  exact ⟨s, hs, hsolutions⟩

end ModernArch.Queens
