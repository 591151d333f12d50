import Mathlib

/-!
# Counted loops in a state monad

A `for` loop is a monadic fold over the list of values its index takes. The rules below
carry a relation through two runs of the same loop, or through a family of them.
-/

namespace ModernArch.Framework

/-- Index values of `for (int i = lo; i < hi; i += st)`, for a positive step. -/
def steps (lo hi st : Int) : List Int :=
  (List.range ((hi - lo + st - 1) / st).toNat).map fun k : Nat => lo + st * (k : Int)

theorem mem_steps {lo hi st i : Int} (hst : 0 < st) :
    i ∈ steps lo hi st ↔ ∃ k : Nat, i = lo + st * k ∧ i < hi := by
  have hcount (k : Nat) : k < ((hi - lo + st - 1) / st).toNat ↔ lo + st * k < hi := by
    rw [Int.lt_toNat, ← Int.add_one_le_iff, Int.le_ediv_iff_mul_le hst, add_mul, one_mul,
      mul_comm (k : Int)]
    omega
  simp only [steps, List.mem_map, List.mem_range, hcount]
  constructor
  · rintro ⟨k, hk, rfl⟩
    exact ⟨k, rfl, hk⟩
  · rintro ⟨k, rfl, hk⟩
    exact ⟨k, hk, rfl⟩

theorem mem_steps_one {lo hi i : Int} : i ∈ steps lo hi 1 ↔ lo ≤ i ∧ i < hi := by
  rw [mem_steps one_pos]
  constructor
  · rintro ⟨k, rfl, hk⟩
    omega
  · rintro ⟨hlo, hhi⟩
    exact ⟨(i - lo).toNat, by omega, hhi⟩

/-- The last value of an index comes at the end. -/
theorem steps_snoc {lo i st hi : Int} {k : Nat} (hk : i = lo + st * k) (hlo : i < hi)
    (hhi : hi ≤ i + st) : steps lo hi st = steps lo i st ++ [i] := by
  have hst : 0 < st := by omega
  have hcount (d : Int) (q : Int) (h0 : 0 ≤ d) (hd : d < st) : (d + st * q) / st = q := by
    rw [Int.add_mul_ediv_left _ _ hst.ne', Int.ediv_eq_zero_of_lt h0 hd, zero_add]
  have hlast : ((hi - lo + st - 1) / st).toNat = k + 1 := by
    have hq := hcount (hi - i - 1) (k + 1) (by omega) (by omega)
    rw [show hi - i - 1 + st * (k + 1) = hi - lo + st - 1 by rw [hk]; ring] at hq
    omega
  have hinit : ((i - lo + st - 1) / st).toNat = k := by
    have hq := hcount (st - 1) k (by omega) (by omega)
    rw [show st - 1 + st * (k : Int) = i - lo + st - 1 by rw [hk]; ring] at hq
    omega
  rw [steps, steps, hlast, hinit, List.range_succ, List.map_append, hk]
  rfl

theorem length_steps (lo hi st : Int) :
    (steps lo hi st).length = ((hi - lo + st - 1) / st).toNat := by
  simp [steps]

private theorem nodup_steps {lo hi st : Int} (hst : 0 < st) : (steps lo hi st).Nodup := by
  apply List.Nodup.map _ List.nodup_range
  intro a b hab
  have hmul : st * (a : Int) = st * b := by simpa using hab
  exact Int.natCast_inj.mp (mul_left_cancel₀ hst.ne' hmul)

/-- A sum over the values of an index that moves by one. -/
theorem sum_steps_one {M : Type} [AddCommMonoid M] (lo hi : Int) (f : Int → M) :
    ((steps lo hi 1).map f).sum = ∑ i ∈ Finset.Ico lo hi, f i := by
  rw [← List.sum_toFinset f (nodup_steps one_pos)]
  apply Finset.sum_congr _ fun _ _ => rfl
  ext i
  rw [List.mem_toFinset, mem_steps_one, Finset.mem_Ico]

variable {σ τ ι α β : Type}

/-- `for (i : l)` with a loop-carried value, in a state monad. -/
def forEach (l : List ι) (a : α) (body : ι → α → StateM σ α) : StateM σ α :=
  l.foldlM (fun a i => body i a) a

@[simp] theorem forEach_nil (a : α) (body : ι → α → StateM σ α) :
    forEach [] a body = pure a := rfl

@[simp] theorem forEach_cons (i : ι) (l : List ι) (a : α) (body : ι → α → StateM σ α) :
    forEach (i :: l) a body = body i a >>= fun b => forEach l b body := by
  simp [forEach]

theorem forEach_snoc (l : List ι) (i : ι) (a : α) (body : ι → α → StateM σ α) :
    forEach (l ++ [i]) a body = forEach l a body >>= body i := by
  simp [forEach]

theorem run_bind_eq (c : StateM σ α) (f : α → StateM σ β) (s : σ) :
    (c >>= f).run s = (f (c.run s).1).run (c.run s).2 := rfl

theorem run_pure_eq (a : α) (s : σ) : (pure a : StateM σ α).run s = (a, s) := rfl

/-- A family of runs of one loop with different bodies. -/
theorem forEach_family {κ : Type} (R : (κ → α) → (κ → σ) → Prop) (l : List ι)
    (body : κ → ι → α → StateM σ α)
    (hstep : ∀ i ∈ l, ∀ a s, R a s →
      R (fun k => ((body k i (a k)).run (s k)).1) (fun k => ((body k i (a k)).run (s k)).2))
    (a : κ → α) (s : κ → σ) (h : R a s) :
    R (fun k => ((forEach l (a k) (body k)).run (s k)).1)
      (fun k => ((forEach l (a k) (body k)).run (s k)).2) := by
  induction l generalizing a s with
  | nil => exact h
  | cons i l ih =>
      simp only [forEach_cons, run_bind_eq]
      have hhead := hstep i List.mem_cons_self a s h
      exact ih (fun j hj => hstep j (List.mem_cons_of_mem i hj)) _ _ hhead

/-- A measure that every iteration raises by a known amount. -/
theorem forEach_sum (I : σ → Prop) (μ : α → Nat) (f : ι → Nat) (l : List ι)
    (body : ι → α → StateM σ α)
    (hstep : ∀ i ∈ l, ∀ a s, I s →
      μ ((body i a).run s).1 = μ a + f i ∧ I ((body i a).run s).2)
    (a : α) (s : σ) (h : I s) :
    μ ((forEach l a body).run s).1 = μ a + (l.map f).sum ∧ I ((forEach l a body).run s).2 := by
  induction l generalizing a s with
  | nil => exact ⟨rfl, h⟩
  | cons i l ih =>
      simp only [forEach_cons, run_bind_eq]
      obtain ⟨hcost, hI⟩ := hstep i List.mem_cons_self a s h
      obtain ⟨hrest, hend⟩ :=
        ih (fun j hj => hstep j (List.mem_cons_of_mem i hj)) ((body i a).run s).1 _ hI
      refine ⟨?_, hend⟩
      rw [hrest, hcost, List.map_cons, List.sum_cons, Nat.add_assoc]

theorem forEach_const (μ : α → Nat) (k : Nat) (l : List ι) (body : ι → α → StateM σ α)
    (hstep : ∀ i a s, μ ((body i a).run s).1 = μ a + k) (a : α) (s : σ) :
    μ ((forEach l a body).run s).1 = μ a + l.length * k := by
  induction l generalizing a s with
  | nil =>
      rw [List.length_nil, Nat.zero_mul]
      rfl
  | cons i l ih =>
      rw [forEach_cons, run_bind_eq, ih, hstep, List.length_cons]
      ring

/-- `for (int i = 0; i < n; i++)` over a pure state. -/
def forRange (n : Nat) (s : σ) (body : Nat → σ → σ) : σ :=
  (List.range n).foldl (fun s i => body i s) s

@[simp] theorem forRange_zero (s : σ) (body : Nat → σ → σ) : forRange 0 s body = s := rfl

theorem forRange_succ (n : Nat) (s : σ) (body : Nat → σ → σ) :
    forRange (n + 1) s body = body n (forRange n s body) := by
  simp [forRange, List.range_succ]

attribute [irreducible] forRange

/-- Two loops kept in step; the relation may speak of the iterations done. -/
theorem forRange_rel (R : Nat → σ → τ → Prop) (n : Nat) (body : Nat → σ → σ) (body' : Nat → τ → τ)
    (hstep : ∀ i < n, ∀ s t, R i s t → R (i + 1) (body i s) (body' i t)) (s : σ) (t : τ)
    (h : R 0 s t) : R n (forRange n s body) (forRange n t body') := by
  induction n with
  | zero => rwa [forRange_zero, forRange_zero]
  | succ n ih =>
      rw [forRange_succ, forRange_succ]
      exact hstep n n.lt_succ_self _ _ (ih fun i hi => hstep i (Nat.lt_succ_of_lt hi))

theorem forRange_inv (I : Nat → σ → Prop) (n : Nat) (body : Nat → σ → σ)
    (hstep : ∀ i < n, ∀ s, I i s → I (i + 1) (body i s)) (s : σ) (h : I 0 s) :
    I n (forRange n s body) :=
  forRange_rel (fun i s (_ : Unit) => I i s) n body (fun _ _ => ()) (fun i hi s _ => hstep i hi s)
    s () h

/-- Two nested loops over a grid: iteration `i, j` establishes a fact about its cell that the
iterations of other cells keep. -/
theorem forRange_grid (R : σ → τ → Prop) (P : Nat → Nat → σ → τ → Prop) (n m : Nat)
    (body : Nat → Nat → σ → σ) (body' : Nat → Nat → τ → τ)
    (hstep : ∀ i < n, ∀ j < m, ∀ s t, R s t →
      R (body i j s) (body' i j t) ∧ P i j (body i j s) (body' i j t))
    (hkeep : ∀ i j i' j' s t, ¬ (i' = i ∧ j' = j) → P i' j' s t →
      P i' j' (body i j s) (body' i j t))
    (s : σ) (t : τ) (h : R s t) :
    let s' := forRange n s fun i s => forRange m s (body i)
    let t' := forRange n t fun i t => forRange m t (body' i)
    R s' t' ∧ ∀ i < n, ∀ j < m, P i j s' t' := by
  apply forRange_rel (fun k s t => R s t ∧ ∀ i < k, ∀ j < m, P i j s t)
  · intro i hi s t hs
    have hrow := forRange_rel
      (fun k s t => R s t ∧ (∀ i' < i, ∀ j < m, P i' j s t) ∧ ∀ j < k, P i j s t) m
      (body i) (body' i)
      (fun j hj s t hI => by
        obtain ⟨hR, hrows, hcols⟩ := hI
        obtain ⟨hR', hP⟩ := hstep i hi j hj s t hR
        refine ⟨hR', ?_, ?_⟩
        · intro i' hi' j' hj'
          exact hkeep i j i' j' s t (by omega) (hrows i' hi' j' hj')
        · intro j' hj'
          by_cases heq : j' = j
          · exact heq ▸ hP
          · exact hkeep i j i j' s t (by omega) (hcols j' (by omega)))
      s t ⟨hs.1, hs.2, fun j hj => absurd hj (Nat.not_lt_zero j)⟩
    refine ⟨hrow.1, ?_⟩
    intro i' hi' j hj
    by_cases heq : i' = i
    · exact heq ▸ hrow.2.2 j hj
    · exact hrow.2.1 i' (by omega) j hj
  · exact ⟨h, fun i hi => absurd hi (Nat.not_lt_zero i)⟩

theorem forRange_add [AddCommMonoid α] (n : Nat) (a : α) (f : Nat → α) :
    forRange n a (fun i v => v + f i) = a + ∑ i ∈ Finset.range n, f i := by
  induction n with
  | zero => simp
  | succ n ih => rw [forRange_succ, ih, Finset.sum_range_succ, add_assoc]

/-- Whatever the state, a value that is returned satisfies `P`. -/
def Yields (c : StateT σ Option α) (P : α → Prop) : Prop :=
  ∀ s r, c.run s = some r → P r.1

theorem Yields.pure {P : α → Prop} {a : α} (h : P a) :
    Yields (Pure.pure a : StateT σ Option α) P := by
  intro s r hr
  cases hr
  exact h

theorem Yields.any (c : StateT σ Option α) : Yields c fun _ => True :=
  fun _ _ _ => trivial

theorem Yields.bind {c : StateT σ Option α} {f : α → StateT σ Option β} {P : α → Prop}
    {Q : β → Prop} (hc : Yields c P) (hf : ∀ a, P a → Yields (f a) Q) : Yields (c >>= f) Q := by
  intro s r hr
  rw [StateT.run_bind] at hr
  obtain ⟨⟨a, s'⟩, hca, hfa⟩ := Option.bind_eq_some_iff.mp hr
  exact hf a (hc s _ hca) s' r hfa

theorem Yields.after {c : StateT σ Option α} {f : α → StateT σ Option β} {Q : β → Prop}
    (hf : ∀ a, Yields (f a) Q) : Yields (c >>= f) Q :=
  (Yields.any c).bind fun a _ => hf a

/-- A sequence of fallible actions: an invariant that may speak of the actions left to do
makes all of them succeed. -/
theorem mapM_run (I : List ι → σ → Prop) (P : ι → β → Prop) (f : ι → StateT σ Option β)
    (hstep : ∀ i l s, I (i :: l) s → ∃ b s', (f i).run s = some (b, s') ∧ P i b ∧ I l s')
    (l : List ι) (s : σ) (h : I l s) :
    ∃ bs s', (l.mapM f).run s = some (bs, s') ∧ List.Forall₂ P l bs ∧ I [] s' := by
  induction l generalizing s with
  | nil => exact ⟨[], s, rfl, .nil, h⟩
  | cons i l ih =>
      obtain ⟨b, s₁, hrun, hP, hI⟩ := hstep i l s h
      obtain ⟨bs, s₂, hrest, hPs, hend⟩ := ih s₁ hI
      refine ⟨b :: bs, s₂, ?_, .cons hP hPs, hend⟩
      simp [List.mapM_cons, hrun, hrest]

/-- Results that a functional specification determines. -/
theorem forall₂_map_eq {P : ι → β → Prop} {l : List ι} {bs : List β} {f : ι → α} {g : β → α}
    (h : List.Forall₂ P l bs) (hP : ∀ i b, P i b → g b = f i) : bs.map g = l.map f := by
  induction h with
  | nil => rfl
  | cons hab _ ih => rw [List.map_cons, List.map_cons, hP _ _ hab, ih]

theorem forall₂_mem_right {P : ι → β → Prop} {l : List ι} {bs : List β}
    (h : List.Forall₂ P l bs) : ∀ b ∈ bs, ∃ i, P i b := by
  induction h with
  | nil => simp
  | cons hab _ ih =>
      intro b hb
      cases List.mem_cons.mp hb with
      | inl heq => exact ⟨_, heq ▸ hab⟩
      | inr hmem => exact ih b hmem

end ModernArch.Framework
