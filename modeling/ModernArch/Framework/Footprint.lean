import ModernArch.Framework.Loop

/-!
# Footprints

A computation over a heap of cells has a footprint when, on every heap that agrees with a
fixed one on the cells it reads, it returns a fixed value, sets a fixed set of cells to
prescribed contents, and leaves every other cell alone. Footprints compose through
sequencing and loops as long as nothing read is written.
-/

namespace ModernArch.Framework

/-- A heap of cells and the events of the run so far, newest first. -/
structure Machine (ι β ε : Type) where
  heap : ι → β
  trace : List ε

abbrev Exec (ι β ε : Type) := StateM (Machine ι β ε)

variable {ι β ε α γ κ τ : Type}

namespace Exec

def emit (e : ε) : Exec ι β ε Unit := fun m => ((), { m with trace := e :: m.trace })

def peek (p : ι) : Exec ι β ε β := fun m => (m.heap p, m)

def poke [DecidableEq ι] (p : ι) (b : β) : Exec ι β ε Unit :=
  fun m => ((), { m with heap := Function.update m.heap p b })

end Exec

/-- The events added between two states all satisfy `P`. -/
def Extends (P : ε → Prop) (m m' : Machine ι β ε) : Prop :=
  ∃ es, m'.trace = es ++ m.trace ∧ ∀ e ∈ es, P e

theorem Extends.refl (P : ε → Prop) (m : Machine ι β ε) : Extends P m m :=
  ⟨[], rfl, by simp⟩

theorem Extends.trans {P : ε → Prop} {m₁ m₂ m₃ : Machine ι β ε}
    (h₁ : Extends P m₁ m₂) (h₂ : Extends P m₂ m₃) : Extends P m₁ m₃ := by
  obtain ⟨es₁, ht₁, hP₁⟩ := h₁
  obtain ⟨es₂, ht₂, hP₂⟩ := h₂
  refine ⟨es₂ ++ es₁, by rw [ht₂, ht₁, List.append_assoc], ?_⟩
  intro e he
  rcases List.mem_append.mp he with he | he
  · exact hP₂ e he
  · exact hP₁ e he

theorem Extends.mono {P Q : ε → Prop} {m m' : Machine ι β ε} (h : Extends P m m')
    (hPQ : ∀ e, P e → Q e) : Extends Q m m' := by
  obtain ⟨es, ht, hP⟩ := h
  exact ⟨es, ht, fun e he => hPQ e (hP e he)⟩

/-- What a group of footprints shares: the cells read and their contents, the contents
prescribed for written cells, and the events allowed. -/
structure Frame (ι β ε : Type) where
  reads : Set ι
  initial : ι → β
  final : ι → β
  allowed : ε → Prop

open scoped Classical in
/-- Within `fr`, the computation `c` returns `a` and writes exactly the cells of `A`. -/
def Footprint (fr : Frame ι β ε) (A : Set ι) (c : Exec ι β ε α) (a : α) : Prop :=
  ∀ m, Set.EqOn m.heap fr.initial fr.reads →
    (c.run m).1 = a ∧ (c.run m).2.heap = A.piecewise fr.final m.heap ∧
      Extends fr.allowed m (c.run m).2

namespace Footprint

variable {fr : Frame ι β ε} {A B : Set ι} {c : Exec ι β ε α} {a : α}

theorem pure (a : α) : Footprint fr ∅ (Pure.pure a : Exec ι β ε α) a := by
  classical
  intro m _
  exact ⟨rfl, by rw [Set.piecewise_empty]; rfl, Extends.refl _ _⟩

theorem emit {e : ε} (he : fr.allowed e) :
    Footprint fr ∅ (Exec.emit e : Exec ι β ε Unit) () := by
  classical
  intro m _
  refine ⟨rfl, by rw [Set.piecewise_empty]; rfl, [e], rfl, ?_⟩
  intro e' he'
  rw [List.mem_singleton.mp he']
  exact he

theorem peek {p : ι} (hp : p ∈ fr.reads) :
    Footprint fr ∅ (Exec.peek p : Exec ι β ε β) (fr.initial p) := by
  classical
  intro m hm
  exact ⟨hm hp, by rw [Set.piecewise_empty]; rfl, Extends.refl _ _⟩

theorem poke [DecidableEq ι] {p : ι} {b : β} (hb : fr.final p = b) :
    Footprint fr {p} (Exec.poke p b : Exec ι β ε Unit) () := by
  classical
  intro m _
  refine ⟨rfl, ?_, Extends.refl _ _⟩
  change Function.update m.heap p b = _
  funext q
  by_cases hq : q = p
  · subst q
    simp [hb]
  · simp [hq]

/-- Sequencing: what is written first must not be read again. -/
theorem bind {k : α → Exec ι β ε γ} {b : γ} (hc : Footprint fr A c a)
    (hA : Disjoint A fr.reads) (hk : Footprint fr B (k a) b) :
    Footprint fr (A ∪ B) (c >>= k) b := by
  classical
  intro m hm
  obtain ⟨hval, hheap, htrace⟩ := hc m hm
  have hkeep : Set.EqOn (c.run m).2.heap fr.initial fr.reads := by
    intro p hp
    rw [hheap, Set.piecewise_eq_of_notMem _ _ _ (fun h => Set.disjoint_left.mp hA h hp)]
    exact hm hp
  obtain ⟨hval', hheap', htrace'⟩ := hk _ hkeep
  simp only [run_bind_eq, hval]
  refine ⟨hval', ?_, htrace.trans htrace'⟩
  rw [hheap', hheap]
  funext p
  by_cases hB : p ∈ B <;> by_cases hpA : p ∈ A <;> simp [Set.piecewise, hB, hpA]

theorem congr (hc : Footprint fr A c a) {b : α} (hAB : A = B) (hab : a = b) :
    Footprint fr B c b := hAB ▸ hab ▸ hc

/-- A first part that writes nothing leaves the footprint of the rest. -/
theorem bind_read {k : α → Exec ι β ε γ} {b : γ} (hc : Footprint fr ∅ c a)
    (hk : Footprint fr B (k a) b) : Footprint fr B (c >>= k) b :=
  (hc.bind (Set.empty_disjoint _) hk).congr (Set.empty_union B) rfl

/-- A last part that only returns leaves the footprint of what came before. -/
theorem bind_return {k : α → Exec ι β ε γ} {b : γ} (hc : Footprint fr A c a)
    (hA : Disjoint A fr.reads) (hk : k a = Pure.pure b) : Footprint fr A (c >>= k) b :=
  (hc.bind hA (hk ▸ Footprint.pure b)).congr (Set.union_empty A) rfl

/-- Loops: iterations that write outside what is read contribute their footprints. -/
theorem forEach {l : List κ} {body : κ → α → Exec ι β ε α} {g : α → κ → α} {A : κ → Set ι}
    (hbody : ∀ i ∈ l, ∀ a, Footprint fr (A i) (body i a) (g a i))
    (hA : ∀ i ∈ l, Disjoint (A i) fr.reads) (a : α) :
    Footprint fr (⋃ i ∈ l, A i) (Framework.forEach l a body) (l.foldl g a) := by
  induction l generalizing a with
  | nil => exact (Footprint.pure a).congr (by simp) rfl
  | cons i l ih =>
      rw [forEach_cons]
      have hrest := ih (fun j hj => hbody j (List.mem_cons_of_mem i hj))
        (fun j hj => hA j (List.mem_cons_of_mem i hj)) (g a i)
      have hhead := hbody i List.mem_cons_self a
      refine (hhead.bind (hA i List.mem_cons_self) hrest).congr ?_ rfl
      simp

theorem forEach_read {l : List κ} {body : κ → α → Exec ι β ε α} {g : α → κ → α}
    (hbody : ∀ i ∈ l, ∀ a, Footprint fr ∅ (body i a) (g a i)) (a : α) :
    Footprint fr ∅ (Framework.forEach l a body) (l.foldl g a) :=
  (Footprint.forEach (A := fun _ => ∅) hbody (fun _ _ => Set.empty_disjoint _) a).congr
    (by simp) rfl

/-- A reading loop whose reads are in range only under an invariant on the carried value. -/
theorem forEach_read_inv {l : List κ} {body : κ → α → Exec ι β ε α} {g : α → κ → α}
    (I : α → Prop) (hbody : ∀ i ∈ l, ∀ a, I a → Footprint fr ∅ (body i a) (g a i))
    (hI : ∀ i ∈ l, ∀ a, I a → I (g a i)) (a : α) (ha : I a) :
    Footprint fr ∅ (Framework.forEach l a body) (l.foldl g a) := by
  induction l generalizing a with
  | nil => exact Footprint.pure a
  | cons i l ih =>
      rw [forEach_cons]
      apply (hbody i List.mem_cons_self a ha).bind_read
      exact ih (fun j hj => hbody j (List.mem_cons_of_mem i hj))
        (fun j hj => hI j (List.mem_cons_of_mem i hj)) _ (hI i List.mem_cons_self a ha)

/-- A loop whose result is of no interest. -/
theorem forEach_some {l : List κ} {body : κ → α → Exec ι β ε α} {A : κ → Set ι}
    (hbody : ∀ i ∈ l, ∀ a, ∃ b, Footprint fr (A i) (body i a) b)
    (hA : ∀ i ∈ l, Disjoint (A i) fr.reads) (a : α) :
    ∃ b, Footprint fr (⋃ i ∈ l, A i) (Framework.forEach l a body) b := by
  induction l generalizing a with
  | nil => exact ⟨a, (Footprint.pure a).congr (by simp) rfl⟩
  | cons i l ih =>
      obtain ⟨b, hhead⟩ := hbody i List.mem_cons_self a
      obtain ⟨b', hrest⟩ := ih (fun j hj => hbody j (List.mem_cons_of_mem i hj))
        (fun j hj => hA j (List.mem_cons_of_mem i hj)) b
      refine ⟨b', ?_⟩
      rw [forEach_cons]
      exact (hhead.bind (hA i List.mem_cons_self) hrest).congr (by simp) rfl

end Footprint

/-- Cells indexed without collision can be prescribed any contents. -/
theorem exists_prescribed [Nonempty τ] {addr : τ → ι} {S : Set τ} (hinj : S.InjOn addr)
    (f : τ → β) : ∃ v : ι → β, ∀ t ∈ S, v (addr t) = f t :=
  ⟨fun p => f (Function.invFunOn addr S p),
    fun _ ht => congrArg f (hinj.leftInvOn_invFunOn ht)⟩

end ModernArch.Framework
