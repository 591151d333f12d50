import ModernArch.SimpleCNN.Core

/-!
# What the core loops compute

Each loop nest writes one tensor: the value at every index of the output range is a closed
form of the memory before the call, and every other cell is left alone.
-/

namespace ModernArch.SimpleCNN
open Framework Vdev
set_option linter.unusedSectionVars false

variable {N F : Type} [Field F] [FloatModel F]

abbrev OpFrame (N F : Type) := Frame (Ptr N) (Word F) (Access N)

/-- Reading `m` at an index is within the frame. -/
structure ReadsAt (fr : OpFrame N F) (m : Memory N) (x y z w : Int) : Prop where
  cell : m.addr x y z w ∈ fr.reads
  call : fr.allowed (.getPtr m x y z w)
  load : fr.allowed (.load (m.addr x y z w))

/-- Storing `v` into `m` at an index is within the frame. -/
structure WritesAt (fr : OpFrame N F) (m : Memory N) (x y z w : Int) (v : F) : Prop where
  cell : fr.final (m.addr x y z w) = .float v
  unread : m.addr x y z w ∉ fr.reads
  call : fr.allowed (.getPtr m x y z w)
  store : fr.allowed (.store (m.addr x y z w))

section Primitives

variable {fr : OpFrame N F}

theorem footprint_getPtr {m : Memory N} {x y z w : Int} (h : fr.allowed (.getPtr m x y z w)) :
    Footprint fr ∅ (getPtr m x y z w : Exec N F (Ptr N)) (m.addr x y z w) :=
  (Footprint.emit h).bind_read (Footprint.pure _)

theorem footprint_load {p : Ptr N} (hp : p ∈ fr.reads) (hl : fr.allowed (.load p)) :
    Footprint fr ∅ (load p : Exec N F F) (fr.initial p).toFloat :=
  (Footprint.emit hl).bind_read ((Footprint.peek hp).bind_read (Footprint.pure _))

theorem footprint_loadByte {p : Ptr N} {k : Nat} (hp : p.wordOf k ∈ fr.reads)
    (hl : fr.allowed (.load (p.wordOf k))) :
    Footprint fr ∅ (loadByte p k : Exec N F UInt8) (readByte fr.initial p k) :=
  (Footprint.emit hl).bind_read ((Footprint.peek hp).bind_read (Footprint.pure _))

theorem footprint_loadAt {m : Memory N} {x y z w : Int} (h : ReadsAt fr m x y z w) :
    Footprint fr ∅ (loadAt m x y z w : Exec N F F) (m.value fr.initial x y z w) :=
  (footprint_getPtr h.call).bind_read (footprint_load h.cell h.load)

theorem footprint_loadLanes {a b c d : Exec N F F} {f : Fin 4 → F}
    (ha : Footprint fr ∅ a (f 0)) (hb : Footprint fr ∅ b (f 1))
    (hc : Footprint fr ∅ c (f 2)) (hd : Footprint fr ∅ d (f 3)) :
    Footprint fr ∅ (loadLanes a b c d) ⟨f⟩ := by
  have hlanes : (⟨f⟩ : Data F) = .ofLanes (f 0) (f 1) (f 2) (f 3) := by
    unfold Data.ofLanes
    congr 1
    funext k
    fin_cases k <;> rfl
  rw [hlanes]
  exact ha.bind_read (hb.bind_read (hc.bind_read (hd.bind_read (Footprint.pure _))))

variable [DecidableEq N]

theorem footprint_storeWord {p : Ptr N} {w : Word F} (hw : fr.final p = w)
    (hs : fr.allowed (.store p)) :
    Footprint fr {p} (storeWord p w : Exec N F Unit) () :=
  (Footprint.emit hs).bind_read (Footprint.poke hw)

theorem footprint_storeAt {m : Memory N} {x y z w : Int} {v v' : F}
    (h : WritesAt fr m x y z w v) (hv : v' = v) :
    Footprint fr {m.addr x y z w} (storeAt m x y z w v' : Exec N F Unit) () := by
  subst hv
  exact (footprint_getPtr h.call).bind_read (footprint_storeWord h.cell h.store)

theorem storeByte_run (p : Ptr N) (k : Nat) (b : UInt8)
    (m : Machine (Ptr N) (Word F) (Access N)) :
    (storeByte p k b).run m =
      ((), ⟨writeByte m.heap p k b, .store (p.wordOf k) :: m.trace⟩) := rfl

theorem WritesAt.disjoint {m : Memory N} {x y z w : Int} {v : F}
    (h : WritesAt fr m x y z w v) : Disjoint {m.addr x y z w} fr.reads :=
  Set.disjoint_singleton_left.mpr h.unread

theorem footprint_storeLanes {m : Memory N} {x y z : Int} {f : Fin 4 → F} {d : Data F}
    (h : ∀ k : Fin 4, WritesAt fr m x y (z + (k : Nat)) 0 (f k)) (hd : d.data = f) :
    Footprint fr (Set.range fun k : Fin 4 => m.addr x y (z + (k : Nat)) 0)
      (storeLanes m x y z d) () := by
  subst hd
  have h0 : WritesAt fr m x y z 0 (d.data 0) := by simpa using h 0
  have h1 : WritesAt fr m x y (z + 1) 0 (d.data 1) := h 1
  have h2 : WritesAt fr m x y (z + 2) 0 (d.data 2) := h 2
  have h3 : WritesAt fr m x y (z + 3) 0 (d.data 3) := h 3
  have hseq : Footprint fr ({m.addr x y z 0} ∪ ({m.addr x y (z + 1) 0} ∪
      ({m.addr x y (z + 2) 0} ∪ {m.addr x y (z + 3) 0}))) (storeLanes m x y z d) () := by
    apply (footprint_storeAt h0 rfl).bind h0.disjoint
    apply (footprint_storeAt h1 rfl).bind h1.disjoint
    apply (footprint_storeAt h2 rfl).bind h2.disjoint
    exact footprint_storeAt h3 rfl
  apply hseq.congr _ rfl
  ext p
  simp only [Set.mem_union, Set.mem_singleton_iff, Set.mem_range, Fin.exists_fin_succ]
  simp [eq_comm]

end Primitives

section Lanes

variable {κ : Type}

/-- A lane of a folded accumulator is the fold of that lane. -/
theorem foldl_lane {l : List κ} {g : Data F × Nat → κ → Data F × Nat} {op : F → κ → F}
    (k : Fin 4) (hg : ∀ acc, ∀ i ∈ l, (g acc i).1.data k = op (acc.1.data k) i)
    (acc : Data F × Nat) {a : F} (ha : acc.1.data k = a) :
    (l.foldl g acc).1.data k = l.foldl op a := by
  subst ha
  induction l generalizing acc with
  | nil => rfl
  | cons i l ih =>
      rw [List.foldl_cons, ih (fun acc j hj => hg acc j (List.mem_cons_of_mem i hj)),
        hg acc i List.mem_cons_self, List.foldl_cons]

theorem foldl_lane_sum {l : List κ} {g : Data F × Nat → κ → Data F × Nat} {f : κ → F} (k : Fin 4)
    (hg : ∀ acc, ∀ i ∈ l, (g acc i).1.data k = acc.1.data k + f i)
    (acc : Data F × Nat) {a : F} (ha : acc.1.data k = a) :
    (l.foldl g acc).1.data k = a + (l.map f).sum := by
  have hfold : (l.foldl g acc).1.data k = l.foldl (fun a i => a + f i) a :=
    foldl_lane k hg acc ha
  rw [hfold]
  clear hfold hg ha
  induction l generalizing a with
  | nil => simp
  | cons i l ih => rw [List.foldl_cons, ih, List.map_cons, List.sum_cons, add_assoc]

end Lanes

/-- Accesses that index inside the shapes, load from `reads` and store to `writes`. -/
def OpAccess (reads writes : Set (Ptr N)) : Access N → Prop
  | .getPtr m x y z w => m.InShape x y z w
  | .load p => p ∈ reads
  | .store p => p ∈ writes

/-- From `m` to `m'` exactly the cells of `outMem` at the indices of `S` change, to `f`. -/
structure Produces (outMem : Memory N) (reads : Set (Ptr N)) (S : Int → Int → Int → Int → Prop)
    (f : Int → Int → Int → Int → Word F)
    (m m' : Machine (Ptr N) (Word F) (Access N)) : Prop where
  value : ∀ x y z w, S x y z w → m'.heap (outMem.addr x y z w) = f x y z w
  frame : ∀ p, (∀ x y z w, S x y z w → p ≠ outMem.addr x y z w) → m'.heap p = m.heap p
  trace : Extends (OpAccess reads outMem.region) m m'

/-- The weaker statement that keeps only the bounds of the view. -/
structure Writes (outMem : Memory N) (reads : Set (Ptr N)) (S : Int → Int → Int → Int → Prop)
    (f : Int → Int → Int → Int → Word F)
    (m m' : Machine (Ptr N) (Word F) (Access N)) : Prop where
  value : ∀ x y z w, S x y z w → m'.heap (outMem.addr x y z w) = f x y z w
  frame : ∀ p, p ∉ outMem.region → m'.heap p = m.heap p
  trace : Extends (OpAccess reads outMem.region) m m'

theorem Produces.writes {outMem : Memory N} {reads : Set (Ptr N)}
    {S : Int → Int → Int → Int → Prop} {f : Int → Int → Int → Int → Word F}
    {m m' : Machine (Ptr N) (Word F) (Access N)} (h : Produces outMem reads S f m m')
    (hS : ∀ x y z w, S x y z w → outMem.InShape x y z w) : Writes outMem reads S f m m' := by
  apply Writes.mk h.value _ h.trace
  intro p hp
  apply h.frame
  intro x y z w hs he
  exact hp (he ▸ Memory.addr_mem_region (hS x y z w hs))

/-- From `m` to `m'` the view `outMem` receives `t` and nothing else changes. -/
structure Computes (outMem : Memory N) (reads : Set (Ptr N)) (t : Tensor F)
    (m m' : Machine (Ptr N) (Word F) (Access N)) : Prop where
  holds : outMem.Holds m'.heap t
  frame : ∀ p, p ∉ outMem.region → m'.heap p = m.heap p
  trace : Extends (OpAccess reads outMem.region) m m'

theorem OpAccess.mono {r r' w w' : Set (Ptr N)} (hr : r ⊆ r') (hw : w ⊆ w') (e : Access N)
    (h : OpAccess r w e) : OpAccess r' w' e := by
  cases e with
  | getPtr m x y z w => exact h
  | load p => exact hr h
  | store p => exact hw h

theorem Produces.computes {outMem : Memory N} {reads : Set (Ptr N)}
    {S : Int → Int → Int → Int → Prop} {t : Tensor F}
    {m m' : Machine (Ptr N) (Word F) (Access N)}
    (h : Produces outMem reads S (fun x y z w => .float (t x y z w)) m m')
    (hS : ∀ x y z w, S x y z w ↔ outMem.InShape x y z w) : Computes outMem reads t m m' := by
  have hw := h.writes fun x y z w hs => (hS x y z w).mp hs
  apply Computes.mk _ hw.frame hw.trace
  intro x y z w hin
  exact congrArg Word.toFloat (hw.value x y z w ((hS x y z w).mpr hin))

theorem Computes.congr {outMem : Memory N} {reads : Set (Ptr N)} {t t' : Tensor F}
    {m m' : Machine (Ptr N) (Word F) (Access N)} (h : Computes outMem reads t m m')
    (ht : ∀ x y z w, outMem.InShape x y z w → t x y z w = t' x y z w) :
    Computes outMem reads t' m m' :=
  ⟨fun x y z w hin => (h.holds x y z w hin).trans (ht x y z w hin), h.frame, h.trace⟩

def opFrame (reads : Set (Ptr N)) (h v : Heap N F) (outMem : Memory N) : OpFrame N F :=
  ⟨reads, h, v, OpAccess reads outMem.region⟩

def cellsAt (outMem : Memory N) (S : Int → Int → Int → Int → Prop) : Set (Ptr N) :=
  {p | ∃ x y z w, S x y z w ∧ p = outMem.addr x y z w}

theorem Produces.of_footprint {α : Type} {c : Exec N F α} {outMem : Memory N}
    {reads : Set (Ptr N)} {S : Int → Int → Int → Int → Prop}
    {f : Int → Int → Int → Int → Word F} {m : Machine (Ptr N) (Word F) (Access N)}
    (hS : ∀ x y z w, S x y z w → outMem.InShape x y z w)
    (h : ∀ v, (∀ x y z w, S x y z w → v (outMem.addr x y z w) = f x y z w) →
      ∃ a, Footprint (opFrame reads m.heap v outMem) (cellsAt outMem S) c a) :
    Produces outMem reads S f m (c.run m).2 := by
  classical
  have hinj : Set.InjOn (fun t : Int × Int × Int × Int => outMem.addr t.1 t.2.1 t.2.2.1 t.2.2.2)
      {t | S t.1 t.2.1 t.2.2.1 t.2.2.2} := by
    intro t ht t' ht' he
    have hidx := Memory.addr_inj (hS _ _ _ _ ht) (hS _ _ _ _ ht') he
    exact Prod.ext hidx.1 (Prod.ext hidx.2.1 (Prod.ext hidx.2.2.1 hidx.2.2.2))
  obtain ⟨v, hv⟩ := exists_prescribed hinj fun t => f t.1 t.2.1 t.2.2.1 t.2.2.2
  have hv' : ∀ x y z w, S x y z w → v (outMem.addr x y z w) = f x y z w :=
    fun x y z w hs => hv (x, y, z, w) hs
  obtain ⟨a, hfoot⟩ := h v hv'
  obtain ⟨-, hheap, htrace⟩ := hfoot m fun _ _ => rfl
  constructor
  · intro x y z w hs
    have hmem : outMem.addr x y z w ∈ cellsAt outMem S := ⟨x, y, z, w, hs, rfl⟩
    rw [hheap, Set.piecewise_eq_of_mem _ _ _ hmem]
    exact hv' x y z w hs
  · intro p hp
    rw [hheap, Set.piecewise_eq_of_notMem]
    intro hmem
    obtain ⟨x, y, z, w, hs, he⟩ := hmem
    exact hp x y z w hs he
  · exact htrace

theorem readsAt_opFrame {reads : Set (Ptr N)} {h v : Heap N F} {outMem m : Memory N}
    {x y z w : Int} (hm : m.region ⊆ reads) (hin : m.InShape x y z w) :
    ReadsAt (opFrame reads h v outMem) m x y z w :=
  ⟨hm (Memory.addr_mem_region hin), hin, hm (Memory.addr_mem_region hin)⟩

theorem writesAt_opFrame {reads : Set (Ptr N)} {h v : Heap N F} {outMem : Memory N}
    {x y z w : Int} {a : F} (hd : Disjoint outMem.region reads) (hin : outMem.InShape x y z w)
    (hv : v (outMem.addr x y z w) = .float a) :
    WritesAt (opFrame reads h v outMem) outMem x y z w a :=
  ⟨hv, Set.disjoint_left.mp hd (Memory.addr_mem_region hin), hin, Memory.addr_mem_region hin⟩

theorem disjoint_cellsAt {reads : Set (Ptr N)} {outMem : Memory N}
    {S : Int → Int → Int → Int → Prop} (hd : Disjoint outMem.region reads)
    (hS : ∀ x y z w, S x y z w → outMem.InShape x y z w) :
    Disjoint (cellsAt outMem S) reads := by
  apply hd.mono_left
  intro p hp
  obtain ⟨x, y, z, w, hs, rfl⟩ := hp
  exact Memory.addr_mem_region (hS x y z w hs)

variable [LinearOrder F]

/-- Simd arithmetic that may count cycles its own way but computes the exact values. -/
structure Simd.Exact (u : Simd F) : Prop where
  mac : ∀ s i w, (u.mac s i w).1 = (SimpleCNN.mac s i w).1
  add : ∀ s b, (u.add s b).1 = (SimpleCNN.add s b).1
  relu : ∀ s, (u.relu s).1 = (SimpleCNN.relu s).1

theorem denseSimd_exact : (denseSimd : Simd F).Exact :=
  ⟨fun _ _ _ => rfl, fun _ _ => rfl, fun _ => rfl⟩

private theorem flagZero_iff (w : Data F) : flagZero w = true ↔ ∀ k, w.data k = 0 := by
  simp [flagZero, List.all_eq_true]

private theorem sparseMac_fst (s i w : Data F) : (sparseMac s i w).1 = (mac s i w).1 := by
  unfold sparseMac
  split
  · rename_i h
    have hz := (flagZero_iff w).mp h
    simp [mac, hz]
  · rfl

theorem sparseSimd_exact : (sparseSimd : Simd F).Exact :=
  ⟨sparseMac_fst, fun _ _ => rfl, fun _ => rfl⟩

end ModernArch.SimpleCNN
