import ModernArch.SimpleCNN.Effects

/-!
# Dense layers

`op_fc` produces four outputs at a time; a last group that does not fit in the output range
computes and stores two lanes only.
-/

namespace ModernArch.SimpleCNN
open Framework Vdev
set_option linter.unusedSectionVars false

variable {N F : Type} [Field F] [FloatModel F] [LinearOrder F] [DecidableEq N]

/-- Lanes of the group at `outIndex` that are loaded and stored. -/
def LiveLane (outEnd outIndex : Int) (k : Fin 4) : Prop := k.val < 2 ∨ outIndex + 4 ≤ outEnd

instance (outEnd outIndex : Int) (k : Fin 4) : Decidable (LiveLane outEnd outIndex k) := by
  unfold LiveLane; infer_instance

/-- `in.getPtr()[inIndex]` as a value. -/
def inputAt (h : Heap N F) (inMem : Memory N) (inIndex : Int) : F :=
  (h ((inMem.addr 0 0 0 0).add inIndex)).toFloat

def fcSum (input : Int → F) (weight : Tensor F) (inDataLength outIndex : Int) : F :=
  ((steps 0 inDataLength 1).map fun inIndex => input inIndex * weight inIndex outIndex 0 0).sum

/-- The output before the rectifier. -/
def fcLogit (input : Int → F) (weight bias : Tensor F) (inDataLength outIndex : Int) : F :=
  fcSum input weight inDataLength outIndex + bias outIndex 0 0 0

def fcValue (input : Int → F) (weight bias : Tensor F) (inDataLength outIndex : Int) : F :=
  max (fcLogit input weight bias inDataLength outIndex) 0

variable {fr : OpFrame N F} {inMem outMem weight bias : Memory N}
  {inDataLength outEnd outIndex : Int}

/-- The reads of one output group. -/
structure FcReads (fr : OpFrame N F) (inMem weight bias : Memory N)
    (inDataLength outEnd outIndex : Int) : Prop where
  call : fr.allowed (.getPtr inMem 0 0 0 0)
  input : ∀ inIndex ∈ steps 0 inDataLength 1, (inMem.addr 0 0 0 0).add inIndex ∈ fr.reads ∧
    fr.allowed (.load ((inMem.addr 0 0 0 0).add inIndex))
  weight : ∀ inIndex ∈ steps 0 inDataLength 1, ∀ k : Fin 4, LiveLane outEnd outIndex k →
    ReadsAt fr weight inIndex (outIndex + (k : Nat)) 0 0
  bias : ∀ k : Fin 4, LiveLane outEnd outIndex k →
    ReadsAt fr bias (outIndex + (k : Nat)) 0 0 0

private theorem footprint_loadUnless {tail : Prop} [Decidable tail] {c : Exec N F F} {a : F}
    (h : ¬ tail → Footprint fr ∅ c a) :
    Footprint fr ∅ (loadUnless tail c) (if tail then 0 else a) := by
  unfold loadUnless
  split
  · exact Footprint.pure 0
  · rename_i hn
    exact h hn

/-- Four loads of which the last two may be masked, as lanes indexed by output. -/
theorem footprint_loadMasked (outEnd outIndex : Int) {c : Fin 4 → Exec N F F} {f : Fin 4 → F}
    (h : ∀ k, LiveLane outEnd outIndex k → Footprint fr ∅ (c k) (f k)) :
    Footprint fr ∅ (loadLanes (c 0) (c 1) (loadUnless (outIndex + 4 > outEnd) (c 2))
      (loadUnless (outIndex + 4 > outEnd) (c 3)))
      ⟨fun k => if LiveLane outEnd outIndex k then f k else 0⟩ := by
  have hlow (k : Fin 4) (hk : k.val < 2) : LiveLane outEnd outIndex k := Or.inl hk
  have hhigh (k : Fin 4) (hk : ¬ k.val < 2) :
      (if LiveLane outEnd outIndex k then f k else 0) =
        if outIndex + 4 > outEnd then 0 else f k := by
    by_cases ht : outIndex + 4 > outEnd
    · rw [if_pos ht, if_neg]
      intro hl
      rcases hl with hl | hl
      · exact hk hl
      · omega
    · have hlive : LiveLane outEnd outIndex k := Or.inr (by omega)
      rw [if_neg ht, if_pos hlive]
  have hmask (k : Fin 4) (hk : ¬ k.val < 2) :
      Footprint fr ∅ (loadUnless (outIndex + 4 > outEnd) (c k))
        (if LiveLane outEnd outIndex k then f k else 0) := by
    rw [hhigh k hk]
    apply footprint_loadUnless
    intro ht
    exact h k (Or.inr (by omega))
  apply footprint_loadLanes
  · rw [if_pos (hlow 0 (by decide))]
    exact h 0 (hlow 0 (by decide))
  · rw [if_pos (hlow 1 (by decide))]
    exact h 1 (hlow 1 (by decide))
  · exact hmask 2 (by decide)
  · exact hmask 3 (by decide)

private theorem footprint_fcMac (u : Simd F) {inIndex : Int}
    (hr : FcReads fr inMem weight bias inDataLength outEnd outIndex)
    (hi : inIndex ∈ steps 0 inDataLength 1) (acc : Data F × Nat) :
    let i : Data F := ⟨fun _ => inputAt fr.initial inMem inIndex⟩
    let w : Data F := ⟨fun k => if LiveLane outEnd outIndex k then
      weight.value fr.initial inIndex (outIndex + (k : Nat)) 0 0 else 0⟩
    Footprint fr ∅ (fcMac u inMem weight outIndex outEnd inIndex acc)
      ((u.mac acc.1 i w).1, acc.2 + (u.mac acc.1 i w).2) := by
  intro i w
  have hin : Footprint fr ∅ (do load ((← getPtr inMem).add inIndex) : Exec N F F)
      (inputAt fr.initial inMem inIndex) :=
    (footprint_getPtr hr.call).bind_read (footprint_load (hr.input inIndex hi).1
      (hr.input inIndex hi).2)
  have hil := footprint_loadLanes (f := i.data) hin hin hin hin
  have hwl := footprint_loadMasked outEnd outIndex
    (c := fun k : Fin 4 => (loadAt weight inIndex (outIndex + (k : Nat)) : Exec N F F))
    (fun k hk => footprint_loadAt (hr.weight inIndex hi k hk))
  have hzero : outIndex + ((0 : Fin 4) : Nat) = outIndex := by simp
  rw [hzero] at hwl
  exact hil.bind_read (hwl.bind_read (Footprint.pure _))

/-- The cells of one output group. -/
def fcCells (outMem : Memory N) (outEnd outIndex : Int) : Set (Ptr N) :=
  {p | ∃ k : Fin 4, LiveLane outEnd outIndex k ∧ p = outMem.addr (outIndex + (k : Nat)) 0 0 0}

private theorem footprint_storeMasked {f : Fin 4 → F} {d : Data F}
    (h : ∀ k : Fin 4, LiveLane outEnd outIndex k →
      WritesAt fr outMem (outIndex + (k : Nat)) 0 0 0 (f k))
    (hd : ∀ k, LiveLane outEnd outIndex k → d.data k = f k) :
    Footprint fr (fcCells outMem outEnd outIndex) (storeMasked outMem outEnd outIndex d) () := by
  have hl0 : LiveLane outEnd outIndex 0 := Or.inl (by decide)
  have hl1 : LiveLane outEnd outIndex 1 := Or.inl (by decide)
  have h0 : WritesAt fr outMem outIndex 0 0 0 (f 0) := by simpa using h 0 hl0
  have h1 : WritesAt fr outMem (outIndex + 1) 0 0 0 (f 1) := h 1 hl1
  by_cases hfit : outIndex + 4 ≤ outEnd
  · have hlive (k : Fin 4) : LiveLane outEnd outIndex k := Or.inr hfit
    have h2 : WritesAt fr outMem (outIndex + 2) 0 0 0 (f 2) := h 2 (hlive 2)
    have h3 : WritesAt fr outMem (outIndex + 3) 0 0 0 (f 3) := h 3 (hlive 3)
    have hseq : Footprint fr ({outMem.addr outIndex 0 0 0} ∪ ({outMem.addr (outIndex + 1) 0 0 0} ∪
        ({outMem.addr (outIndex + 2) 0 0 0} ∪ {outMem.addr (outIndex + 3) 0 0 0})))
        (storeMasked outMem outEnd outIndex d) () := by
      unfold storeMasked
      rw [if_pos hfit]
      apply (footprint_storeAt h0 (hd 0 hl0)).bind h0.disjoint
      apply (footprint_storeAt h1 (hd 1 hl1)).bind h1.disjoint
      apply (footprint_storeAt h2 (hd 2 (hlive 2))).bind h2.disjoint
      exact footprint_storeAt h3 (hd 3 (hlive 3))
    apply hseq.congr _ rfl
    ext p
    simp only [fcCells, hlive, true_and, Set.mem_union, Set.mem_singleton_iff, Set.mem_ofPred_eq,
      Fin.exists_fin_succ]
    simp
  · have hseq : Footprint fr ({outMem.addr outIndex 0 0 0} ∪ {outMem.addr (outIndex + 1) 0 0 0})
        (storeMasked outMem outEnd outIndex d) () := by
      unfold storeMasked
      rw [if_neg hfit]
      apply (footprint_storeAt h0 (hd 0 hl0)).bind h0.disjoint
      exact (footprint_storeAt h1 (hd 1 hl1)).bind_return h1.disjoint rfl
    apply hseq.congr _ rfl
    ext p
    simp only [fcCells, LiveLane, hfit, or_false, Set.mem_union, Set.mem_singleton_iff,
      Set.mem_ofPred_eq, Fin.exists_fin_succ]
    simp

private theorem disjoint_fcCells {v : Fin 4 → F} (h : ∀ k : Fin 4, LiveLane outEnd outIndex k →
    WritesAt fr outMem (outIndex + (k : Nat)) 0 0 0 (v k)) :
    Disjoint (fcCells outMem outEnd outIndex) fr.reads := by
  rw [Set.disjoint_left]
  intro p hp
  obtain ⟨k, hk, rfl⟩ := hp
  exact (h k hk).unread

private theorem footprint_fcGroup (u : Simd F) (hu : u.Exact)
    (hr : FcReads fr inMem weight bias inDataLength outEnd outIndex)
    (hw : ∀ k : Fin 4, LiveLane outEnd outIndex k → WritesAt fr outMem (outIndex + (k : Nat)) 0 0 0
      (fcValue (inputAt fr.initial inMem) (weight.value fr.initial) (bias.value fr.initial) inDataLength (outIndex + (k : Nat)))) (cycles : Nat) :
    ∃ c, Footprint fr (fcCells outMem outEnd outIndex)
      (fcGroup u inMem outMem weight bias inDataLength outEnd outIndex cycles) c := by
  have hacc := Footprint.forEach_read (fun inIndex hi acc => footprint_fcMac u hr hi acc)
    (Data.ofLanes 0 0 0 0, cycles)
  have hb := footprint_loadMasked outEnd outIndex
    (c := fun k : Fin 4 => (loadAt bias (outIndex + (k : Nat)) : Exec N F F))
    (fun k hk => footprint_loadAt (hr.bias k hk))
  have hzero : outIndex + ((0 : Fin 4) : Nat) = outIndex := by simp
  rw [hzero] at hb
  refine ⟨_, hacc.bind_read (hb.bind_read
    ((footprint_storeMasked hw ?_).bind_return (disjoint_fcCells hw) rfl))⟩
  intro k hk
  rw [hu.relu, hu.add]
  simp only [relu, add, if_pos hk, fcValue, fcLogit]
  congr 2
  rw [← zero_add (fcSum _ _ _ _), fcSum]
  refine foldl_lane_sum k (fun acc inIndex hi => ?_) _ (by fin_cases k <;> rfl)
  simp only [hu.mac, mac, if_pos hk]

/-- Indices that the groups over an output range store. -/
def FcIndex (outRange : Range) (x y z w : Int) : Prop :=
  (∃ o ∈ steps outRange.begin outRange.end_ 4, ∃ k : Fin 4, LiveLane outRange.end_ o k ∧
    x = o + (k : Nat)) ∧ y = 0 ∧ z = 0 ∧ w = 0

/-- Unless one output is left for the last group, the groups store inside the range. -/
theorem FcIndex.mem {r : Range} {x y z w : Int} (h : FcIndex r x y z w)
    (hmod : (r.end_ - r.begin) % 4 ≠ 1 ∨ r.end_ ≤ r.begin) : x ∈ r ∧ y = 0 ∧ z = 0 ∧ w = 0 := by
  obtain ⟨⟨o, ho, k, hk, hx⟩, hrest⟩ := h
  obtain ⟨j, hj, hlt⟩ := (mem_steps (by decide)).mp ho
  have hlane := k.isLt
  have hmem : r.begin ≤ x ∧ x < r.end_ := by
    cases hk with
    | inl hk => omega
    | inr hk => omega
  exact ⟨hmem, hrest⟩

/-- When three outputs are left for the last group, it misses the third. -/
theorem FcIndex.ne_last {r : Range} {x y z w : Int} (h : FcIndex r x y z w)
    (hmod : (r.end_ - r.begin) % 4 = 3) : x ≠ r.end_ - 1 := by
  obtain ⟨⟨o, ho, k, hk, hx⟩, hrest⟩ := h
  obtain ⟨j, hj, hlt⟩ := (mem_steps (by decide)).mp ho
  have hlane := k.isLt
  cases hk with
  | inl hk => omega
  | inr hk => omega

theorem fcIndex_iff_mem {r : Range} {x y z w : Int} (hn : (r.end_ - r.begin) % 2 = 0) :
    FcIndex r x y z w ↔ x ∈ r ∧ y = 0 ∧ z = 0 ∧ w = 0 := by
  constructor
  · intro h
    exact h.mem (by omega)
  · intro h
    obtain ⟨⟨hlow, hhigh⟩, hrest⟩ := h
    have hstep : r.begin + (x - r.begin) / 4 * 4 ∈ steps r.begin r.end_ 4 :=
      (mem_steps (by decide)).mpr ⟨((x - r.begin) / 4).toNat, by omega, by omega⟩
    refine ⟨⟨_, hstep, ⟨((x - r.begin) % 4).toNat, by omega⟩, ?_, by simp only; omega⟩, hrest⟩
    by_cases hfit : r.begin + (x - r.begin) / 4 * 4 + 4 ≤ r.end_
    · exact Or.inr hfit
    · apply Or.inl
      simp only
      omega

theorem fcIndex_iff {n x y z w : Int} (hn : n % 2 = 0) :
    FcIndex ⟨0, n⟩ x y z w ↔ (0 ≤ x ∧ x < n) ∧ y = 0 ∧ z = 0 ∧ w = 0 :=
  fcIndex_iff_mem (by rwa [sub_zero])

private theorem cellsAt_fcIndex (outMem : Memory N) (outRange : Range) :
    (⋃ o ∈ steps outRange.begin outRange.end_ 4, fcCells outMem outRange.end_ o) =
      cellsAt outMem (FcIndex outRange) := by
  ext p
  simp only [Set.mem_iUnion, fcCells, cellsAt, Set.mem_ofPred_eq, FcIndex, exists_prop]
  constructor
  · rintro ⟨o, ho, k, hk, rfl⟩
    exact ⟨_, 0, 0, 0, ⟨⟨o, ho, k, hk, rfl⟩, rfl, rfl, rfl⟩, rfl⟩
  · rintro ⟨x, y, z, w, ⟨⟨o, ho, k, hk, rfl⟩, rfl, rfl, rfl⟩, rfl⟩
    exact ⟨o, ho, k, hk, rfl⟩

/-- `op_fc` whose accesses are in range writes the rectified dense layer. -/
theorem fc_produces (u : Simd F) (hu : u.Exact) {outRange : Range} {reads : Set (Ptr N)}
    (m : Machine (Ptr N) (Word F) (Access N)) (hd : Disjoint outMem.region reads)
    (hreads : inMem.region ⊆ reads ∧ weight.region ⊆ reads ∧ bias.region ⊆ reads)
    (hin : inMem.InShape 0 0 0 0)
    (hlen : ∀ i ∈ steps 0 inDataLength 1, (inMem.addr 0 0 0 0).add i ∈ inMem.region)
    (hout : ∀ x y z w, FcIndex outRange x y z w → outMem.InShape x y z w ∧
      bias.InShape x 0 0 0 ∧ ∀ i ∈ steps 0 inDataLength 1, weight.InShape i x 0 0) :
    Produces outMem reads (FcIndex outRange)
      (fun x _ _ _ => .float (fcValue (inputAt m.heap inMem) (weight.value m.heap) (bias.value m.heap) inDataLength x)) m
      ((fcLoops u inMem outMem weight bias inDataLength outRange).run m).2 := by
  apply Produces.of_footprint (fun x y z w hs => (hout x y z w hs).1)
  intro v hv
  have hdisj := disjoint_cellsAt hd fun x y z w hs => (hout x y z w hs).1
  rw [← cellsAt_fcIndex] at hdisj ⊢
  simp only [Set.disjoint_iUnion_left] at hdisj
  refine Footprint.forEach_some (fun o ho cycles => ?_) hdisj 0
  have hidx (k : Fin 4) (hk : LiveLane outRange.end_ o k) :
      FcIndex outRange (o + (k : Nat)) 0 0 0 := ⟨⟨o, ho, k, hk, rfl⟩, rfl, rfl, rfl⟩
  apply footprint_fcGroup u hu
  · constructor
    · exact hin
    · intro i hi
      exact ⟨hreads.1 (hlen i hi), hreads.1 (hlen i hi)⟩
    · intro i hi k hk
      exact readsAt_opFrame hreads.2.1 ((hout _ _ _ _ (hidx k hk)).2.2 i hi)
    · intro k hk
      exact readsAt_opFrame hreads.2.2 (hout _ _ _ _ (hidx k hk)).2.1
  · intro k hk
    exact writesAt_opFrame hd (hout _ _ _ _ (hidx k hk)).1 (hv _ _ _ _ (hidx k hk))

end ModernArch.SimpleCNN
