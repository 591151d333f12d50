import ModernArch.SimpleCNN.Effects

/-!
# Convolution and pooling

The loop nests over groups of four output channels.
-/

namespace ModernArch.SimpleCNN
open Framework Vdev
set_option linter.unusedSectionVars false

variable {N F : Type} [Field F] [FloatModel F] [LinearOrder F] [DecidableEq N]

section Groups

variable {fr : OpFrame N F} {outMem : Memory N}

/-- Output indices of a channel-group loop nest. -/
def GroupIndex (outChannelRange outXRange outYRange : Range) (x y z w : Int) : Prop :=
  x ∈ steps outXRange.begin outXRange.end_ 1 ∧ y ∈ steps outYRange.begin outYRange.end_ 1 ∧
    (∃ c ∈ steps outChannelRange.begin outChannelRange.end_ 4, ∃ k : Fin 4, z = c + (k : Nat)) ∧
    w = 0

/-- Whole groups of channels cover the range, wherever it begins. -/
theorem groupIndex_iff_mem {rc rx ry : Range} {x y z w : Int}
    (hn : (rc.end_ - rc.begin) % 4 = 0) :
    GroupIndex rc rx ry x y z w ↔ x ∈ rx ∧ y ∈ ry ∧ z ∈ rc ∧ w = 0 := by
  simp only [GroupIndex, mem_steps_one, mem_steps (show (0 : Int) < 4 by decide)]
  have hz : (∃ c, (∃ k : Nat, c = rc.begin + 4 * (k : Int) ∧ c < rc.end_) ∧
      ∃ k : Fin 4, z = c + (k : Nat)) ↔ rc.begin ≤ z ∧ z < rc.end_ := by
    constructor
    · intro h
      obtain ⟨c, ⟨j, hj, hc⟩, k, hk⟩ := h
      have := k.isLt
      omega
    · intro h
      refine ⟨rc.begin + (z - rc.begin) / 4 * 4, ⟨((z - rc.begin) / 4).toNat, by omega, by omega⟩,
        ⟨((z - rc.begin) % 4).toNat, by omega⟩, ?_⟩
      simp only
      omega
  rw [hz]
  rfl

theorem groupIndex_iff {n a b x y z w : Int} (hn : n % 4 = 0) :
    GroupIndex ⟨0, n⟩ ⟨0, a⟩ ⟨0, b⟩ x y z w ↔
      (0 ≤ x ∧ x < a) ∧ (0 ≤ y ∧ y < b) ∧ (0 ≤ z ∧ z < n) ∧ w = 0 :=
  groupIndex_iff_mem (by rwa [sub_zero])

/-- The cells a channel-group loop nest writes, collected loop by loop. -/
theorem cellsAt_groupIndex (outMem : Memory N) (outChannelRange outXRange outYRange : Range) :
    (⋃ x ∈ steps outXRange.begin outXRange.end_ 1,
      ⋃ y ∈ steps outYRange.begin outYRange.end_ 1,
        ⋃ c ∈ steps outChannelRange.begin outChannelRange.end_ 4,
          Set.range fun k : Fin 4 => outMem.addr x y (c + (k : Nat)) 0) =
      cellsAt outMem (GroupIndex outChannelRange outXRange outYRange) := by
  ext p
  simp only [Set.mem_iUnion, Set.mem_range, cellsAt, Set.mem_ofPred_eq, GroupIndex, exists_prop]
  constructor
  · rintro ⟨x, hx, y, hy, c, hc, k, rfl⟩
    exact ⟨x, y, _, 0, ⟨hx, hy, ⟨c, hc, k, rfl⟩, rfl⟩, rfl⟩
  · rintro ⟨x, y, z, w, ⟨hx, hy, ⟨c, hc, k, rfl⟩, rfl⟩, rfl⟩
    exact ⟨x, hx, y, hy, c, hc, k, rfl⟩

/-- A loop nest over channel groups, from the footprint of one group. -/
theorem footprint_groupLoops {outChannelRange outXRange outYRange : Range}
    {body : Int → Int → Int → Nat → Exec N F Nat}
    (hd : Disjoint (cellsAt outMem (GroupIndex outChannelRange outXRange outYRange)) fr.reads)
    (hbody : ∀ x ∈ steps outXRange.begin outXRange.end_ 1,
      ∀ y ∈ steps outYRange.begin outYRange.end_ 1,
        ∀ c ∈ steps outChannelRange.begin outChannelRange.end_ 4, ∀ cycles, ∃ n,
          Footprint fr (Set.range fun k : Fin 4 => outMem.addr x y (c + (k : Nat)) 0)
            (body x y c cycles) n) (cycles : Nat) :
    ∃ n, Footprint fr (cellsAt outMem (GroupIndex outChannelRange outXRange outYRange))
      (forEach (steps outXRange.begin outXRange.end_ 1) cycles fun x cycles =>
        forEach (steps outYRange.begin outYRange.end_ 1) cycles fun y cycles =>
          forEach (steps outChannelRange.begin outChannelRange.end_ 4) cycles fun c cycles =>
            body x y c cycles) n := by
  rw [← cellsAt_groupIndex] at hd ⊢
  simp only [Set.disjoint_iUnion_left] at hd
  apply Footprint.forEach_some
  · intro x hx cycles
    apply Footprint.forEach_some
    · intro y hy cycles
      exact Footprint.forEach_some (hbody x hx y hy) (hd x hx y hy) cycles
    · intro y hy
      simp only [Set.disjoint_iUnion_left]
      exact hd x hx y hy
  · intro x hx
    simp only [Set.disjoint_iUnion_left]
    exact hd x hx

end Groups

section Conv

/-- The products that meet at one output position and channel. -/
def convSum (input weight : Tensor F)
    (inChannelNum filterSize stride outX outY outChannel : Int) : F :=
  ((steps 0 filterSize 1).map fun wX => ((steps 0 filterSize 1).map fun wY =>
    ((steps 0 inChannelNum 1).map fun inChannel =>
      input (outX * stride + wX) (outY * stride + wY) inChannel 0 *
        weight wX wY inChannel outChannel).sum).sum).sum

def convValue (input weight bias : Tensor F)
    (inChannelNum filterSize stride outX outY outChannel : Int) : F :=
  max (convSum input weight inChannelNum filterSize stride outX outY outChannel +
    bias outChannel 0 0 0) 0

variable {fr : OpFrame N F} {inMem outMem weight bias : Memory N}
  {inChannelNum filterSize stride outX outY outChannel : Int}

/-- The reads of one channel group. -/
structure ConvReads (fr : OpFrame N F) (inMem weight bias : Memory N)
    (inChannelNum filterSize stride outX outY outChannel : Int) : Prop where
  input : ∀ wX ∈ steps 0 filterSize 1, ∀ wY ∈ steps 0 filterSize 1,
    ∀ inChannel ∈ steps 0 inChannelNum 1,
      ReadsAt fr inMem (outX * stride + wX) (outY * stride + wY) inChannel 0
  weight : ∀ wX ∈ steps 0 filterSize 1, ∀ wY ∈ steps 0 filterSize 1,
    ∀ inChannel ∈ steps 0 inChannelNum 1, ∀ k : Fin 4,
      ReadsAt fr weight wX wY inChannel (outChannel + (k : Nat))
  bias : ∀ k : Fin 4, ReadsAt fr bias (outChannel + (k : Nat)) 0 0 0

private theorem footprint_convMac (u : Simd F) {wX wY inChannel : Int}
    (hi : ReadsAt fr inMem (outX * stride + wX) (outY * stride + wY) inChannel 0)
    (hw : ∀ k : Fin 4, ReadsAt fr weight wX wY inChannel (outChannel + (k : Nat)))
    (acc : Data F × Nat) :
    let i : Data F :=
      ⟨fun _ => inMem.value fr.initial (outX * stride + wX) (outY * stride + wY) inChannel 0⟩
    let w : Data F :=
      ⟨fun k => weight.value fr.initial wX wY inChannel (outChannel + (k : Nat))⟩
    Footprint fr ∅ (convMac u inMem weight outX outY outChannel stride wX wY inChannel acc)
      ((u.mac acc.1 i w).1, acc.2 + (u.mac acc.1 i w).2) := by
  intro i w
  have h0 : ReadsAt fr weight wX wY inChannel outChannel := by simpa using hw 0
  have hwl := footprint_loadLanes (f := w.data) (by simpa [w] using footprint_loadAt h0)
    (footprint_loadAt (hw 1)) (footprint_loadAt (hw 2)) (footprint_loadAt (hw 3))
  have hil := footprint_loadLanes (f := i.data) (footprint_loadAt hi) (footprint_loadAt hi)
    (footprint_loadAt hi) (footprint_loadAt hi)
  exact hwl.bind_read (hil.bind_read (Footprint.pure _))

private theorem footprint_convAcc (u : Simd F) (hu : u.Exact)
    (hr : ConvReads fr inMem weight bias inChannelNum filterSize stride outX outY outChannel)
    (cycles : Nat) :
    ∃ acc : Data F × Nat,
      Footprint fr ∅ (forEach (steps 0 filterSize 1) (Data.ofLanes 0 0 0 0, cycles) fun wX acc =>
        forEach (steps 0 filterSize 1) acc fun wY acc =>
          forEach (steps 0 inChannelNum 1) acc
            (convMac u inMem weight outX outY outChannel stride wX wY)) acc ∧
      ∀ k : Fin 4, acc.1.data k = convSum (inMem.value fr.initial) (weight.value fr.initial)
        inChannelNum filterSize stride
        outX outY (outChannel + (k : Nat)) := by
  refine ⟨_, Footprint.forEach_read (fun wX hwX acc => Footprint.forEach_read
    (fun wY hwY acc => Footprint.forEach_read (fun inChannel hic acc =>
      footprint_convMac u (hr.input wX hwX wY hwY inChannel hic)
        (hr.weight wX hwX wY hwY inChannel hic) acc) acc) acc) _, ?_⟩
  intro k
  rw [← zero_add (convSum _ _ _ _ _ _ _ _), convSum]
  refine foldl_lane_sum k (fun acc wX hwX => ?_) _ (by fin_cases k <;> rfl)
  refine foldl_lane_sum k (fun acc wY hwY => ?_) _ rfl
  refine foldl_lane_sum k (fun acc inChannel hic => ?_) _ rfl
  simp only [hu.mac]
  rfl

private theorem footprint_convGroup (u : Simd F) (hu : u.Exact)
    (hr : ConvReads fr inMem weight bias inChannelNum filterSize stride outX outY outChannel)
    (hw : ∀ k : Fin 4, WritesAt fr outMem outX outY (outChannel + (k : Nat)) 0
      (convValue (inMem.value fr.initial) (weight.value fr.initial) (bias.value fr.initial)
      inChannelNum filterSize stride outX outY
        (outChannel + (k : Nat)))) (cycles : Nat) :
    ∃ c, Footprint fr (Set.range fun k : Fin 4 => outMem.addr outX outY (outChannel + (k : Nat)) 0)
      (convGroup u inMem outMem weight bias inChannelNum filterSize stride outX outY outChannel
        cycles) c := by
  obtain ⟨acc, hacc, hlane⟩ := footprint_convAcc u hu hr cycles
  have h0 : ReadsAt fr bias outChannel 0 0 0 := by simpa using hr.bias 0
  let b : Data F := ⟨fun k => bias.value fr.initial (outChannel + (k : Nat)) 0 0 0⟩
  have hb := footprint_loadLanes (f := b.data) (by simpa [b] using footprint_loadAt h0)
    (footprint_loadAt (hr.bias 1)) (footprint_loadAt (hr.bias 2)) (footprint_loadAt (hr.bias 3))
  have hdata : (u.relu (u.add acc.1 b).1).1.data = fun k : Fin 4 =>
      convValue (inMem.value fr.initial) (weight.value fr.initial) (bias.value fr.initial)
      inChannelNum filterSize stride outX outY
        (outChannel + (k : Nat)) := by
    funext k
    rw [hu.relu, hu.add]
    simp only [relu, add, hlane k]
    rfl
  have hdisj : Disjoint (Set.range fun k : Fin 4 =>
      outMem.addr outX outY (outChannel + (k : Nat)) 0) fr.reads := by
    rw [Set.disjoint_left]
    rintro p ⟨k, rfl⟩
    exact (hw k).unread
  refine ⟨acc.2 + (u.add acc.1 b).2 + (u.relu (u.add acc.1 b).1).2,
    hacc.bind_read (hb.bind_read ?_)⟩
  exact (footprint_storeLanes hw hdata).bind_return hdisj rfl

/-- `op_conv` whose accesses are in range writes the rectified convolution. -/
theorem conv_produces (u : Simd F) (hu : u.Exact) {outChannelRange outXRange outYRange : Range}
    {reads : Set (Ptr N)} (m : Machine (Ptr N) (Word F) (Access N))
    (hd : Disjoint outMem.region reads)
    (hreads : inMem.region ⊆ reads ∧ weight.region ⊆ reads ∧ bias.region ⊆ reads)
    (hout : ∀ x y z w, GroupIndex outChannelRange outXRange outYRange x y z w →
      outMem.InShape x y z w ∧ bias.InShape z 0 0 0 ∧
        ∀ wX ∈ steps 0 filterSize 1, ∀ wY ∈ steps 0 filterSize 1,
          ∀ inChannel ∈ steps 0 inChannelNum 1, weight.InShape wX wY inChannel z ∧
            inMem.InShape (x * stride + wX) (y * stride + wY) inChannel 0) :
    Produces outMem reads (GroupIndex outChannelRange outXRange outYRange)
      (fun x y z _ => .float (convValue (inMem.value m.heap) (weight.value m.heap) (bias.value m.heap)
      inChannelNum filterSize stride
        x y z)) m
      ((convLoops u inMem outMem weight bias inChannelNum outChannelRange outXRange outYRange
        filterSize stride).run m).2 := by
  apply Produces.of_footprint (fun x y z w hs => (hout x y z w hs).1)
  intro v hv
  apply footprint_groupLoops (disjoint_cellsAt hd fun x y z w hs => (hout x y z w hs).1)
  intro x hx y hy c hc cycles
  have hidx (k : Fin 4) : GroupIndex outChannelRange outXRange outYRange x y (c + (k : Nat)) 0 :=
    ⟨hx, hy, ⟨c, hc, k, rfl⟩, rfl⟩
  apply footprint_convGroup u hu
  · constructor
    · intro wX hwX wY hwY inChannel hic
      exact readsAt_opFrame hreads.1 ((hout _ _ _ _ (hidx 0)).2.2 wX hwX wY hwY inChannel hic).2
    · intro wX hwX wY hwY inChannel hic k
      exact readsAt_opFrame hreads.2.1 ((hout _ _ _ _ (hidx k)).2.2 wX hwX wY hwY inChannel hic).1
    · intro k
      exact readsAt_opFrame hreads.2.2 (hout _ _ _ _ (hidx k)).2.1
  · intro k
    exact writesAt_opFrame hd (hout _ _ _ _ (hidx k)).1 (hv _ _ _ _ (hidx k))

end Conv

section Pool

variable {fr : OpFrame N F} {inMem outMem : Memory N} {filterSize stride : Int}

/-- The inputs under the filter at one output position. -/
def poolWindow (input : Tensor F) (filterSize stride outX outY z : Int) : Set F :=
  {v | ∃ inX ∈ (⟨outX * stride, outX * stride + filterSize⟩ : Range),
    ∃ inY ∈ (⟨outY * stride, outY * stride + filterSize⟩ : Range), v = input inX inY z 0}

/-- The running maximum over a window, from the start value of the code. -/
def poolValue (input : Tensor F) (filterSize stride outX outY z : Int) : F :=
  (steps (outX * stride) (outX * stride + filterSize) 1).foldl (fun acc inX =>
    (steps (outY * stride) (outY * stride + filterSize) 1).foldl (fun acc inY =>
      max acc (input inX inY z 0)) acc) floatMin

/-- The running maximum is the greatest of the window and the start value. -/
theorem poolValue_greatest (input : Tensor F) (filterSize stride outX outY z : Int) :
    IsGreatest (insert floatMin (poolWindow input filterSize stride outX outY z))
      (poolValue input filterSize stride outX outY z) := by
  have hwindow : poolWindow input filterSize stride outX outY z =
      ⋃ inX ∈ steps (outX * stride) (outX * stride + filterSize) 1,
        ⋃ inY ∈ steps (outY * stride) (outY * stride + filterSize) 1, {input inX inY z 0} := by
    ext v
    simp only [Set.mem_iUnion, Set.mem_singleton_iff, mem_steps_one, exists_prop]
    rfl
  rw [hwindow]
  apply isGreatest_foldl
  intro acc inX _
  apply isGreatest_foldl
  intro acc inY _
  exact isGreatest_pair

private theorem footprint_poolMax {z inX inY : Int}
    (hi : ∀ k : Fin 4, ReadsAt fr inMem inX inY (z + (k : Nat)) 0) (acc : Data F × Nat) :
    let i : Data F := ⟨fun k => inMem.value fr.initial inX inY (z + (k : Nat)) 0⟩
    Footprint fr ∅ (poolMax inMem z inX inY acc) ((maxData acc.1 i).1, acc.2 + 1) := by
  intro i
  have h0 : ReadsAt fr inMem inX inY z 0 := by simpa using hi 0
  have hil := footprint_loadLanes (f := i.data) (by simpa [i] using footprint_loadAt h0)
    (footprint_loadAt (hi 1)) (footprint_loadAt (hi 2)) (footprint_loadAt (hi 3))
  exact hil.bind_read (Footprint.pure _)

private theorem footprint_poolGroup {outX outY z : Int}
    (hr : ∀ inX ∈ steps (outX * stride) (outX * stride + filterSize) 1,
      ∀ inY ∈ steps (outY * stride) (outY * stride + filterSize) 1, ∀ k : Fin 4,
        ReadsAt fr inMem inX inY (z + (k : Nat)) 0)
    (hw : ∀ k : Fin 4, WritesAt fr outMem outX outY (z + (k : Nat)) 0
      (poolValue (inMem.value fr.initial) filterSize stride outX outY (z + (k : Nat)))) (cycles : Nat) :
    ∃ c, Footprint fr (Set.range fun k : Fin 4 => outMem.addr outX outY (z + (k : Nat)) 0)
      (poolGroup inMem outMem filterSize stride outX outY z cycles) c := by
  have hacc := Footprint.forEach_read (fun inX hx acc => Footprint.forEach_read
    (fun inY hy acc => footprint_poolMax (hr inX hx inY hy) acc) acc)
    (Data.ofLanes floatMin floatMin floatMin floatMin, cycles)
  have hdisj : Disjoint (Set.range fun k : Fin 4 => outMem.addr outX outY (z + (k : Nat)) 0)
      fr.reads := by
    rw [Set.disjoint_left]
    rintro p ⟨k, rfl⟩
    exact (hw k).unread
  refine ⟨_, hacc.bind_read ((footprint_storeLanes hw ?_).bind_return hdisj rfl)⟩
  funext k
  rw [poolValue]
  refine foldl_lane k (fun acc inX hX => ?_) _ (by fin_cases k <;> rfl)
  refine foldl_lane k (fun acc inY hY => ?_) _ rfl
  rfl

/-- `op_pool` whose accesses are in range writes the running maxima. -/
theorem pool_produces {outChannelRange outXRange outYRange : Range} {reads : Set (Ptr N)}
    (m : Machine (Ptr N) (Word F) (Access N)) (hd : Disjoint outMem.region reads)
    (hreads : inMem.region ⊆ reads)
    (hout : ∀ x y z w, GroupIndex outChannelRange outXRange outYRange x y z w →
      outMem.InShape x y z w ∧ ∀ inX ∈ steps (x * stride) (x * stride + filterSize) 1,
        ∀ inY ∈ steps (y * stride) (y * stride + filterSize) 1, inMem.InShape inX inY z 0) :
    Produces outMem reads (GroupIndex outChannelRange outXRange outYRange)
      (fun x y z _ => .float (poolValue (inMem.value m.heap) filterSize stride x y z)) m
      ((poolLoops inMem outMem outChannelRange outXRange outYRange filterSize stride).run m).2 := by
  apply Produces.of_footprint (fun x y z w hs => (hout x y z w hs).1)
  intro v hv
  apply footprint_groupLoops (disjoint_cellsAt hd fun x y z w hs => (hout x y z w hs).1)
  intro x hx y hy c hc cycles
  have hidx (k : Fin 4) : GroupIndex outChannelRange outXRange outYRange x y (c + (k : Nat)) 0 :=
    ⟨hx, hy, ⟨c, hc, k, rfl⟩, rfl⟩
  apply footprint_poolGroup
  · intro inX hX inY hY k
    exact readsAt_opFrame hreads ((hout _ _ _ _ (hidx k)).2 inX hX inY hY)
  · intro k
    exact writesAt_opFrame hd (hout _ _ _ _ (hidx k)).1 (hv _ _ _ _ (hidx k))

end Pool

end ModernArch.SimpleCNN
