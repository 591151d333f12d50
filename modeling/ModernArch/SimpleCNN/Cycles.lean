import ModernArch.SimpleCNN.Sparse

/-!
# Cycle counts of the CNN chip

The loops charge by their ranges alone when every multiply accumulate costs a cycle. The sparse
loops save one cycle for each zero group of the weights they read.
-/

namespace ModernArch.SimpleCNN
open Framework Vdev
set_option linter.unusedSectionVars false

variable {N F : Type} [Field F] [FloatModel F] [LinearOrder F] [DecidableEq N]

/-- Iterations of `for (int i = lo; i < hi; i += st)`. -/
def tripCount (lo hi st : Int) : Nat := (steps lo hi st).length

def convCost (inChannelNum : Int) (outChannelRange outXRange outYRange : Range)
    (filterSize : Int) : Nat :=
  tripCount outXRange.begin outXRange.end_ 1 * (tripCount outYRange.begin outYRange.end_ 1 *
    (tripCount outChannelRange.begin outChannelRange.end_ 4 *
      (tripCount 0 filterSize 1 * (tripCount 0 filterSize 1 * tripCount 0 inChannelNum 1) + 2)))

def fcCost (inDataLength : Int) (outRange : Range) : Nat :=
  tripCount outRange.begin outRange.end_ 4 * (tripCount 0 inDataLength 1 + 2)

def poolCost (outChannelRange outXRange outYRange : Range) (filterSize : Int) : Nat :=
  tripCount outXRange.begin outXRange.end_ 1 * (tripCount outYRange.begin outYRange.end_ 1 *
    (tripCount outChannelRange.begin outChannelRange.end_ 4 *
      (tripCount 0 filterSize 1 * tripCount 0 filterSize 1)))

/-- A window moved to another start has as many iterations. -/
theorem tripCount_shift (a n : Int) : (steps a (a + n) 1).length = tripCount 0 n 1 := by
  rw [tripCount, length_steps, length_steps]
  congr 2
  ring

/-- Every call costs one cycle. -/
structure Simd.UnitCost (u : Simd F) : Prop where
  mac : ∀ s i w, (u.mac s i w).2 = 1
  add : ∀ s b, (u.add s b).2 = 1
  relu : ∀ s, (u.relu s).2 = 1

theorem denseSimd_unitCost : (denseSimd : Simd F).UnitCost :=
  ⟨fun _ _ _ => rfl, fun _ _ => rfl, fun _ => rfl⟩

section Cost

variable {u : Simd F} (hu : u.UnitCost) (inMem outMem weight bias : Memory N)

include hu

private theorem groupEnd_cost (bias : Exec N F (Data F)) (out : Data F → Exec N F Unit)
    (acc : Data F × Nat) (m : Machine (Ptr N) (Word F) (Access N)) :
    ((groupEnd u bias out acc).run m).1 = acc.2 + 2 := by
  simp only [groupEnd, run_bind_eq, run_pure_eq, hu.add, hu.relu]

private theorem convMac_cost (outX outY outChannel stride wX wY inChannel : Int)
    (acc : Data F × Nat) (m : Machine (Ptr N) (Word F) (Access N)) :
    ((convMac u inMem weight outX outY outChannel stride wX wY inChannel acc).run m).1.2 =
      acc.2 + 1 :=
  congrArg (acc.2 + ·) (hu.mac _ _ _)

private theorem convGroup_cost (inChannelNum filterSize stride outX outY outChannel : Int)
    (cycles : Nat) (m : Machine (Ptr N) (Word F) (Access N)) :
    ((convGroup u inMem outMem weight bias inChannelNum filterSize stride outX outY outChannel
      cycles).run m).1 = cycles +
        (tripCount 0 filterSize 1 * (tripCount 0 filterSize 1 * tripCount 0 inChannelNum 1) + 2) := by
  have hacc := forEach_const (fun a : Data F × Nat => a.2) _ (steps 0 filterSize 1)
    (fun wX acc => forEach (steps 0 filterSize 1) acc fun wY acc =>
      forEach (steps 0 inChannelNum 1) acc
        (convMac u inMem weight outX outY outChannel stride wX wY))
    (fun wX => forEach_const (fun a : Data F × Nat => a.2) _ _ _
      fun wY => forEach_const (fun a : Data F × Nat => a.2) _ _ _
        (convMac_cost hu inMem weight outX outY outChannel stride wX wY))
    (Data.ofLanes 0 0 0 0, cycles) m
  rw [convGroup_eq, run_bind_eq, groupEnd_cost hu, hacc, Nat.mul_one, Nat.add_assoc]
  rfl

theorem convLoops_cost (inChannelNum : Int) (outChannelRange outXRange outYRange : Range)
    (filterSize stride : Int) (m : Machine (Ptr N) (Word F) (Access N)) :
    ((convLoops u inMem outMem weight bias inChannelNum outChannelRange outXRange outYRange
      filterSize stride).run m).1 =
      convCost inChannelNum outChannelRange outXRange outYRange filterSize := by
  have hloops := forEach_const (fun c : Nat => c) _ (steps outXRange.begin outXRange.end_ 1) _
    (fun outX => forEach_const (fun c : Nat => c) _ (steps outYRange.begin outYRange.end_ 1) _
      fun outY => forEach_const (fun c : Nat => c) _
        (steps outChannelRange.begin outChannelRange.end_ 4) _
        (convGroup_cost hu inMem outMem weight bias inChannelNum filterSize stride outX outY))
    0 m
  exact hloops.trans (Nat.zero_add _)

private theorem fcMac_cost (outIndex outEnd inIndex : Int) (acc : Data F × Nat)
    (m : Machine (Ptr N) (Word F) (Access N)) :
    ((fcMac u inMem weight outIndex outEnd inIndex acc).run m).1.2 = acc.2 + 1 :=
  congrArg (acc.2 + ·) (hu.mac _ _ _)

private theorem fcGroup_cost (inDataLength outEnd outIndex : Int) (cycles : Nat)
    (m : Machine (Ptr N) (Word F) (Access N)) :
    ((fcGroup u inMem outMem weight bias inDataLength outEnd outIndex cycles).run m).1 =
      cycles + (tripCount 0 inDataLength 1 + 2) := by
  have hacc := forEach_const (fun a : Data F × Nat => a.2) _ (steps 0 inDataLength 1)
    (fcMac u inMem weight outIndex outEnd) (fcMac_cost hu inMem weight outIndex outEnd)
    (Data.ofLanes 0 0 0 0, cycles) m
  rw [fcGroup_eq, run_bind_eq, groupEnd_cost hu, hacc, Nat.mul_one, Nat.add_assoc]
  rfl

private theorem fcLoops_cost (inDataLength : Int) (outRange : Range)
    (m : Machine (Ptr N) (Word F) (Access N)) :
    ((fcLoops u inMem outMem weight bias inDataLength outRange).run m).1 =
      fcCost inDataLength outRange := by
  have hloops := forEach_const (fun c : Nat => c) _ (steps outRange.begin outRange.end_ 4) _
    (fcGroup_cost hu inMem outMem weight bias inDataLength outRange.end_) 0 m
  exact hloops.trans (Nat.zero_add _)

end Cost

private theorem poolGroup_cost (inMem outMem : Memory N) (filterSize stride outX outY z : Int)
    (cycles : Nat) (m : Machine (Ptr N) (Word F) (Access N)) :
    ((poolGroup inMem outMem filterSize stride outX outY z cycles).run m).1 =
      cycles + tripCount 0 filterSize 1 * tripCount 0 filterSize 1 := by
  have hacc := forEach_const (fun a : Data F × Nat => a.2) _
    (steps (outX * stride) (outX * stride + filterSize) 1)
    (fun inX acc => forEach (steps (outY * stride) (outY * stride + filterSize) 1) acc
      (poolMax inMem z inX))
    (fun inX => forEach_const (fun a : Data F × Nat => a.2) 1 _ _ fun inY acc m => rfl)
    (Data.ofLanes floatMin floatMin floatMin floatMin, cycles) m
  rw [tripCount_shift, tripCount_shift, Nat.mul_one] at hacc
  exact hacc

private theorem poolLoops_cost (inMem outMem : Memory N)
    (outChannelRange outXRange outYRange : Range)
    (filterSize stride : Int) (m : Machine (Ptr N) (Word F) (Access N)) :
    ((poolLoops inMem outMem outChannelRange outXRange outYRange filterSize stride).run m).1 =
      poolCost outChannelRange outXRange outYRange filterSize := by
  have hloops := forEach_const (fun c : Nat => c) _ (steps outXRange.begin outXRange.end_ 1) _
    (fun outX => forEach_const (fun c : Nat => c) _ (steps outYRange.begin outYRange.end_ 1) _
      fun outY => forEach_const (fun c : Nat => c) _
        (steps outChannelRange.begin outChannelRange.end_ 4) _
        (poolGroup_cost inMem outMem filterSize stride outX outY))
    0 m
  exact hloops.trans (Nat.zero_add _)

private theorem inputLoops_cost (inMem outMem : Memory N)
    (m : Machine (Ptr N) (Word F) (Access N)) : ((inputLoops inMem outMem).run m).1 = 10 := by
  rw [inputLoops, run_bind_eq, run_bind_eq, run_bind_eq, run_pure_eq]

private theorem paddingLoops_cost (inMem outMem : Memory N) (p a b c d : Int)
    (m : Machine (Ptr N) (Word F) (Access N)) :
    ((paddingLoops inMem outMem p a b c d).run m).1 = 1 := by
  rw [paddingLoops, run_bind_eq, run_bind_eq, run_bind_eq, run_pure_eq]

section Sparse

variable (inMem bias : Memory N) {outMem weight : Memory N}

theorem convLoops_sparse {inChannelNum : Int} {outChannelRange outXRange outYRange : Range}
    {filterSize : Int}
    (hkeep : ConvKeeps outMem weight inChannelNum outChannelRange outXRange outYRange filterSize)
    (stride : Int) (m : Machine (Ptr N) (Word F) (Access N)) :
    ((convLoops sparseSimd inMem outMem weight bias inChannelNum outChannelRange outXRange outYRange
      filterSize stride).run m).1 + convZeros (weight.value m.heap) inChannelNum outChannelRange
        outXRange outYRange filterSize =
      convCost inChannelNum outChannelRange outXRange outYRange filterSize := by
  have hadds := (convLoops_adds inMem outMem weight bias inChannelNum outChannelRange outXRange
    outYRange filterSize stride m).2
  rw [← convLoops_zeros inMem bias hkeep stride m, ← convLoops_cost denseSimd_unitCost inMem outMem
    weight bias inChannelNum outChannelRange outXRange outYRange filterSize stride m]
  exact hadds.symm

theorem fcLoops_sparse {inDataLength : Int} {outRange : Range}
    (hkeep : FcKeeps outMem weight inDataLength outRange)
    (m : Machine (Ptr N) (Word F) (Access N)) :
    ((fcLoops sparseSimd inMem outMem weight bias inDataLength outRange).run m).1 +
        fcZeros (weight.value m.heap) inDataLength outRange = fcCost inDataLength outRange := by
  have hadds := (fcLoops_adds inMem outMem weight bias inDataLength outRange m).2
  rw [← fcLoops_zeros inMem bias hkeep m,
    ← fcLoops_cost denseSimd_unitCost inMem outMem weight bias inDataLength outRange m]
  exact hadds.symm

end Sparse

/-! ## The stages -/

/-- What the loops of a stage count, before the division by 64. -/
def counted : UInt8 → Nat
  | 3 => 169344
  | 4 => 6272
  | 6 => 2515072
  | 7 => 3136
  | 8 => 401664
  | 9 => 1542
  | _ => 0

/-- The zero groups among the weights that a stage reads. -/
def zeroGroups (weights : MemName → Tensor F) : UInt8 → Nat
  | 3 => convZeros (weights .conv2dKernel) 1 ⟨0, 32⟩ ⟨0, 28⟩ ⟨0, 28⟩ 5
  | 6 => convZeros (weights .conv2d1Kernel) 32 ⟨0, 64⟩ ⟨0, 14⟩ ⟨0, 14⟩ 5
  | 8 => fcZeros (weights .denseKernel) (7 * 7 * 64) ⟨0, 512⟩
  | 9 => fcZeros (weights .dense1Kernel) 512 ⟨0, 10⟩
  | _ => 0

/-- The cycles of a stage that leaves out `zeros` of them. -/
def stageCycles (zeros : UInt8 → Nat) : UInt8 → Nat
  | 0 => 1
  | 1 => 10
  | 2 => 1
  | 5 => 1
  | 10 => 10
  | counter => (counted counter - zeros counter) / 64

/-- The stages that run loops. -/
theorem stageCycles_loops (zeros : UInt8 → Nat) {counter : UInt8}
    (h : counter ∈ [3, 4, 6, 7, 8, 9]) :
    stageCycles zeros counter = (counted counter - zeros counter) / 64 := by
  simp only [List.mem_cons, List.not_mem_nil, or_false] at h
  rcases h with rfl | rfl | rfl | rfl | rfl | rfl <;> rfl

private theorem conv_counted : convCost 1 ⟨0, 32⟩ ⟨0, 28⟩ ⟨0, 28⟩ 5 = counted 3 := by
  simp [convCost, tripCount, length_steps, counted]

private theorem pool_counted : poolCost ⟨0, 32⟩ ⟨0, 14⟩ ⟨0, 14⟩ 2 = counted 4 := by
  simp [poolCost, tripCount, length_steps, counted]

private theorem conv1_counted : convCost 32 ⟨0, 64⟩ ⟨0, 14⟩ ⟨0, 14⟩ 5 = counted 6 := by
  simp [convCost, tripCount, length_steps, counted]

private theorem pool1_counted : poolCost ⟨0, 64⟩ ⟨0, 7⟩ ⟨0, 7⟩ 2 = counted 7 := by
  simp [poolCost, tripCount, length_steps, counted]

private theorem fc_counted : fcCost (7 * 7 * 64) ⟨0, 512⟩ = counted 8 := by
  simp [fcCost, tripCount, length_steps, counted]

private theorem fc1_counted : fcCost 512 ⟨0, 10⟩ = counted 9 := by
  simp [fcCost, tripCount, length_steps, counted]

/-- The loops of a stage, over the memories it is given. -/
def stageLoops (u : Simd F) (inMem outMem weight bias : Memory N) : UInt8 → Exec N F Nat
  | 3 => convLoops u inMem outMem weight bias 1 ⟨0, 32⟩ ⟨0, 28⟩ ⟨0, 28⟩ 5 1
  | 4 => poolLoops inMem outMem ⟨0, 32⟩ ⟨0, 14⟩ ⟨0, 14⟩ 2 2
  | 6 => convLoops u inMem outMem weight bias 32 ⟨0, 64⟩ ⟨0, 14⟩ ⟨0, 14⟩ 5 1
  | 7 => poolLoops inMem outMem ⟨0, 64⟩ ⟨0, 7⟩ ⟨0, 7⟩ 2 2
  | 8 => fcLoops u inMem outMem weight bias (7 * 7 * 64) ⟨0, 512⟩
  | 9 => fcLoops u inMem outMem weight bias 512 ⟨0, 10⟩
  | _ => pure 0

theorem counted_le (counter : UInt8) : counted counter ≤ 2515072 := by
  unfold counted
  split <;> decide

/-- The count of a stage fits the `int`. -/
theorem toNat_intCycles_of_le {n : Nat} (counter : UInt8) (h : n ≤ counted counter) :
    (intCycles n).toNat = n / 64 := by
  have hcounted := counted_le counter
  exact toNat_intCycles (by omega)

theorem stageLoops_dense (inMem outMem weight bias : Memory N) (counter : UInt8)
    (m : Machine (Ptr N) (Word F) (Access N)) :
    ((stageLoops denseSimd inMem outMem weight bias counter).run m).1 = counted counter := by
  unfold stageLoops
  split
  · exact (convLoops_cost denseSimd_unitCost _ _ _ _ _ _ _ _ _ _ _).trans conv_counted
  · exact (poolLoops_cost _ _ _ _ _ _ _ _).trans pool_counted
  · exact (convLoops_cost denseSimd_unitCost _ _ _ _ _ _ _ _ _ _ _).trans conv1_counted
  · exact (poolLoops_cost _ _ _ _ _ _ _ _).trans pool1_counted
  · exact (fcLoops_cost denseSimd_unitCost _ _ _ _ _ _ _).trans fc_counted
  · exact (fcLoops_cost denseSimd_unitCost _ _ _ _ _ _ _).trans fc1_counted
  · rw [run_pure_eq]
    unfold counted
    split <;> simp_all

/-- The sparse loops count no more than the dense ones. -/
theorem stageLoops_sparse (inMem outMem weight bias : Memory N) (counter : UInt8)
    (m : Machine (Ptr N) (Word F) (Access N)) :
    ((stageLoops sparseSimd inMem outMem weight bias counter).run m).1 ≤
      ((stageLoops denseSimd inMem outMem weight bias counter).run m).1 := by
  have hconv (n : Int) (rc rx ry : Range) (f st : Int) :=
    (convLoops_adds inMem outMem weight bias n rc rx ry f st m).2
  have hfc (n : Int) (ro : Range) := (fcLoops_adds inMem outMem weight bias n ro m).2
  unfold stageLoops
  split
  · exact Nat.le.intro (hconv _ _ _ _ _ _).symm
  · exact le_rfl
  · exact Nat.le.intro (hconv _ _ _ _ _ _).symm
  · exact le_rfl
  · exact Nat.le.intro (hfc _ _).symm
  · exact Nat.le.intro (hfc _ _).symm
  · exact le_rfl

section Yields

private theorem exec_yields {α : Type} {c : Exec MemName F α} {P : α → Prop}
    (h : ∀ m, P (c.run m).1) : Yields (Core.exec c) P := by
  intro core r hr
  cases hr
  exact h core.machine

private theorem opConv_yields (i o w b : MemName) (n : Int) (rc rx ry : Range) (f st : Int) :
    Yields (Core.opConv (denseSimd : Simd F) i o w b n rc rx ry f st)
      (· = intCycles (convCost n rc rx ry f)) := by
  apply Yields.after
  intro inMem
  apply Yields.after
  intro outMem
  apply Yields.after
  intro weight
  apply Yields.after
  intro bias
  exact (exec_yields fun m => convLoops_cost denseSimd_unitCost inMem outMem weight bias n rc rx ry
    f st m).bind fun c hc => .pure (congrArg intCycles hc)

private theorem opFc_yields (i o w b : MemName) (n : Int) (ro : Range) :
    Yields (Core.opFc (denseSimd : Simd F) i o w b n ro) (· = intCycles (fcCost n ro)) := by
  apply Yields.after
  intro inMem
  apply Yields.after
  intro outMem
  apply Yields.after
  intro weight
  apply Yields.after
  intro bias
  exact (exec_yields fun m => fcLoops_cost denseSimd_unitCost inMem outMem weight bias n ro m).bind
    fun c hc => .pure (congrArg intCycles hc)

private theorem opPool_yields (i o : MemName) (rc rx ry : Range) (f st : Int) :
    Yields (Core.opPool (F := F) i o rc rx ry f st) (· = intCycles (poolCost rc rx ry f)) := by
  apply Yields.after
  intro inMem
  apply Yields.after
  intro outMem
  exact (exec_yields fun m => poolLoops_cost inMem outMem rc rx ry f st m).bind
    fun c hc => .pure (congrArg intCycles hc)

private theorem opPadding_yields (i o : MemName) (p a b c d : Int) :
    Yields (Core.opPadding (F := F) i o p a b c d) (· = 1) := by
  apply Yields.after
  intro inMem
  apply Yields.after
  intro outMem
  exact exec_yields (paddingLoops_cost inMem outMem p a b c d)

theorem opInit_yields : Yields (Core.opInit (F := F)) (· = 1) := by
  iterate 6
    apply Yields.after
    intro
  exact .after fun _ => .pure rfl

theorem opInput_yields (i o : MemName) : Yields (Core.opInput (F := F) i o) (· = 10) := by
  apply Yields.after
  intro source
  apply Yields.after
  intro target
  exact exec_yields (inputLoops_cost source target)

theorem opOutput_yields (i : MemName) : Yields (Core.opOutput (F := F) i) (· = 10) := by
  apply Yields.after
  intro mem
  apply Yields.after
  intro best
  exact .after fun _ => .pure rfl

theorem stage_of_op {op : CoreM F (BitVec 32)} {c : BitVec 32} {d : Nat} (h : Yields op (· = c))
    (hcd : c.toNat = d) : Yields (do return ((← op).toNat, false)) fun r : Nat × Bool => r.1 = d :=
  h.bind fun _ ha => .pure ((congrArg BitVec.toNat ha).trans hcd)

/-- A dense stage takes a 64th of its count. -/
theorem stage_of_loops {op : CoreM F (BitVec 32)} {n d : Nat} (counter : UInt8)
    (h : Yields op (· = intCycles n)) (hn : n = counted counter) (hd : counted counter / 64 = d) :
    Yields (do return ((← op).toNat, false)) fun r : Nat × Bool => r.1 = d := by
  subst hn
  exact stage_of_op h ((toNat_intCycles_of_le counter le_rfl).trans hd)

/-- Whatever the hub and the memories hold, a stage of the dense chip that returns has taken the
cycles of the table. -/
theorem stage_yields (counter : UInt8) : Yields (AIChip.stage (denseSimd : Simd F) counter)
    fun r => r.1 = stageCycles (fun _ => 0) counter := by
  unfold AIChip.stage
  split
  · exact stage_of_op opInit_yields rfl
  · exact stage_of_op (opInput_yields _ _) rfl
  · exact stage_of_op (opPadding_yields _ _ _ _ _ _ _) rfl
  · exact stage_of_loops 3 (opConv_yields _ _ _ _ _ _ _ _ _ _) conv_counted rfl
  · exact stage_of_loops 4 (opPool_yields _ _ _ _ _ _ _) pool_counted rfl
  · exact stage_of_op (opPadding_yields _ _ _ _ _ _ _) rfl
  · exact stage_of_loops 6 (opConv_yields _ _ _ _ _ _ _ _ _ _) conv1_counted rfl
  · exact stage_of_loops 7 (opPool_yields _ _ _ _ _ _ _) pool1_counted rfl
  · exact stage_of_loops 8 (opFc_yields _ _ _ _ _ _) fc_counted rfl
  · exact stage_of_loops 9 (opFc_yields _ _ _ _ _ _) fc1_counted rfl
  · exact (opOutput_yields .dense1Out).bind fun cycles hcycles =>
      .after fun core => .after fun _ => .pure (congrArg BitVec.toNat hcycles)
  · apply Yields.pure
    unfold stageCycles counted
    split <;> simp_all

end Yields

theorem convKeeps_of_shape {outMem weight : Memory N} {f c o : Int} {rx ry : Range}
    (ho : o % 4 = 0) (hshape : weight.HasShape f f c o)
    (hbuf : outMem.data.buf ≠ weight.data.buf) : ConvKeeps outMem weight c ⟨0, o⟩ rx ry f := by
  constructor
  · intro wX hX wY hY inChannel hi outChannel hc k
    rw [mem_steps_one] at hX hY hi
    rw [mem_steps (by decide)] at hc
    obtain ⟨j, hj, hlt⟩ := hc
    have hk := k.isLt
    simp only at hj hlt
    rw [hshape.inShape_iff]
    omega
  · intro x y z w _ hp
    exact hbuf hp.1

theorem fcKeeps_of_shape {outMem weight : Memory N} {n o : Int} (ho : o % 2 = 0)
    (hshape : weight.HasShape n o 1 1) (hbuf : outMem.data.buf ≠ weight.data.buf) :
    FcKeeps outMem weight n ⟨0, o⟩ := by
  constructor
  · intro inIndex hi outIndex hc k hlive
    rw [mem_steps_one] at hi
    rw [mem_steps (by decide)] at hc
    obtain ⟨j, hj, hlt⟩ := hc
    have hk := k.isLt
    simp only [LiveLane] at hj hlt hlive
    rw [hshape.inShape_iff]
    omega
  · intro x y z w _ hp
    exact hbuf hp.1

/-- Before `op_init` the hub has the three buffers only. -/
theorem baseHub_getMemory (name : MemName) : AIChip.baseHub.getMemory name =
    if name ∈ [.activationMem1, .activationMem2, .weightAndBiasMem] then some (view aliased name)
    else none := by
  cases name <;> simp [AIChip.baseHub, MemHub.addMemory, MemHub.getMemory_emplace, view, shape,
    aliased]

private theorem throws_bind {α β σ : Type} {c : StateT σ Option α} {f : α → StateT σ Option β}
    {s : σ} (h : c.run s = none) : (c >>= f).run s = none := by
  rw [StateT.run_bind, h]
  rfl

/-- Before `op_init` every other stage asks for a view that is missing. -/
theorem stage_base (u : Simd F) {core : Core F} (hbase : core.memhub = AIChip.baseHub)
    {counter : UInt8} (h : counter ∈ [1, 2, 3, 4, 5, 6, 7, 8, 9, 10]) :
    (AIChip.stage u counter).run core = none := by
  have hview {name : MemName}
      (hname : name ∉ [MemName.activationMem1, .activationMem2, .weightAndBiasMem]) :
      (Core.getMemory name).run core = none := by
    rw [Core.run_getMemory_eq, hbase, baseHub_getMemory, if_neg hname]
    rfl
  have hinput : (Core.opInput .activationMem2 .paddingIn).run core = none := by
    simp [Core.opInput, Core.run_getMemory_eq, hbase, baseHub_getMemory]
  simp only [List.mem_cons, List.not_mem_nil, or_false] at h
  rcases h with rfl | rfl | rfl | rfl | rfl | rfl | rfl | rfl | rfl | rfl
  · exact throws_bind hinput
  all_goals exact throws_bind (throws_bind (hview (by decide)))

section SparseStages

variable {core : Core F} (hs : Serves aliased core.memhub)

private theorem stage_of_run {op : CoreM F (BitVec 32)} {c : BitVec 32} {d : Nat} {core' : Core F}
    (hop : op.run core = some (c, core')) (hcd : c.toNat = d) : ∃ done core',
      StateT.run (do return ((← op).toNat, false) : CoreM F (Nat × Bool)) core =
        some ((d, done), core') := by
  refine ⟨false, core', ?_⟩
  simp [hop, hcd]

/-- A stage with loops takes a 64th of what it counts. -/
theorem stage_of_count {op : CoreM F (BitVec 32)} {n : Nat} {core' : Core F} {zeros : UInt8 → Nat}
    {counter : UInt8} (h : counter ∈ [3, 4, 6, 7, 8, 9])
    (hop : op.run core = some (intCycles n, core')) (hn : n = counted counter - zeros counter) :
    ∃ done core', StateT.run (do return ((← op).toNat, false) : CoreM F (Nat × Bool)) core =
      some ((stageCycles zeros counter, done), core') := by
  apply stage_of_run hop
  rw [stageCycles_loops zeros h, hn]
  exact toNat_intCycles_of_le counter (Nat.sub_le _ _)

include hs

private theorem opConv_sparse (i out w b : MemName) {a c o : Int} (ho : o % 4 = 0)
    (hw : (view aliased w).HasShape 5 5 c o) (hbuf : (aliased out).buf ≠ (aliased w).buf) :
    ∃ core', (Core.opConv sparseSimd i out w b c ⟨0, o⟩ ⟨0, a⟩ ⟨0, a⟩ 5 1).run core =
      some (intCycles (convCost c ⟨0, o⟩ ⟨0, a⟩ ⟨0, a⟩ 5 -
        convZeros (weightsIn core.machine.heap w) c ⟨0, o⟩ ⟨0, a⟩ ⟨0, a⟩ 5), core') := by
  have hkeep : ConvKeeps (view aliased out) (view aliased w) c ⟨0, o⟩ ⟨0, a⟩ ⟨0, a⟩ 5 :=
    convKeeps_of_shape ho hw hbuf
  have hcost := convLoops_sparse (view aliased i) (view aliased b) hkeep 1 core.machine
  have hrun := opConv_run hs sparseSimd i out w b c ⟨0, o⟩ ⟨0, a⟩ ⟨0, a⟩ 5 1
  rw [← hcost, weightsIn, Nat.add_sub_cancel]
  exact ⟨_, hrun⟩

private theorem opFc_sparse (i out w b : MemName) {n o : Int} (ho : o % 2 = 0)
    (hw : (view aliased w).HasShape n o 1 1) (hbuf : (aliased out).buf ≠ (aliased w).buf) :
    ∃ core', (Core.opFc sparseSimd i out w b n ⟨0, o⟩).run core =
      some (intCycles (fcCost n ⟨0, o⟩ - fcZeros (weightsIn core.machine.heap w) n ⟨0, o⟩),
        core') := by
  have hcost := fcLoops_sparse (view aliased i) (view aliased b)
    (fcKeeps_of_shape ho hw (show (view aliased out).data.buf ≠ _ from hbuf)) core.machine
  have hrun := opFc_run hs sparseSimd i out w b n ⟨0, o⟩
  rw [← hcost, weightsIn, Nat.add_sub_cancel]
  exact ⟨_, hrun⟩

/-- A stage of the sparse chip takes the cycles of the table, without the zero groups of the
weights it holds. -/
theorem stage_sparse (counter : UInt8) :
    ∃ done core', (AIChip.stage sparseSimd counter).run core =
      some ((stageCycles (zeroGroups (weightsIn core.machine.heap)) counter, done), core') := by
  unfold AIChip.stage
  split
  · obtain ⟨m', hinit, -⟩ := stage_init sparseSimd hs
    exact ⟨_, _, hinit⟩
  · exact stage_of_run (opInput_run hs _ _) (congrArg BitVec.toNat (inputLoops_cost _ _ _))
  · exact stage_of_run (opPadding_run hs _ _ _ _ _ _ _)
      (congrArg BitVec.toNat (paddingLoops_cost _ _ _ _ _ _ _ _))
  · obtain ⟨core', hconv⟩ := opConv_sparse hs .paddingOut .convOut .conv2dKernel .conv2dBias (a := 28)
      (c := 1) (o := 32) (by decide) (view_hasShape aliased .conv2dKernel) (by decide)
    rw [conv_counted] at hconv
    exact stage_of_count (by decide) hconv rfl
  · exact stage_of_count (by decide) (opPool_run hs _ _ _ _ _ _ _)
      ((poolLoops_cost _ _ _ _ _ _ _ _).trans pool_counted)
  · exact stage_of_run (opPadding_run hs _ _ _ _ _ _ _)
      (congrArg BitVec.toNat (paddingLoops_cost _ _ _ _ _ _ _ _))
  · obtain ⟨core', hconv⟩ := opConv_sparse hs .padding1Out .conv1Out .conv2d1Kernel .conv2d1Bias
      (a := 14) (c := 32) (o := 64) (by decide) (view_hasShape aliased .conv2d1Kernel) (by decide)
    rw [conv1_counted] at hconv
    exact stage_of_count (by decide) hconv rfl
  · exact stage_of_count (by decide) (opPool_run hs _ _ _ _ _ _ _)
      ((poolLoops_cost _ _ _ _ _ _ _ _).trans pool1_counted)
  · obtain ⟨core', hfc⟩ := opFc_sparse hs .pool1Out .denseOut .denseKernel .denseBias
      (n := 7 * 7 * 64) (o := 512) (by decide) ⟨by decide, rfl, rfl, rfl⟩ (by decide)
    rw [fc_counted] at hfc
    exact stage_of_count (by decide) hfc rfl
  · obtain ⟨core', hfc⟩ := opFc_sparse hs .denseOut .dense1Out .dense1Kernel .dense1Bias
      (n := 512) (o := 10) (by decide) (view_hasShape aliased .dense1Kernel) (by decide)
    rw [fc1_counted] at hfc
    exact stage_of_count (by decide) hfc rfl
  · simp [opOutput_run hs, stageCycles]
  · refine ⟨false, core, ?_⟩
    rw [StateT.run_pure]
    unfold stageCycles counted
    split <;> simp_all

omit hs in
/-- The same for a stage that returns, whether `op_init` has run or not. -/
theorem stage_sparse_cycles (hhub : core.memhub = AIChip.baseHub ∨ Serves aliased core.memhub)
    {counter : UInt8} {r : (Nat × Bool) × Core F}
    (h : (AIChip.stage sparseSimd counter).run core = some r) :
    r.1.1 = stageCycles (zeroGroups (weightsIn core.machine.heap)) counter := by
  rcases hhub with hbase | hs
  · by_cases hviews : counter ∈ [1, 2, 3, 4, 5, 6, 7, 8, 9, 10]
    · rw [stage_base sparseSimd hbase hviews] at h
      cases h
    · unfold AIChip.stage at h
      split at h
      case h_1 => exact stage_of_op opInit_yields rfl core r h
      case h_12 =>
        cases h
        unfold stageCycles counted
        split <;> simp_all
      all_goals exact absurd (by decide) hviews
  · obtain ⟨done, core', hrun⟩ := stage_sparse hs counter
    rw [hrun] at h
    cases h
    rfl

end SparseStages

end ModernArch.SimpleCNN
