import ModernArch.SimpleCNN.Stages

/-!
# The pipeline refines the network

Whatever the placement, as long as it is separated: when the view of one stage holds a tensor,
the next stage fills its own view with the next tensor of the network and keeps the weights.
-/

namespace ModernArch.SimpleCNN
open Framework Vdev
set_option linter.unusedSectionVars false

variable {F : Type} [Field F] [FloatModel F] [LinearOrder F]
variable {place : Place} {weights : MemName → Tensor F} {t : Tensor F}

section Operations

variable {core : Core F} (hs : Serves place core.memhub)

include hs

theorem opInput_run (i o : MemName) :
    (Core.opInput i o).run core =
      let r := (inputLoops (view place i) (view place o)).run core.machine
      some (r.1, { core with machine := r.2 }) := by
  simp [Core.opInput, Core.run_getMemory hs]

theorem opPadding_run (i o : MemName) (p a b c d : Int) :
    (Core.opPadding i o p a b c d).run core =
      let r := (paddingLoops (view place i) (view place o) p a b c d).run core.machine
      some (r.1, { core with machine := r.2 }) := by
  simp [Core.opPadding, Core.run_getMemory hs]

theorem opConv_run (u : Simd F) (i o w b : MemName) (n : Int) (rc rx ry : Range) (f st : Int) :
    (Core.opConv u i o w b n rc rx ry f st).run core =
      let r := (convLoops u (view place i) (view place o) (view place w) (view place b) n rc rx ry
        f st).run core.machine
      some (intCycles r.1, { core with machine := r.2 }) := by
  simp [Core.opConv, Core.run_getMemory hs]

theorem opPool_run (i o : MemName) (rc rx ry : Range) (f st : Int) :
    (Core.opPool i o rc rx ry f st).run core =
      let r := (poolLoops (view place i) (view place o) rc rx ry f st).run core.machine
      some (intCycles r.1, { core with machine := r.2 }) := by
  simp [Core.opPool, Core.run_getMemory hs]

theorem opFc_run (u : Simd F) (i o w b : MemName) (n : Int) (ro : Range) :
    (Core.opFc u i o w b n ro).run core =
      let r := (fcLoops u (view place i) (view place o) (view place w) (view place b) n
        ro).run core.machine
      some (intCycles r.1, { core with machine := r.2 }) := by
  simp [Core.opFc, Core.run_getMemory hs]

theorem opOutput_run (i : MemName) :
    (Core.opOutput i).run core =
      let r := (outputScan (view place i)).run core.machine
      some (10, { core with outputIndex := r.1, machine := r.2 }) := by
  simp [Core.opOutput, Core.run_getMemory hs]

end Operations

/-- The hub is in place and the weight views hold the weights. -/
structure Loaded (place : Place) (weights : MemName → Tensor F) (core : Core F) : Prop where
  hub : Serves place core.memhub
  weights : ∀ w ∈ weightNames, (view place w).Holds core.machine.heap (weights w)

/-- Stage `k` has left the tensor `t`. -/
structure Ready (place : Place) (weights : MemName → Tensor F) (k : Nat) (t : Tensor F)
    (core : Core F) : Prop extends Loaded place weights core where
  live : (view place (dest k)).Holds core.machine.heap t

/-- Stage `k` runs and computes `t` in its view. -/
def StageComputes (u : Simd F) (place : Place) (k : Nat) (t : Tensor F) (core : Core F) : Prop :=
  ∃ cycles m', (AIChip.stage u (UInt8.ofNat k)).run core =
      some ((cycles, false), { core with machine := m' }) ∧
    Computes (view place (dest k)) (stageReads place k) t core.machine m'

private theorem StageComputes.of_op {u : Simd F} {k : Nat} {op : CoreM F (BitVec 32)}
    {core : Core F} {cycles : BitVec 32} {m' : Machine (Ptr MemName) (Word F) (Access MemName)}
    (hstage : AIChip.stage u (UInt8.ofNat k) = (do return ((← op).toNat, false)))
    (hop : op.run core = some (cycles, { core with machine := m' }))
    (hc : Computes (view place (dest k)) (stageReads place k) t core.machine m') :
    StageComputes u place k t core := by
  refine ⟨cycles.toNat, m', ?_, hc⟩
  rw [hstage]
  simp [hop]

private theorem source_subset (k : Nat) :
    (view place (dest (k + 1))).region ⊆ stageReads place (k + 2) :=
  fun _ hp => Or.inl hp

private theorem weight_subset {k : Nat} {w : MemName} (hw : w ∈ weightsOf (k + 2)) :
    (view place w).region ⊆ stageReads place (k + 2) :=
  fun _ hp => Or.inr ⟨w, hw, hp⟩

/-- A stage of padding, convolution, pooling or a dense layer computes its layer. -/
theorem stage_layer (u : Simd F) (hu : u.Exact) (hsep : Separated place) {core : Core F}
    {k : Nat} (hk : k < 8) (h : Ready place weights (k + 1) t core) :
    StageComputes u place (k + 2) (layer weights (UInt8.ofNat (k + 2)) t) core := by
  have hs := h.hub
  have hd := stage_disjoint hsep hk
  have hw {k' : Nat} (hk' : k' < 8) (w : MemName) (hmem : w ∈ weightsOf (k' + 2)) :=
    h.weights w (weightsOf_subset hk' w hmem)
  have hshape := view_hasShape place
  interval_cases k
  · exact .of_op rfl (opPadding_run hs _ _ _ _ _ _ _) (padding_stage (by decide) (by decide) (by decide)
      (hshape .paddingIn) (hshape .paddingOut) hd (source_subset 0) h.live)
  · exact .of_op rfl (opConv_run hs _ _ _ _ _ _ _ _ _ _ _) (conv_stage u hu (by decide)
      (hshape .paddingOut) (hshape .convOut) (hshape .conv2dKernel) (hshape .conv2dBias) hd
      ⟨source_subset 1, weight_subset (by decide), weight_subset (by decide)⟩ h.live
      (hw hk _ (by decide)) (hw hk _ (by decide)))
  · exact .of_op rfl (opPool_run hs _ _ _ _ _ _ _) (pool_stage (by decide)
      (hshape .convOut) (hshape .poolOut) hd (source_subset 2) h.live)
  · exact .of_op rfl (opPadding_run hs _ _ _ _ _ _ _) (padding_stage (by decide) (by decide) (by decide)
      (hshape .poolOut) (hshape .padding1Out) hd (source_subset 3) h.live)
  · exact .of_op rfl (opConv_run hs _ _ _ _ _ _ _ _ _ _ _) (conv_stage u hu (by decide)
      (hshape .padding1Out) (hshape .conv1Out) (hshape .conv2d1Kernel) (hshape .conv2d1Bias) hd
      ⟨source_subset 4, weight_subset (by decide), weight_subset (by decide)⟩ h.live
      (hw hk _ (by decide)) (hw hk _ (by decide)))
  · exact .of_op rfl (opPool_run hs _ _ _ _ _ _ _) (pool_stage (by decide)
      (hshape .conv1Out) (hshape .pool1Out) hd (source_subset 5) h.live)
  · exact .of_op rfl (opFc_run hs _ _ _ _ _ _ _) (fc_stage u hu (by decide) (by decide)
      (by decide) (by decide) (by decide) (hshape .pool1Out) (hshape .denseOut)
      (hshape .denseKernel) (hshape .denseBias) hd
      ⟨source_subset 6, weight_subset (by decide), weight_subset (by decide)⟩ h.live
      (hw hk _ (by decide)) (hw hk _ (by decide)))
  · have hfc := fc_stage u hu (a := 512) (b := 1) (c := 1) (n := 512) (o := 10) (by decide)
      (by decide) (by decide) (by decide) (by decide) (hshape .denseOut) (hshape .dense1Out)
      (hshape .dense1Kernel) (hshape .dense1Bias) hd
      ⟨source_subset 7, weight_subset (by decide), weight_subset (by decide)⟩ h.live
      (hw hk _ (by decide)) (hw hk _ (by decide))
    refine .of_op rfl (opFc_run hs _ _ _ _ _ _ _) (hfc.congr ?_)
    intro x y z w _
    rw [flatten_one]
    rfl

/-- `op_input` turns the image in the second activation buffer into the first tensor. -/
theorem stage_input (u : Simd F) (hsep : Separated place) {image : Nat → UInt8} {core : Core F}
    (h : Loaded place weights core)
    (himage : ∀ k < 784, readByte core.machine.heap AIChip.mem2 k = image k) :
    StageComputes u place 1 (pixelValue image) core := by
  have haddr : (view place .activationMem2).addr 0 0 0 0 = AIChip.mem2 := by
    simp [Memory.addr, Memory.index, view, hsep.image.1]
  have hd : Disjoint (view place (dest 1)).region (stageReads place 1) := by
    rw [Set.disjoint_left]
    intro p hp hread
    obtain ⟨k, -, rfl⟩ := hread
    exact hsep.image.2 hp.1.symm
  refine .of_op rfl (opInput_run h.hub _ _) (input_computes ⟨rfl, rfl, rfl, rfl⟩ hd ?_ ?_ ?_)
  · simp [Memory.InShape, view, shape]
  · intro k hk
    rw [haddr]
    exact ⟨k, hk, rfl⟩
  · intro k hk
    rw [haddr]
    exact himage k hk

/-- The last stage reports the greatest of ten floats and shows it in the first byte. -/
theorem stage_output (u : Simd F) {core : Core F} (h : Ready place weights 9 t core) :
    let best := maxElement (fun o => t o 0 0 0) 10
    ∃ m', (AIChip.stage u 10).run core =
        some ((10, true), { core with outputIndex := best, machine := m' }) ∧
      m'.heap = writeByte core.machine.heap AIChip.mem1 0 (UInt8.ofInt best) ∧
      Extends (OpAccess (stageReads place 10) (stageWrites place 10)) core.machine m' := by
  intro best
  have hcell (i : Int) : ((view place .dense1Out).addr 0 0 0 0).add i =
      (view place .dense1Out).addr i 0 0 0 := by
    simp [Memory.addr, Memory.index, Memory.wzyLen, Memory.wzLen, view, shape]
  have hin (i : Int) (h0 : 0 ≤ i) (hi : i < 10) : (view place .dense1Out).InShape i 0 0 0 := by
    simp [Memory.InShape, view, shape, h0, hi]
  have hlen (i : Int) (h0 : 0 ≤ i) (hi : i < 10) :
      ((view place .dense1Out).addr 0 0 0 0).add i ∈ (view place .dense1Out).region := by
    rw [hcell]
    exact Memory.addr_mem_region (hin i h0 hi)
  have hreads : (view place .dense1Out).region ⊆ stageReads place 10 := source_subset 8
  obtain ⟨hval, hheap, htrace⟩ := output_spec core.machine (hin 0 (by decide) (by decide)) hlen
    hreads
  have hbest : ((outputScan (view place .dense1Out)).run core.machine).1 = best := by
    rw [hval]
    apply maxElement_congr (by decide)
    intro i h0 hi
    rw [hcell]
    exact h.live i 0 0 0 (hin i h0 hi)
  have hrun : (AIChip.stage u 10).run core = some ((10, true), { core with
      outputIndex := best
      machine := ((storeByte AIChip.mem1 0 (UInt8.ofInt best)).run
        ((outputScan (view place .dense1Out)).run core.machine).2).2 }) := by
    simp [AIChip.stage, opOutput_run h.hub, hbest]
  generalize ((outputScan (view place .dense1Out)).run core.machine).2 = m₁ at *
  rw [storeByte_run] at hrun
  refine ⟨_, hrun, by rw [hheap], (htrace.mono ?_).trans ⟨[.store AIChip.mem1], rfl, ?_⟩⟩
  · exact OpAccess.mono (Set.Subset.refl _) (Set.empty_subset _)
  · intro e he
    rw [List.mem_singleton.mp he]
    exact Set.mem_singleton _

/-- `op_init` on a hub that serves a placement changes nothing. -/
theorem stage_init (u : Simd F) {core : Core F} (hs : Serves place core.memhub) :
    ∃ m', (AIChip.stage u 0).run core = some ((1, false), { core with machine := m' }) ∧
      m'.heap = core.machine.heap ∧
      Extends (OpAccess (stageReads place 0) (stageWrites place 0)) core.machine m' := by
  have hzero (name : MemName) : (view place name).InShape 0 0 0 0 := by
    cases name <;> simp [Memory.InShape, view, shape]
  let call (name : MemName) : Access MemName := .getPtr (view place name) 0 0 0 0
  refine ⟨⟨core.machine.heap, [call .activationMem2, call .activationMem1, call .weightAndBiasMem] ++
    core.machine.trace⟩, ?_, rfl, _, rfl, ?_⟩
  · have hget : ∀ name, core.memhub.getMemory name = some (view place name) := hs
    simp [AIChip.stage, Core.opInit, Core.run_getMemory_eq, hget, addViews_of_serves hs]
    rfl
  · intro e he
    simp only [List.mem_cons, List.not_mem_nil, or_false] at he
    rcases he with rfl | rfl | rfl <;> exact hzero _

end ModernArch.SimpleCNN
