import ModernArch.SimpleCNN.Cycles
import ModernArch.SimpleCNN.Operations

/-!
# The sparse core and the dense core

Skipping zero groups leaves every memory as it was and takes one cycle less for each of them. The
cycles are an `int`, so a call that counts `2 ^ 31` or more of them returns a negative number.
-/

namespace ModernArch.SimpleCNN
open Framework Vdev
set_option linter.unusedSectionVars false

variable {N F : Type} [Field F] [FloatModel F] [LinearOrder F] [DecidableEq N]

/-- A dense and a sparse run of loops with one memory. As `int`s the counters differ by `zeros`;
as numbers too, when the dense one does not overflow, and then so do the cycles compare. -/
structure Skips (dense sparse : Nat × Machine (Ptr N) (Word F) (Access N)) (zeros : Nat) :
    Prop where
  memory : sparse.2 = dense.2
  counter : BitVec.ofNat 32 dense.1 = BitVec.ofNat 32 sparse.1 + BitVec.ofNat 32 zeros
  exact : dense.1 < 2 ^ 31 →
    (BitVec.ofNat 32 dense.1).toInt = (BitVec.ofNat 32 sparse.1).toInt + zeros
  cycles : dense.1 < 2 ^ 31 → (intCycles sparse.1).toInt ≤ (intCycles dense.1).toInt

theorem toInt_intCycles_mono {a b : Nat} (h : a ≤ b) (hb : b < 2 ^ 31) :
    (intCycles a).toInt ≤ (intCycles b).toInt := by
  rw [toInt_intCycles (by omega), toInt_intCycles hb]
  omega

private theorem Skips.of_counts {dense sparse : Nat × Machine (Ptr N) (Word F) (Access N)}
    {zeros : Nat} (hmem : sparse.2 = dense.2) (hcount : dense.1 = sparse.1 + zeros) :
    Skips dense sparse zeros := by
  constructor
  · exact hmem
  · rw [hcount, BitVec.ofNat_add]
  · intro hlt
    rw [toInt_ofNat_of_lt hlt, toInt_ofNat_of_lt (by omega), hcount, Nat.cast_add]
  · exact toInt_intCycles_mono (Nat.le.intro hcount.symm)

/-- Skipping zero groups changes no memory, saves one cycle for each of them, and leaves the
class of every image as it was. -/
theorem sparse_eq_dense :
    (∀ (inMem outMem weight bias : Memory N) (inChannelNum : Int)
        (outChannelRange outXRange outYRange : Range) (filterSize stride : Int)
        (m : Machine (Ptr N) (Word F) (Access N)),
      let conv := fun u : Simd F => (convLoops u inMem outMem weight bias inChannelNum
        outChannelRange outXRange outYRange filterSize stride).run m
      Skips (conv denseSimd) (conv sparseSimd) (conv zeroMeter).1 ∧
        (ConvKeeps outMem weight inChannelNum outChannelRange outXRange outYRange filterSize →
          (conv zeroMeter).1 = convZeros (weight.value m.heap) inChannelNum outChannelRange
            outXRange outYRange filterSize)) ∧
    (∀ (inMem outMem weight bias : Memory N) (inDataLength : Int) (outRange : Range)
        (m : Machine (Ptr N) (Word F) (Access N)),
      let fc := fun u : Simd F =>
        (fcLoops u inMem outMem weight bias inDataLength outRange).run m
      Skips (fc denseSimd) (fc sparseSimd) (fc zeroMeter).1 ∧
        (FcKeeps outMem weight inDataLength outRange →
          (fc zeroMeter).1 = fcZeros (weight.value m.heap) inDataLength outRange)) ∧
    (∀ (inMem outMem weight bias : Memory N) (counter : UInt8)
        (m : Machine (Ptr N) (Word F) (Access N)),
      ((stageLoops denseSimd inMem outMem weight bias counter).run m).1 < 2 ^ 31) ∧
    ∀ (tickPerCycle : Nat) (heap : Heap MemName F) (sessions : List Session),
      ∃ r₁ chip₁ ds chip₂ r₃ chip₃ ps chip₄,
        (observe denseSimd 0).run (AIChip.new tickPerCycle heap) = some (r₁, chip₁) ∧
        (sessions.mapM (session denseSimd)).run chip₁ = some (ds, chip₂) ∧
        (observe sparseSimd 0).run (AIChip.new tickPerCycle heap) = some (r₃, chip₃) ∧
        (sessions.mapM (session sparseSimd)).run chip₃ = some (ps, chip₄) ∧
        ds.map Outcome.outputIndex = ps.map Outcome.outputIndex := by
  refine ⟨?_, ?_, ?_, ?_⟩
  · intro inMem outMem weight bias inChannelNum rc rx ry filterSize stride m conv
    obtain ⟨hmem, hcost⟩ := convLoops_adds inMem outMem weight bias inChannelNum rc rx ry filterSize
      stride m
    exact ⟨.of_counts (hmem 1) hcost, fun hkeep => convLoops_zeros inMem bias hkeep stride m⟩
  · intro inMem outMem weight bias inDataLength outRange m fc
    obtain ⟨hmem, hcost⟩ := fcLoops_adds inMem outMem weight bias inDataLength outRange m
    exact ⟨.of_counts (hmem 1) hcost, fun hkeep => fcLoops_zeros inMem bias hkeep m⟩
  · intro inMem outMem weight bias counter m
    have hcounted := counted_le counter
    rw [stageLoops_dense]
    omega
  · intro tickPerCycle heap sessions
    obtain ⟨r₁, chip₁, h₁, -, hload₁⟩ := first_init (denseSimd : Simd F) tickPerCycle heap
    obtain ⟨ds, chip₂, h₂, hall₂⟩ :=
      sessions_spec denseSimd denseSimd_exact aliased_separated hload₁ sessions
    obtain ⟨r₃, chip₃, h₃, -, hload₃⟩ := first_init (sparseSimd : Simd F) tickPerCycle heap
    obtain ⟨ps, chip₄, h₄, hall₄⟩ :=
      sessions_spec sparseSimd sparseSimd_exact aliased_separated hload₃ sessions
    refine ⟨r₁, chip₁, ds, chip₂, r₃, chip₃, ps, chip₄, h₁, h₂, h₃, h₄, ?_⟩
    rw [forall₂_map_eq hall₂ fun s r h => h.outputIndex,
      forall₂_map_eq hall₄ fun s r h => h.outputIndex]

/-- Views of a filter of size one with 1024 channels on both sides, and 128 by 64 positions. -/
def wideMem : MemName → Memory MemName
  | .paddingOut => ⟨⟨.paddingOut, 0⟩, 128, 64, 1024, 1⟩
  | .convOut => ⟨⟨.convOut, 0⟩, 128, 64, 1024, 1⟩
  | .conv2dKernel => ⟨⟨.conv2dKernel, 0⟩, 1, 1, 1024, 1024⟩
  | name => ⟨⟨name, 0⟩, 1024, 1, 1, 1⟩

/-- The weight `w` everywhere, and zeros in the other buffers. -/
def wideCore (w : ℚ) : Core ℚ where
  memhub := ⟨fun name => some (wideMem name)⟩
  machine := ⟨fun p => .float (if p.buf = .conv2dKernel then w else 0), []⟩

def wideConv (u : Simd ℚ) : CoreM ℚ (BitVec 32) :=
  Core.opConv u .paddingOut .convOut .conv2dKernel .conv2dBias 1024 ⟨0, 1024⟩ ⟨0, 128⟩ ⟨0, 64⟩ 1 1

def wideLoops (u : Simd ℚ) : Exec MemName ℚ Nat :=
  convLoops u (wideMem .paddingOut) (wideMem .convOut) (wideMem .conv2dKernel)
    (wideMem .conv2dBias) 1024 ⟨0, 1024⟩ ⟨0, 128⟩ ⟨0, 64⟩ 1 1

private theorem wide_fcHub (w : ℚ) : FcHub (wideCore w).memhub .paddingOut .convOut .conv2dKernel
    .conv2dBias (wideMem .paddingOut) (wideMem .convOut) (wideMem .conv2dKernel)
    (wideMem .conv2dBias) := ⟨rfl, rfl, rfl, rfl⟩

private theorem wide_keeps :
    ConvKeeps (wideMem .convOut) (wideMem .conv2dKernel) 1024 ⟨0, 1024⟩ ⟨0, 128⟩ ⟨0, 64⟩ 1 :=
  convKeeps_of_shape (by decide) ⟨rfl, rfl, rfl, rfl⟩ (by decide)

private theorem wide_asserts {u : Simd ℚ} (hu : u.Exact) (w : ℚ) :
    Extends Access.Asserts (wideCore w).machine ((wideLoops u).run (wideCore w).machine).2 := by
  have hin : (wideMem .paddingOut).HasShape 128 64 1024 1 := ⟨rfl, rfl, rfl, rfl⟩
  have hout : (wideMem .convOut).HasShape 128 64 1024 1 := ⟨rfl, rfl, rfl, rfl⟩
  have hkernel : (wideMem .conv2dKernel).HasShape 1 1 1024 1024 := ⟨rfl, rfl, rfl, rfl⟩
  have hbias : (wideMem .conv2dBias).HasShape 1024 1 1 1 := ⟨rfl, rfl, rfl, rfl⟩
  have hd : Disjoint (wideMem .convOut).region ((wideMem .paddingOut).region ∪
      (wideMem .conv2dKernel).region ∪ (wideMem .conv2dBias).region) := by
    simp only [Set.disjoint_union_right]
    refine ⟨⟨?_, ?_⟩, ?_⟩ <;> exact disjoint_region (by decide)
  refine (conv_produces u hu (wideCore w).machine hd ?_ ?_).trace.mono OpAccess.asserts
  · refine ⟨?_, ?_, Set.subset_union_right⟩
    · exact Set.subset_union_left.trans Set.subset_union_left
    · exact Set.subset_union_right.trans Set.subset_union_left
  · intro x y z v hs
    rw [groupIndex_iff (by decide)] at hs
    rw [hout.inShape_iff, hbias.inShape_iff]
    refine ⟨by omega, by omega, ?_⟩
    intro wX hX wY hY inChannel hi
    rw [mem_steps_one] at hX hY hi
    rw [hkernel.inShape_iff, hin.inShape_iff]
    omega

private theorem wide_dense (m : Machine (Ptr MemName) (Word ℚ) (Access MemName)) :
    ((wideLoops denseSimd).run m).1 = 2151677952 := by
  rw [wideLoops, convLoops_cost denseSimd_unitCost]
  simp [convCost, tripCount, length_steps]

/-- Constant weights are zero in every group or in none. -/
theorem convZeros_const (w : F) (inChannelNum : Int) (rc rx ry : Range) (filterSize : Int) :
    convZeros (fun _ _ _ _ => w) inChannelNum rc rx ry filterSize =
      tripCount rx.begin rx.end_ 1 * (tripCount ry.begin ry.end_ 1 * (tripCount rc.begin rc.end_ 4 *
        (tripCount 0 filterSize 1 * (tripCount 0 filterSize 1 *
          (tripCount 0 inChannelNum 1 * zeroGroup ⟨fun _ => w⟩))))) := by
  simp only [convZeros, List.map_const', List.sum_replicate, smul_eq_mul, tripCount]

/-- With weights that are not zero nothing is skipped, with zero weights everything is. -/
theorem wide_sparse (w : ℚ) : ((wideLoops sparseSimd).run (wideCore w).machine).1 =
    if w = 0 then 4194304 else 2151677952 := by
  have hvalue : (wideMem .conv2dKernel).value (wideCore w).machine.heap = fun _ _ _ _ => w := rfl
  have hcost := convLoops_sparse (wideMem .paddingOut) (wideMem .conv2dBias) wide_keeps 1
    (wideCore w).machine
  have hdense : convCost 1024 ⟨0, 1024⟩ ⟨0, 128⟩ ⟨0, 64⟩ 1 = 2151677952 := by
    simp [convCost, tripCount, length_steps]
  have hgroup : zeroGroup (⟨fun _ => w⟩ : Data ℚ) = if w = 0 then 1 else 0 := by
    by_cases hw : w = 0 <;> simp [zeroGroup, flagZero, hw]
  have hzeros : convZeros ((wideMem .conv2dKernel).value (wideCore w).machine.heap) 1024 ⟨0, 1024⟩
      ⟨0, 128⟩ ⟨0, 64⟩ 1 = if w = 0 then 2147483648 else 0 := by
    rw [hvalue, convZeros_const, hgroup]
    split_ifs <;> simp [tripCount, length_steps]
  rw [hdense, hzeros] at hcost
  -- the loops are a number from here on, or their terms would be compared by running them
  have hsub (n : Nat) (h : n + (if w = 0 then 2147483648 else 0) = 2151677952) :
      n = if w = 0 then 4194304 else 2151677952 := by
    clear hcost hdense hzeros
    split_ifs at h ⊢ <;> omega
  exact hsub _ hcost

/-- A call of `op_conv` whose accesses pass their assertions. -/
theorem opConv_returns {u : Simd F} {core : Core F}
    {inMemName outMemName weightMemName biasMemName : MemName}
    {inMem outMem weight bias : Memory MemName} (hh : FcHub core.memhub inMemName outMemName
      weightMemName biasMemName inMem outMem weight bias) {inChannelNum : Int}
    {outChannelRange outXRange outYRange : Range} {filterSize stride : Int} {n : Nat}
    (hn : ((convLoops u inMem outMem weight bias inChannelNum outChannelRange outXRange outYRange
      filterSize stride).run core.machine).1 = n)
    (hasserts : Extends Access.Asserts core.machine ((convLoops u inMem outMem weight bias
      inChannelNum outChannelRange outXRange outYRange filterSize stride).run core.machine).2) :
    ∃ core', (Core.opConv u inMemName outMemName weightMemName biasMemName inChannelNum
        outChannelRange outXRange outYRange filterSize stride).run core =
          some (intCycles n, core') ∧
      Extends Access.Asserts core.machine core'.machine := by
  rw [← hn]
  exact ⟨_, opConv_eq u hh inChannelNum outChannelRange outXRange outYRange filterSize stride,
    hasserts⟩

theorem wide_returns {u : Simd ℚ} (hu : u.Exact) (w : ℚ) {n : Nat}
    (hn : ((wideLoops u).run (wideCore w).machine).1 = n) :
    ∃ core', (wideConv u).run (wideCore w) = some (intCycles n, core') ∧
      Extends Access.Asserts (wideCore w).machine core'.machine :=
  opConv_returns (wide_fcHub w) hn (wide_asserts hu w)

theorem toInt_wide : (intCycles 2151677952).toInt = -33488896 ∧ (intCycles 4194304).toInt = 65536 :=
  ⟨rfl, rfl⟩

/-- With weights of zero the counter of the dense core overflows and that of the sparse one does
not, so the sparse call takes more cycles. -/
theorem sparse_above_dense : ∃ dense core₁ sparse core₂,
    (wideConv denseSimd).run (wideCore 0) = some (dense, core₁) ∧
    (wideConv sparseSimd).run (wideCore 0) = some (sparse, core₂) ∧
    Extends Access.Asserts (wideCore 0).machine core₁.machine ∧
    Extends Access.Asserts (wideCore 0).machine core₂.machine ∧
    dense.toInt = -33488896 ∧ sparse.toInt = 65536 := by
  obtain ⟨core₁, hdense, hasserts₁⟩ := wide_returns denseSimd_exact 0 (wide_dense _)
  obtain ⟨core₂, hsparse, hasserts₂⟩ := wide_returns sparseSimd_exact 0 (wide_sparse 0)
  rw [if_pos rfl] at hsparse
  exact ⟨_, core₁, _, core₂, hdense, hsparse, hasserts₁, hasserts₂, toInt_wide⟩

end ModernArch.SimpleCNN
