import ModernArch.BinNet.Cycles
import ModernArch.SimpleCNN.Sparsify
import ModernArch.Vdev.Delay

/-!
# Delays of both chips

The delay of a run is a product of `int`s. For which clock periods it is exact depends on the
cycles of the stage, which the tables give.
-/

namespace ModernArch
open Framework Vdev

variable {F : Type} [Field F] [FloatModel F] [LinearOrder F]

namespace SimpleCNN

private theorem stageCycles_lt (zeros : UInt8 → Nat) (counter : UInt8) :
    stageCycles zeros counter < 2 ^ 31 := by
  have hcounted := counted_le counter
  unfold stageCycles
  split
  all_goals first | decide | skip
  omega

/-- The hub of a chip, before or after `op_init`. -/
def ChipHub (memhub : MemHub MemName) : Prop :=
  memhub = AIChip.baseHub ∨ Serves aliased memhub

end SimpleCNN

/-- The delay of a run is exact, and the interrupt at the right time, exactly when the clock
period and its product with the cycles of the stage fit an `int` and the time fits a tick; the
counts of the loops always fit. -/
theorem delay_exact_iff (clockPeriod curTick delaySet : Tick) :
    (∀ chip : AIChip (SimpleCNN.Core F),
      ExactIff (SimpleCNN.AIChip.ops SimpleCNN.denseSimd) clockPeriod curTick delaySet chip
        (SimpleCNN.stageCycles (fun _ => 0) chip.counter) ∧
      (SimpleCNN.ChipHub chip.core.memhub →
        ExactIff (SimpleCNN.AIChip.ops SimpleCNN.sparseSimd) clockPeriod curTick delaySet chip
          (SimpleCNN.stageCycles
            (SimpleCNN.zeroGroups (SimpleCNN.weightsIn chip.core.machine.heap)) chip.counter)) ∧
      (SimpleCNN.Serves SimpleCNN.aliased chip.core.memhub → ∀ u : SimpleCNN.Simd F, u.Exact →
        ∃ r, (AIChip.runInt (SimpleCNN.AIChip.ops u) clockPeriod).run chip = some r)) ∧
    (∀ chip : AIChip (BinNet.Chip F),
      ExactIff BinNet.AIChip.ops clockPeriod curTick delaySet chip (BinNet.stageCycles
        chip.core.loadOnce chip.core.weightLoaded chip.counter) ∧
      (BinNet.Serves chip.core.core.memhub →
        ∃ r, (AIChip.runInt BinNet.AIChip.ops clockPeriod).run chip = some r)) ∧
    ∀ (inMem outMem weight bias : Memory SimpleCNN.MemName) (counter : UInt8)
      (m : Framework.Machine (Ptr SimpleCNN.MemName) (Word F)
        (SimpleCNN.Access SimpleCNN.MemName)),
      ((SimpleCNN.stageLoops SimpleCNN.denseSimd inMem outMem weight bias counter).run m).1 <
        2 ^ 31 ∧
      ((SimpleCNN.stageLoops SimpleCNN.sparseSimd inMem outMem weight bias counter).run m).1 <
        2 ^ 31 := by
  refine ⟨?_, ?_, ?_⟩
  · intro chip
    refine ⟨?_, ?_, ?_⟩
    · exact exactIff_of_cycles (SimpleCNN.stage_yields chip.counter chip.core)
        (SimpleCNN.stageCycles_lt _ _)
    · intro hhub
      exact exactIff_of_cycles (fun _ hx => SimpleCNN.stage_sparse_cycles hhub hx)
        (SimpleCNN.stageCycles_lt _ _)
    · intro hs u hu
      obtain ⟨x, core, hrun, -⟩ := SimpleCNN.stage_returns u hu hs chip.counter
      exact runInt_returns ⟨_, hrun⟩ clockPeriod
  · intro chip
    constructor
    · have hle := BinNet.stageCycles_le chip.core.loadOnce chip.core.weightLoaded chip.counter
      exact exactIff_of_cycles (fun _ hx => BinNet.stage_cycles hx) (by omega)
    · intro hs
      exact runInt_returns (BinNet.stage_returns hs chip.counter) clockPeriod
  · intro inMem outMem weight bias counter m
    have hdense := SimpleCNN.stageLoops_dense inMem outMem weight bias counter m
    have hsparse := SimpleCNN.stageLoops_sparse inMem outMem weight bias counter m
    have hcounted := SimpleCNN.counted_le counter
    constructor <;> omega

/-- A chip with its views in place that is about to run the second convolution. -/
def convChip : AIChip (SimpleCNN.Core ℚ) where
  counter := 6
  core := SimpleCNN.initCore fun _ => .float 0

/-- A chip that is about to run its first layer and to load it. -/
def layerChip : AIChip (BinNet.Chip ℚ) where
  counter := 2
  core := {
    core := { memhub := BinNet.initHub, heap := fun _ => .float 0 }
    array := ⟨fun _ => 1, 0, fun _ _ => 0, fun _ _ => 0, fun _ => 0, fun _ => 0, fun _ => 0,
      fun _ => 0⟩
    loadOnce := true }

/-- At one gigahertz the delay is exact. -/
theorem delay_exact_gigahertz :
    (∃ r, (AIChip.runInt (SimpleCNN.AIChip.ops SimpleCNN.denseSimd) 1000).run convChip = some r ∧
      ExactRun (SimpleCNN.AIChip.ops SimpleCNN.denseSimd) 1000 0 1000 convChip r.1) ∧
    (∃ r, (AIChip.runInt (SimpleCNN.AIChip.ops SimpleCNN.sparseSimd) 1000).run
        { convChip with counter := 0 } = some r ∧
      ExactRun (SimpleCNN.AIChip.ops SimpleCNN.sparseSimd) 1000 0 1000
        { convChip with counter := 0 } r.1) ∧
    ∃ r, (AIChip.runInt BinNet.AIChip.ops 1000).run layerChip = some r ∧
      ExactRun BinNet.AIChip.ops 1000 0 1000 layerChip r.1 := by
  have hall (counter : UInt8) := (@delay_exact_iff ℚ _ _ _ 1000 0 1000).1
    { convChip with counter }
  refine ⟨?_, ?_, ?_⟩
  · obtain ⟨hdense, -, hreturns⟩ := hall 6
    obtain ⟨r, hr⟩ := hreturns SimpleCNN.aliasedHub_serves _ SimpleCNN.denseSimd_exact
    exact ⟨r, hr, (hdense r hr).mpr (by decide)⟩
  · obtain ⟨-, hsparse, hreturns⟩ := hall 0
    obtain ⟨r, hr⟩ := hreturns SimpleCNN.aliasedHub_serves _ SimpleCNN.sparseSimd_exact
    refine ⟨r, hr, (hsparse (Or.inr SimpleCNN.aliasedHub_serves) r hr).mpr ?_⟩
    exact (show DelayFits 1000 0 1000 1 by decide)
  · obtain ⟨hexact, hreturns⟩ := (@delay_exact_iff ℚ _ _ _ 1000 0 1000).2.1 layerChip
    obtain ⟨r, hr⟩ := hreturns BinNet.initHub_serves
    exact ⟨r, hr, (hexact r hr).mpr (by decide)⟩

/-- At ten megahertz the product overflows, and the interrupt comes before the present. -/
theorem delay_overflow :
    ∃ r, (AIChip.runInt (SimpleCNN.AIChip.ops SimpleCNN.denseSimd) 100000).run convChip = some r ∧
      interruptTick 1000000000 1000 r.1 < 1000000000 ∧
      ¬ ExactRun (SimpleCNN.AIChip.ops SimpleCNN.denseSimd) 100000 1000000000 1000 convChip
        r.1 := by
  have hserves : SimpleCNN.Serves SimpleCNN.aliased convChip.core.memhub :=
    SimpleCNN.aliasedHub_serves
  obtain ⟨x, core, hrun, -⟩ := SimpleCNN.stage_returns SimpleCNN.denseSimd
    SimpleCNN.denseSimd_exact hserves 6
  have hreturns : ∃ x, ((SimpleCNN.AIChip.ops SimpleCNN.denseSimd).stage convChip.counter).run
      convChip.core = some x := ⟨_, hrun⟩
  obtain ⟨r, hr⟩ := runInt_returns hreturns 100000
  obtain ⟨cyclesUsed, done, core, hstage, rfl⟩ := runInt_cases hr
  obtain rfl : cyclesUsed = 39298 := SimpleCNN.stage_yields 6 convChip.core _ hstage
  have hpast : interruptTick 1000000000 1000 (runTicks 100000 39298) < 1000000000 := by decide
  refine ⟨_, hr, hpast, ?_⟩
  intro hexact
  obtain ⟨n, d, c, -, hexact⟩ := hexact
  exact absurd hexact.future (BitVec.not_le.mpr hpast)

end ModernArch
