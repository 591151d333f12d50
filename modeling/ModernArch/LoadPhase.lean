import ModernArch.BinNet.Main
import ModernArch.SimpleCNN.Main

/-!
# The load phase of both drivers

However the copies are cut into packets and wherever the interrupt falls, the views of `op_init`
hold what the driver sent for them.
-/

namespace ModernArch
open Framework Vdev Vdev.Driver

variable {F : Type} [Field F] [FloatModel F] [LinearOrder F]

private theorem cnn_load (u : SimpleCNN.Simd F) (tickPerCycle : Nat)
    (heap : Heap SimpleCNN.MemName F) (threshold : F) (file : Nat → SimpleCNN.Bits)
    {ls : List (Label (SimpleCNN.Core F))} {dev : VirtualDevice (SimpleCNN.Core F)}
    {cpu : BaseCPU}
    (h : Run (Step (SimpleCNN.AIChip.ops u)) (boot (SimpleCNN.AIChip.new tickPerCycle heap)) ls
      ⟨.idle, dev, cpu⟩)
    (hcalls : calls ls = SimpleCNN.loadCalls threshold file) :
    Delivered dev.aichip.core.memhub dev.aichip.core.machine.heap .weightAndBiasMem
      SimpleCNN.weightNames (SimpleCNN.sent threshold file) := by
  have hdone := @run_idle _ (SimpleCNN.lawfulOps u) _ _ _ _ h
    (hcalls ▸ SimpleCNN.loadCalls_inWindow threshold file)
  rw [hcalls] at hdone
  have hchip := Option.some.inj
    (hdone.symm.trans (SimpleCNN.apply_load u tickPerCycle heap threshold file))
  rw [hchip]
  exact SimpleCNN.load_delivers heap threshold file

private theorem binnet_load (tickPerCycle : Nat) (loadOnce : Bool) (array : BinNet.RramArray F)
    (heap : Heap BinNet.MemName F) (separate : BinNet.FcName → BinNet.LayerArrays)
    (merged : BinNet.LayerArrays) {ls : List (Label (BinNet.Chip F))}
    {dev : VirtualDevice (BinNet.Chip F)} {cpu : BaseCPU}
    (h : Run (Step BinNet.AIChip.ops) (boot (BinNet.AIChip.new tickPerCycle loadOnce array heap)) ls
      ⟨.idle, dev, cpu⟩)
    (hcalls : calls ls = BinNet.sendCalls loadOnce separate merged) :
    Delivered dev.aichip.core.core.memhub dev.aichip.core.core.heap .weightAndBiasMem
      BinNet.weightNames (BinNet.sent loadOnce separate merged) := by
  have hdone := @run_idle _ BinNet.lawfulOps _ _ _ _ h
    (hcalls ▸ BinNet.sendCalls_inWindow loadOnce separate merged)
  rw [hcalls] at hdone
  have hchip := Option.some.inj
    (hdone.symm.trans (BinNet.apply_load tickPerCycle loadOnce array heap _))
  rw [hchip]
  exact BinNet.load_delivers loadOnce separate merged heap

/-- In every run of the load phase the views hold what was sent under their names, lie in the
weight memory and are apart; every name is sent, but in the mode that loads once only those of
the first layer. -/
theorem load_phase (u : SimpleCNN.Simd F) (tickPerCycle : Nat) :
    (∀ (heap : Heap SimpleCNN.MemName F) (threshold : F) (file : Nat → SimpleCNN.Bits)
      (ls : List (Label (SimpleCNN.Core F))) (dev : VirtualDevice (SimpleCNN.Core F))
      (cpu : BaseCPU),
      Run (Step (SimpleCNN.AIChip.ops u)) (boot (SimpleCNN.AIChip.new tickPerCycle heap)) ls
        ⟨.idle, dev, cpu⟩ →
      calls ls = SimpleCNN.loadCalls threshold file →
      (SimpleCNN.sent threshold file).map Prod.fst = SimpleCNN.weightNames ∧
      Delivered dev.aichip.core.memhub dev.aichip.core.machine.heap .weightAndBiasMem
        SimpleCNN.weightNames (SimpleCNN.sent threshold file)) ∧
    (∀ (loadOnce : Bool) (array : BinNet.RramArray F) (heap : Heap BinNet.MemName F)
      (separate : BinNet.FcName → BinNet.LayerArrays) (merged : BinNet.LayerArrays)
      (ls : List (Label (BinNet.Chip F))) (dev : VirtualDevice (BinNet.Chip F)) (cpu : BaseCPU),
      Run (Step BinNet.AIChip.ops) (boot (BinNet.AIChip.new tickPerCycle loadOnce array heap)) ls
        ⟨.idle, dev, cpu⟩ →
      calls ls = BinNet.sendCalls loadOnce separate merged →
      (BinNet.sent loadOnce separate merged).map Prod.fst =
        (if loadOnce then BinNet.layerNames .fc1 else BinNet.weightNames) ∧
      Delivered dev.aichip.core.core.memhub dev.aichip.core.core.heap .weightAndBiasMem
        BinNet.weightNames (BinNet.sent loadOnce separate merged)) := by
  constructor
  · intro heap threshold file ls dev cpu h hcalls
    refine ⟨?_, cnn_load u tickPerCycle heap threshold file h hcalls⟩
    rw [SimpleCNN.sent, SimpleCNN.readTensors_fst]
    rfl
  · intro loadOnce array heap separate merged ls dev cpu h hcalls
    exact ⟨BinNet.sent_names loadOnce separate merged,
      binnet_load tickPerCycle loadOnce array heap separate merged h hcalls⟩

/-- A model file whose floats differ. -/
def countedFile (i : Nat) : SimpleCNN.Bits := ![UInt8.ofNat i, UInt8.ofNat (i / 256), 128, 63]

/-- The arrays of a layer, with entries that differ from each other and from those of another
layer. -/
def countedLayer (fc : BinNet.FcName) : BinNet.LayerArrays where
  fcW i j := Int8.ofInt (i - 2 * j + fc.rows)
  bnB i := ![UInt8.ofNat i, UInt8.ofNat (i / 256), UInt8.ofNat fc.rows, 0]
  bnW i := ![UInt8.ofNat i, UInt8.ofNat (i / 256), UInt8.ofNat fc.rows, 1]
  bnVar i := ![UInt8.ofNat i, UInt8.ofNat (i / 256), UInt8.ofNat fc.rows, 2]
  bnMean i := ![UInt8.ofNat i, UInt8.ofNat (i / 256), UInt8.ofNat fc.rows, 3]

/-- The load phase of both drivers can be run. -/
theorem load_phase_runs :
    (∃ (ls : List (Label (SimpleCNN.Core ℚ))) (dev : VirtualDevice (SimpleCNN.Core ℚ)),
      calls ls = SimpleCNN.loadCalls (1 : ℚ) countedFile ∧
      Delivered dev.aichip.core.memhub dev.aichip.core.machine.heap .weightAndBiasMem
        SimpleCNN.weightNames (SimpleCNN.sent (1 : ℚ) countedFile)) ∧
    ∃ (ls : List (Label (BinNet.Chip ℚ))) (dev : VirtualDevice (BinNet.Chip ℚ)),
      calls ls = BinNet.sendCalls false countedLayer .zero ∧
      Delivered dev.aichip.core.core.memhub dev.aichip.core.core.heap .weightAndBiasMem
        BinNet.weightNames (BinNet.sent false countedLayer .zero) := by
  constructor
  · obtain ⟨ls, dev, cpu, hrun, hcalls, -⟩ := exists_run (SimpleCNN.lawfulOps SimpleCNN.denseSimd)
      (SimpleCNN.loadCalls_inWindow (1 : ℚ) countedFile)
      (SimpleCNN.apply_load SimpleCNN.denseSimd 1 (fun p => .float (p.off : ℚ)) 1 _)
    exact ⟨ls, dev, hcalls, ((load_phase SimpleCNN.denseSimd 1).1 _ _ _ ls dev cpu hrun hcalls).2⟩
  · obtain ⟨ls, dev, cpu, hrun, hcalls, -⟩ := exists_run BinNet.lawfulOps
      (BinNet.sendCalls_inWindow false countedLayer .zero)
      (BinNet.apply_load 1 false BinNet.zeroChip.core.array (fun p => .float (p.off : ℚ)) _)
    exact ⟨ls, dev, hcalls,
      ((load_phase SimpleCNN.denseSimd 1).2 _ _ _ _ _ ls dev cpu hrun hcalls).2⟩

end ModernArch
