import ModernArch.BinNet.Pipeline

/-!
# The main loop of the BinNet driver

The chip is initialised, receives the weights and then classifies one image after another.
-/

namespace ModernArch.BinNet
open Framework Vdev
set_option linter.unusedSectionVars false

variable {F : Type} [Field F] [FloatModel F] [LinearOrder F]

abbrev DriverM (F : Type) := StateT (Vdev.AIChip (Chip F)) Option

/-- `periInit(data, 0)` and the writes of the weights. -/
def loadPhase (loadOnce : Bool) (files : ModelFiles) : DriverM F Unit := do
  let _ ← Vdev.AIChip.runCounter AIChip.ops 0
  modify fun chip =>
    { chip with core := AIChip.ops.writeAll .mem3 0 (payload loadOnce files) chip.core }

/-- One pass of the image loop, with the class the last counter leaves. -/
def classify (image : Nat → UInt8) : DriverM F Int := do
  modify fun chip => { chip with core := AIChip.ops.writeMem .mem2 0 784 image chip.core }
  let _ ← (List.range' 1 7).mapM fun j => Vdev.AIChip.runCounter AIChip.ops (UInt8.ofNat j)
  return (← get).core.core.outputIndex

def mainLoop (loadOnce : Bool) (files : ModelFiles) (images : List (Nat → UInt8)) :
    DriverM F (List Int) := do
  loadPhase loadOnce files
  images.mapM classify

theorem writeAll_eq (off : Nat) (bs : List Block) (chip : Chip F) :
    AIChip.ops.writeAll .mem3 off bs chip =
      { chip with core.heap := sendAll AIChip.mem3 chip.core.heap off bs } := by
  induction bs generalizing off chip with
  | nil => rfl
  | cons b bs ih =>
      rw [ChipOps.writeAll, ih]
      rfl

/-- The memory after the load phase. -/
def loadedHeap (loadOnce : Bool) (files : ModelFiles) (heap : Heap MemName F) : Heap MemName F :=
  sendAll AIChip.mem3 heap 0 (payload loadOnce files)

/-- The chip after `op_init`. -/
def initChip (loadOnce : Bool) (array : RramArray F) (heap : Heap MemName F) : Chip F :=
  { core := { memhub := initHub, heap }, array, loadOnce }

theorem stage_init (tickPerCycle : Nat) (loadOnce : Bool) (array : RramArray F)
    (heap : Heap MemName F) :
    (AIChip.stage 0).run (AIChip.new tickPerCycle loadOnce array heap).core =
      some ((1, false), initChip loadOnce array heap) := by
  simp [AIChip.stage, Core.opInit, Core.getPtr, Core.getMemory, AIChip.new, AIChip.baseHub,
    MemHub.addMemory, MemHub.getMemory_emplace, Memory.index, Memory.wzyxLen, Memory.wzyLen,
    Memory.wzLen, Memory.addr]
  rfl

theorem loadPhase_spec (loadOnce : Bool) (files : ModelFiles) (tickPerCycle : Nat)
    (array : RramArray F) (heap : Heap MemName F) :
    ∃ chip, (loadPhase loadOnce files).run (AIChip.new tickPerCycle loadOnce array heap) =
        some ((), chip) ∧
      Stocked (loadedHeap loadOnce files heap) chip.core ∧ chip.core.loadOnce = loadOnce ∧
      chip.core.weightLoaded = false ∧ chip.core.array = array := by
  let core := initChip loadOnce array heap
  have hstage := stage_init tickPerCycle loadOnce array heap
  have hrun := @Vdev.AIChip.runCounter_of_stage _ AIChip.ops
    (AIChip.new tickPerCycle loadOnce array heap) 0 _ _ _ hstage
  refine ⟨⟨tickPerCycle, false, 0, AIChip.ops.writeAll .mem3 0 (payload loadOnce files) core⟩,
    ?_, ?_⟩
  · simp only [loadPhase, StateT.run_bind, hrun, Option.bind_eq_bind, Option.bind_some]
    rfl
  · rw [writeAll_eq]
    exact ⟨⟨initHub_serves, fun p _ => rfl⟩, rfl, rfl, rfl⟩

section Image

variable {base : Heap MemName F} {chip : Vdev.AIChip (Chip F)}

private theorem counters_spec {start : Chip F} {image : Nat → UInt8}
    (hplaced : AllPlaced (arrayUsed base start)) (h : Progress base start image 0 chip.core) :
    ∃ ts chip', ((List.range' 1 7).mapM fun j =>
        Vdev.AIChip.runCounter AIChip.ops (UInt8.ofNat j)).run chip = some (ts, chip') ∧
      Progress base start image 7 chip'.core := by
  obtain ⟨ts, chip', hrun, -, k, hk, hempty, hend⟩ := mapM_run
    (fun l chip => ∃ k ≤ 7, l = List.range' (k + 1) (7 - k) ∧
      Progress base start image k chip.core)
    (fun _ _ => True) (fun j => Vdev.AIChip.runCounter AIChip.ops (UInt8.ofNat j))
    (fun j l chip hI => by
      obtain ⟨k, hk, hl, hprog⟩ := hI
      have hlt : k < 7 := by
        by_contra hge
        simp [show 7 - k = 0 by omega] at hl
      rw [show 7 - k = (7 - (k + 1)) + 1 by omega, List.range'_succ] at hl
      injection hl with hj hl
      obtain ⟨⟨cycles, done⟩, core, hstage, hnext⟩ := stage_step hplaced hlt hprog
      have hrun := Vdev.AIChip.runCounter_of_stage AIChip.ops hstage
      exact ⟨_, _, hj ▸ hrun, trivial, k + 1, hlt, hl, hnext⟩)
    (List.range' 1 7) chip ⟨0, by decide, rfl, h⟩
  obtain rfl : k = 7 := by
    have hlen := congrArg List.length hempty
    simp at hlen
    omega
  exact ⟨ts, chip', hrun, hend⟩

/-- The chip classifies with the arrays it uses, and keeps the last one. -/
theorem classify_spec (hs : Stocked base chip.core) (hplaced : AllPlaced (arrayUsed base chip.core))
    (image : Nat → UInt8) :
    ∃ chip', (classify image).run chip =
        some ((classifierOf (arrayUsed base chip.core)).predict image, chip') ∧
      Stocked base chip'.core ∧ chip'.core.loadOnce = chip.core.loadOnce ∧
      chip'.core.weightLoaded = true ∧ chip'.core.array = arrayUsed base chip.core .fc3 := by
  let written : Vdev.AIChip (Chip F) :=
    { chip with core := AIChip.ops.writeMem .mem2 0 784 image chip.core }
  have hstart : Progress base chip.core image 0 written.core := by
    refine ⟨hs.of_heap rfl ?_, rfl, ?_, rfl, ?_, by omega⟩
    · intro p hp
      exact memcpy_other_buf _ _ _ _ _ _ (by simp [hp, AIChip.dataMem, AIChip.mem2])
    · simp [written, AIChip.ops]
    · intro j hj
      have hread := readByte_memcpy chip.core.core.heap AIChip.mem2 0 784 j image
      rw [if_pos ⟨Nat.zero_le j, by omega⟩] at hread
      exact hread
  obtain ⟨ts, chip', hrun, hend⟩ := counters_spec hplaced hstart
  refine ⟨chip', ?_, hend.toStocked, hend.loadOnce, by simp [hend.weightLoaded], hend.array⟩
  rw [← hend.result le_rfl]
  simp only [classify, StateT.run_bind, Option.bind_eq_bind]
  change ((((List.range' 1 7).mapM fun j =>
    Vdev.AIChip.runCounter AIChip.ops (UInt8.ofNat j)).run written).bind _) = _
  rw [hrun]
  rfl

end Image

end ModernArch.BinNet
