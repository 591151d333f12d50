import ModernArch.SimpleCNN.Core
import ModernArch.Vdev.AIChip

/-!
# The CNN chip

The stages of `ai_chip.cpp` over two activation buffers and one weight buffer. `PrivateHub`
is the same table of names with a buffer for every tensor.
-/

namespace ModernArch.SimpleCNN
open Framework Vdev

variable {F : Type} [Field F] [FloatModel F] [LinearOrder F]

namespace AIChip

def mem1 : Ptr MemName := ⟨.activationMem1, 0⟩
def mem2 : Ptr MemName := ⟨.activationMem2, 0⟩
def mem3 : Ptr MemName := ⟨.weightAndBiasMem, 0⟩

/-- The memories the constructor adds. -/
def baseHub : MemHub MemName :=
  ((MemHub.empty.addMemory .activationMem1 (28 * 28 * 32)).addMemory
    .activationMem2 (28 * 28 * 32)).addMemory .weightAndBiasMem 1663371

/-- The cycles are the bits of `int cyclesUsed`. -/
def stage (u : Simd F) (counter : UInt8) : CoreM F (Nat × Bool) :=
  match counter with
  | 0 => do return ((← Core.opInit).toNat, false)
  | 1 => do return ((← Core.opInput .activationMem2 .paddingIn).toNat, false)
  | 2 => do return ((← Core.opPadding .paddingIn .paddingOut 2 28 28 1 1).toNat, false)
  | 3 => do
      return ((← Core.opConv u .paddingOut .convOut .conv2dKernel .conv2dBias 1 ⟨0, 32⟩ ⟨0, 28⟩
        ⟨0, 28⟩ 5 1).toNat, false)
  | 4 => do return ((← Core.opPool .convOut .poolOut ⟨0, 32⟩ ⟨0, 14⟩ ⟨0, 14⟩ 2 2).toNat, false)
  | 5 => do return ((← Core.opPadding .poolOut .padding1Out 2 14 14 32 1).toNat, false)
  | 6 => do
      return ((← Core.opConv u .padding1Out .conv1Out .conv2d1Kernel .conv2d1Bias 32 ⟨0, 64⟩
        ⟨0, 14⟩ ⟨0, 14⟩ 5 1).toNat, false)
  | 7 => do return ((← Core.opPool .conv1Out .pool1Out ⟨0, 64⟩ ⟨0, 7⟩ ⟨0, 7⟩ 2 2).toNat, false)
  | 8 => do
      return ((← Core.opFc u .pool1Out .denseOut .denseKernel .denseBias (7 * 7 * 64)
        ⟨0, 512⟩).toNat, false)
  | 9 => do
      return ((← Core.opFc u .denseOut .dense1Out .dense1Kernel .dense1Bias 512 ⟨0, 10⟩).toNat, false)
  | 10 => do
      let cyclesUsed ← Core.opOutput .dense1Out
      let core ← get
      Core.exec (storeByte mem1 0 (UInt8.ofInt core.outputIndex))
      return (cyclesUsed.toNat, true)
  | _ => return (0, false)

def dataMem : DataMem → Ptr MemName
  | .mem1 => mem1
  | .mem2 => mem2
  | .mem3 => mem3

def ops (u : Simd F) : ChipOps (Core F) where
  stage := stage u
  readMem d core := readByte core.machine.heap (dataMem d)
  writeMem d off n src core :=
    { core with machine.heap := memcpy core.machine.heap (dataMem d) off src n }

/-- A chip as constructed, over memories of any content. -/
def new (tickPerCycle : Nat) (heap : Heap MemName F) : AIChip (Core F) where
  tickPerCycle
  core := { memhub := baseHub, machine := ⟨heap, []⟩ }

end AIChip

end ModernArch.SimpleCNN
