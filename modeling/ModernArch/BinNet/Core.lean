import ModernArch.BinNet.RramArray
import ModernArch.Framework.Argmax
import ModernArch.Vdev.AIChip

/-!
# The BinNet chip

Core operations and the stages of `ai_chip.cpp`. Activations are bytes in the first buffer and
floats in the second; the weights of the three layers follow each other in the third.
-/

namespace ModernArch.BinNet
open Framework Vdev
set_option linter.unusedSectionVars false

inductive FcName where
  | fc1 | fc2 | fc3
deriving DecidableEq, Repr

inductive MemName where
  | activationMem1 | activationMem2 | weightAndBiasMem
  | fcWeight (fc : FcName)
  | bnBias (fc : FcName) | bnWeight (fc : FcName) | bnVar (fc : FcName) | bnMean (fc : FcName)
  | fc1In | fc1Out | sign1Out | fc2Out | sign2Out | fc3Out
deriving DecidableEq, Repr

structure Core (F : Type) where
  outputIndex : Int := -1
  memhub : MemHub MemName
  heap : Heap MemName F

/-- The private members of the chip. -/
structure Chip (F : Type) where
  core : Core F
  array : RramArray F
  loadOnce : Bool
  weightLoaded : Bool := false

/-- Operations throw when a name is not in the hub or an assertion fails. -/
abbrev ChipM (F : Type) := StateT (Chip F) Option

variable {F N : Type} [Field F] [FloatModel F] [LinearOrder F]

/-- The matrix of bytes at a pointer, as `std::int8_t (*)[1024]`. -/
def gridAt (h : Heap N F) (p : Ptr N) : Grid Int8 := fun i j => int8At h p (1024 * i + j)

def floatsAt (h : Heap N F) (p : Ptr N) : Nat → F := fun i => (h (p.add i)).toFloat

def inputLoop [DecidableEq N] (source target : Ptr N) (h : Heap N F) : Heap N F :=
  forRange 784 h fun i h => writeByte h target i (if 0 < readByte h source i then 1 else 0)

namespace Core

def getMemory (memName : MemName) : ChipM F (Memory MemName) := do
  StateT.lift ((← get).core.memhub.getMemory memName)

/-- `getMemory(memName).getPtr()` with the assertion of `getPtr`. -/
def getPtr (memName : MemName) : ChipM F (Ptr MemName) := do
  let mem ← getMemory memName
  if mem.index 0 0 0 0 < mem.wzyxLen then return mem.addr 0 0 0 0 else failure

def modifyHeap (f : Heap MemName F → Heap MemName F) : ChipM F Unit :=
  modify fun chip => { chip with core.heap := f chip.core.heap }

/-- The views of one layer, and where the next layer starts. -/
def addLayer (fc : FcName) (memhub : MemHub MemName) (mem3 : Ptr MemName) :
    MemHub MemName × Ptr MemName :=
  let hub := memhub.addSharedMemory (.fcWeight fc) mem3 (1024 * 1024 / 4)
  let mem3 := mem3.add (1024 * 1024 / 4)
  let hub := hub.addSharedMemory (.bnBias fc) mem3 1024
  let mem3 := mem3.add 1024
  let hub := hub.addSharedMemory (.bnWeight fc) mem3 1024
  let mem3 := mem3.add 1024
  let hub := hub.addSharedMemory (.bnVar fc) mem3 1024
  let mem3 := mem3.add 1024
  let hub := hub.addSharedMemory (.bnMean fc) mem3 1024
  (hub, mem3.add 1024)

def addViews (memhub : MemHub MemName) (mem1 mem2 mem3 : Ptr MemName) : MemHub MemName :=
  let (hub, mem3) := addLayer .fc1 memhub mem3
  let (hub, mem3) := addLayer .fc2 hub mem3
  let (hub, _) := addLayer .fc3 hub mem3
  let hub := hub.addSharedMemory .fc1In mem1 1024
  let hub := hub.addSharedMemory .fc1Out mem2 1024
  let hub := hub.addSharedMemory .sign1Out mem1 1024
  let hub := hub.addSharedMemory .fc2Out mem2 1024
  let hub := hub.addSharedMemory .sign2Out mem1 1024
  hub.addSharedMemory .fc3Out mem2 1024

def opInit : ChipM F Nat := do
  let mem3 ← getPtr .weightAndBiasMem
  let mem1 ← getPtr .activationMem1
  let mem2 ← getPtr .activationMem2
  modify fun chip => { chip with core.memhub := addViews chip.core.memhub mem1 mem2 mem3 }
  return 1

def opInput (fromMemName toMemName : MemName) : ChipM F Nat := do
  let source ← getPtr fromMemName
  let target ← getPtr toMemName
  modifyHeap (inputLoop source target)
  return 10

def opOutput (memName : MemName) : ChipM F Nat := do
  let ptr ← getPtr memName
  modify fun chip => { chip with
    core.outputIndex := maxElement (fun i => (chip.core.heap (ptr.add i)).toFloat) 10 }
  return 10

def opFcCalculate (inMemName outMemName fcWeightMemName bnVarMemName bnMeanMemName
    bnWeightMemName bnBiasMemName : MemName) (loadWeight : Bool) : ChipM F Nat := do
  let input ← getPtr inMemName
  let output ← getPtr outMemName
  let fcW ← getPtr fcWeightMemName
  let bnVar ← getPtr bnVarMemName
  let bnMean ← getPtr bnMeanMemName
  let bnW ← getPtr bnWeightMemName
  let bnB ← getPtr bnBiasMemName
  if loadWeight then
    modify fun chip => { chip with
      array := chip.array.loadWeight (gridAt chip.core.heap fcW) (floatsAt chip.core.heap bnMean)
        (floatsAt chip.core.heap bnVar) (floatsAt chip.core.heap bnW)
        (floatsAt chip.core.heap bnB) }
  let chip ← get
  modifyHeap (chip.array.calculate input output)
  return (if loadWeight then 100000 else 0) + 100

def opSign (inMemName outMemName : MemName) : ChipM F Nat := do
  let input ← getPtr inMemName
  let output ← getPtr outMemName
  modifyHeap (sign input output)
  return 1

end Core

namespace AIChip

def mem1 : Ptr MemName := ⟨.activationMem1, 0⟩
def mem2 : Ptr MemName := ⟨.activationMem2, 0⟩
def mem3 : Ptr MemName := ⟨.weightAndBiasMem, 0⟩

/-- The memories the constructor adds. -/
def baseHub : MemHub MemName :=
  ((MemHub.empty.addMemory .activationMem1 1024).addMemory .activationMem2 1024).addMemory
    .weightAndBiasMem 802816

def stage (counter : UInt8) : ChipM F (Nat × Bool) := do
  let chip ← get
  match counter with
  | 0 => return (← Core.opInit, false)
  | 1 => return (← Core.opInput .activationMem2 .fc1In, false)
  | 2 =>
      let cyclesUsed ← Core.opFcCalculate .fc1In .fc1Out (.fcWeight .fc1) (.bnVar .fc1)
        (.bnMean .fc1) (.bnWeight .fc1) (.bnBias .fc1) (!chip.loadOnce || !chip.weightLoaded)
      modify fun chip => { chip with weightLoaded := true }
      return (cyclesUsed, false)
  | 3 => return (← Core.opSign .fc1Out .sign1Out, false)
  | 4 =>
      return (← Core.opFcCalculate .sign1Out .fc2Out (.fcWeight .fc2) (.bnVar .fc2)
        (.bnMean .fc2) (.bnWeight .fc2) (.bnBias .fc2) (!chip.loadOnce), false)
  | 5 => return (← Core.opSign .fc2Out .sign2Out, false)
  | 6 =>
      return (← Core.opFcCalculate .sign2Out .fc3Out (.fcWeight .fc3) (.bnVar .fc3)
        (.bnMean .fc3) (.bnWeight .fc3) (.bnBias .fc3) (!chip.loadOnce), false)
  | 7 =>
      let cyclesUsed ← Core.opOutput .fc3Out
      modify fun chip => { chip with
        core.heap := writeByte chip.core.heap mem1 0 (UInt8.ofInt chip.core.outputIndex) }
      return (cyclesUsed, true)
  | _ => return (0, false)

def dataMem : DataMem → Ptr MemName
  | .mem1 => mem1
  | .mem2 => mem2
  | .mem3 => mem3

def ops : ChipOps (Chip F) where
  stage := stage
  readMem d chip := readByte chip.core.heap (dataMem d)
  writeMem d off n src chip :=
    { chip with core.heap := memcpy chip.core.heap (dataMem d) off src n }

/-- A chip as constructed, over an array and memories of any content. -/
def new (tickPerCycle : Nat) (loadOnce : Bool) (array : RramArray F) (heap : Heap MemName F) :
    Vdev.AIChip (Chip F) where
  tickPerCycle
  core := { core := { memhub := baseHub, heap }, array, loadOnce }

end AIChip

def FcName.base : FcName → Nat
  | .fc1 => 0
  | .fc2 => 266240
  | .fc3 => 532480

def place : MemName → Ptr MemName
  | .fcWeight fc => ⟨.weightAndBiasMem, fc.base⟩
  | .bnBias fc => ⟨.weightAndBiasMem, fc.base + 262144⟩
  | .bnWeight fc => ⟨.weightAndBiasMem, fc.base + 263168⟩
  | .bnVar fc => ⟨.weightAndBiasMem, fc.base + 264192⟩
  | .bnMean fc => ⟨.weightAndBiasMem, fc.base + 265216⟩
  | .fc1In | .sign1Out | .sign2Out => ⟨.activationMem1, 0⟩
  | .fc1Out | .fc2Out | .fc3Out => ⟨.activationMem2, 0⟩
  | name => ⟨name, 0⟩

def viewLen : MemName → Int
  | .weightAndBiasMem => 802816
  | .fcWeight _ => 262144
  | _ => 1024

def view (name : MemName) : Memory MemName := ⟨place name, viewLen name, 1, 1, 1⟩

def Serves (memhub : MemHub MemName) : Prop :=
  ∀ name, memhub.getMemory name = some (view name)

def initHub : MemHub MemName := Core.addViews AIChip.baseHub AIChip.mem1 AIChip.mem2 AIChip.mem3

theorem initHub_serves : Serves initHub := by
  intro name
  cases name with
  | fcWeight fc | bnBias fc | bnWeight fc | bnVar fc | bnMean fc =>
      cases fc <;> simp [initHub, Core.addViews, Core.addLayer, MemHub.addSharedMemory,
        AIChip.baseHub, MemHub.addMemory, MemHub.getMemory_emplace, view, viewLen, place,
        FcName.base, AIChip.mem1, AIChip.mem2, AIChip.mem3, Ptr.add]
  | _ =>
      simp [initHub, Core.addViews, Core.addLayer, MemHub.addSharedMemory,
        AIChip.baseHub, MemHub.addMemory, MemHub.getMemory_emplace, view, viewLen, place,
        AIChip.mem1, AIChip.mem2, AIChip.mem3]

namespace Core

theorem run_getMemory {chip : Chip F} (h : Serves chip.core.memhub) (name : MemName) :
    (getMemory name).run chip = some (view name, chip) := by
  simp [getMemory, h name]

theorem run_getPtr {chip : Chip F} (h : Serves chip.core.memhub) (name : MemName) :
    (getPtr name).run chip = some (place name, chip) := by
  have haddr : (view name).addr 0 0 0 0 = place name := by
    simp [Memory.addr, Memory.index, view]
  have hassert : (view name).index 0 0 0 0 < (view name).wzyxLen := by
    cases name <;> simp [Memory.index, Memory.wzyxLen, Memory.wzyLen, Memory.wzLen, view, viewLen]
  simp [getPtr, run_getMemory h, hassert, haddr]

@[simp] theorem run_modifyHeap (f : Heap MemName F → Heap MemName F) (chip : Chip F) :
    (modifyHeap f).run chip = some ((), { chip with core.heap := f chip.core.heap }) := rfl

variable {chip : Chip F}

theorem run_opInput (h : Serves chip.core.memhub) (source target : MemName) :
    (opInput source target).run chip =
      some (10, { chip with core.heap := inputLoop (place source) (place target) chip.core.heap }) := by
  simp [opInput, run_getPtr h]

theorem run_opSign (h : Serves chip.core.memhub) (input output : MemName) :
    (opSign input output).run chip =
      some (1, { chip with core.heap := sign (place input) (place output) chip.core.heap }) := by
  simp [opSign, run_getPtr h]

theorem run_opOutput (h : Serves chip.core.memhub) (name : MemName) :
    (opOutput name).run chip =
      some (10, { chip with
        core.outputIndex :=
          maxElement (fun i => (chip.core.heap ((place name).add i)).toFloat) 10 }) := by
  simp [opOutput, run_getPtr h]

/-- The array after the load of a layer from its views. -/
def loadedArray (h : Heap MemName F) (fc : FcName) (a : RramArray F) : RramArray F :=
  a.loadWeight (gridAt h (place (.fcWeight fc))) (floatsAt h (place (.bnMean fc)))
    (floatsAt h (place (.bnVar fc))) (floatsAt h (place (.bnWeight fc)))
    (floatsAt h (place (.bnBias fc)))

theorem run_opFcCalculate (h : Serves chip.core.memhub) (input output : MemName) (fc : FcName)
    (loadWeight : Bool) :
    let array := if loadWeight then loadedArray chip.core.heap fc chip.array else chip.array
    ∃ cycles, (opFcCalculate input output (.fcWeight fc) (.bnVar fc) (.bnMean fc) (.bnWeight fc)
        (.bnBias fc) loadWeight).run chip =
      some (cycles, { chip with
        array
        core.heap := array.calculate (place input) (place output) chip.core.heap }) := by
  intro array
  cases loadWeight with
  | false => exact ⟨100, by simp [opFcCalculate, run_getPtr h, array]⟩
  | true => exact ⟨100100, by simp [opFcCalculate, run_getPtr h, array, loadedArray]⟩

end Core

end ModernArch.BinNet
