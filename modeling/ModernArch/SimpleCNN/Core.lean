import ModernArch.Framework.Footprint
import ModernArch.Framework.Argmax
import ModernArch.Vdev.Memory
import Mathlib

/-!
# Operations of the CNN core

Four-lane arithmetic and the loops of `core.cpp`, over memories of exact values. Every call
of `getPtr` and every cell loaded or stored is recorded in the trace of the run.
-/

namespace ModernArch.SimpleCNN
open Framework Vdev

inductive MemName where
  | activationMem1 | activationMem2 | weightAndBiasMem
  | conv2dKernel | conv2dBias | conv2d1Kernel | conv2d1Bias
  | denseKernel | denseBias | dense1Kernel | dense1Bias
  | paddingIn | paddingOut | convOut | poolOut | padding1Out
  | conv1Out | pool1Out | denseOut | dense1Out
deriving DecidableEq, Repr

inductive Access (N : Type) where
  | getPtr (m : Memory N) (xIndex yIndex zIndex wIndex : Int)
  | load (p : Ptr N)
  | store (p : Ptr N)

abbrev Exec (N F α : Type) := Framework.Exec (Ptr N) (Word F) (Access N) α

variable {N F : Type}

structure Data (F : Type) where
  data : Fin 4 → F

namespace Data

def ofLanes (a b c d : F) : Data F := ⟨![a, b, c, d]⟩

@[simp] theorem ofLanes_data (a b c d : F) : (ofLanes a b c d).data = ![a, b, c, d] := rfl

end Data

variable [Field F] [FloatModel F]

section Accesses

def getPtr (m : Memory N) (xIndex yIndex zIndex wIndex : Int := 0) : Exec N F (Ptr N) := do
  Exec.emit (.getPtr m xIndex yIndex zIndex wIndex)
  return m.addr xIndex yIndex zIndex wIndex

def load (p : Ptr N) : Exec N F F := do
  Exec.emit (.load p)
  return (← Exec.peek p).toFloat

def loadByte (p : Ptr N) (k : Nat) : Exec N F UInt8 := do
  Exec.emit (.load (p.wordOf k))
  return (← Exec.peek (p.wordOf k)).toBytes (lane k)

/-- `*m.getPtr(x, y, z, w)` as a value. -/
def loadAt (m : Memory N) (xIndex : Int) (yIndex zIndex wIndex : Int := 0) : Exec N F F := do
  load (← getPtr m xIndex yIndex zIndex wIndex)

variable [DecidableEq N]

def storeWord (p : Ptr N) (w : Word F) : Exec N F Unit := do
  Exec.emit (.store p)
  Exec.poke p w

def store (p : Ptr N) (x : F) : Exec N F Unit := storeWord p (.float x)

/-- `*m.getPtr(x, y, z, w) = v`. -/
def storeAt (m : Memory N) (xIndex yIndex zIndex wIndex : Int) (v : F) : Exec N F Unit := do
  store (← getPtr m xIndex yIndex zIndex wIndex) v

def storeByte (p : Ptr N) (k : Nat) (b : UInt8) : Exec N F Unit := do
  let w ← Exec.peek (p.wordOf k)
  storeWord (p.wordOf k) (w.setByte (lane k) b)

/-- `std::memset(p, 0, size)` for a whole number of floats, with the `int` size as `size_t`. -/
def memsetZero (p : Ptr N) (size : Int) : Exec N F Unit :=
  forEach (steps 0 (size % 2 ^ 64 / 4) 1) () fun i _ => storeWord (p.add i) (.bytes fun _ => 0)

end Accesses

variable [LinearOrder F]

/-- Multiply accumulate, with the cycles it needs. -/
def mac (sum in1 in2 : Data F) : Data F × Nat :=
  (⟨fun i => sum.data i + in1.data i * in2.data i⟩, 1)

def add (sum in1 : Data F) : Data F × Nat := (⟨fun i => sum.data i + in1.data i⟩, 1)

def relu (sum : Data F) : Data F × Nat := (⟨fun i => max (sum.data i) 0⟩, 1)

/-- Lane-wise `max`. -/
def maxData (a b : Data F) : Data F × Nat := (⟨fun i => max (a.data i) (b.data i)⟩, 1)

/-- The arithmetic the convolution and dense loops call. -/
structure Simd (F : Type) where
  mac : Data F → Data F → Data F → Data F × Nat
  add : Data F → Data F → Data F × Nat
  relu : Data F → Data F × Nat

def denseSimd : Simd F := ⟨mac, add, relu⟩

/-- The scan for a nonzero weight, left at the first one found. -/
def flagZero (w : Data F) : Bool := (List.finRange 4).all fun i => w.data i == 0

/-- The modified loops: `continue` without any cycle when the four weights are zero. -/
def sparseMac (sum i w : Data F) : Data F × Nat :=
  if flagZero w then (sum, 0) else mac sum i w

def sparseSimd : Simd F := ⟨sparseMac, add, relu⟩

structure Range where
  begin : Int
  end_ : Int

instance : Membership Int Range := ⟨fun r i => r.begin ≤ i ∧ i < r.end_⟩

/-- `std::numeric_limits<float>::min()`, the least positive normal number. -/
def floatMin : F := 1 / 2 ^ 126

section Loops

variable [DecidableEq N]

def loadLanes (a b c d : Exec N F F) : Exec N F (Data F) := do
  return .ofLanes (← a) (← b) (← c) (← d)

def convMac (u : Simd F) (inMem weight : Memory N) (outX outY outChannel stride wX wY : Int)
    (inChannel : Int) (acc : Data F × Nat) : Exec N F (Data F × Nat) := do
  let w ← loadLanes (loadAt weight wX wY inChannel outChannel)
    (loadAt weight wX wY inChannel (outChannel + 1))
    (loadAt weight wX wY inChannel (outChannel + 2))
    (loadAt weight wX wY inChannel (outChannel + 3))
  let inX := outX * stride + wX
  let inY := outY * stride + wY
  let i ← loadLanes (loadAt inMem inX inY inChannel) (loadAt inMem inX inY inChannel)
    (loadAt inMem inX inY inChannel) (loadAt inMem inX inY inChannel)
  let r := u.mac acc.1 i w
  return (r.1, acc.2 + r.2)

/-- The four output stores of a channel group. -/
def storeLanes (outMem : Memory N) (outX outY z : Int) (d : Data F) : Exec N F Unit := do
  storeAt outMem outX outY z 0 (d.data 0)
  storeAt outMem outX outY (z + 1) 0 (d.data 1)
  storeAt outMem outX outY (z + 2) 0 (d.data 2)
  storeAt outMem outX outY (z + 3) 0 (d.data 3)

/-- One group of four output channels at one output position. -/
def convGroup (u : Simd F) (inMem outMem weight bias : Memory N) (inChannelNum filterSize : Int)
    (stride outX outY outChannel : Int) (cycles : Nat) : Exec N F Nat := do
  let acc ← forEach (steps 0 filterSize 1) (Data.ofLanes 0 0 0 0, cycles) fun wX acc =>
    forEach (steps 0 filterSize 1) acc fun wY acc =>
      forEach (steps 0 inChannelNum 1) acc
        (convMac u inMem weight outX outY outChannel stride wX wY)
  let b ← loadLanes (loadAt bias outChannel) (loadAt bias (outChannel + 1))
    (loadAt bias (outChannel + 2)) (loadAt bias (outChannel + 3))
  let s := u.add acc.1 b
  let r := u.relu s.1
  storeLanes outMem outX outY outChannel r.1
  return acc.2 + s.2 + r.2

/-- The loops of `op_conv`; the result is `cycles` before the final division. -/
def convLoops (u : Simd F) (inMem outMem weight bias : Memory N) (inChannelNum : Int)
    (outChannelRange outXRange outYRange : Range) (filterSize stride : Int) : Exec N F Nat :=
  forEach (steps outXRange.begin outXRange.end_ 1) 0 fun outX cycles =>
    forEach (steps outYRange.begin outYRange.end_ 1) cycles fun outY cycles =>
      forEach (steps outChannelRange.begin outChannelRange.end_ 4) cycles fun outChannel cycles =>
        convGroup u inMem outMem weight bias inChannelNum filterSize stride outX outY outChannel
          cycles

/-- A load that the tail of the output range replaces by zero. -/
def loadUnless (tail : Prop) [Decidable tail] (c : Exec N F F) : Exec N F F :=
  if tail then pure 0 else c

def fcMac (u : Simd F) (inMem weight : Memory N) (outIndex outEnd inIndex : Int)
    (acc : Data F × Nat) : Exec N F (Data F × Nat) := do
  let input : Exec N F F := do load ((← getPtr inMem).add inIndex)
  let i ← loadLanes input input input input
  let w ← loadLanes (loadAt weight inIndex outIndex) (loadAt weight inIndex (outIndex + 1))
    (loadUnless (outIndex + 4 > outEnd) (loadAt weight inIndex (outIndex + 2)))
    (loadUnless (outIndex + 4 > outEnd) (loadAt weight inIndex (outIndex + 3)))
  let r := u.mac acc.1 i w
  return (r.1, acc.2 + r.2)

/-- The output stores of a dense group; the tail keeps two lanes. -/
def storeMasked (outMem : Memory N) (outEnd outIndex : Int) (d : Data F) : Exec N F Unit := do
  storeAt outMem outIndex 0 0 0 (d.data 0)
  storeAt outMem (outIndex + 1) 0 0 0 (d.data 1)
  if outIndex + 4 ≤ outEnd then
    storeAt outMem (outIndex + 2) 0 0 0 (d.data 2)
    storeAt outMem (outIndex + 3) 0 0 0 (d.data 3)

/-- One group of four outputs of a dense layer; the last group may be a masked tail. -/
def fcGroup (u : Simd F) (inMem outMem weight bias : Memory N) (inDataLength outEnd : Int)
    (outIndex : Int) (cycles : Nat) : Exec N F Nat := do
  let acc ← forEach (steps 0 inDataLength 1) (Data.ofLanes 0 0 0 0, cycles)
    (fcMac u inMem weight outIndex outEnd)
  let b ← loadLanes (loadAt bias outIndex) (loadAt bias (outIndex + 1))
    (loadUnless (outIndex + 4 > outEnd) (loadAt bias (outIndex + 2)))
    (loadUnless (outIndex + 4 > outEnd) (loadAt bias (outIndex + 3)))
  let s := u.add acc.1 b
  let r := u.relu s.1
  storeMasked outMem outEnd outIndex r.1
  return acc.2 + s.2 + r.2

/-- The loops of `op_fc`; the result is `cycles` before the final division. -/
def fcLoops (u : Simd F) (inMem outMem weight bias : Memory N) (inDataLength : Int)
    (outRange : Range) : Exec N F Nat :=
  forEach (steps outRange.begin outRange.end_ 4) 0
    (fcGroup u inMem outMem weight bias inDataLength outRange.end_)

def poolMax (inMem : Memory N) (z inX inY : Int) (acc : Data F × Nat) :
    Exec N F (Data F × Nat) := do
  let i ← loadLanes (loadAt inMem inX inY z) (loadAt inMem inX inY (z + 1))
    (loadAt inMem inX inY (z + 2)) (loadAt inMem inX inY (z + 3))
  let r := maxData acc.1 i
  return (r.1, acc.2 + r.2)

def poolGroup (inMem outMem : Memory N) (filterSize stride outX outY z : Int) (cycles : Nat) :
    Exec N F Nat := do
  let acc ← forEach (steps (outX * stride) (outX * stride + filterSize) 1)
    (Data.ofLanes floatMin floatMin floatMin floatMin, cycles) fun inX acc =>
      forEach (steps (outY * stride) (outY * stride + filterSize) 1) acc (poolMax inMem z inX)
  storeLanes outMem outX outY z acc.1
  return acc.2

def poolLoops (inMem outMem : Memory N) (outChannelRange outXRange outYRange : Range)
    (filterSize stride : Int) : Exec N F Nat :=
  forEach (steps outXRange.begin outXRange.end_ 1) 0 fun outX cycles =>
    forEach (steps outYRange.begin outYRange.end_ 1) cycles fun outY cycles =>
      forEach (steps outChannelRange.begin outChannelRange.end_ 4) cycles fun z cycles =>
        poolGroup inMem outMem filterSize stride outX outY z cycles

def paddingLoops (inMem outMem : Memory N) (padLength inXLen inYLen inZLen inWLen : Int) :
    Exec N F (BitVec 32) := do
  memsetZero (← getPtr outMem) outMem.getMemSizeByByte
  forEach (steps 0 inXLen 1) () fun x _ =>
    forEach (steps 0 inYLen 1) () fun y _ =>
      forEach (steps 0 inZLen 1) () fun z _ =>
        forEach (steps 0 inWLen 1) () fun w _ => do
          let v ← loadAt inMem x y z w
          storeAt outMem (x + padLength) (y + padLength) z w v
  return 1

/-- A pixel between minus a half and a half. -/
def pixel (b : UInt8) : F := (b.toNat : F) / 255 - 1 / 2

def inputLoops (fromMem toMem : Memory N) : Exec N F (BitVec 32) := do
  let source ← getPtr fromMem
  let target ← getPtr toMem
  forEach (steps 0 28 1) () fun x _ =>
    forEach (steps 0 28 1) () fun y _ => do
      let b ← loadByte source (x * 28 + y).toNat
      store (target.add (x * 28 + y)) (pixel b)
  return 10

def outputScan (mem : Memory N) : Exec N F Int := do
  let ptr ← getPtr mem
  forEach (steps 1 10 1) 0 fun i best => do
    let b ← load (ptr.add best)
    let x ← load (ptr.add i)
    return if b < x then i else best

end Loops

/-- `cycles / 64` for a loop that counted `n` cycles. `int cycles` is only added to, so it holds
the count modulo `2 ^ 32`. -/
def intCycles (n : Nat) : BitVec 32 := (BitVec.ofNat 32 n).sdiv 64

theorem toInt_ofNat_of_lt {n : Nat} (h : n < 2 ^ 31) : (BitVec.ofNat 32 n).toInt = n := by
  rw [BitVec.toInt_eq_toNat_bmod, BitVec.toNat_ofNat, Nat.mod_eq_of_lt (by omega)]
  apply Int.bmod_eq_of_le <;> omega

theorem toInt_intCycles {n : Nat} (h : n < 2 ^ 31) : (intCycles n).toInt = n / 64 := by
  have h64 : (64 : BitVec 32).toInt = 64 := rfl
  rw [intCycles, BitVec.toInt_sdiv, toInt_ofNat_of_lt h, h64,
    Int.tdiv_eq_ediv_of_nonneg (by omega)]
  apply Int.bmod_eq_of_le <;> omega

theorem toNat_intCycles {n : Nat} (h : n < 2 ^ 31) : (intCycles n).toNat = n / 64 := by
  have hint := toInt_intCycles h
  have hlt := (intCycles n).isLt
  rw [BitVec.toInt_eq_toNat_cond] at hint
  split_ifs at hint <;> omega

structure Core (F : Type) where
  outputIndex : Int := -1
  memhub : MemHub MemName
  machine : Machine (Ptr MemName) (Word F) (Access MemName)

/-- Core operations throw when a name is not in the hub. -/
abbrev CoreM (F : Type) := StateT (Core F) Option

namespace Core

def getMemory (memName : MemName) : CoreM F (Memory MemName) := do
  StateT.lift ((← get).memhub.getMemory memName)

def exec {α : Type} (c : Exec MemName F α) : CoreM F α := fun core =>
  let r := c.run core.machine
  some (r.1, { core with machine := r.2 })

/-- The views that `op_init` adds to the hub. -/
def addViews (memhub : MemHub MemName) (mem1 mem2 mem3 : Ptr MemName) : MemHub MemName :=
  let hub := memhub.addSharedMemory .conv2dKernel mem3 5 5 1 32
  let mem3 := mem3.add (5 * 5 * 1 * 32)
  let hub := hub.addSharedMemory .conv2dBias mem3 32
  let mem3 := mem3.add 32
  let hub := hub.addSharedMemory .conv2d1Kernel mem3 5 5 32 64
  let mem3 := mem3.add (5 * 5 * 32 * 64)
  let hub := hub.addSharedMemory .conv2d1Bias mem3 64
  let mem3 := mem3.add 64
  let hub := hub.addSharedMemory .denseKernel mem3 3136 512
  let mem3 := mem3.add (3136 * 512)
  let hub := hub.addSharedMemory .denseBias mem3 512
  let mem3 := mem3.add 512
  let hub := hub.addSharedMemory .dense1Kernel mem3 512 10
  let mem3 := mem3.add (512 * 10)
  let hub := hub.addSharedMemory .dense1Bias mem3 10
  let hub := hub.addSharedMemory .paddingIn mem1 28 28
  let hub := hub.addSharedMemory .paddingOut mem2 32 32
  let hub := hub.addSharedMemory .convOut mem1 28 28 32
  let hub := hub.addSharedMemory .poolOut mem2 14 14 32
  let hub := hub.addSharedMemory .padding1Out mem1 18 18 32
  let hub := hub.addSharedMemory .conv1Out mem2 14 14 64
  let hub := hub.addSharedMemory .pool1Out mem1 7 7 64
  let hub := hub.addSharedMemory .denseOut mem2 512
  hub.addSharedMemory .dense1Out mem1 10

def opInit : CoreM F (BitVec 32) := do
  let mem3 ← exec (getPtr (← getMemory .weightAndBiasMem))
  let mem1 ← exec (getPtr (← getMemory .activationMem1))
  let mem2 ← exec (getPtr (← getMemory .activationMem2))
  modify fun core => { core with memhub := addViews core.memhub mem1 mem2 mem3 }
  return 1

def opInput (fromMemName toMemName : MemName) : CoreM F (BitVec 32) := do
  let source ← getMemory fromMemName
  let target ← getMemory toMemName
  exec (inputLoops source target)

def opOutput (memName : MemName) : CoreM F (BitVec 32) := do
  let mem ← getMemory memName
  let best ← exec (outputScan mem)
  modify fun core => { core with outputIndex := best }
  return 10

def opConv (u : Simd F) (inMemName outMemName weightMemName biasMemName : MemName)
    (inChannelNum : Int) (outChannelRange outXRange outYRange : Range)
    (filterSize stride : Int) : CoreM F (BitVec 32) := do
  let inMem ← getMemory inMemName
  let outMem ← getMemory outMemName
  let weight ← getMemory weightMemName
  let bias ← getMemory biasMemName
  let cycles ← exec (convLoops u inMem outMem weight bias inChannelNum outChannelRange
    outXRange outYRange filterSize stride)
  return intCycles cycles

def opFc (u : Simd F) (inMemName outMemName weightMemName biasMemName : MemName)
    (inDataLength : Int) (outRange : Range) : CoreM F (BitVec 32) := do
  let inMem ← getMemory inMemName
  let outMem ← getMemory outMemName
  let weight ← getMemory weightMemName
  let bias ← getMemory biasMemName
  let cycles ← exec (fcLoops u inMem outMem weight bias inDataLength outRange)
  return intCycles cycles

def opPool (inMemName outMemName : MemName) (outChannelRange outXRange outYRange : Range)
    (filterSize stride : Int) : CoreM F (BitVec 32) := do
  let inMem ← getMemory inMemName
  let outMem ← getMemory outMemName
  let cycles ← exec (poolLoops inMem outMem outChannelRange outXRange outYRange filterSize stride)
  return intCycles cycles

def opPadding (inMemName outMemName : MemName)
    (padLength inXLen inYLen inZLen inWLen : Int) : CoreM F (BitVec 32) := do
  let inMem ← getMemory inMemName
  let outMem ← getMemory outMemName
  exec (paddingLoops inMem outMem padLength inXLen inYLen inZLen inWLen)

end Core

end ModernArch.SimpleCNN
