import ModernArch.Framework.Transition
import ModernArch.Vdev.AIChip

/-!
# The virtual device

The guest reaches the chip through packets. Offset `0` is the status register and offset `1`
the counter; three windows of data memory follow. A run of the chip ends with an interrupt.
-/

namespace ModernArch.Vdev
open Framework

def vdevSet : UInt8 := 0x01
def vdevWork : UInt8 := 0x02
def vdevReady : UInt8 := 0x04
def vdevFinish : UInt8 := 0x08

inductive State where
  | poweroff | idle | active
deriving DecidableEq, Repr

/-- `scheduled` is the flag of `event_interrupt`. -/
structure VirtualDevice (C : Type) where
  id : Nat := 0
  aichip : AIChip C
  executionState : State := .poweroff
  scheduled : Bool := false
  pmem : UInt8 := vdevReady ||| vdevFinish

structure BaseCPU where
  latVdev : List UInt64 := []
  statusVdev : List Bool := []

namespace BaseCPU

/-- The new id is the number of devices; there is no room for `2 ^ 32` of them. -/
def registerVDev (cpu : BaseCPU) (tick : UInt64) : Nat × BaseCPU :=
  (cpu.latVdev.length,
    { latVdev := cpu.latVdev ++ [tick], statusVdev := cpu.statusVdev ++ [false] })

def getTotalLat (cpu : BaseCPU) : UInt64 :=
  (cpu.latVdev.zip cpu.statusVdev).foldl (fun total p => if p.2 then total + p.1 else total) 0

def virtualDeviceStart (cpu : BaseCPU) (id : Nat) : BaseCPU :=
  { cpu with statusVdev := cpu.statusVdev.set id true }

def virtualDeviceEnd (cpu : BaseCPU) (id : Nat) : BaseCPU :=
  { cpu with statusVdev := cpu.statusVdev.set id false }

end BaseCPU

structure Packet where
  isRead : Bool
  isWrite : Bool
  offset : Nat
  size : Nat
  data : Nat → UInt8

/-- The chip throws, `schedule` finds the event scheduled, or `triggerInterrupt` finds the
device not working. -/
inductive Fault where
  | chip | schedule | interrupt
deriving DecidableEq, Repr

/-- What an access leaves: the bytes of the packet, the device and the CPU. -/
structure Reply (C : Type) where
  data : Nat → UInt8
  dev : VirtualDevice C
  cpu : BaseCPU

/-- The data memory behind an offset, and the offset in it. -/
def window (offset : Nat) : DataMem × Nat :=
  if offset < 1024 * 1024 + 2 then (.mem1, offset - 2)
  else if offset < 1024 * 1024 * 2 + 2 then (.mem2, offset - 1024 * 1024 - 2)
  else (.mem3, offset - 1024 * 1024 * 2 - 2)

section Access

variable {C : Type} (ops : ChipOps C)

/-- A request that is not discarded. -/
def start (dev : VirtualDevice C) (cpu : BaseCPU) : Except Fault (VirtualDevice C × BaseCPU) :=
  let dev := { dev with
    executionState := .active
    pmem := ((dev.pmem ||| vdevWork) &&& ~~~vdevReady) &&& ~~~vdevFinish }
  match (AIChip.run ops).run dev.aichip with
  | none => .error .chip
  | some (_, aichip) =>
      if dev.scheduled then .error .schedule
      else .ok ({ dev with aichip, scheduled := true }, cpu.virtualDeviceStart dev.id)

def access (pkt : Packet) (dev : VirtualDevice C) (cpu : BaseCPU) : Except Fault (Reply C) :=
  if pkt.isRead then
    if pkt.offset = 0 then .ok ⟨Function.update pkt.data 0 dev.pmem, dev, cpu⟩
    else if pkt.offset = 1 then .ok ⟨Function.update pkt.data 0 dev.aichip.counter, dev, cpu⟩
    else
      let (mem, off) := window pkt.offset
      .ok ⟨fun k => if k < pkt.size then ops.readMem mem dev.aichip.core (off + k) else pkt.data k,
        dev, cpu⟩
  else if pkt.isWrite then
    if pkt.offset = 0 then
      if pkt.data 0 &&& vdevSet ≠ 0 then
        if dev.pmem &&& vdevWork ≠ 0 then .ok ⟨pkt.data, dev, cpu⟩
        else (start ops dev cpu).map fun r => ⟨pkt.data, r.1, r.2⟩
      else .ok ⟨pkt.data, dev, cpu⟩
    else if pkt.offset = 1 then
      .ok ⟨pkt.data, { dev with aichip.counter := pkt.data 0 }, cpu⟩
    else
      let (mem, off) := window pkt.offset
      .ok ⟨pkt.data, { dev with
        aichip.core := ops.writeMem mem off pkt.size pkt.data dev.aichip.core }, cpu⟩
  else .ok ⟨pkt.data, dev, cpu⟩

/-- `triggerInterrupt`; the queue has taken the event out before. -/
def triggerInterrupt (dev : VirtualDevice C) (cpu : BaseCPU) :
    Except Fault (VirtualDevice C × BaseCPU) :=
  let dev := { dev with executionState := .idle, scheduled := false }
  if dev.pmem &&& vdevWork = 0 then .error .interrupt
  else
    let pmem := (dev.pmem ||| vdevReady) &&& ~~~vdevWork
    let pmem := if dev.aichip.finished then pmem ||| vdevFinish else pmem
    .ok ({ dev with pmem }, cpu.virtualDeviceEnd dev.id)

/-- The packet makes the device start. -/
def accepts (pkt : Packet) (dev : VirtualDevice C) : Bool :=
  !pkt.isRead && pkt.isWrite && pkt.offset == 0 && pkt.data 0 &&& vdevSet != 0 &&
    dev.pmem &&& vdevWork == 0

/-- An access starts the device, or changes the counter and the core at most. -/
theorem access_cases (pkt : Packet) (dev : VirtualDevice C) (cpu : BaseCPU) :
    (accepts pkt dev = true ∧
      access ops pkt dev cpu = (start ops dev cpu).map fun r => ⟨pkt.data, r.1, r.2⟩) ∨
    (accepts pkt dev = false ∧ ∃ data counter core, access ops pkt dev cpu =
      .ok ⟨data, { dev with aichip := { dev.aichip with counter, core } }, cpu⟩) := by
  have hsame (data : Nat → UInt8) : ∃ data' counter core,
      (.ok ⟨data, dev, cpu⟩ : Except Fault (Reply C)) =
        .ok ⟨data', { dev with aichip := { dev.aichip with counter, core } }, cpu⟩ :=
    ⟨data, dev.aichip.counter, dev.aichip.core, rfl⟩
  unfold access accepts
  cases pkt.isRead with
  | true =>
      right
      by_cases h₀ : pkt.offset = 0
      · simpa [h₀] using hsame (Function.update pkt.data 0 dev.pmem)
      · by_cases h₁ : pkt.offset = 1
        · simpa [h₁] using hsame (Function.update pkt.data 0 dev.aichip.counter)
        · simpa [h₀, h₁] using hsame fun k =>
            if k < pkt.size then
              ops.readMem (window pkt.offset).1 dev.aichip.core ((window pkt.offset).2 + k)
            else pkt.data k
  | false =>
      cases pkt.isWrite with
      | false =>
          right
          simpa using hsame pkt.data
      | true =>
          by_cases h₀ : pkt.offset = 0
          · by_cases hset : pkt.data 0 &&& vdevSet = 0
            · right
              simpa [h₀, hset] using hsame pkt.data
            · by_cases hwork : dev.pmem &&& vdevWork = 0
              · left
                simp [h₀, hset, hwork]
              · right
                simpa [h₀, hset, hwork] using hsame pkt.data
          · right
            by_cases h₁ : pkt.offset = 1
            · exact ⟨by simp [h₀], pkt.data, pkt.data 0, dev.aichip.core, by simp [h₁]⟩
            · exact ⟨by simp [h₀], pkt.data, dev.aichip.counter, _, by simp [h₀, h₁]; rfl⟩

end Access

end ModernArch.Vdev
