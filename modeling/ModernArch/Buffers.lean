import ModernArch.BinNet.Core
import ModernArch.SimpleCNN.AIChip
import ModernArch.Sim.Process
import ModernArch.Vdev.Copies

/-!
# Buffers of the two chips

The constructors of the chips say how long the buffers are, the configuration scripts which
addresses the device answers, and `access` where the windows start.
-/

namespace ModernArch
open Vdev

/-- The packet the device sees of an access to `addr`. -/
def packetAt (range : Sim.AddrRange) (addr : Mem.Addr) (isRead isWrite : Bool) (size : Nat)
    (data : Nat → UInt8) : Packet :=
  ⟨isRead, isWrite, (addr - range.start).toNat, size, data⟩

/-- Every address of the access is in the range. -/
def Within (range : Sim.AddrRange) (addr : Mem.Addr) (size : Nat) : Prop :=
  ∀ k < size, range.contains (addr + BitVec.ofNat 64 k) = true

/-- `system.vdev_ranges`, the same for both chips. -/
def vdevRange : Sim.AddrRange := { start := 512 * 1024 * 1024, end_ := 522 * 1024 * 1024 }

/-- The bytes of the memory a data pointer was taken from. -/
def bufferBytes {N : Type} (memhub : MemHub N) (dataMem : DataMem → Framework.Ptr N)
    (d : DataMem) : Nat :=
  ((memhub.getMemory (dataMem d).buf).elim 0 Memory.byteLen).toNat

namespace SimpleCNN

def memBytes : DataMem → Nat := bufferBytes AIChip.baseHub AIChip.dataMem

private theorem memBytes_eq (d : DataMem) : memBytes d = if d = .mem3 then 6653484 else 100352 := by
  cases d <;> rfl

end SimpleCNN

namespace BinNet

def memBytes : DataMem → Nat := bufferBytes AIChip.baseHub AIChip.dataMem

private theorem memBytes_eq (d : DataMem) : memBytes d = if d = .mem3 then 3211264 else 4096 := by
  cases d <;> rfl

end BinNet

/-- Whatever the range, an access copies its span, which stays in the buffers of either chip
exactly when its offsets have a buffer behind them. -/
theorem copies_inside_iff (range : Sim.AddrRange) (addr : Mem.Addr) (isRead isWrite : Bool)
    (size : Nat) (data : Nat → UInt8) :
    let pkt := packetAt range addr isRead isWrite size data
    (∀ (C : Type) (ops : ChipOps C) (dev : VirtualDevice C) (cpu : BaseCPU),
      CopiesSpan ops pkt dev cpu) ∧
    (Inside SimpleCNN.memBytes pkt ↔
      Backed (fun d => if d = .mem3 then 6653484 else 100352) pkt) ∧
    (Inside BinNet.memBytes pkt ↔ Backed (fun d => if d = .mem3 then 3211264 else 4096) pkt) := by
  intro pkt
  refine ⟨fun C ops dev cpu => access_copies ops pkt dev cpu, ?_, ?_⟩
  · rw [← funext SimpleCNN.memBytes_eq]
    apply inside_iff
    intro d hd
    rw [SimpleCNN.memBytes_eq, if_neg hd]
    decide
  · rw [← funext BinNet.memBytes_eq]
    apply inside_iff
    intro d hd
    rw [BinNet.memBytes_eq, if_neg hd]
    decide

/-- One byte of the first window behind the end of its buffer, in the range of the device. -/
theorem copies_outside :
    let addr : Mem.Addr := 512 * 1024 * 1024 + 2 + 100352
    let pkt := packetAt vdevRange addr true false 1 fun _ => 0
    Within vdevRange addr 1 ∧ ¬ Inside SimpleCNN.memBytes pkt ∧ ¬ Inside BinNet.memBytes pkt := by
  refine ⟨?_, ?_, ?_⟩
  · intro k hk
    rw [Nat.lt_one_iff.mp hk]
    decide
  · intro h
    exact absurd (h ⟨.data .mem1, 100352, 1⟩ (by decide) 0 (by decide)) (by decide)
  · intro h
    exact absurd (h ⟨.data .mem1, 100352, 1⟩ (by decide) 0 (by decide)) (by decide)

end ModernArch
