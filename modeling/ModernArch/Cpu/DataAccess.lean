import ModernArch.Framework.Bits
import ModernArch.Sim.Process
import ModernArch.Vdev.Bytewise
import ModernArch.Vdev.Status

/-!
# Loads and stores of the atomic CPU

`readMem` and `writeMem` cut an access at a cache line. The device charges each packet, and the
tick adds what the last charge left in `vdev_set_latency`.
-/

namespace ModernArch.Cpu
open Mem Sim Vdev

/-- `roundDown` of `base/intmath.hh`. -/
def roundDown (val align : Addr) : Addr := val &&& ~~~(align - 1)

/-- The flags of a request that the CPU looks at. -/
structure Request where
  noAccess : Bool := false
  isPrefetch : Bool := false
  isLLSC : Bool := false
  isSwap : Bool := false
  isLockedRMW : Bool := false
  cacheBlockZero : Bool := false

structure AtomicSimpleCPU extends BaseCPU where
  locked : Bool := false
  dcacheAccess : Bool := false
  dcacheLatency : Nat := 0
  vdevSet : Bool := false
  vdevSetLatency : Nat := 0

namespace AtomicSimpleCPU

/-- The latency of the charge before is lost. -/
def virtualDeviceSet (cpu : AtomicSimpleCPU) (tick : Nat) : AtomicSimpleCPU :=
  { cpu with vdevSet := true, vdevSetLatency := tick }

/-- What `tick` adds to `stall_ticks` for the device. -/
def vdevStall (cpu : AtomicSimpleCPU) : Nat := if cpu.vdevSet then cpu.vdevSetLatency else 0

/-- The stall of one instruction in `tick`. -/
def stallTicks (simulateInstStalls simulateDataStalls icacheAccess : Bool) (icacheLatency : Nat)
    (cpu : AtomicSimpleCPU) : Nat × AtomicSimpleCPU :=
  let stall := if simulateInstStalls && icacheAccess then icacheLatency else 0
  let stall := if simulateDataStalls && cpu.dcacheAccess then stall + cpu.dcacheLatency else stall
  if cpu.vdevSet then (stall + cpu.vdevSetLatency, { cpu with vdevSet := false }) else (stall, cpu)

end AtomicSimpleCPU

structure Machine (C : Type) where
  cpu : AtomicSimpleCPU
  dev : VirtualDevice C

/-- The device stops the simulation, or an assertion of the CPU fails. -/
inductive Abort where
  | device (f : Vdev.Fault)
  | assertion

abbrev MemM (C : Type) := StateT (Machine C) (Except Abort)

/-- The device and what else a request may meet: the translation with its faults, memory and
registers that answer without the port, other slaves of the bus. -/
structure Platform (C φ : Type) where
  ops : ChipOps C
  range : AddrRange
  dataBandwidth : Nat
  delaySet : Nat
  lineSize : Addr
  translateAtomic : Bool → Addr → Except φ Addr
  handleLockedWrite : Addr → Bool := fun _ => true
  isMmappedIpr : Addr → Bool := fun _ => false
  handleIpr : Addr → Packet → (Nat → UInt8) × Nat := fun _ pkt => (pkt.data, 0)
  fastmem : Bool := false
  isMemAddr : Addr → Bool := fun _ => false
  physMem : Addr → Packet → Nat → UInt8 := fun _ pkt => pkt.data
  elsewhere : Addr → Packet → (Nat → UInt8) × Nat := fun _ pkt => (pkt.data, 0)

namespace Platform

variable {C φ : Type} (p : Platform C φ)

/-- What `access` passes to `virtualDeviceSet`, if it calls it. -/
def charge (pkt : Packet) (dev : VirtualDevice C) : Option Nat :=
  if pkt.isRead then some (p.dataBandwidth * pkt.size)
  else if pkt.isWrite then
    if pkt.offset = 0 then if accepts pkt dev then some p.delaySet else none
    else if pkt.offset = 1 then none
    else some (p.dataBandwidth * pkt.size)
  else none

/-- The data port: the bytes of the reply, and the latency. -/
def sendAtomic (paddr : Addr) (pkt : Packet) : MemM C ((Nat → UInt8) × Nat) := do
  if p.range.contains paddr then
    let m ← get
    match access p.ops pkt m.dev m.cpu.toBaseCPU with
    | .error f => throw (.device f)
    | .ok r =>
        let cpu := { m.cpu with toBaseCPU := r.cpu }
        set (Machine.mk ((p.charge pkt m.dev).elim cpu cpu.virtualDeviceSet) r.dev)
        return (r.data, 0)
  else return p.elsewhere paddr pkt

/-- One packet of an access. -/
def sendPacket (paddr : Addr) (pkt : Packet) : MemM C (Nat → UInt8) := do
  let r ←
    if p.isMmappedIpr paddr then pure (p.handleIpr paddr pkt)
    else if p.fastmem && p.isMemAddr paddr then pure (p.physMem paddr pkt, 0)
    else p.sendAtomic paddr pkt
  modify fun m => { m with
    cpu.dcacheLatency := m.cpu.dcacheLatency + r.2
    cpu.dcacheAccess := true }
  return r.1

def readPart (req : Request) (paddr : Addr) (size : Nat) (data : Nat → UInt8) :
    MemM C (Nat → UInt8) :=
  if req.noAccess then return data
  else p.sendPacket paddr ⟨true, false, (paddr - p.range.start).toNat, size, data⟩

/-- A store-conditional may be dropped, and a swap reads too. -/
def writePart (req : Request) (paddr : Addr) (size : Nat) (data : Nat → UInt8) :
    MemM C (Nat → UInt8) :=
  let doAccess := if req.isLLSC then p.handleLockedWrite paddr else true
  if doAccess && !req.noAccess then
    p.sendPacket paddr
      ⟨!req.isLLSC && req.isSwap, true, (paddr - p.range.start).toNat, size, data⟩
  else return data

/-- The end of a locked read-modify-write, or its start. -/
def lock (write : Bool) (req : Request) : MemM C Unit := do
  if req.isLockedRMW then
    if (← get).cpu.locked != write then throw .assertion
    modify fun m => { m with cpu.locked := !write }

/-- The loop of both functions: a part is translated and done, then the part in the next line.
The first component of the result is the fault. -/
def accessLoop (write : Bool) (req : Request)
    (part : Addr → Nat → (Nat → UInt8) → MemM C (Nat → UInt8)) (secondAddr fullEnd addr : Addr)
    (size pos : Nat) (data : Nat → UInt8) : MemM C (Option φ × (Nat → UInt8)) :=
  match p.translateAtomic write addr with
  | .error fault => return (if req.isPrefetch then none else some fault, data)
  | .ok paddr => do
      let bytes ← part paddr size fun k => data (pos + k)
      let data := fun k => if pos ≤ k ∧ k < pos + size then bytes (k - pos) else data k
      if _h : secondAddr ≤ addr then
        lock write req
        return (none, data)
      else
        accessLoop write req part secondAddr fullEnd secondAddr (fullEnd - secondAddr).toNat
          (pos + size) data
termination_by secondAddr.toNat - addr.toNat
decreasing_by
  have hlt : addr.toNat < secondAddr.toNat := BitVec.not_le.mp _h
  omega

/-- The address of the second part, when it is above the first. -/
def secondAddr (addr : Addr) (size : Nat) : Addr :=
  roundDown (addr + BitVec.ofNat 64 size - 1) p.lineSize

/-- The CPU cuts the access. -/
def Splits (addr : Addr) (size : Nat) : Prop := addr < p.secondAddr addr size

instance (addr : Addr) (size : Nat) : Decidable (p.Splits addr size) :=
  inferInstanceAs (Decidable (_ < _))

def dataAccess (write : Bool) (req : Request)
    (part : Addr → Nat → (Nat → UInt8) → MemM C (Nat → UInt8)) (addr : Addr) (size : Nat)
    (data : Nat → UInt8) : MemM C (Option φ × (Nat → UInt8)) := do
  let second := p.secondAddr addr size
  let first := if addr < second then (second - addr).toNat else size
  modify fun m => { m with cpu.dcacheLatency := 0 }
  p.accessLoop write req part second (addr + BitVec.ofNat 64 size) addr first 0 data

def readMem (req : Request) (addr : Addr) (size : Nat) (data : Nat → UInt8) :
    MemM C (Option φ × (Nat → UInt8)) :=
  p.dataAccess false req (p.readPart req) addr size data

/-- Without data a block is zeroed. -/
def writeMem (req : Request) (addr : Addr) (size : Nat) (data : Option (Nat → UInt8)) :
    MemM C (Option φ × (Nat → UInt8)) := do
  if data.isNone && !(decide (size ≤ 64) && req.cacheBlockZero) then throw .assertion
  p.dataAccess true req (p.writePart req) addr size (data.getD fun _ => 0)

/-- An address in the data windows of the device, reached through the port. -/
structure InData (paddr : Addr) : Prop where
  contains : p.range.contains paddr = true
  offset : 2 ≤ (paddr - p.range.start).toNat
  port : p.isMmappedIpr paddr = false
  memory : (p.fastmem && p.isMemAddr paddr) = false

/-- The device has charged `n` ticks last. -/
structure Charged (m m' : Machine C) (n : Nat) : Prop where
  set : m'.cpu.vdevSet = true
  latency : m'.cpu.vdevSetLatency = n
  locked : m'.cpu.locked = m.cpu.locked

variable {p} {paddr : Addr} {m : Machine C}

private theorem Charged.vdevStall {m' : Machine C} {n : Nat} (h : Charged m m' n) :
    m'.cpu.vdevStall = n := by
  rw [AtomicSimpleCPU.vdevStall, h.set, if_pos rfl, h.latency]

private theorem charge_window {pkt : Packet} (h₂ : 2 ≤ pkt.offset)
    (hop : pkt.isRead = true ∨ pkt.isWrite = true) (dev : VirtualDevice C) :
    p.charge pkt dev = some (p.dataBandwidth * pkt.size) := by
  have h₀ : pkt.offset ≠ 0 := by omega
  have h₁ : pkt.offset ≠ 1 := by omega
  cases hread : pkt.isRead with
  | true => simp [charge, hread]
  | false =>
      have hwrite : pkt.isWrite = true := by simpa [hread] using hop
      simp [charge, hread, hwrite, h₀, h₁]

private theorem sendPacket_charged (hin : p.InData paddr) {pkt : Packet}
    (hoff : pkt.offset = (paddr - p.range.start).toNat)
    (hop : pkt.isRead = true ∨ pkt.isWrite = true) :
    ∃ bytes m', (p.sendPacket paddr pkt).run m = .ok (bytes, m') ∧
      Charged m m' (p.dataBandwidth * pkt.size) := by
  have h₂ : 2 ≤ pkt.offset := hoff ▸ hin.offset
  obtain ⟨data, haccess, -⟩ := access_window p.ops pkt m.dev m.cpu.toBaseCPU h₂
  have hcharge := charge_window h₂ hop (p := p) m.dev
  let sent : Machine C := ⟨m.cpu.virtualDeviceSet (p.dataBandwidth * pkt.size),
    copied p.ops pkt m.dev pkt.size⟩
  have hsend : (p.sendAtomic paddr pkt).run m = .ok ((data, 0), sent) := by
    simp only [sendAtomic, hin.contains, if_true, StateT.run_bind, StateT.run_get, pure_bind,
      haccess, hcharge]
    rfl
  refine ⟨data, { sent with
    cpu.dcacheLatency := sent.cpu.dcacheLatency + 0
    cpu.dcacheAccess := true }, ?_, rfl, rfl, rfl⟩
  simp only [sendPacket, hin.port, hin.memory, Bool.false_eq_true, if_false, StateT.run_bind, hsend]
  rfl

/-- A part that reaches the device is charged for its bytes. -/
def PartCharges (p : Platform C φ) (part : Addr → Nat → (Nat → UInt8) → MemM C (Nat → UInt8))
    (paddr : Addr) : Prop :=
  ∀ size data m, ∃ bytes m', (part paddr size data).run m = .ok (bytes, m') ∧
    Charged m m' (p.dataBandwidth * size)

private theorem readPart_charges {req : Request} (hreq : req.noAccess = false)
    (hin : p.InData paddr) : p.PartCharges (p.readPart req) paddr := by
  intro size data m
  rw [readPart, hreq]
  exact sendPacket_charged hin rfl (Or.inl rfl)

private theorem writePart_charges {req : Request} (hreq : req.noAccess = false)
    (hin : p.InData paddr) (hlocked : req.isLLSC = true → p.handleLockedWrite paddr = true) :
    p.PartCharges (p.writePart req) paddr := by
  intro size data m
  have hdo : (if req.isLLSC then p.handleLockedWrite paddr else true) = true := by
    cases hll : req.isLLSC with
    | false => rfl
    | true => simpa using hlocked hll
  simp only [writePart, hdo, hreq, Bool.not_false, Bool.and_true, if_true]
  exact sendPacket_charged hin rfl (Or.inr rfl)

section Loop

variable (write : Bool) (req : Request) (fullEnd : Addr)
  {part : Addr → Nat → (Nat → UInt8) → MemM C (Nat → UInt8)} {second addr : Addr}

private theorem lock_run (hlock : req.isLockedRMW = true → m.cpu.locked = write) :
    ∃ m', (lock write req).run m = .ok ((), m') ∧ m'.cpu.vdevStall = m.cpu.vdevStall := by
  cases hrmw : req.isLockedRMW with
  | false => exact ⟨m, by simp [lock, hrmw]; rfl, rfl⟩
  | true =>
      refine ⟨{ m with cpu.locked := !write }, ?_, rfl⟩
      simp [lock, hrmw, hlock hrmw]
      rfl

private theorem accessLoop_last (htrans : p.translateAtomic write addr = .ok paddr)
    (hpart : p.PartCharges part paddr) (hend : second ≤ addr)
    (hlock : req.isLockedRMW = true → m.cpu.locked = write) (size pos : Nat)
    (data : Nat → UInt8) :
    ∃ bytes m', (p.accessLoop write req part second fullEnd addr size pos data).run m =
        .ok ((none, bytes), m') ∧ m'.cpu.vdevStall = p.dataBandwidth * size := by
  obtain ⟨bytes, m₁, hrun, hcharged⟩ := hpart size (fun k => data (pos + k)) m
  obtain ⟨m₂, hfinish, hstall⟩ := lock_run write req fun hrmw => hcharged.locked.trans (hlock hrmw)
  refine ⟨fun k => if pos ≤ k ∧ k < pos + size then bytes (k - pos) else data k, m₂, ?_,
    hstall.trans hcharged.vdevStall⟩
  rw [accessLoop, htrans]
  simp only [StateT.run_bind, hrun, hend, dite_true]
  change ((lock write req).run m₁ >>= _) = _
  rw [hfinish]
  rfl

/-- A part before the line leaves nothing of its charge to the loop. -/
theorem accessLoop_first (htrans : p.translateAtomic write addr = .ok paddr)
    (hpart : p.PartCharges part paddr) (hmore : addr < second) (size pos : Nat)
    (data : Nat → UInt8) :
    ∃ data' m', (p.accessLoop write req part second fullEnd addr size pos data).run m =
        (p.accessLoop write req part second fullEnd second (fullEnd - second).toNat (pos + size)
          data').run m' ∧ m'.cpu.locked = m.cpu.locked := by
  obtain ⟨bytes, m₁, hrun, hcharged⟩ := hpart size (fun k => data (pos + k)) m
  refine ⟨fun k => if pos ≤ k ∧ k < pos + size then bytes (k - pos) else data k, m₁, ?_,
    hcharged.locked⟩
  rw [accessLoop, htrans]
  simp only [StateT.run_bind, hrun, BitVec.not_le.mpr hmore, dite_false]
  rfl

end Loop

/-! ## One instruction -/

/-- A load or store of `size` bytes, all of them in the data windows of the device. -/
structure Reaches (p : Platform C φ) (write : Bool) (req : Request) (addr : Addr) (size : Nat)
    (m : Machine C) : Prop where
  pos : 0 < size
  line : size ≤ p.lineSize.toNat
  access : req.noAccess = false
  lock : req.isLockedRMW = true → m.cpu.locked = write
  bytes : ∀ i < size, ∃ paddr, p.translateAtomic write (addr + BitVec.ofNat 64 i) = .ok paddr ∧
    p.InData paddr ∧ (write = true → req.isLLSC = true → p.handleLockedWrite paddr = true)

/-- The second part starts at a byte of the access after the first. -/
theorem secondAddr_byte {addr : Addr} {size : Nat} (hpos : 0 < size) (hsize : size < 2 ^ 64)
    (hsplit : p.Splits addr size) :
    ∃ i < size, 0 < i ∧ p.secondAddr addr size = addr + BitVec.ofNat 64 i := by
  have hdown : (p.secondAddr addr size).toNat ≤ (addr + BitVec.ofNat 64 size - 1).toNat := by
    rw [secondAddr, roundDown, BitVec.toNat_and]
    exact Nat.and_le_left
  have hlast : addr + BitVec.ofNat 64 size - 1 = addr + BitVec.ofNat 64 (size - 1) := by
    apply BitVec.eq_of_toNat_eq
    have hone : (1 : Addr).toNat = 1 := rfl
    simp only [BitVec.toNat_sub, BitVec.toNat_add, BitVec.toNat_ofNat, hone]
    omega
  rw [hlast, BitVec.toNat_add, BitVec.toNat_ofNat, Nat.mod_eq_of_lt (by omega : size - 1 < 2 ^ 64)]
    at hdown
  have hup : addr.toNat < (p.secondAddr addr size).toNat := hsplit
  have haddr := addr.isLt
  have hsecond := (p.secondAddr addr size).isLt
  refine ⟨(p.secondAddr addr size).toNat - addr.toNat, by omega, by omega, ?_⟩
  apply BitVec.eq_of_toNat_eq
  rw [BitVec.toNat_add, BitVec.toNat_ofNat]
  omega

private theorem dataAccess_stall {write : Bool} {req : Request} {addr : Addr} {size : Nat}
    (h : Reaches p write req addr size m)
    {part : Addr → Nat → (Nat → UInt8) → MemM C (Nat → UInt8)}
    (hpart : ∀ paddr, p.InData paddr →
      (write = true → req.isLLSC = true → p.handleLockedWrite paddr = true) →
      p.PartCharges part paddr) (data : Nat → UInt8) :
    ∃ bytes m', (p.dataAccess write req part addr size data).run m = .ok ((none, bytes), m') ∧
      (m'.cpu.vdevStall = p.dataBandwidth * size ↔
        p.dataBandwidth = 0 ∨ ¬ p.Splits addr size) := by
  have hsize : size < 2 ^ 64 := h.line.trans_lt p.lineSize.isLt
  obtain ⟨paddr, htrans, hin, hlocked⟩ := h.bytes 0 h.pos
  rw [BitVec.add_zero] at htrans
  let cleared : Machine C := { m with cpu.dcacheLatency := 0 }
  by_cases hsplit : p.Splits addr size
  · obtain ⟨i, hi, hpos, hsecond⟩ := secondAddr_byte h.pos hsize hsplit
    obtain ⟨paddr₂, htrans₂, hin₂, hlocked₂⟩ := h.bytes i hi
    rw [← hsecond] at htrans₂
    obtain ⟨data₁, m₁, hfirst, hsame⟩ := accessLoop_first (m := cleared) write req
      (addr + BitVec.ofNat 64 size) htrans (hpart paddr hin hlocked) hsplit
      (p.secondAddr addr size - addr).toNat 0 data
    obtain ⟨bytes, m₂, hlast, hstall⟩ := accessLoop_last (m := m₁) write req
      (addr + BitVec.ofNat 64 size) htrans₂ (hpart paddr₂ hin₂ hlocked₂)
      (BitVec.le_refl _) (fun hrmw => hsame.trans (h.lock hrmw))
      (addr + BitVec.ofNat 64 size - p.secondAddr addr size).toNat
      (0 + (p.secondAddr addr size - addr).toNat) data₁
    have hrest : (addr + BitVec.ofNat 64 size - p.secondAddr addr size).toNat = size - i := by
      rw [hsecond]
      simp only [BitVec.toNat_sub, BitVec.toNat_add, BitVec.toNat_ofNat]
      omega
    refine ⟨bytes, m₂, ?_, ?_⟩
    · have hif : (if addr < p.secondAddr addr size then (p.secondAddr addr size - addr).toNat
          else size) = (p.secondAddr addr size - addr).toNat := if_pos hsplit
      simp only [dataAccess, hif]
      exact hfirst.trans hlast
    · rw [hstall, hrest]
      constructor
      · intro heq
        rcases Nat.eq_zero_or_pos p.dataBandwidth with hzero | hbw
        · exact Or.inl hzero
        · have := Nat.eq_of_mul_eq_mul_left hbw heq
          omega
      · intro hor
        rcases hor with hzero | hno
        · rw [hzero, Nat.zero_mul, Nat.zero_mul]
        · exact absurd hsplit hno
  · obtain ⟨bytes, m₂, hlast, hstall⟩ := accessLoop_last (m := cleared) write req
      (addr + BitVec.ofNat 64 size) htrans (hpart paddr hin hlocked)
      (BitVec.not_lt.mp hsplit) h.lock size 0 data
    refine ⟨bytes, m₂, ?_, ?_⟩
    · have hif : (if addr < p.secondAddr addr size then (p.secondAddr addr size - addr).toNat
          else size) = size := if_neg hsplit
      simp only [dataAccess, hif]
      exact hlast
    · simp only [hstall, hsplit, not_false_eq_true, or_true]

/-- The stall without the device, and what the device adds. -/
theorem stallTicks_device (simulateInstStalls simulateDataStalls icacheAccess : Bool)
    (icacheLatency : Nat) (cpu : AtomicSimpleCPU) :
    (cpu.stallTicks simulateInstStalls simulateDataStalls icacheAccess icacheLatency).1 =
      (({ cpu with vdevSet := false } : AtomicSimpleCPU).stallTicks simulateInstStalls
        simulateDataStalls icacheAccess icacheLatency).1 + cpu.vdevStall := by
  cases hset : cpu.vdevSet with
  | false => simp [AtomicSimpleCPU.stallTicks, AtomicSimpleCPU.vdevStall, hset]
  | true => simp [AtomicSimpleCPU.stallTicks, AtomicSimpleCPU.vdevStall, hset]

/-- The tick adds `n` to `stall_ticks` for the device. -/
def Adds (cpu : AtomicSimpleCPU) (n : Nat) : Prop :=
  ∀ simulateInstStalls simulateDataStalls icacheAccess icacheLatency,
    (cpu.stallTicks simulateInstStalls simulateDataStalls icacheAccess icacheLatency).1 =
      (({ cpu with vdevSet := false } : AtomicSimpleCPU).stallTicks simulateInstStalls
        simulateDataStalls icacheAccess icacheLatency).1 + n

private theorem adds_iff {cpu : AtomicSimpleCPU} {n : Nat} : Adds cpu n ↔ cpu.vdevStall = n := by
  constructor
  · intro h
    have hone := h false false false 0
    rw [stallTicks_device] at hone
    exact Nat.add_left_cancel hone
  · intro h simulateInstStalls simulateDataStalls icacheAccess icacheLatency
    rw [stallTicks_device, h]

/-- A device of one chip behind an identity mapping, with lines of 64 bytes. -/
def plain : Platform Unit Unit where
  ops := instantOps
  range := { start := 512 * 1024 * 1024, end_ := 522 * 1024 * 1024 }
  dataBandwidth := 10000
  delaySet := 1000
  lineSize := 64
  translateAtomic _ vaddr := .ok vaddr

def resting : Machine Unit := ⟨{}, { aichip := { core := () } }⟩

private theorem plain_reaches (write : Bool) {addr : Addr}
    (haddr : plain.InData addr ∧ plain.InData (addr + 1)) :
    Reaches plain write {} addr 2 resting := by
  constructor
  · decide
  · decide
  · rfl
  · intro hrmw
    cases hrmw
  · intro i hi
    interval_cases i
    · refine ⟨addr, by rw [BitVec.add_zero]; rfl, haddr.1, ?_⟩
      intro _ hll
      cases hll
    · refine ⟨addr + 1, rfl, haddr.2, ?_⟩
      intro _ hll
      cases hll

end Platform

end ModernArch.Cpu
