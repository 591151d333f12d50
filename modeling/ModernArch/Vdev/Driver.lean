import ModernArch.Vdev.Status

/-!
# The driver

The functions of `peripheral.c` as a machine that issues one load or store at a time, in any
order with the interrupt of the device.
-/

namespace ModernArch.Vdev.Driver
open Framework

variable {C : Type}

def vdevInit : UInt8 := 0x01

inductive Call where
  | periInit (counter : UInt8)
  | periWrite (offset : Nat) (src : Nat → UInt8) (len : Nat)
  | periRead (offset len : Nat)
  | periIsFinished

/-- Where the driver is. `poll` is the loop on the ready bit, `copy c n` the `memcpy` of `c`
after `n` bytes. -/
inductive Pc where
  | idle
  | storeCounter (counter : UInt8)
  | storeInit (counter : UInt8)
  | poll (c : Call)
  | copy (c : Call) (n : Nat)
  | loadFinish
  | done (c : Call) (result : Bool)

namespace Pc

def entry : Call → Pc
  | .periInit counter => .storeCounter counter
  | .periIsFinished => .loadFinish
  | c => .poll c

def ready : Call → Pc
  | .periInit counter => .done (.periInit counter) false
  | c => .copy c 0

/-- The call being executed. -/
def call : Pc → Option Call
  | .idle => none
  | .storeCounter counter | .storeInit counter => some (.periInit counter)
  | .poll c | .copy c _ | .done c _ => some c
  | .loadFinish => some .periIsFinished

end Pc

def loadByte (offset : Nat) (data : Nat → UInt8) : Packet := ⟨true, false, offset, 1, data⟩

def storeByte (offset : Nat) (b : UInt8) : Packet := ⟨false, true, offset, 1, fun _ => b⟩

/-- The packets an instruction may issue, and where the driver goes with the byte returned. -/
inductive Issues : Pc → Packet → (UInt8 → Pc) → Prop where
  | storeCounter (counter : UInt8) :
      Issues (.storeCounter counter) (storeByte 1 counter) fun _ => .storeInit counter
  | storeInit (counter : UInt8) :
      Issues (.storeInit counter) (storeByte 0 vdevInit) fun _ => .poll (.periInit counter)
  | poll (c : Call) (data : Nat → UInt8) :
      Issues (.poll c) (loadByte 0 data) fun b =>
        if b &&& vdevReady ≠ 0 then Pc.ready c else .poll c
  | copyOut {offset : Nat} {src : Nat → UInt8} {len n size : Nat} (hsize : 0 < size)
      (hfit : n + size ≤ len) :
      Issues (.copy (.periWrite offset src len) n)
        ⟨false, true, offset + n, size, fun k => src (n + k)⟩
        fun _ => .copy (.periWrite offset src len) (n + size)
  | copyIn {offset len n size : Nat} (data : Nat → UInt8) (hsize : 0 < size)
      (hfit : n + size ≤ len) :
      Issues (.copy (.periRead offset len) n) ⟨true, false, offset + n, size, data⟩
        fun _ => .copy (.periRead offset len) (n + size)
  | loadFinish (data : Nat → UInt8) :
      Issues .loadFinish (loadByte 0 data) fun b => .done .periIsFinished (b &&& vdevFinish != 0)

inductive Returns : Pc → Call → Bool → Prop where
  | done (c : Call) (result : Bool) : Returns (.done c result) c result
  | write (offset : Nat) (src : Nat → UInt8) (len : Nat) :
      Returns (.copy (.periWrite offset src len) len) (.periWrite offset src len) false
  | read (offset len : Nat) :
      Returns (.copy (.periRead offset len) len) (.periRead offset len) false

structure Machine (C : Type) where
  pc : Pc
  dev : VirtualDevice C
  cpu : BaseCPU

/-- What happens in a step; an access keeps the device it met and the reply. -/
inductive Label (C : Type) where
  | call (c : Call)
  | access (pkt : Packet) (dev : VirtualDevice C) (reply : Reply C)
  | interrupt
  | ret (c : Call) (result : Bool)

inductive Step (ops : ChipOps C) : Machine C → Label C → Machine C → Prop where
  | call (c : Call) (dev : VirtualDevice C) (cpu : BaseCPU) :
      Step ops ⟨.idle, dev, cpu⟩ (.call c) ⟨Pc.entry c, dev, cpu⟩
  | access {pc : Pc} {pkt : Packet} {next : UInt8 → Pc} {dev : VirtualDevice C} {cpu : BaseCPU}
      {r : Reply C} (hissue : Issues pc pkt next) (hreply : access ops pkt dev cpu = .ok r) :
      Step ops ⟨pc, dev, cpu⟩ (.access pkt dev r) ⟨next (r.data 0), r.dev, r.cpu⟩
  | interrupt {pc : Pc} {dev : VirtualDevice C} {cpu : BaseCPU} {r : VirtualDevice C × BaseCPU}
      (hscheduled : dev.scheduled = true) (hok : triggerInterrupt dev cpu = .ok r) :
      Step ops ⟨pc, dev, cpu⟩ .interrupt ⟨pc, r.1, r.2⟩
  | ret {pc : Pc} {c : Call} {result : Bool} (dev : VirtualDevice C) (cpu : BaseCPU)
      (hret : Returns pc c result) : Step ops ⟨pc, dev, cpu⟩ (.ret c result) ⟨.idle, dev, cpu⟩

/-- A CPU with one device, and the driver between calls. -/
def boot (chip : AIChip C) : Machine C where
  pc := .idle
  dev := { id := 0, aichip := chip, executionState := .poweroff }
  cpu := { latVdev := [1], statusVdev := [false] }

def Label.called : Label C → Option Call
  | .call c => some c
  | _ => none

@[simp] theorem called_call (c : Call) : (Label.call c : Label C).called = some c := rfl

@[simp] theorem called_access (pkt : Packet) (dev : VirtualDevice C) (r : Reply C) :
    (Label.access pkt dev r).called = none := rfl

@[simp] theorem called_interrupt : (Label.interrupt : Label C).called = none := rfl

@[simp] theorem called_ret (c : Call) (result : Bool) :
    (Label.ret c result : Label C).called = none := rfl

def Label.returned : Label C → Option Call
  | .ret c _ => some c
  | _ => none

/-- The counter of the run the step starts. -/
def Label.ran : Label C → Option UInt8
  | .access pkt dev _ => if accepts pkt dev then some dev.aichip.counter else none
  | _ => none

/-- The flag left by the run the step starts. -/
def Label.finished : Label C → Option Bool
  | .access pkt dev r => if accepts pkt dev then some r.dev.aichip.finished else none
  | _ => none

def Label.isInterrupt : Label C → Bool
  | .interrupt => true
  | _ => false

/-- `Request discarded!` -/
def Label.discarded : Label C → Bool
  | .access pkt dev _ => !pkt.isRead && pkt.isWrite && pkt.offset == 0 &&
      pkt.data 0 &&& vdevSet != 0 && dev.has vdevWork
  | _ => false

/-- A load or store of data memory while the device works. -/
def Label.races : Label C → Bool
  | .access pkt dev _ => decide (2 ≤ pkt.offset) && dev.has vdevWork
  | _ => false

def calls (ls : List (Label C)) : List Call := ls.filterMap Label.called

def rets (ls : List (Label C)) : List Call := ls.filterMap Label.returned

def runs (ls : List (Label C)) : List UInt8 := ls.filterMap Label.ran

def lastFinished (ls : List (Label C)) : Option Bool := (ls.filterMap Label.finished).getLast?

def interrupts (ls : List (Label C)) : Nat := ls.countP Label.isInterrupt

def Call.counter : Call → Option UInt8
  | .periInit counter => some counter
  | _ => none

/-- The counters a sequence of calls asks for. -/
def inits (cs : List Call) : List UInt8 := cs.filterMap Call.counter

/-- Writes of blocks at running offsets. -/
def writeCalls : Nat → List Block → List Call
  | _, [] => []
  | off, b :: bs => .periWrite off b.byte b.size :: writeCalls (off + b.size) bs

/-- The call writes the start bit to the status register. -/
def Call.Starts : Call → Prop
  | .periWrite offset src len => offset = 0 ∧ 0 < len ∧ src 0 &&& vdevSet ≠ 0
  | _ => False

end ModernArch.Vdev.Driver
