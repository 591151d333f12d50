import ModernArch.Mem.PortProxy
import ModernArch.Sim.Process

/-!
# System calls and functional accesses of a process

The calls that change the address space of a process, and the proxy by which the simulator reads
and writes its memory.
-/

namespace ModernArch.Sim
open Mem

/-- What `SETranslatingPortProxy` does with a page that is not there. -/
inductive AllocType where
  | Always | Never | NextPage
deriving DecidableEq

inductive MmapReturn where
  | value (a : Addr) | EBADF | EINVAL
deriving DecidableEq

/-- The Linuxes of the machines with pages of 4096 bytes. -/
inductive OS where
  | X86Linux32 | X86Linux64 | ArmLinux32 | ArmLinux64 | PowerLinux
deriving DecidableEq

namespace OS

def mmapGrowsDown : OS → Bool
  | .X86Linux32 => true
  | _ => false

/-- Whether the table of system calls has `mremapFunc`, and not `unimplementedFunc`. -/
def hasMremap : OS → Bool
  | .X86Linux64 | .ArmLinux32 | .ArmLinux64 => true
  | .X86Linux32 | .PowerLinux => false

end OS

def roundDown (val : Addr) : Addr := val &&& ~~~(BitVec.ofNat 64 PageBytes - 1)

/-- A process with the memory of its system, as it finds both. -/
structure LiveProcess extends Process where
  os : OS := .X86Linux64
  physmem : Ram := fun _ => 0
  cacheLineSize : Nat := 64
  brk_point : Addr := 0
  stack_base : Addr := 0
  stack_min : Addr := 0
  max_stack_size : Addr := 0

namespace LiveProcess

def allocateMem (p : LiveProcess) (vaddr : Addr) (size : Int) (clobber : Bool) :
    Except Mem.Failure LiveProcess := do
  let q ← p.toProcess.allocateMem vaddr size clobber
  return { p with toProcess := q }

def translate (p : LiveProcess) (vaddr : Addr) : Option Addr × LiveProcess :=
  let (paddr, pTable) := p.pTable.translate vaddr
  (paddr, { p with pTable := pTable })

/-- The loop of `fixupStackFault`. A turn takes the stack a page nearer to its limit, which is
exceeded before the turns are used up. -/
def growStack (vaddr : Addr) : Nat → LiveProcess → Except Mem.Failure LiveProcess
  | 0, _ => .error .fatal
  | fuel + 1, p =>
    if vaddr < p.stack_min then do
      let stack_min := p.stack_min - BitVec.ofNat 64 PageBytes
      check (p.stack_base - stack_min ≤ p.max_stack_size) .fatal
      let p ← { p with stack_min := stack_min }.allocateMem stack_min PageBytes false
      growStack vaddr fuel p
    else .ok p

def fixupStackFault (p : LiveProcess) (vaddr : Addr) : Except Mem.Failure (Bool × LiveProcess) :=
  if p.stack_min ≤ vaddr ∧ vaddr < p.stack_base then do
    let p ← p.allocateMem (roundDown vaddr) PageBytes false
    return (true, p)
  else if vaddr < p.stack_min ∧ p.stack_base - p.max_stack_size ≤ vaddr then do
    let p ← growStack vaddr (p.max_stack_size.toNat / PageBytes + 3) p
    return (true, p)
  else return (false, p)

def port (p : LiveProcess) : PortProxy :=
  { totalSize := p.system.totalSize, cacheLineSize := p.cacheLineSize }

/-- The search after a page was mapped. The proxy does not look whether it found the page. -/
def translateAgain (p : LiveProcess) (vaddr : Addr) : Except Mem.Failure (Option Addr × LiveProcess) :=
  match p.translate vaddr with
  | (some paddr, p) => .ok (some paddr, p)
  | (none, _) => .error .fatal

/-- The physical address of a write, on a new page if there was none. -/
def writeAddr (p : LiveProcess) (allocating : AllocType) (vaddr : Addr) :
    Except Mem.Failure (Option Addr × LiveProcess) :=
  match p.translate vaddr with
  | (some paddr, p) => .ok (some paddr, p)
  | (none, p) =>
    match allocating with
    | .Always => do
      let p ← p.allocateMem (roundDown vaddr) PageBytes false
      p.translateAgain vaddr
    | .NextPage => do
      let (fixed, p) ← p.fixupStackFault vaddr
      check (fixed = true) .fatal
      p.translateAgain vaddr
    | .Never => .ok (none, p)

/-- The loop of `tryReadBlob`; there are no bytes when a page is missing. -/
def readChunks (p : LiveProcess) (acc : List UInt8) :
    List (Addr × Nat) → Except Mem.Failure (Option (List UInt8) × LiveProcess)
  | [] => .ok (some acc, p)
  | c :: l =>
    match p.translate c.1 with
    | (none, p) => .ok (none, p)
    | (some paddr, p) => do
      let bytes ← p.port.readBlob p.physmem paddr c.2
      p.readChunks (acc ++ bytes) l

def tryReadBlob (p : LiveProcess) (addr : Addr) (size : Nat) :
    Except Mem.Failure (Option (List UInt8) × LiveProcess) :=
  p.readChunks [] (chunks addr size PageBytes)

def readBlob (p : LiveProcess) (addr : Addr) (size : Nat) :
    Except Mem.Failure (List UInt8 × LiveProcess) := do
  match ← p.tryReadBlob addr size with
  | (some bytes, p) => return (bytes, p)
  | (none, _) => .error .fatal

/-- The loop of `tryWriteBlob`. -/
def writeChunks (p : LiveProcess) (allocating : AllocType) (bytes : List UInt8) :
    List (Addr × Nat) → Except Mem.Failure (Bool × LiveProcess)
  | [] => .ok (true, p)
  | c :: l => do
    match ← p.writeAddr allocating c.1 with
    | (none, p) => return (false, p)
    | (some paddr, p) =>
      let physmem ← p.port.writeBlob p.physmem paddr (bytes.take c.2)
      { p with physmem := physmem }.writeChunks allocating (bytes.drop c.2) l

def tryWriteBlob (p : LiveProcess) (allocating : AllocType) (addr : Addr) (bytes : List UInt8) :
    Except Mem.Failure (Bool × LiveProcess) :=
  p.writeChunks allocating bytes (chunks addr bytes.length PageBytes)

def writeBlob (p : LiveProcess) (allocating : AllocType) (addr : Addr) (bytes : List UInt8) :
    Except Mem.Failure LiveProcess := do
  let (done, p) ← p.tryWriteBlob allocating addr bytes
  check (done = true) .fatal
  return p

/-- The loop of `tryMemsetBlob`, which takes no page of the stack. -/
def memsetChunks (p : LiveProcess) (allocating : AllocType) (val : UInt8) :
    List (Addr × Nat) → Except Mem.Failure (Bool × LiveProcess)
  | [] => .ok (true, p)
  | c :: l => do
    match ← p.writeAddr (if allocating = .Always then .Always else .Never) c.1 with
    | (none, p) => return (false, p)
    | (some paddr, p) =>
      let physmem ← p.port.memsetBlob p.physmem paddr val c.2
      { p with physmem := physmem }.memsetChunks allocating val l

def tryMemsetBlob (p : LiveProcess) (allocating : AllocType) (addr : Addr) (val : UInt8)
    (size : Nat) : Except Mem.Failure (Bool × LiveProcess) :=
  p.memsetChunks allocating val (chunks addr size PageBytes)

def memsetBlob (p : LiveProcess) (allocating : AllocType) (addr : Addr) (val : UInt8)
    (size : Nat) : Except Mem.Failure LiveProcess := do
  let (done, p) ← p.tryMemsetBlob allocating addr val size
  check (done = true) .fatal
  return p

/-- `tryWriteString`, from the bytes of the string before its zero. -/
def tryWriteString (p : LiveProcess) (vaddr : Addr) :
    List UInt8 → Except Mem.Failure (Bool × LiveProcess)
  | [] => writeByte p vaddr 0
  | c :: str => do
    match ← writeByte p vaddr c with
    | (true, p) => p.tryWriteString (vaddr + 1) str
    | (false, p) => return (false, p)
where
  writeByte (p : LiveProcess) (vaddr : Addr) (c : UInt8) : Except Mem.Failure (Bool × LiveProcess) :=
    match p.translate vaddr with
    | (none, p) => .ok (false, p)
    | (some paddr, p) => do
      let physmem ← p.port.writeBlob p.physmem paddr [c]
      return (true, { p with physmem := physmem })

/-- The loop of `tryReadString`, in at most `fuel` turns. -/
def tryReadString (str : List UInt8) :
    Nat → LiveProcess → Addr → Except Mem.Failure (Option (List UInt8) × LiveProcess)
  | 0, _, _ => .error .fatal
  | fuel + 1, p, vaddr =>
    match p.translate vaddr with
    | (none, p) => .ok (none, p)
    | (some paddr, p) => do
      match ← p.port.readBlob p.physmem paddr 1 with
      | [c] => if c = 0 then return (some str, p) else tryReadString (str ++ [c]) fuel p (vaddr + 1)
      | _ => .error .fatal

/-- What a turn of the loop of `brkFunc` does with a page that is there. -/
def clearPage (p : LiveProcess) (a new_brk : Addr) : Except Mem.Failure LiveProcess := do
  let next_page := roundUp a
  let size_needed := (next_page - a).toNat % 2 ^ 32
  let p ← p.memsetBlob .NextPage a 0 size_needed
  if next_page < a + BitVec.ofNat 64 PageBytes ∧ next_page < new_brk then
    match p.translate next_page with
    | (some _, p) => p.memsetBlob .NextPage next_page 0 (PageBytes - size_needed)
    | (none, p) => return p
  else return p

def extendPage (p : LiveProcess) (a new_brk : Addr) : Except Mem.Failure LiveProcess :=
  match p.translate a with
  | (none, p) => p.allocateMem (roundDown a) PageBytes false
  | (some _, p) => p.clearPage a new_brk

/-- The loop of `brkFunc`. -/
def extendBrk (p : LiveProcess) (new_brk : Addr) : List (Addr × Nat) → Except Mem.Failure LiveProcess
  | [] => .ok p
  | c :: l => do
    let p ← p.extendPage c.1 new_brk
    p.extendBrk new_brk l

def brkFunc (p : LiveProcess) (new_brk : Addr) : Except Mem.Failure (Addr × LiveProcess) :=
  if new_brk = 0 then .ok (p.brk_point, p)
  else do
    let p ←
      if p.brk_point < new_brk then
        p.extendBrk new_brk
          (chunks p.brk_point ((new_brk - p.brk_point).toNat % 2 ^ 32) PageBytes)
      else .ok p
    return (new_brk, { p with brk_point := new_brk })

/-- `mmapFunc`, with the flags `MAP_ANONYMOUS` and `MAP_FIXED` and whether the file is open. -/
def mmapFunc (p : LiveProcess) (start length : Addr) (anonymous fixed isOpen : Bool)
    (offset : Addr) : Except Mem.Failure (MmapReturn × LiveProcess) :=
  if anonymous = false ∧ isOpen = false then .ok (.EBADF, p)
  else
    let length := roundUp length
    if pageOffset start ≠ 0 ∨ pageOffset offset ≠ 0 then .ok (.EINVAL, p)
    else
      let inUse := !p.pTable.isUnmapped start length.toInt
      if start ≠ 0 ∧ inUse ∧ fixed then .ok (.EINVAL, p)
      else if start ≠ 0 ∧ ¬ inUse then do
        let p ← p.allocateMem start length.toInt false
        return (.value start, p)
      else if p.os.mmapGrowsDown then do
        let start := p.mmap_end - length
        let p ← { p with mmap_end := start }.allocateMem start length.toInt false
        return (.value start, p)
      else do
        let start := p.mmap_end
        let p ← { p with mmap_end := start + length }.allocateMem start length.toInt false
        return (.value start, p)

/-- `mremapFunc` on a system that has it; the call is fatal where it is `unimplementedFunc`. -/
def mremapFunc (p : LiveProcess) (start old_length new_length : Addr) (fixed mayMove : Bool)
    (address : Addr) : Except Mem.Failure (SyscallReturn × LiveProcess) := do
  check (p.os.hasMremap = true) .fatal
  let (r, q) ← p.toProcess.mremapFunc start old_length new_length fixed mayMove address
  return (r, { p with toProcess := q })

end LiveProcess

end ModernArch.Sim
