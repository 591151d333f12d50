import ModernArch.Mem.PageTable

/-!
# Memory of a process

`Process::allocateMem` takes physical pages from the system, or from a device whose virtual range
holds the address, and maps them.
-/

namespace ModernArch.Sim
open Mem

/-- `mask(nbits)` of `base/bitfield.hh`. -/
def mask (nbits : Nat) : Addr :=
  if nbits = 64 then BitVec.allOnes 64 else (1 <<< nbits) - 1

def bits (val : Addr) (first last : Nat) : Addr := (val >>> last) &&& mask (first - last + 1)

/-- Both `_start` and `_end` are part of the range. -/
structure AddrRange where
  start : Addr := 1
  end_ : Addr := 0
  intlvHighBit : Nat := 0
  xorHighBit : Nat := 0
  intlvBits : Nat := 0
  intlvMatch : Nat := 0
deriving DecidableEq

namespace AddrRange

def interleaved (r : AddrRange) : Bool := r.intlvBits != 0

def hashed (r : AddrRange) : Bool := r.interleaved && r.xorHighBit != 0

def size (r : AddrRange) : Addr := (r.end_ - r.start + 1) >>> r.intlvBits

def contains (r : AddrRange) (a : Addr) : Bool :=
  let in_range := decide (r.start ≤ a ∧ a ≤ r.end_)
  if !r.interleaved then in_range
  else if in_range then
    let low := bits a r.intlvHighBit (r.intlvHighBit - r.intlvBits + 1)
    if !r.hashed then low == BitVec.ofNat 64 r.intlvMatch
    else low ^^^ bits a r.xorHighBit (r.xorHighBit - r.intlvBits + 1) ==
      BitVec.ofNat 64 r.intlvMatch
  else false

end AddrRange

structure System where
  pagePtr : Addr := 0
  totalSize : Addr
  hasVdev : Bool
  vdevRanges : List AddrRange
  vaddrVdevRanges : List AddrRange
deriving DecidableEq

namespace System

def m5opRange : AddrRange := { start := 0xffff0000, end_ := 0xffffffff }

def allocPhysPages (s : System) (npages : BitVec 32) : Except Mem.Failure (Addr × System) := do
  let return_addr := s.pagePtr <<< PageShift
  let pagePtr := s.pagePtr + npages.signExtend 64
  let next_return_addr := pagePtr <<< PageShift
  let (return_addr, pagePtr) :=
    if m5opRange.contains next_return_addr then
      ((0xffffffff : Addr), (0xffffffff : Addr) >>> PageShift)
    else (return_addr, pagePtr)
  check (pagePtr <<< PageShift ≤ s.totalSize) .fatal
  return (return_addr, { s with pagePtr := pagePtr })

def isVAddrOfVdev (s : System) (addr : Addr) : Bool :=
  s.vaddrVdevRanges.any fun r => r.contains addr

/-- The physical address and the size that `allocVdevPages` puts in place of the size asked. -/
def allocVdevPages (s : System) (vaddr : Addr) : Except Mem.Failure (Addr × Int) :=
  match (s.vaddrVdevRanges.zip s.vdevRanges).find? fun rp => rp.1.contains vaddr with
  | some rp => .ok (rp.2.start, rp.2.size.toInt)
  | none => .error .fatal

end System

/-- `divCeil` on `int64_t`. -/
def divCeil (a b : Int) : Int := (a + b - 1).tdiv b

def roundUp (val : Addr) : Addr :=
  (val + BitVec.ofNat 64 PageBytes - 1) &&& ~~~(BitVec.ofNat 64 PageBytes - 1)

/-- The first half of `allocateMem`: the physical address, the size to map and the system. -/
def System.pagesFor (s : System) (vaddr : Addr) (size : Int) :
    Except Mem.Failure (Addr × Int × System) :=
  let npages := BitVec.ofInt 32 (divCeil size PageBytes)
  if s.hasVdev then
    if s.isVAddrOfVdev vaddr then do
      let (paddr, size) ← s.allocVdevPages vaddr
      return (paddr, size, s)
    else do
      let (paddr, s) ← s.allocPhysPages npages
      return (paddr, size, s)
  else do
    let (paddr, s) ← s.allocPhysPages npages
    return (paddr, size, s)

structure Process where
  system : System
  pTable : FuncPageTable := {}
  mmap_end : Addr := 0

/-- What a system call returns, with the errors of `mremapFunc`. -/
inductive SyscallReturn where
  | value (a : Addr) | EINVAL | ENOMEM
deriving DecidableEq

namespace Process

def allocateMem (p : Process) (vaddr : Addr) (size : Int) (clobber : Bool) :
    Except Mem.Failure Process := do
  let (paddr, size, system) ← p.system.pagesFor vaddr size
  let pTable ← p.pTable.map vaddr paddr size (if clobber then Clobber else 0)
  return { p with system := system, pTable := pTable }

/-- `mremapFunc`, with the flags `MREMAP_FIXED` and `MREMAP_MAYMOVE`. -/
def mremapFunc (p : Process) (start old_length new_length : Addr) (fixed mayMove : Bool)
    (address : Addr) : Except Mem.Failure (SyscallReturn × Process) := do
  let provided_address := if fixed then address else 0
  if pageOffset start ≠ 0 ∨ pageOffset provided_address ≠ 0 then
    return (.EINVAL, p)
  let new_length := roundUp new_length
  if old_length < new_length then
    if start + old_length = p.mmap_end ∧ (fixed = false ∨ provided_address = start) then
      let diff := new_length - old_length
      let p ← p.allocateMem p.mmap_end diff.toInt false
      return (.value start, { p with mmap_end := p.mmap_end + diff })
    else if fixed = false ∧ mayMove = false then
      return (.ENOMEM, p)
    else
      let new_start := if fixed then provided_address else p.mmap_end
      let pTable ← p.pTable.remap start old_length.toInt new_start
      let p : Process := { p with pTable := pTable }
      let p ← p.allocateMem (new_start + old_length) (new_length - old_length).toInt fixed
      let p : Process := if fixed then p else { p with mmap_end := p.mmap_end + new_length }
      return (.value new_start, p)
  else
    let pTable ← if fixed = true ∧ provided_address ≠ start then
      p.pTable.remap start new_length.toInt provided_address else .ok p.pTable
    let pTable ← pTable.unmap (start + new_length) (old_length - new_length).toInt
    return (.value (if fixed then provided_address else start), { p with pTable := pTable })

/-- A page moved onto a mapped one leaves the slot of the latter in the cache, where a search
finds it after the moved page is unmapped. -/
theorem mremap_leaves_slot :
    ∃ p : Process, (do
        let p : Process := { system := {
          totalSize := 0x20000000, hasVdev := false, vdevRanges := [], vaddrVdevRanges := [] } }
        let p ← p.allocateMem 0x1000 0x1000 false
        let p ← p.allocateMem 0x2000 0x1000 false
        let (_, p) ← p.mremapFunc 0x1000 0x1000 0x1000 true true 0x2000
        let (_, p) ← p.mremapFunc 0x2000 0x1000 0 false false 0
        pure p) = .ok p ∧
      (p.pTable.lookup 0x2000).1 ≠ p.pTable.pTable (pageAlign 0x2000) := by
  refine ⟨_, rfl, ?_⟩
  decide

end Process

end ModernArch.Sim
