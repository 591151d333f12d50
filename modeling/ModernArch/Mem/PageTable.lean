import Mathlib

/-!
# The functional page table

`FuncPageTable` keeps its entries in a hash map and the last three it used in a cache.
-/

namespace ModernArch.Mem

abbrev Addr := BitVec 64

def PageShift : Nat := 12

def PageBytes : Nat := 2 ^ PageShift

inductive LookupLevel where
  | L0 | L1 | L2 | L3 | MAX_LOOKUP_LEVELS
deriving DecidableEq

inductive MemoryType where
  | StronglyOrdered | Device | Normal
deriving DecidableEq

inductive DomainType where
  | NoAccess | Client | Reserved | Manager
deriving DecidableEq

/-- The defaults are those of `TlbEntry()`. -/
structure TlbEntry where
  pfn : Addr := 0
  size : Addr := 0
  vpn : Addr := 0
  attributes : BitVec 64 := 0
  lookupLevel : LookupLevel := .L1
  asid : BitVec 16 := 0
  vmid : BitVec 8 := 0
  N : BitVec 8 := 0
  innerAttrs : BitVec 8 := 0
  outerAttrs : BitVec 8 := 0
  ap : BitVec 8 := 0
  hap : BitVec 8 := 0x3
  domain : DomainType := .Client
  mtype : MemoryType := .StronglyOrdered
  longDescFormat : Bool := false
  isHyp : Bool := false
  global : Bool := false
  valid : Bool := true
  ns : Bool := true
  nstid : Bool := true
  el : BitVec 8 := 0
  nonCacheable : Bool := false
  shareable : Bool := false
  outerShareable : Bool := false
  xn : Bool := false
  pxn : Bool := false
deriving DecidableEq

namespace TlbEntry

/-- `TlbEntry(Addr _asn, Addr _vaddr, Addr _paddr, bool uncacheable, bool read_only)`. -/
def new (asn vaddr paddr : Addr) (uncacheable read_only : Bool) : TlbEntry :=
  { pfn := paddr >>> PageShift
    size := BitVec.ofNat 64 (PageBytes - 1)
    vpn := vaddr >>> PageShift
    asid := asn.setWidth 16
    ap := if read_only then 0x3 else 0
    nonCacheable := uncacheable }

def updateVaddr (e : TlbEntry) (new_vaddr : Addr) : TlbEntry :=
  { e with vpn := new_vaddr >>> PageShift }

def pageStart (e : TlbEntry) : Addr := e.pfn <<< PageShift

end TlbEntry

def pageOffset (a : Addr) : Addr := a &&& BitVec.ofNat 64 (PageBytes - 1)

def pageAlign (a : Addr) : Addr := a &&& ~~~BitVec.ofNat 64 (PageBytes - 1)

/-- The address a number of pages further. -/
def page (vaddr : Addr) (i : Nat) : Addr := vaddr + BitVec.ofNat 64 (i * PageBytes)

/-- The turns of `for (; size > 0; size -= pageSize)`. -/
def pages (size : Int) : Nat := (size.toNat + (PageBytes - 1)) / PageBytes

structure CacheElement where
  valid : Bool := false
  vaddr : Addr := 0
  entry : TlbEntry := {}
deriving DecidableEq

/-- `pTableCache[3]`. -/
structure PTableCache where
  c0 : CacheElement := {}
  c1 : CacheElement := {}
  c2 : CacheElement := {}
deriving DecidableEq

namespace PTableCache

def updateCache (c : PTableCache) (vaddr : Addr) (entry : TlbEntry) : PTableCache :=
  { c0 := { valid := true, vaddr := vaddr, entry := entry }, c1 := c.c0, c2 := c.c1 }

def eraseCacheEntry (c : PTableCache) (vaddr : Addr) : PTableCache :=
  if c.c0.valid ∧ c.c0.vaddr = vaddr then { c with c0 := { c.c0 with valid := false } }
  else if c.c1.valid ∧ c.c1.vaddr = vaddr then { c with c1 := { c.c1 with valid := false } }
  else if c.c2.valid ∧ c.c2.vaddr = vaddr then { c with c2 := { c.c2 with valid := false } }
  else c

/-- The three tests of `lookup`. -/
def find (c : PTableCache) (page_addr : Addr) : Option TlbEntry :=
  if c.c0.valid ∧ c.c0.vaddr = page_addr then some c.c0.entry
  else if c.c1.valid ∧ c.c1.vaddr = page_addr then some c.c1.entry
  else if c.c2.valid ∧ c.c2.vaddr = page_addr then some c.c2.entry
  else none

end PTableCache

/-- The map gives what `pTable.find` gives. -/
structure FuncPageTable where
  pid : Addr := 0
  pTable : Addr → Option TlbEntry := fun _ => none
  pTableCache : PTableCache := {}

/-- What stops the simulation. -/
inductive Failure where
  | assertion | fatal
deriving DecidableEq

def check (p : Prop) [Decidable p] (f : Failure) : Except Failure Unit :=
  if p then .ok () else .error f

def Clobber : BitVec 64 := 1
def Uncacheable : BitVec 64 := 4
def ReadOnly : BitVec 64 := 8

namespace FuncPageTable

/-- One turn of the loop of `map`. -/
def mapPage (t : FuncPageTable) (vaddr paddr : Addr) (flags : BitVec 64) :
    Except Failure FuncPageTable := do
  check (flags &&& Clobber ≠ 0 ∨ t.pTable vaddr = none) .fatal
  let entry := TlbEntry.new t.pid vaddr paddr (flags &&& Uncacheable != 0) (flags &&& ReadOnly != 0)
  return { t with
    pTable := Function.update t.pTable vaddr (some entry)
    pTableCache := (t.pTableCache.eraseCacheEntry vaddr).updateCache vaddr entry }

def mapPages (t : FuncPageTable) (flags : BitVec 64) :
    Nat → Addr → Addr → Except Failure FuncPageTable
  | 0, _, _ => .ok t
  | n + 1, vaddr, paddr => do
    let t ← t.mapPage vaddr paddr flags
    t.mapPages flags n (page vaddr 1) (page paddr 1)

def map (t : FuncPageTable) (vaddr paddr : Addr) (size : Int) (flags : BitVec 64) :
    Except Failure FuncPageTable := do
  check (pageOffset vaddr = 0) .assertion
  t.mapPages flags (pages size) vaddr paddr

/-- One turn of the loop of `remap`. The subscript makes an entry when there is none, which is
so when the two addresses are one. -/
def remapPage (t : FuncPageTable) (vaddr new_vaddr : Addr) : Except Failure FuncPageTable := do
  check (t.pTable vaddr ≠ none) .assertion
  let moved := Function.update t.pTable new_vaddr (t.pTable vaddr)
  let erased := Function.update moved vaddr none
  let entry := ((erased new_vaddr).getD {}).updateVaddr new_vaddr
  return { t with
    pTable := Function.update erased new_vaddr (some entry)
    pTableCache := (t.pTableCache.eraseCacheEntry vaddr).updateCache new_vaddr entry }

def remapPages (t : FuncPageTable) : Nat → Addr → Addr → Except Failure FuncPageTable
  | 0, _, _ => .ok t
  | n + 1, vaddr, new_vaddr => do
    let t ← t.remapPage vaddr new_vaddr
    t.remapPages n (page vaddr 1) (page new_vaddr 1)

def remap (t : FuncPageTable) (vaddr : Addr) (size : Int) (new_vaddr : Addr) :
    Except Failure FuncPageTable := do
  check (pageOffset vaddr = 0) .assertion
  check (pageOffset new_vaddr = 0) .assertion
  t.remapPages (pages size) vaddr new_vaddr

/-- One turn of the loop of `unmap`. -/
def unmapPage (t : FuncPageTable) (vaddr : Addr) : Except Failure FuncPageTable := do
  check (t.pTable vaddr ≠ none) .assertion
  return { t with
    pTable := Function.update t.pTable vaddr none
    pTableCache := t.pTableCache.eraseCacheEntry vaddr }

def unmapPages (t : FuncPageTable) : Nat → Addr → Except Failure FuncPageTable
  | 0, _ => .ok t
  | n + 1, vaddr => do
    let t ← t.unmapPage vaddr
    t.unmapPages n (page vaddr 1)

def unmap (t : FuncPageTable) (vaddr : Addr) (size : Int) : Except Failure FuncPageTable := do
  check (pageOffset vaddr = 0) .assertion
  t.unmapPages (pages size) vaddr

/-- The loop of `isUnmapped`, whose caller has an aligned address. -/
def isUnmapped (t : FuncPageTable) (vaddr : Addr) (size : Int) : Bool :=
  (List.range (pages size)).all fun i => (t.pTable (page vaddr i)).isNone

/-- The entry found, and the table with its cache after the search. -/
def lookup (t : FuncPageTable) (vaddr : Addr) : Option TlbEntry × FuncPageTable :=
  let page_addr := pageAlign vaddr
  match t.pTableCache.find page_addr with
  | some entry => (some entry, t)
  | none =>
    match t.pTable page_addr with
    | none => (none, t)
    | some entry =>
      (some entry, { t with pTableCache := t.pTableCache.updateCache page_addr entry })

def translate (t : FuncPageTable) (vaddr : Addr) : Option Addr × FuncPageTable :=
  let (entry, t) := t.lookup vaddr
  (entry.map fun e => pageOffset vaddr + e.pageStart, t)

/-- `unserialize`, from the entries of the checkpoint. The cache is left as it is. -/
def unserialize (t : FuncPageTable) (entries : List (Addr × TlbEntry)) : FuncPageTable :=
  { t with
    pTable := entries.foldl (fun m e => Function.update m e.1 (some e.2)) fun _ => none }

inductive Call where
  | map (vaddr paddr : Addr) (size : Int) (flags : BitVec 64)
  | remap (vaddr : Addr) (size : Int) (new_vaddr : Addr)
  | unmap (vaddr : Addr) (size : Int)
  | lookup (vaddr : Addr)
deriving DecidableEq

def call (t : FuncPageTable) : Call → Except Failure FuncPageTable
  | .map vaddr paddr size flags => t.map vaddr paddr size flags
  | .remap vaddr size new_vaddr => t.remap vaddr size new_vaddr
  | .unmap vaddr size => t.unmap vaddr size
  | .lookup vaddr => .ok (t.lookup vaddr).2

end FuncPageTable

end ModernArch.Mem
