import ModernArch.Sim.Process

/-!
# Register microops

Integer registers are written whole or in part, by the operand size. The microops are the classes
that the microassembler builds when a microcode line names no flags.
-/

namespace ModernArch.X86
open Sim (mask bits)

/-- `insertBits` of `base/bitfield.hh`. -/
def insertBits (val : BitVec 64) (first last : Nat) (bit_val : BitVec 64) : BitVec 64 :=
  let bmask := mask (first - last + 1) <<< last
  ((bit_val <<< last) &&& bmask) ||| (val &&& ~~~bmask)

def intFoldBit : Nat := 1 <<< 6

abbrev numIntRegs : Nat := 16

def intRegFolded (index foldBit : Nat) : Nat :=
  if index &&& 0x1C = 4 ∧ foldBit ≠ 0 then (index - 4) ||| foldBit else index

/-- `reg & ~IntFoldBit`. -/
def flattenIntIndex (reg : Nat) : Nat := reg ^^^ (reg &&& intFoldBit)

/-- The fields of `X86IntReg`. -/
inductive Field where
  | R | E | X | H | L

def Field.first : Field → Nat
  | R => 63
  | E => 31
  | X => 15
  | H => 15
  | L => 7

def Field.last : Field → Nat
  | H => 8
  | R | E | X | L => 0

def Field.get (f : Field) (reg : BitVec 64) : BitVec 64 := bits reg f.first f.last

def Field.set (f : Field) (reg val : BitVec 64) : BitVec 64 := insertBits reg f.first f.last val

/-- `X86StaticInst::merge`, where `destIdx` is `_destRegIdx[0]`; it panics on other sizes. -/
def merge (destIdx : Nat) (into val : BitVec 64) (size : Nat) : Option (BitVec 64) :=
  if destIdx &&& intFoldBit ≠ 0 then some (Field.H.set into val)
  else match size with
    | 1 => some (Field.L.set into val)
    | 2 => some (Field.X.set into val)
    | 4 => some (Field.E.set 0 val)
    | 8 => some (Field.R.set into val)
    | _ => none

/-- `X86StaticInst::pick`, where `srcIdx` is `_srcRegIdx[idx]`. -/
def pick (srcIdx : Nat) (from_ : BitVec 64) (size : Nat) : Option (BitVec 64) :=
  if srcIdx &&& intFoldBit ≠ 0 then some (Field.H.get from_)
  else match size with
    | 1 => some (Field.L.get from_)
    | 2 => some (Field.X.get from_)
    | 4 => some (Field.E.get from_)
    | 8 => some (Field.R.get from_)
    | _ => none

inductive CCReg where
  | zaps | cfof | df | ecf | ezf
deriving DecidableEq

structure Context where
  intReg : Nat → BitVec 64
  ccReg : CCReg → BitVec 64

namespace Context

def readInt (c : Context) (reg : Nat) : BitVec 64 := c.intReg (flattenIntIndex reg)

def setInt (c : Context) (reg : Nat) (val : BitVec 64) : Context :=
  { c with intReg := Function.update c.intReg (flattenIntIndex reg) val }

end Context

structure EmulEnv where
  reg : Fin numIntRegs
  regm : Fin numIntRegs
  dataSize : Nat
  rex : Bool := false

def EmulEnv.foldOBit (env : EmulEnv) : Nat :=
  if env.dataSize = 1 ∧ env.rex = false then 1 <<< 6 else 0

inductive Microop where
  | mov (dest src1 src2 : Nat)
  | addi (dest src1 : Nat) (imm8 : BitVec 8)
  | srai (dest src1 : Nat) (imm8 : BitVec 8)

namespace Microop

/-- `Mov`: `DestReg = merge(SrcReg1, psrc2, dataSize)`. -/
def execMov (env : EmulEnv) (dest src1 src2 : Nat) (c : Context) : Option Context := do
  let dest := intRegFolded dest env.foldOBit
  let src1 := intRegFolded src1 env.foldOBit
  let src2 := intRegFolded src2 env.foldOBit
  let psrc2 ← pick src2 (c.readInt src2) env.dataSize
  let val ← merge dest (c.readInt src1) psrc2 env.dataSize
  return c.setInt dest val

/-- `AddImm`. -/
def execAddImm (env : EmulEnv) (dest src1 : Nat) (imm8 : BitVec 8) (c : Context) :
    Option Context := do
  let dest := intRegFolded dest env.foldOBit
  let src1 := intRegFolded src1 env.foldOBit
  let psrc1 ← pick src1 (c.readInt src1) env.dataSize
  let val ← merge dest (c.readInt dest) (psrc1 + imm8.setWidth 64) env.dataSize
  return c.setInt dest val

/-- `AddImmBig`. -/
def execAddImmBig (env : EmulEnv) (dest src1 : Nat) (imm8 : BitVec 8) (c : Context) :
    Option Context := do
  let dest := intRegFolded dest env.foldOBit
  let src1 := intRegFolded src1 env.foldOBit
  let psrc1 ← pick src1 (c.readInt src1) env.dataSize
  return c.setInt dest ((psrc1 + imm8.setWidth 64) &&& mask (env.dataSize * 8))

def shiftAmt (env : EmulEnv) (imm8 : BitVec 8) : Nat :=
  (imm8.setWidth 64 &&& if env.dataSize = 8 then mask 6 else mask 5).toNat

def arithMask (env : EmulEnv) (psrc1 : BitVec 64) (shiftAmt : Nat) : BitVec 64 :=
  if shiftAmt = 0 then 0
  else (-bits psrc1 (env.dataSize * 8 - 1) (env.dataSize * 8 - 1)) <<<
    (env.dataSize * 8 - shiftAmt)

/-- `SraImm`. -/
def execSraImm (env : EmulEnv) (dest src1 : Nat) (imm8 : BitVec 8) (c : Context) :
    Option Context := do
  let dest := intRegFolded dest env.foldOBit
  let src1 := intRegFolded src1 env.foldOBit
  let psrc1 ← pick src1 (c.readInt src1) env.dataSize
  let shiftAmt := shiftAmt env imm8
  let val ← merge dest (c.readInt dest) ((psrc1 >>> shiftAmt) ||| arithMask env psrc1 shiftAmt)
    env.dataSize
  return c.setInt dest val

/-- `SraImmBig`. -/
def execSraImmBig (env : EmulEnv) (dest src1 : Nat) (imm8 : BitVec 8) (c : Context) :
    Option Context := do
  let dest := intRegFolded dest env.foldOBit
  let src1 := intRegFolded src1 env.foldOBit
  let psrc1 ← pick src1 (c.readInt src1) env.dataSize
  let shiftAmt := shiftAmt env imm8
  return c.setInt dest (((psrc1 >>> shiftAmt) ||| arithMask env psrc1 shiftAmt) &&&
    mask (env.dataSize * 8))

/-- The allocator takes the `Big` class, where there is one, from four bytes on. -/
def exec (env : EmulEnv) : Microop → Context → Option Context
  | mov dest src1 src2 => execMov env dest src1 src2
  | addi dest src1 imm8 =>
      if env.dataSize ≥ 4 then execAddImmBig env dest src1 imm8
      else execAddImm env dest src1 imm8
  | srai dest src1 imm8 =>
      if env.dataSize ≥ 4 then execSraImmBig env dest src1 imm8
      else execSraImm env dest src1 imm8

end Microop

def run (env : EmulEnv) (microops : List Microop) (c : Context) : Option Context :=
  microops.foldlM (fun c op => op.exec env c) c

end ModernArch.X86
