import ModernArch.X86.SignExtension

/-!
# Arithmetic microops

The microops of `MUL`, `IMUL`, `DIV` and `IDIV`, with the condition codes that they set, and the
sequencing of a macroop, whose microcode may branch.
-/

namespace ModernArch.X86
open Sim (mask bits)

def CFBit : BitVec 64 := 1#64 <<< 0
def PFBit : BitVec 64 := 1#64 <<< 2
def ECFBit : BitVec 64 := 1#64 <<< 3
def AFBit : BitVec 64 := 1#64 <<< 4
def EZFBit : BitVec 64 := 1#64 <<< 5
def ZFBit : BitVec 64 := 1#64 <<< 6
def SFBit : BitVec 64 := 1#64 <<< 7
def DFBit : BitVec 64 := 1#64 <<< 10
def OFBit : BitVec 64 := 1#64 <<< 11

def cfofMask : BitVec 64 := CFBit ||| OFBit

def ccFlagMask : BitVec 64 := PFBit ||| AFBit ||| ZFBit ||| SFBit

/-- The conditions that the microcode below tests. -/
inductive CondTest where
  | ECF | EZF | NotECF | NotEZF

def checkCondition (flags : BitVec 64) : CondTest → Bool
  | .ECF => flags.getLsbD 3
  | .EZF => flags.getLsbD 5
  | .NotECF => !flags.getLsbD 3
  | .NotEZF => !flags.getLsbD 5

def findCarry (width : Nat) (dest src1 src2 : BitVec 64) : Bool :=
  let shift := width - 1
  ((~~~(dest >>> shift) &&& 1) + ((src1 >>> shift) &&& 1) + ((src2 >>> shift) &&& 1)) &&& 2 != 0

def findOverflow (width : Nat) (dest src1 src2 : BitVec 64) : Bool :=
  ((src1 ^^^ ~~~src2) &&& (src1 ^^^ dest)) &&& (1#64 <<< (width - 1)) != 0

def findParity (width : Nat) (dest : BitVec 64) : Bool :=
  let dest := dest &&& mask width
  let dest := dest ^^^ (dest >>> 32)
  let dest := dest ^^^ (dest >>> 16)
  let dest := dest ^^^ (dest >>> 8)
  let dest := dest ^^^ (dest >>> 4)
  let dest := dest ^^^ (dest >>> 2)
  let dest := dest ^^^ (dest >>> 1)
  dest &&& 1 != 0

def findNegative (width : Nat) (dest : BitVec 64) : Bool := bits dest (width - 1) (width - 1) != 0

def findZero (width : Nat) (dest : BitVec 64) : Bool := dest &&& mask width == 0

/-- `RegOpBase::genFlags`. -/
def genFlags (dataSize : Nat) (oldFlags flagMask dest src1 src2 : BitVec 64) (subtract : Bool) :
    BitVec 64 :=
  let flags := oldFlags &&& ~~~flagMask
  let carries := flagMask &&& (ECFBit ||| CFBit)
  let flags :=
    if carries = 0 then flags
    else
      let flags := if findCarry (dataSize * 8) dest src1 src2 then flags ||| carries else flags
      if subtract then flags ^^^ carries else flags
  let flags :=
    if flagMask &&& PFBit ≠ 0 ∧ !findParity 8 dest then flags ||| PFBit else flags
  let flags :=
    if flagMask &&& AFBit = 0 then flags
    else
      let flags := if findCarry 4 dest src1 src2 then flags ||| AFBit else flags
      if subtract then flags ^^^ AFBit else flags
  let zeros := flagMask &&& (EZFBit ||| ZFBit)
  let flags := if zeros ≠ 0 ∧ findZero (dataSize * 8) dest then flags ||| zeros else flags
  let flags :=
    if flagMask &&& SFBit ≠ 0 ∧ findNegative (dataSize * 8) dest then flags ||| SFBit else flags
  if flagMask &&& OFBit ≠ 0 ∧ findOverflow (dataSize * 8) dest src1 src2 then flags ||| OFBit
  else flags

namespace Context

def flags (c : Context) : BitVec 64 :=
  c.ccReg .zaps ||| c.ccReg .cfof ||| c.ccReg .df ||| c.ccReg .ecf ||| c.ccReg .ezf

def setCC (c : Context) (r : CCReg) (val : BitVec 64) : Context :=
  { c with ccReg := Function.update c.ccReg r val }

/-- Predicated operands are written when `ext` names one of their bits. -/
def setPred (c : Context) (ext : BitVec 64) (r : CCReg) (own val : BitVec 64) : Context :=
  if ext &&& own = 0 then c else c.setCC r val

/-- They are read when some of their bits are to be kept, and are nought otherwise. -/
def readPred (c : Context) (ext : BitVec 64) (r : CCReg) (own : BitVec 64) : BitVec 64 :=
  if ext &&& own ≠ own ∧ ext &&& own ≠ 0 then c.ccReg r else 0

def PredccFlagBits (c : Context) (ext : BitVec 64) : BitVec 64 := c.readPred ext .zaps ccFlagMask

def PredcfofBits (c : Context) (ext : BitVec 64) : BitVec 64 := c.readPred ext .cfof cfofMask

/-- `SubRegOp`; the read predicates of the other three registers are `(false)`. -/
def subFlags (c : Context) (dataSize : Nat) (ext result psrc1 op2 : BitVec 64) : Context :=
  let newFlags := genFlags dataSize (c.PredccFlagBits ext ||| c.PredcfofBits ext) ext result psrc1
    (~~~op2) true
  ((((c.setPred ext .cfof cfofMask (newFlags &&& cfofMask)).setPred ext .ecf ECFBit
    (newFlags &&& ECFBit)).setPred ext .ezf EZFBit (newFlags &&& EZFBit)).setPred ext .df DFBit
    (newFlags &&& DFBit)).setPred ext .zaps ccFlagMask (newFlags &&& ccFlagMask)

/-- The flags of `Sll`, where `val` has been written to `DestReg`. -/
def sllFlags (c : Context) (dataSize : Nat) (ext srcReg1 val psrc1 op2 : BitVec 64)
    (shiftAmt : Nat) : Context :=
  if shiftAmt = 0 then c
  else
    let cfof := c.PredcfofBits ext &&& ~~~(ext &&& (CFBit ||| OFBit))
    let CFBits := decide (shiftAmt ≤ dataSize * 8) &&
      bits srcReg1 (dataSize * 8 - shiftAmt) (dataSize * 8 - shiftAmt) != 0
    let carries := ext &&& (CFBit ||| ECFBit) != 0 && CFBits
    let cfof := if carries then cfof ||| (ext &&& CFBit) else cfof
    let ecf := if carries then ext &&& ECFBit else 0
    let cfof :=
      if ext &&& OFBit ≠ 0 ∧ (CFBits ^^ bits val (dataSize * 8 - 1) (dataSize * 8 - 1) != 0) then
        cfof ||| OFBit
      else cfof
    let newFlags := genFlags dataSize (c.PredccFlagBits ext)
      (ext &&& ~~~(CFBit ||| ECFBit ||| OFBit)) val psrc1 op2 false
    ((((c.setPred ext .cfof cfofMask cfof).setPred ext .ecf ECFBit ecf).setPred ext .ezf EZFBit
      (newFlags &&& EZFBit)).setPred ext .df DFBit (newFlags &&& DFBit)).setPred ext .zaps
      ccFlagMask (newFlags &&& ccFlagMask)

/-- The flags of `Mul1s` and `Mul1u`. -/
def mulFlags (c : Context) (ext : BitVec 64) (carries : Bool) : Context :=
  let cfof := ext &&& (CFBit ||| OFBit)
  (c.setPred ext .cfof cfofMask
    (if carries then c.PredcfofBits ext ||| cfof else c.PredcfofBits ext &&& ~~~cfof)).setPred ext
    .ecf ECFBit (if carries then ext &&& ECFBit else 0)

/-- The flags of `Div2`. -/
def divFlags (c : Context) (ext : BitVec 64) (remaining : Nat) : Context :=
  c.setPred ext .ezf EZFBit (if remaining = 0 then ext &&& EZFBit else 0)

end Context

/-- `if (bits(val, first, last)) { msb += last; val >>= last; }`. -/
def narrow (first last : Nat) (s : Nat × BitVec 64) : Nat × BitVec 64 :=
  if bits s.2 first last ≠ 0 then (s.1 + last, s.2 >>> last) else s

/-- `findMsbSet` of `base/bitfield.hh`; its last line has no `val` to shift on. -/
def findMsbSet (val : BitVec 64) : Nat :=
  if val = 0 then 0
  else (narrow 1 1 (narrow 3 2 (narrow 7 4 (narrow 15 8 (narrow 31 16 (narrow 63 32
    (0, val))))))).1

/-- `divide`, which changes the quotient and the remainder; its divisor is not nought. -/
def divide (dividend divisor quotient remainder : BitVec 64) : BitVec 64 × BitVec 64 :=
  if divisor ≤ dividend then
    let shift := findMsbSet dividend - findMsbSet divisor
    let divisor := divisor <<< shift
    let quotientBit := 1#64 <<< shift
    if divisor > dividend then (quotient + (quotientBit >>> 1), remainder - (divisor >>> 1))
    else (quotient + quotientBit, remainder - divisor)
  else (quotient, remainder)

/-- What the loops of `Div2` change. -/
structure Pull where
  dividend : BitVec 64
  quotient : BitVec 64
  remaining : Nat

def Pull.next (p : Pull) (srcReg1 : BitVec 64) : Pull where
  dividend := (p.dividend <<< 1) ||| bits srcReg1 (p.remaining - 1) (p.remaining - 1)
  quotient := p.quotient <<< 1
  remaining := p.remaining - 1

def pullWhile (cond : BitVec 64 → Bool) (srcReg1 : BitVec 64) (dividend quotient : BitVec 64) :
    Nat → Pull
  | 0 => ⟨dividend, quotient, 0⟩
  | n + 1 =>
      if cond dividend then
        pullWhile cond srcReg1 ((dividend <<< 1) ||| bits srcReg1 n n) (quotient <<< 1) n
      else ⟨dividend, quotient, n + 1⟩

def highBitSet (v : BitVec 64) : Bool := v &&& (1#64 <<< 63) != 0

/-- The code of `Div2` for a divisor that is not nought; the result's `dividend` is the new
remainder. -/
def div2 (srcReg1 divisor : BitVec 64) (p : Pull) : Pull :=
  if p.remaining = 0 then p
  else if highBitSet divisor then
    let p := pullWhile (fun dividend => !highBitSet dividend) srcReg1 p.dividend p.quotient
      p.remaining
    if highBitSet p.dividend then
      if p.dividend < divisor ∧ p.remaining ≠ 0 then
        let p := p.next srcReg1
        { p with dividend := p.dividend - divisor, quotient := p.quotient + 1 }
      else if divisor ≤ p.dividend then
        { p with dividend := p.dividend - divisor, quotient := p.quotient + 1 }
      else p
    else p
  else
    let p := pullWhile (fun dividend => decide (dividend < divisor)) srcReg1 p.dividend p.quotient
      p.remaining
    let (quotient, remainder) := divide p.dividend divisor p.quotient p.dividend
    { p with dividend := remainder, quotient := quotient }

/-- `ProdHi` of `Mul1u`, also the first `hiResult` of `Mul1s`. -/
def mulHigh (dataSize : Nat) (psrc1 op2 : BitVec 64) : BitVec 64 :=
  let halfSize := dataSize * 8 / 2
  let shifter := 1#64 <<< halfSize
  let psrc1_h := psrc1 / shifter
  let psrc1_l := psrc1 &&& mask halfSize
  let psrc2_h := (op2 / shifter) &&& mask halfSize
  let psrc2_l := op2 &&& mask halfSize
  (psrc1_l * psrc2_h + psrc1_h * psrc2_l + (psrc1_l * psrc2_l) / shifter) / shifter +
    psrc1_h * psrc2_h

/-- `ProdHi` of `Mul1s`. -/
def signedMulHigh (dataSize : Nat) (psrc1 op2 : BitVec 64) : BitVec 64 :=
  let hiResult := mulHigh dataSize psrc1 op2
  let hiResult :=
    if bits psrc1 (dataSize * 8 - 1) (dataSize * 8 - 1) != 0 then hiResult - op2 else hiResult
  if bits op2 (dataSize * 8 - 1) (dataSize * 8 - 1) != 0 then hiResult - psrc1 else hiResult

abbrev numMicroIntRegs : Nat := 16

def INTREG_MICRO (index : Nat) : Nat := numIntRegs + index

def INTREG_IMPLICIT (index : Nat) : Nat := numIntRegs + numMicroIntRegs + index

def ZeroReg : Nat := numIntRegs

def INTREG_RAX : Nat := 0
def INTREG_RDX : Nat := 2

def ProdLow : Nat := INTREG_IMPLICIT 0
def ProdHi : Nat := INTREG_IMPLICIT 1
def Quotient : Nat := INTREG_IMPLICIT 2
def Remainder : Nat := INTREG_IMPLICIT 3
def Divisor : Nat := INTREG_IMPLICIT 4

inductive Fault where
  | DivideError
deriving DecidableEq

/-- An empty `ext` stands for the class without flags; `mov` has a condition. -/
inductive RegOp where
  | sub (dest src1 src2 : Nat) (ext : BitVec 64)
  | mov (dest src1 src2 : Nat) (ext : CondTest)
  | slli (dest src1 : Nat) (imm8 : BitVec 8) (ext : BitVec 64)
  | ruflag (dest : Nat) (imm8 : BitVec 8)
  | mul1u (src1 src2 : Nat) (ext : BitVec 64)
  | mul1s (src1 src2 : Nat) (ext : BitVec 64)
  | mulel (dest : Nat)
  | muleh (dest : Nat)
  | div1 (src1 src2 : Nat)
  | div2 (dest src1 src2 : Nat) (ext : BitVec 64)
  | div2i (dest src1 : Nat) (imm8 : BitVec 8) (ext : BitVec 64)
  | divq (dest : Nat)
  | divr (dest : Nat)
  | br (target : Nat) (cc : CondTest)
  | ld (dest : Nat) (mem : BitVec 64)

namespace RegOp

/-- `pick(SrcReg, idx, dataSize)`. -/
def psrc (env : EmulEnv) (c : Context) (src : Nat) : Option (BitVec 64) :=
  let src := intRegFolded src env.foldOBit
  pick src (c.readInt src) env.dataSize

def srcReg (env : EmulEnv) (c : Context) (src : Nat) : BitVec 64 :=
  c.readInt (intRegFolded src env.foldOBit)

/-- `DestReg = merge(DestReg, val, dataSize)`, or in the `Big` classes the masked value. -/
def setDest (env : EmulEnv) (c : Context) (dest : Nat) (val : BitVec 64) : Option Context := do
  let dest := intRegFolded dest env.foldOBit
  let val ← if env.dataSize ≥ 4 then some (val &&& mask (env.dataSize * 8))
    else merge dest (c.readInt dest) val env.dataSize
  return c.setInt dest val

def execSub (env : EmulEnv) (dest src1 src2 : Nat) (ext : BitVec 64) (c : Context) :
    Option Context := do
  let psrc1 ← psrc env c src1
  let psrc2 ← psrc env c src2
  let result :=
    if env.dataSize ≥ 4 then (psrc1 - psrc2) &&& mask (env.dataSize * 8) else psrc1 - psrc2
  let c ← setDest env c dest result
  return c.subFlags env.dataSize ext result psrc1 psrc2

/-- Where the condition fails, `DestReg = DestReg`. -/
def execMov (env : EmulEnv) (dest src1 src2 : Nat) (ext : CondTest) (c : Context) :
    Option Context := do
  let psrc2 ← psrc env c src2
  if checkCondition c.flags ext then
    let dest := intRegFolded dest env.foldOBit
    let val ← merge dest (srcReg env c src1) psrc2 env.dataSize
    return c.setInt dest val
  else return c

def execSlli (env : EmulEnv) (dest src1 : Nat) (imm8 : BitVec 8) (ext : BitVec 64)
    (c : Context) : Option Context := do
  let psrc1 ← psrc env c src1
  let shiftAmt := Microop.shiftAmt env imm8
  let c' ← setDest env c dest (psrc1 <<< shiftAmt)
  return c'.sllFlags env.dataSize ext (srcReg env c src1) (srcReg env c' dest) psrc1
    (imm8.setWidth 64) shiftAmt

def execRuflag (env : EmulEnv) (dest : Nat) (imm8 : BitVec 8) (c : Context) : Option Context := do
  let flag := bits c.flags imm8.toNat imm8.toNat
  let c ← setDest env c dest flag
  return c.setCC .ezf (if flag = 0 then EZFBit else 0)

def execMul1u (env : EmulEnv) (src1 src2 : Nat) (ext : BitVec 64) (c : Context) :
    Option Context := do
  let psrc1 ← psrc env c src1
  let psrc2 ← psrc env c src2
  let hi := mulHigh env.dataSize psrc1 psrc2
  return ((c.setInt ProdLow (psrc1 * psrc2)).setInt ProdHi hi).mulFlags ext (hi != 0)

def execMul1s (env : EmulEnv) (src1 src2 : Nat) (ext : BitVec 64) (c : Context) :
    Option Context := do
  let psrc1 ← psrc env c src1
  let psrc2 ← psrc env c src2
  let low := psrc1 * psrc2
  let hi := signedMulHigh env.dataSize psrc1 psrc2
  return ((c.setInt ProdLow low).setInt ProdHi hi).mulFlags ext
    (-hi &&& mask (env.dataSize * 8) != bits low (env.dataSize * 8 - 1) (env.dataSize * 8 - 1))

def execDiv1 (env : EmulEnv) (src1 src2 : Nat) (c : Context) :
    Option (Except Fault Context) := do
  let psrc1 ← psrc env c src1
  let psrc2 ← psrc env c src2
  if psrc2 = 0 then return .error .DivideError
  let (quotient, remainder) := divide psrc1 psrc2 0 psrc1
  return .ok (((c.setInt Remainder remainder).setInt Quotient quotient).setInt Divisor psrc2)

/-- `remaining` is an `int`; the microcode starts it at the operand's bits. -/
def execDiv2 (env : EmulEnv) (dest src1 : Nat) (op2 : BitVec 64) (ext : BitVec 64)
    (c : Context) : Option (Except Fault Context) := do
  let divisor := c.intReg Divisor
  if divisor = 0 then return .error .DivideError
  let p := X86.div2 (srcReg env c src1) divisor
    ⟨c.intReg Remainder, c.intReg Quotient, op2.toNat⟩
  let c ← setDest env c dest (BitVec.ofNat 64 p.remaining)
  return .ok (((c.setInt Remainder p.dividend).setInt Quotient p.quotient).divFlags ext
    p.remaining)

/-- The microop and the micro-PC after it, which was `upc`. -/
def exec (env : EmulEnv) (upc : Nat) (c : Context) :
    RegOp → Option (Except Fault (Nat × Context))
  | sub dest src1 src2 ext => do return .ok (upc + 1, ← execSub env dest src1 src2 ext c)
  | mov dest src1 src2 ext => do return .ok (upc + 1, ← execMov env dest src1 src2 ext c)
  | slli dest src1 imm8 ext => do return .ok (upc + 1, ← execSlli env dest src1 imm8 ext c)
  | ruflag dest imm8 => do return .ok (upc + 1, ← execRuflag env dest imm8 c)
  | mul1u src1 src2 ext => do return .ok (upc + 1, ← execMul1u env src1 src2 ext c)
  | mul1s src1 src2 ext => do return .ok (upc + 1, ← execMul1s env src1 src2 ext c)
  | mulel dest => do return .ok (upc + 1, ← setDest env c dest (c.intReg ProdLow))
  | muleh dest => do return .ok (upc + 1, ← setDest env c dest (c.intReg ProdHi))
  | div1 src1 src2 => do return (← execDiv1 env src1 src2 c).map (upc + 1, ·)
  | div2 dest src1 src2 ext => do
      return (← execDiv2 env dest src1 (← psrc env c src2) ext c).map (upc + 1, ·)
  | div2i dest src1 imm8 ext => do
      return (← execDiv2 env dest src1 (imm8.setWidth 64) ext c).map (upc + 1, ·)
  | divq dest => do return .ok (upc + 1, ← setDest env c dest (c.intReg Quotient))
  | divr dest => do return .ok (upc + 1, ← setDest env c dest (c.intReg Remainder))
  | br target cc => some (.ok (if checkCondition c.flags cc then target else upc + 1, c))
  | ld dest mem => do return .ok (upc + 1, ← setDest env c dest mem)

end RegOp

/-- A microop of the macroop; `preExecute` clears the zero register before it. -/
def step (env : EmulEnv) (ops : List RegOp) (upc : Nat) (c : Context) :
    Option (Except Fault (Nat × Context)) := do
  let op ← ops[upc]?
  op.exec env upc (c.setInt ZeroReg 0)

/-- The macroop from `upc` on, with a bound on the number of microops. -/
def execute (env : EmulEnv) (ops : List RegOp) :
    Nat → Nat → Context → Option (Except Fault Context)
  | 0, _, _ => none
  | n + 1, upc, c =>
      if upc = ops.length then some (.ok c)
      else do
        match ← step env ops upc c with
        | .error fault => return .error fault
        | .ok (upc, c) => execute env ops n upc c

end ModernArch.X86
