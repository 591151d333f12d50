import ModernArch.Framework.Loop
import ModernArch.Framework.Word

/-!
# The resistive array

`RRAM_Array` of the accelerator (`simd.h`) keeps a sample of its noise for every nonzero weight;
that of the original program (`rram_array.h`) keeps a bit and copies its parameters with a
quarter of their size.
-/

namespace ModernArch.BinNet
open Framework

variable {F N : Type}

abbrev Grid (α : Type) := Nat → Nat → α

def Grid.set {α : Type} (m : Grid α) (i j : Nat) (v : α) : Grid α :=
  Function.update m i (Function.update (m i) j v)

theorem Grid.set_apply {α : Type} (m : Grid α) (i j i' j' : Nat) (v : α) :
    m.set i j v i' j' = if i' = i ∧ j' = j then v else m i' j' := by
  unfold Grid.set
  by_cases hi : i' = i
  · subst hi
    by_cases hj : j' = j
    · subst hj
      simp
    · simp [hj]
  · simp [hi]

/-- `std::memcpy` of `size` bytes, a whole number of floats, between float arrays. -/
def copyFloats (target source : Nat → F) (size : Nat) : Nat → F :=
  fun i => if i < size / 4 then source i else target i

/-- A signed byte of memory. -/
def int8At [Zero F] [FloatModel F] (h : Heap N F) (p : Ptr N) (k : Nat) : Int8 :=
  (readByte h p k).toInt8

variable [Field F] [FloatModel F]

def bnEpsilon : F := 1 / 100000

/-- The batch normalisation both arrays end a row with. -/
def normalize (value mean var weight bias : F) : F :=
  (value - mean) / FloatModel.sqrt (var + bnEpsilon) * weight + bias

/-- The outer loop of `calculate`: every row reads the input as it is by then. -/
def calculateRows [DecidableEq N] (rowOutput : (Nat → Int8) → Nat → F) (input output : Ptr N)
    (h : Heap N F) : Heap N F :=
  forRange 1024 h fun i h => Function.update h (output.add i) (.float (rowOutput (int8At h input) i))

section Sign

variable [LinearOrder F]

def signInt8 (x : F) : Int8 := if 0 < x then 1 else if x < 0 then -1 else 0

/-- `sign` of both arrays. -/
def sign [DecidableEq N] (input output : Ptr N) (h : Heap N F) : Heap N F :=
  forRange 1024 h fun i h =>
    writeByte h output i (signInt8 (h (input.add i)).toFloat).toUInt8

end Sign

/-- `dist` lists the samples of the noise in the order they are drawn. -/
structure RramArray (F : Type) where
  dist : Nat → F
  drawn : Nat := 0
  weightPositive : Grid F
  weightNegative : Grid F
  batchnormMean : Nat → F
  batchnormVar : Nat → F
  batchnormWeight : Nat → F
  batchnormBias : Nat → F

namespace RramArray

/-- One weight of `load_weight`. -/
def loadCell (w : Int8) (i j : Nat) (a : RramArray F) : RramArray F :=
  let a := { a with
    weightPositive := a.weightPositive.set i j 0
    weightNegative := a.weightNegative.set i j 0 }
  let a := if 0 < w then
    { a with weightPositive := a.weightPositive.set i j (a.dist a.drawn), drawn := a.drawn + 1 }
    else a
  if w < 0 then
    { a with weightNegative := a.weightNegative.set i j (a.dist a.drawn), drawn := a.drawn + 1 }
  else a

def loadCells (weight : Grid Int8) (a : RramArray F) : RramArray F :=
  forRange 1024 a fun i a => forRange 1024 a fun j a => a.loadCell (weight i j) i j

def loadWeight (weight : Grid Int8) (mean var bnWeight bias : Nat → F) (a : RramArray F) :
    RramArray F :=
  let a := a.loadCells weight
  { a with
    batchnormMean := copyFloats a.batchnormMean mean 4096
    batchnormVar := copyFloats a.batchnormVar var 4096
    batchnormWeight := copyFloats a.batchnormWeight bnWeight 4096
    batchnormBias := copyFloats a.batchnormBias bias 4096 }

/-- The two inner loops of `calculate` for row `i`. -/
def rowValue (a : RramArray F) (input : Nat → Int8) (i : Nat) : F :=
  let value := forRange 1024 0 fun j value =>
    value + ((input j).toInt : F) * a.weightPositive i j
  forRange 1024 value fun j value => value - ((input j).toInt : F) * a.weightNegative i j

def rowOutput (a : RramArray F) (input : Nat → Int8) (i : Nat) : F :=
  normalize (a.rowValue input i) (a.batchnormMean i) (a.batchnormVar i) (a.batchnormWeight i)
    (a.batchnormBias i)

def calculate [DecidableEq N] (a : RramArray F) (input output : Ptr N) (h : Heap N F) : Heap N F :=
  calculateRows a.rowOutput input output h

end RramArray

namespace Original

structure RramArray (F : Type) where
  weightPositive : Grid Bool
  weightNegtive : Grid Bool
  batchnormMean : Nat → F
  batchnormVar : Nat → F
  batchnormWeight : Nat → F
  batchnormBias : Nat → F

namespace RramArray

def loadCell (w : Int8) (i j : Nat) (a : RramArray F) : RramArray F :=
  let a := { a with
    weightPositive := a.weightPositive.set i j false
    weightNegtive := a.weightNegtive.set i j false }
  let a := if 0 < w then { a with weightPositive := a.weightPositive.set i j true } else a
  if w < 0 then { a with weightNegtive := a.weightNegtive.set i j true } else a

def loadCells (weight : Grid Int8) (a : RramArray F) : RramArray F :=
  forRange 1024 a fun i a => forRange 1024 a fun j a => a.loadCell (weight i j) i j

/-- The copies move 1024 bytes, not 1024 floats. -/
def loadWeight (weight : Grid Int8) (mean var bnWeight bias : Nat → F) (a : RramArray F) :
    RramArray F :=
  let a := a.loadCells weight
  { a with
    batchnormMean := copyFloats a.batchnormMean mean 1024
    batchnormVar := copyFloats a.batchnormVar var 1024
    batchnormWeight := copyFloats a.batchnormWeight bnWeight 1024
    batchnormBias := copyFloats a.batchnormBias bias 1024 }

/-- The product of a byte and a bit is an integer. -/
def rowValue (a : RramArray F) (input : Nat → Int8) (i : Nat) : F :=
  let value := forRange 1024 0 fun j value =>
    value + (((input j).toInt * (a.weightPositive i j).toInt : Int) : F)
  forRange 1024 value fun j value =>
    value - (((input j).toInt * (a.weightNegtive i j).toInt : Int) : F)

def rowOutput (a : RramArray F) (input : Nat → Int8) (i : Nat) : F :=
  normalize (a.rowValue input i) (a.batchnormMean i) (a.batchnormVar i) (a.batchnormWeight i)
    (a.batchnormBias i)

def calculate [DecidableEq N] (a : RramArray F) (input output : Ptr N) (h : Heap N F) : Heap N F :=
  calculateRows a.rowOutput input output h

end RramArray

end Original

end ModernArch.BinNet
