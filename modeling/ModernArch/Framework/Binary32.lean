import ModernArch.Framework.Word

/-! # Binary32 bit patterns of rational numbers -/

namespace ModernArch.Framework

/-- The little-endian number in four bytes. -/
def bits (b : Fin 4 → UInt8) : Nat :=
  (b (lane 0)).toNat + 2 ^ 8 * (b (lane 1)).toNat + 2 ^ 16 * (b (lane 2)).toNat +
    2 ^ 24 * (b (lane 3)).toNat

/-- The value of a finite pattern. Infinities and NaN have no exact value and read as zero. -/
def decode (b : Fin 4 → UInt8) : ℚ :=
  let sign : ℚ := if bits b / 2 ^ 31 = 1 then -1 else 1
  let exponent := bits b / 2 ^ 23 % 2 ^ 8
  let fraction : ℚ := (bits b % 2 ^ 23 : Nat)
  if exponent = 255 then 0
  else if exponent = 0 then sign * fraction / 2 ^ 149
  else sign * (2 ^ 23 + fraction) * 2 ^ exponent / 2 ^ 150

/-- The pattern of a normal number, cut to 24 significant bits. -/
def encode (x : ℚ) : Fin 4 → UInt8 :=
  let e := Int.log 2 |x|
  let fraction := (⌊|x| * 2 ^ (23 - e)⌋ - 2 ^ 23).toNat
  let n := if x = 0 then 0 else
    (if x < 0 then 2 ^ 31 else 0) + 2 ^ 23 * (e + 127).toNat + fraction
  fun k => UInt8.ofNat (n / 2 ^ (8 * k.val))

instance : FloatModel ℚ where
  ofBytes := decode
  toBytes := encode
  sqrt := Rat.sqrt
  ofBytes_zero := by simp [decode, bits]

example : decode ![0, 0, 128, 63] = 1 ∧ encode 1 = ![0, 0, 128, 63] := by decide +kernel

end ModernArch.Framework
