import ModernArch.Framework.Loop

/-!
# Float memory seen as bytes

Floating-point numbers are exact elements of `F`. A float-aligned word keeps either a value
that was stored as a float or four raw bytes, and each can be read as the other.
-/

namespace ModernArch.Framework

/-- What exact arithmetic leaves abstract about `float`: the value of a bit pattern, the bit
pattern a stored value shows when its bytes are read, and the square root. -/
class FloatModel (F : Type) [Zero F] where
  ofBytes : (Fin 4 → UInt8) → F
  toBytes : F → Fin 4 → UInt8
  sqrt : F → F
  ofBytes_zero : ofBytes (fun _ => 0) = 0

inductive Word (F : Type) where
  | float (x : F)
  | bytes (b : Fin 4 → UInt8)

variable {F N : Type}

namespace Word

variable [Zero F] [FloatModel F]

def toFloat : Word F → F
  | float x => x
  | bytes b => FloatModel.ofBytes b

def toBytes : Word F → Fin 4 → UInt8
  | float x => FloatModel.toBytes x
  | bytes b => b

def setByte (w : Word F) (k : Fin 4) (b : UInt8) : Word F :=
  bytes (Function.update w.toBytes k b)

@[simp] theorem toFloat_float (x : F) : (float x).toFloat = x := rfl

@[simp] theorem toFloat_zero : (bytes fun _ => 0 : Word F).toFloat = 0 :=
  FloatModel.ofBytes_zero

@[simp] theorem toBytes_bytes (b : Fin 4 → UInt8) : (bytes b : Word F).toBytes = b := rfl

@[simp] theorem toBytes_setByte (w : Word F) (k : Fin 4) (b : UInt8) :
    (w.setByte k b).toBytes = Function.update w.toBytes k b := rfl

end Word

/-- A `float *`: the buffer it points into and an offset counted in floats. -/
structure Ptr (N : Type) where
  buf : N
  off : Int
deriving DecidableEq

def Ptr.add (p : Ptr N) (k : Int) : Ptr N := { p with off := p.off + k }

@[simp] theorem Ptr.add_buf (p : Ptr N) (k : Int) : (p.add k).buf = p.buf := rfl

@[simp] theorem Ptr.add_off (p : Ptr N) (k : Int) : (p.add k).off = p.off + k := rfl

@[simp] theorem Ptr.add_zero (p : Ptr N) : p.add 0 = p := by simp [Ptr.add]

theorem Ptr.add_add (p : Ptr N) (j k : Int) : (p.add j).add k = p.add (j + k) := by
  simp [Ptr.add, add_assoc]

theorem Ptr.add_inj {p : Ptr N} {j k : Int} : p.add j = p.add k ↔ j = k := by
  simp [Ptr.add]

abbrev Heap (N F : Type) := Ptr N → Word F

section Bytes

/-- The word that holds byte `k` counted from a float pointer. -/
def Ptr.wordOf (p : Ptr N) (k : Nat) : Ptr N := p.add (k / 4 : Nat)

/-- The place of byte `k` in its word. -/
def lane (k : Nat) : Fin 4 := ⟨k % 4, Nat.mod_lt k (by decide)⟩

private theorem Ptr.wordOf_inj {p : Ptr N} {j k : Nat} :
    p.wordOf j = p.wordOf k ↔ j / 4 = k / 4 := by
  rw [Ptr.wordOf, Ptr.wordOf, Ptr.add_inj, Int.natCast_inj]

private theorem Ptr.wordOf_add (p : Ptr N) (d k : Nat) :
    (p.add d).wordOf k = p.wordOf (4 * d + k) := by
  rw [Ptr.wordOf, Ptr.wordOf, Ptr.add_add, Nat.mul_add_div (by decide), Nat.cast_add]

theorem lane_add (d k : Nat) : lane (4 * d + k) = lane k :=
  Fin.ext (Nat.mul_add_mod 4 d k)

private theorem byte_inj {p : Ptr N} {j k : Nat} :
    p.wordOf j = p.wordOf k ∧ lane j = lane k ↔ j = k := by
  rw [Ptr.wordOf_inj, Fin.ext_iff]
  simp only [lane]
  omega

variable [Zero F] [FloatModel F]

/-- Byte `k` counted from a float pointer. -/
def readByte (h : Heap N F) (p : Ptr N) (k : Nat) : UInt8 :=
  (h (p.wordOf k)).toBytes (lane k)

theorem readByte_add (h : Heap N F) (p : Ptr N) (d k : Nat) :
    readByte h (p.add d) k = readByte h p (4 * d + k) := by
  rw [readByte, readByte, Ptr.wordOf_add, lane_add]

variable [DecidableEq N]

def writeByte (h : Heap N F) (p : Ptr N) (k : Nat) (b : UInt8) : Heap N F :=
  Function.update h (p.wordOf k) ((h (p.wordOf k)).setByte (lane k) b)

theorem writeByte_other (h : Heap N F) (p q : Ptr N) (k : Nat) (b : UInt8)
    (hq : q ≠ p.wordOf k) : writeByte h p k b q = h q := by
  rw [writeByte, Function.update_of_ne hq]

theorem readByte_writeByte (h : Heap N F) (p : Ptr N) (j k : Nat) (b : UInt8) :
    readByte (writeByte h p k b) p j = if j = k then b else readByte h p j := by
  by_cases hword : p.wordOf j = p.wordOf k
  · rw [readByte, readByte, writeByte, hword, Function.update_self, Word.toBytes_setByte,
      Function.update_apply]
    have hlane : lane j = lane k ↔ j = k :=
      ⟨fun h => byte_inj.mp ⟨hword, h⟩, fun h => by rw [h]⟩
    simp only [hlane]
  · have hjk : j ≠ k := fun h => hword (by rw [h])
    rw [if_neg hjk, readByte, writeByte_other _ _ _ _ _ hword, readByte]

/-- `memcpy` of `n` bytes to byte offset `off` of `p`. -/
def memcpy (h : Heap N F) (p : Ptr N) (off : Nat) (src : Nat → UInt8) : Nat → Heap N F
  | 0 => h
  | n + 1 => writeByte (memcpy h p off src n) p (off + n) (src n)

/-- A copy may be cut anywhere. -/
theorem memcpy_split (h : Heap N F) (p : Ptr N) (off : Nat) (src : Nat → UInt8) (n m : Nat) :
    memcpy h p off src (n + m) =
      memcpy (memcpy h p off src n) p (off + n) (fun k => src (n + k)) m := by
  induction m with
  | zero => rfl
  | succ m ih => rw [← Nat.add_assoc, memcpy, memcpy, ih, Nat.add_assoc off n m]

theorem readByte_memcpy (h : Heap N F) (p : Ptr N) (off n j : Nat) (src : Nat → UInt8) :
    readByte (memcpy h p off src n) p j =
      if off ≤ j ∧ j < off + n then src (j - off) else readByte h p j := by
  induction n with
  | zero => simp [memcpy, show ¬ (off ≤ j ∧ j < off) by omega]
  | succ n ih =>
      rw [memcpy, readByte_writeByte, ih]
      by_cases hj : j = off + n
      · subst j
        simp
      · have hiff : (off ≤ j ∧ j < off + n) ↔ (off ≤ j ∧ j < off + (n + 1)) := by omega
        simp only [hj, if_false, hiff]

/-- A word that the copied range does not meet keeps its cell. -/
theorem memcpy_other (h : Heap N F) (p q : Ptr N) (off n : Nat) (src : Nat → UInt8)
    (hq : ∀ k < n, q ≠ p.wordOf (off + k)) : memcpy h p off src n q = h q := by
  induction n with
  | zero => rfl
  | succ n ih =>
      rw [memcpy, writeByte_other _ _ _ _ _ (hq n (Nat.lt_succ_self n))]
      exact ih fun k hk => hq k (Nat.lt_succ_of_lt hk)

theorem memcpy_other_buf (h : Heap N F) (p q : Ptr N) (off n : Nat) (src : Nat → UInt8)
    (hq : q.buf ≠ p.buf) : memcpy h p off src n q = h q :=
  memcpy_other h p q off n src fun _ _ he => hq (by rw [he]; rfl)

private theorem memcpy_isBytes (h : Heap N F) (p : Ptr N) (off n k : Nat)
    (src : Nat → UInt8) (hk : k < n) :
    ∃ b, memcpy h p off src n (p.wordOf (off + k)) = .bytes b := by
  induction n with
  | zero => omega
  | succ n ih =>
      rw [memcpy]
      by_cases hw : p.wordOf (off + k) = p.wordOf (off + n)
      · exact ⟨_, by rw [writeByte, hw, Function.update_self, Word.setByte]⟩
      · have hkn : k ≠ n := fun he => hw (by rw [he])
        obtain ⟨b, hb⟩ := ih (by omega)
        exact ⟨b, by rw [writeByte_other _ _ _ _ _ hw, hb]⟩

/-- A word whose four bytes are all copied holds exactly those bytes. -/
theorem memcpy_word (h : Heap N F) (p : Ptr N) (off n i : Nat) (src : Nat → UInt8)
    (hlo : off ≤ 4 * i) (hhi : 4 * i + 4 ≤ off + n) :
    memcpy h p off src n (p.add i) = .bytes fun k => src (4 * i + k - off) := by
  have hfirst : p.wordOf (off + (4 * i - off)) = p.add i := by
    rw [Nat.add_sub_cancel' hlo, Ptr.wordOf, Nat.mul_div_cancel_left i (by decide)]
  obtain ⟨b, hb⟩ := memcpy_isBytes h p off n (4 * i - off) src (by omega)
  rw [hfirst] at hb
  rw [hb]
  congr 1
  funext k
  have hread := readByte_memcpy h p off n (4 * i + k) src
  rw [if_pos (by omega), ← readByte_add, readByte, Ptr.wordOf,
    Nat.div_eq_of_lt k.isLt] at hread
  have hlane : lane k = k := Fin.ext (Nat.mod_eq_of_lt k.isLt)
  simpa only [Nat.cast_zero, Ptr.add_zero, hb, hlane, Word.toBytes_bytes] using hread

/-- A loop that stores consecutive bytes, computed from other buffers, copies. -/
theorem forRange_writeByte (h : Heap N F) (p : Ptr N) (n : Nat) (f : Nat → Heap N F → UInt8)
    (hf : ∀ i h', (∀ q : Ptr N, q.buf ≠ p.buf → h' q = h q) → f i h' = f i h) :
    forRange n h (fun i h => writeByte h p i (f i h)) = memcpy h p 0 (fun i => f i h) n := by
  induction n with
  | zero => exact forRange_zero _ _
  | succ n ih =>
      rw [forRange_succ, ih, memcpy, Nat.zero_add,
        hf n _ fun q hq => memcpy_other_buf h p q 0 n _ hq]

end Bytes

end ModernArch.Framework
