import ModernArch.Framework.Word

/-!
# Blocks at running offsets

Blocks written one after another are one copy of their concatenation, and so is any cut of it
into packets.
-/

namespace ModernArch.Framework

structure Block where
  size : Nat
  byte : Nat → UInt8

namespace Block

def total (bs : List Block) : Nat := (bs.map size).sum

/-- Byte `j` of the blocks laid end to end. -/
def concat : List Block → Nat → UInt8
  | [], _ => 0
  | b :: bs, j => if j < b.size then b.byte j else concat bs (j - b.size)

@[simp] theorem total_nil : total [] = 0 := rfl

@[simp] theorem total_cons (b : Block) (bs : List Block) :
    total (b :: bs) = b.size + total bs := by
  simp [total]

@[simp] theorem total_append (bs cs : List Block) : total (bs ++ cs) = total bs + total cs := by
  simp [total]

private theorem concat_cons_of_lt {b : Block} {bs : List Block} {j : Nat} (h : j < b.size) :
    concat (b :: bs) j = b.byte j := by
  simp [concat, h]

private theorem concat_cons_add (b : Block) (bs : List Block) (j : Nat) :
    concat (b :: bs) (b.size + j) = concat bs j := by
  simp [concat]

/-- A block stands after the blocks before it. -/
theorem concat_append_cons (before after : List Block) (b : Block) {j : Nat} (h : j < b.size) :
    concat (before ++ b :: after) (total before + j) = b.byte j := by
  induction before with
  | nil => simp [concat_cons_of_lt h]
  | cons c before ih =>
      rw [List.cons_append, total_cons, Nat.add_assoc, concat_cons_add]
      exact ih

end Block

variable {F N : Type} [Zero F] [FloatModel F] [DecidableEq N]

theorem memcpy_congr {h : Heap N F} {p : Ptr N} {off n : Nat} {src src' : Nat → UInt8}
    (hsrc : ∀ j < n, src j = src' j) : memcpy h p off src n = memcpy h p off src' n := by
  induction n with
  | zero => rfl
  | succ n ih =>
      rw [memcpy, memcpy, hsrc n n.lt_succ_self, ih fun j hj => hsrc j (Nat.lt_succ_of_lt hj)]

def sendAll (p : Ptr N) : Heap N F → Nat → List Block → Heap N F
  | h, _, [] => h
  | h, off, b :: bs => sendAll p (memcpy h p off b.byte b.size) (off + b.size) bs

private theorem sendAll_eq (p : Ptr N) (h : Heap N F) (off : Nat) (bs : List Block) :
    sendAll p h off bs = memcpy h p off (Block.concat bs) (Block.total bs) := by
  induction bs generalizing h off with
  | nil => rfl
  | cons b bs ih =>
      have hhead : memcpy h p off (Block.concat (b :: bs)) b.size =
          memcpy h p off b.byte b.size :=
        memcpy_congr fun j hj => Block.concat_cons_of_lt hj
      rw [sendAll, ih, Block.total_cons, memcpy_split, hhead]
      simp only [Block.concat_cons_add]

/-- Every block reads back at its offset. -/
theorem readByte_sendAll (p : Ptr N) (h : Heap N F) (off : Nat) (before after : List Block)
    (b : Block) {j : Nat} (hj : j < b.size) :
    readByte (sendAll p h off (before ++ b :: after)) p (off + Block.total before + j) =
      b.byte j := by
  have hrange : off ≤ off + Block.total before + j ∧
      off + Block.total before + j < off + Block.total (before ++ b :: after) := by
    simp only [Block.total_append, Block.total_cons]
    omega
  rw [sendAll_eq, readByte_memcpy, if_pos hrange, Nat.add_assoc, Nat.add_sub_cancel_left]
  exact Block.concat_append_cons before after b hj

/-- A word inside a block at a word boundary holds bytes of the block. -/
theorem sendAll_word (p : Ptr N) (h : Heap N F) (before after : List Block) (b : Block)
    {d i : Nat} (hd : Block.total before = 4 * d) (hi : 4 * i + 4 ≤ b.size) :
    sendAll p h 0 (before ++ b :: after) (p.add (d + i : Nat)) =
      .bytes fun k => b.byte (4 * i + k) := by
  have hfit : 4 * (d + i) + 4 ≤ 0 + Block.total (before ++ b :: after) := by
    simp only [Block.total_append, Block.total_cons]
    omega
  rw [sendAll_eq, memcpy_word _ _ _ _ _ _ (Nat.zero_le _) hfit]
  congr 1
  funext k
  have hk := k.isLt
  rw [Nat.sub_zero, Nat.mul_add, Nat.add_assoc, ← hd]
  exact Block.concat_append_cons before after b (by omega)

end ModernArch.Framework
