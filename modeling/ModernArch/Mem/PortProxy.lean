import ModernArch.Framework.Transition
import ModernArch.Mem.Chunks
import ModernArch.Mem.Lookup

/-!
# Functional accesses

`PortProxy` reads and writes physical memory in packets of at most a cache line. The memory
starts at address zero; a packet that is not inside it stops the simulation.
-/

namespace ModernArch.Mem
open Framework

abbrev Ram := Addr → UInt8

namespace Ram

def read (m : Ram) (a : Addr) (n : Nat) : List UInt8 := (List.range n).map fun k => m (byteAt a k)

def write (m : Ram) (a : Addr) (bytes : List UInt8) : Ram :=
  fun q => bytes.getD (q - a).toNat (m q)

end Ram

/-- What the proxies know of the system: its memory size and its line size. -/
structure PortProxy where
  totalSize : Addr
  cacheLineSize : Nat

namespace PortProxy

variable (port : PortProxy)

/-- The packet finds the memory. -/
def checkPacket (c : Addr × Nat) : Except Failure Unit :=
  check (c.1.toNat + c.2 ≤ port.totalSize.toNat) .fatal

def readBlob (m : Ram) (a : Addr) (n : Nat) : Except Failure (List UInt8) :=
  (chunks a n port.cacheLineSize).foldlM (fun p c => do
    port.checkPacket c
    return p ++ m.read c.1 c.2) []

def writeChunks : Ram → List UInt8 → List (Addr × Nat) → Except Failure Ram
  | m, _, [] => .ok m
  | m, p, c :: l => do
    port.checkPacket c
    writeChunks (m.write c.1 (p.take c.2)) (p.drop c.2) l

def writeBlob (m : Ram) (a : Addr) (bytes : List UInt8) : Except Failure Ram :=
  port.writeChunks m bytes (chunks a bytes.length port.cacheLineSize)

def memsetBlob (m : Ram) (a : Addr) (v : UInt8) (n : Nat) : Except Failure Ram :=
  port.writeBlob m a (List.replicate n v)

end PortProxy

theorem byteAt_sub (a : Addr) (k : Nat) : byteAt a k - a = BitVec.ofNat 64 k := by
  rw [byteAt, BitVec.add_comm, BitVec.add_sub_cancel]

theorem byteAt_sub_cancel (a q : Addr) : byteAt a (q - a).toNat = q := by
  rw [byteAt, BitVec.ofNat_toNat, BitVec.setWidth_eq, BitVec.add_comm, BitVec.sub_add_cancel]

theorem byteAt_toNat {a : Addr} {k : Nat} (h : a.toNat + k < 2 ^ 64) :
    (byteAt a k).toNat = a.toNat + k := by
  rw [byteAt, BitVec.toNat_add, BitVec.toNat_ofNat]
  omega

namespace Ram

variable (m : Ram) (a : Addr)

theorem write_byteAt {bytes : List UInt8} {k : Nat} (hk : k < bytes.length)
    (hlen : bytes.length ≤ 2 ^ 64) : m.write a bytes (byteAt a k) = bytes[k] := by
  rw [write, byteAt_sub, BitVec.toNat_ofNat, Nat.mod_eq_of_lt (by omega),
    List.getD_eq_getElem _ _ hk]

theorem write_other {bytes : List UInt8} {q : Addr} (h : ∀ k < bytes.length, q ≠ byteAt a k) :
    m.write a bytes q = m q := by
  rw [write, List.getD_eq_default]
  by_contra hlt
  exact h _ (Nat.lt_of_not_le hlt) (byteAt_sub_cancel a q).symm

/-- Adjacent writes are one. -/
theorem write_append (p q : List UInt8) (hlen : p.length + q.length ≤ 2 ^ 64) :
    (m.write a p).write (byteAt a p.length) q = m.write a (p ++ q) := by
  funext x
  obtain ⟨k, hk, rfl⟩ : ∃ k < 2 ^ 64, x = byteAt a k :=
    ⟨(x - a).toNat, (x - a).isLt, (byteAt_sub_cancel a x).symm⟩
  have hnat : (byteAt a k - a).toNat = k := by
    rw [byteAt_sub, BitVec.toNat_ofNat, Nat.mod_eq_of_lt hk]
  by_cases hlt : k < p.length
  · have hother : (m.write a p).write (byteAt a p.length) q (byteAt a k) =
        m.write a p (byteAt a k) := by
      apply write_other
      intro j hj heq
      rw [byteAt_byteAt] at heq
      have hsub := congrArg (fun y => (y - a).toNat) heq
      simp only [byteAt_sub, BitVec.toNat_ofNat] at hsub
      omega
    rw [hother, write_byteAt m a hlt (by omega), write, hnat, List.getD_eq_getElem _ _ (by simp; omega),
      List.getElem_append_left hlt]
  · obtain ⟨j, rfl⟩ : ∃ j, k = p.length + j := ⟨k - p.length, by omega⟩
    have hj : (byteAt a (p.length + j) - byteAt a p.length).toNat = j := by
      rw [← byteAt_byteAt, byteAt_sub, BitVec.toNat_ofNat, Nat.mod_eq_of_lt (by omega)]
    have hp : m.write a p (byteAt a (p.length + j)) = m (byteAt a (p.length + j)) := by
      rw [write, hnat, List.getD_eq_default _ _ (Nat.le_add_right _ _)]
    rw [write, hj, hp, write, hnat]
    by_cases hq : j < q.length
    · rw [List.getD_eq_getElem _ _ hq, List.getD_eq_getElem _ _ (by simp; omega),
        List.getElem_append_right (Nat.le_add_right _ _)]
      simp
    · rw [List.getD_eq_default _ _ (by omega), List.getD_eq_default _ _ (by simp; omega)]

private theorem read_append (i j : Nat) :
    m.read a i ++ m.read (byteAt a i) j = m.read a (i + j) := by
  simp only [read, List.range_add, List.map_append, List.map_map, byteAt_byteAt]
  rfl

end Ram

namespace PortProxy

variable {port : PortProxy} {chunkSize : Nat}

private theorem readBlob_tiles {m : Ram} {a : Addr} {n : Nat} {l : List (Addr × Nat)}
    (h : Tiles chunkSize a n l) (hin : a.toNat + n ≤ port.totalSize.toNat) (acc : List UInt8) :
    l.foldlM (fun p c => do
      port.checkPacket c
      return p ++ m.read c.1 c.2) acc = Except.ok (ε := Failure) (acc ++ m.read a n) := by
  induction l generalizing a n acc with
  | nil =>
      cases h
      simp [Ram.read]
      rfl
  | cons c l ih =>
      obtain ⟨b, i⟩ := c
      obtain ⟨rfl, -, hle, -, -, hrest⟩ := h
      have hlt := port.totalSize.isLt
      have hnext : (b + BitVec.ofNat 64 i).toNat + (n - i) ≤ port.totalSize.toNat := by
        rw [BitVec.toNat_add, BitVec.toNat_ofNat]
        omega
      have hpacket : port.checkPacket (b, i) = .ok () := by
        rw [checkPacket, check, if_pos]
        exact Nat.le_trans (Nat.add_le_add_left hle _) hin
      rw [List.foldlM_cons, hpacket]
      refine (ih hrest hnext _).trans ?_
      rw [List.append_assoc]
      have hsplit := m.read_append b i (n - i)
      rw [Nat.add_sub_cancel' hle] at hsplit
      rw [← hsplit]
      rfl

private theorem writeChunks_tiles {m : Ram} {a : Addr} {bytes : List UInt8} {l : List (Addr × Nat)}
    (h : Tiles chunkSize a bytes.length l) (hin : a.toNat + bytes.length ≤ port.totalSize.toNat) :
    port.writeChunks m bytes l = .ok (m.write a bytes) := by
  induction l generalizing m a bytes with
  | nil =>
      have hnil : bytes = [] := List.eq_nil_of_length_eq_zero h
      rw [hnil]
      rfl
  | cons c l ih =>
      obtain ⟨b, i⟩ := c
      obtain ⟨rfl, -, hle, -, -, hrest⟩ := h
      have hlt := port.totalSize.isLt
      have hnext : (b + BitVec.ofNat 64 i).toNat + (bytes.drop i).length ≤
          port.totalSize.toNat := by
        rw [BitVec.toNat_add, BitVec.toNat_ofNat, List.length_drop]
        omega
      have hpacket : port.checkPacket (b, i) = .ok () := by
        rw [checkPacket, check, if_pos]
        exact Nat.le_trans (Nat.add_le_add_left hle _) hin
      rw [writeChunks, hpacket]
      refine (ih (List.length_drop (l := bytes) ▸ hrest) hnext).trans ?_
      have hsplit := m.write_append b (bytes.take i) (bytes.drop i)
        (by rw [List.length_take, List.length_drop]; omega)
      rw [List.take_append_drop, List.length_take, Nat.min_eq_left hle] at hsplit
      rw [← hsplit]
      rfl

/-- A packet that is sent is inside the memory. -/
theorem tiles_first {a : Addr} {n : Nat} {l : List (Addr × Nat)} (h : Tiles chunkSize a n l)
    (hn : n ≠ 0) : ∃ i rest, l = (a, i) :: rest ∧ 0 < i := by
  cases l with
  | nil => exact absurd h hn
  | cons c l =>
      obtain ⟨b, i⟩ := c
      obtain ⟨rfl, hpos, -⟩ := h
      exact ⟨i, l, rfl, hpos⟩

section Blobs

variable {k n : Nat} {m : Ram} {a : Addr}
  (hk : k < 32) (hline : port.cacheLineSize = 2 ^ k)

include hk hline

theorem readBlob_eq (hn : n < 2 ^ 32) (hin : a.toNat + n ≤ port.totalSize.toNat) :
    port.readBlob m a n = .ok (m.read a n) := by
  have htiles := chunks_tile hk a hn
  rw [← hline] at htiles
  exact readBlob_tiles htiles hin []

theorem writeBlob_eq {bytes : List UInt8} (hn : bytes.length < 2 ^ 32)
    (hin : a.toNat + bytes.length ≤ port.totalSize.toNat) :
    port.writeBlob m a bytes = .ok (m.write a bytes) := by
  have htiles := chunks_tile hk a hn
  rw [← hline] at htiles
  exact writeChunks_tiles htiles hin

theorem readBlob_inside {bytes : List UInt8} (hn : n < 2 ^ 32) (hpos : n ≠ 0)
    (h : port.readBlob m a n = .ok bytes) : a.toNat < port.totalSize.toNat := by
  have htiles := chunks_tile hk a hn
  rw [← hline] at htiles
  obtain ⟨i, rest, hl, hi⟩ := tiles_first htiles hpos
  rw [readBlob, hl, List.foldlM_cons] at h
  obtain ⟨_, hfirst, -⟩ := bind_ok h
  have hle := (check_bind hfirst).1
  dsimp only at hle
  omega

theorem writeBlob_inside {bytes : List UInt8} {m' : Ram} (hn : bytes.length < 2 ^ 32)
    (hpos : bytes.length ≠ 0) (h : port.writeBlob m a bytes = .ok m') :
    a.toNat < port.totalSize.toNat := by
  have htiles := chunks_tile hk a hn
  rw [← hline] at htiles
  obtain ⟨i, rest, hl, hi⟩ := tiles_first htiles hpos
  rw [writeBlob, hl, writeChunks] at h
  have hle := (check_bind h).1
  dsimp only at hle
  omega

end Blobs

end PortProxy

end ModernArch.Mem
