import ModernArch.Framework.Bits
import ModernArch.Mem.PageTable

/-!
# Chunks of a region

`ChunkGenerator` cuts a region at the multiples of a chunk size.
-/

namespace ModernArch.Mem
open Framework

/-- The sizes are `unsigned`; no subtraction of them is below zero. -/
structure ChunkGenerator where
  curAddr : Addr
  nextAddr : Addr
  curSize : Nat
  sizeLeft : Nat
  startAddr : Addr
  chunkSize : Nat
deriving DecidableEq

namespace ChunkGenerator

/-- `roundUp` of `base/intmath.hh`. -/
def roundUp (val : Addr) (align : Nat) : Addr :=
  (val + BitVec.ofNat 64 align - 1) &&& ~~~(BitVec.ofNat 64 align - 1)

def new (startAddr : Addr) (totalSize chunkSize : Nat) : ChunkGenerator :=
  let nextAddr :=
    if chunkSize = 0 then startAddr + BitVec.ofNat 64 totalSize
    else
      let nextAddr := roundUp startAddr chunkSize
      if startAddr = nextAddr then nextAddr + BitVec.ofNat 64 chunkSize else nextAddr
  let left_in_chunk := (nextAddr - startAddr).toNat % 2 ^ 32
  let curSize := min totalSize left_in_chunk
  { curAddr := startAddr
    nextAddr := nextAddr
    curSize := curSize
    sizeLeft := totalSize - curSize
    startAddr := startAddr
    chunkSize := chunkSize }

def next (g : ChunkGenerator) : ChunkGenerator :=
  if g.sizeLeft = 0 then { g with curSize := 0 }
  else
    let curSize := min g.sizeLeft g.chunkSize
    { g with
      curAddr := g.nextAddr
      curSize := curSize
      sizeLeft := g.sizeLeft - curSize
      nextAddr := g.nextAddr + BitVec.ofNat 64 curSize }

/-- `for (; !gen.done(); gen.next())`: the addresses and sizes of the turns. -/
def turns : Nat → ChunkGenerator → List (Addr × Nat)
  | 0, _ => []
  | fuel + 1, g => if g.curSize = 0 then [] else (g.curAddr, g.curSize) :: turns fuel g.next

end ChunkGenerator

/-- The chunks of a region; every turn but the first takes a byte of those left. -/
def chunks (startAddr : Addr) (totalSize chunkSize : Nat) : List (Addr × Nat) :=
  let g := ChunkGenerator.new startAddr totalSize chunkSize
  g.turns (g.sizeLeft + 1)

/-- The chunks follow one another from `a` to the end of `size` bytes. None is empty or goes over
a boundary, and only the last stops before one. -/
def Tiles (chunkSize : Nat) : Addr → Nat → List (Addr × Nat) → Prop
  | _, size, [] => size = 0
  | a, size, (b, n) :: l => b = a ∧ 0 < n ∧ n ≤ size ∧ a.toNat % chunkSize + n ≤ chunkSize ∧
      (n = size ∨ a.toNat % chunkSize + n = chunkSize) ∧
      Tiles chunkSize (a + BitVec.ofNat 64 n) (size - n) l

/-- The byte `k` places further. -/
def byteAt (a : Addr) (k : Nat) : Addr := a + BitVec.ofNat 64 k

@[simp] theorem byteAt_zero (a : Addr) : byteAt a 0 = a := by simp [byteAt]

theorem byteAt_byteAt (a : Addr) (i j : Nat) : byteAt (byteAt a i) j = byteAt a (i + j) := by
  rw [byteAt, byteAt, byteAt, BitVec.ofNat_add, BitVec.add_assoc]

/-- The bytes of tiles are those of the region, in order and without repetition. -/
theorem Tiles.bytes {chunkSize size : Nat} {a : Addr} {l : List (Addr × Nat)}
    (h : Tiles chunkSize a size l) :
    (l.flatMap fun c => (List.range c.2).map (byteAt c.1)) = (List.range size).map (byteAt a) := by
  induction l generalizing a size with
  | nil =>
      cases h
      rfl
  | cons c l ih =>
      obtain ⟨b, n⟩ := c
      obtain ⟨rfl, -, hle, -, -, hrest⟩ := h
      rw [List.flatMap_cons, ih hrest]
      have hsize : size = n + (size - n) := by omega
      conv_rhs => rw [hsize, List.range_add, List.map_append, List.map_map]
      congr 1
      apply List.map_congr_left
      intro k _
      exact byteAt_byteAt b n k

private theorem Tiles.chunk {chunkSize size : Nat} {a : Addr} {l : List (Addr × Nat)}
    (h : Tiles chunkSize a size l) {c : Addr × Nat} (hc : c ∈ l) :
    0 < c.2 ∧ c.1.toNat % chunkSize + c.2 ≤ chunkSize := by
  induction l generalizing a size with
  | nil => cases hc
  | cons d l ih =>
      obtain ⟨b, n⟩ := d
      obtain ⟨rfl, hpos, -, hfit, -, hrest⟩ := h
      rcases List.mem_cons.mp hc with rfl | hc
      · exact ⟨hpos, hfit⟩
      · exact ih hrest hc

private theorem aligned_add {k : Nat} {a : Addr} (hk : k < 64) {n : Nat}
    (h : a.toNat % 2 ^ k + n = 2 ^ k) : (a + BitVec.ofNat 64 n).toNat % 2 ^ k = 0 := by
  have hdvd : 2 ^ k ∣ 2 ^ 64 := Nat.pow_dvd_pow 2 hk.le
  rw [BitVec.toNat_add, BitVec.toNat_ofNat, Nat.add_mod_mod, Nat.mod_mod_of_dvd _ hdvd,
    ← Nat.mod_add_mod, h, Nat.mod_self]

/-- Only the first chunk may start off a boundary. -/
theorem Tiles.tail {k size : Nat} (hk : k < 64) {a : Addr} {l : List (Addr × Nat)}
    (h : Tiles (2 ^ k) a size l) {c : Addr × Nat} (hc : c ∈ l.tail) : c.1.toNat % 2 ^ k = 0 := by
  induction l generalizing a size with
  | nil => cases hc
  | cons d l ih =>
      obtain ⟨b, n⟩ := d
      obtain ⟨rfl, -, hle, -, hend, hrest⟩ := h
      cases l with
      | nil => cases hc
      | cons e l =>
          obtain ⟨b', n'⟩ := e
          rcases List.mem_cons.mp hc with rfl | hc
          · obtain ⟨rfl, hpos, hle', -⟩ := hrest
            have hmore : n ≠ size := by omega
            exact aligned_add hk (hend.resolve_left hmore)
          · exact ih hrest hc

namespace ChunkGenerator

variable {k : Nat}

/-- A generator on a chunk that ends at a boundary or with the region. -/
theorem turns_tile (hk : k < 64) {g : ChunkGenerator} (hchunk : g.chunkSize = 2 ^ k)
    (hpos : g.curSize ≠ 0) (hfit : g.curAddr.toNat % 2 ^ k + g.curSize ≤ 2 ^ k)
    (hnext : g.sizeLeft ≠ 0 → g.nextAddr = g.curAddr + BitVec.ofNat 64 g.curSize ∧
      g.curAddr.toNat % 2 ^ k + g.curSize = 2 ^ k) {fuel : Nat} (hfuel : g.sizeLeft < fuel) :
    Tiles (2 ^ k) g.curAddr (g.curSize + g.sizeLeft) (g.turns fuel) := by
  induction fuel generalizing g with
  | zero => omega
  | succ fuel ih =>
      rw [turns, if_neg hpos]
      refine ⟨rfl, Nat.pos_of_ne_zero hpos, Nat.le_add_right _ _, hfit, ?_, ?_⟩
      · by_cases hleft : g.sizeLeft = 0
        · exact Or.inl (by omega)
        · exact Or.inr (hnext hleft).2
      · rw [Nat.add_sub_cancel_left]
        by_cases hleft : g.sizeLeft = 0
        · cases fuel <;> simp [turns, next, hleft, Tiles]
        · obtain ⟨haddr, hend⟩ := hnext hleft
          have hchunkPos : 0 < 2 ^ k := Nat.two_pow_pos k
          have halign : g.nextAddr.toNat % 2 ^ k = 0 := haddr ▸ aligned_add hk hend
          have hn : g.next = { g with
              curAddr := g.nextAddr
              curSize := min g.sizeLeft (2 ^ k)
              sizeLeft := g.sizeLeft - min g.sizeLeft (2 ^ k)
              nextAddr := g.nextAddr + BitVec.ofNat 64 (min g.sizeLeft (2 ^ k)) } := by
            rw [next, if_neg hleft, hchunk]
          have hrest := ih (g := g.next) (by rw [hn]; exact hchunk) (by rw [hn]; dsimp only; omega)
            (by rw [hn]; dsimp only; omega)
            (by
              rw [hn]
              intro hmore
              dsimp only at hmore ⊢
              exact ⟨rfl, by omega⟩)
            (by rw [hn]; dsimp only; omega)
          rw [hn] at hrest
          dsimp only at hrest
          rw [Nat.add_sub_cancel' (Nat.min_le_left _ _)] at hrest
          rw [hn, ← haddr]
          exact hrest

end ChunkGenerator

theorem chunks_tile {k : Nat} (hk : k < 32) (startAddr : Addr) {totalSize : Nat}
    (htotal : totalSize < 2 ^ 32) : Tiles (2 ^ k) startAddr totalSize
      (chunks startAddr totalSize (2 ^ k)) := by
  let left := 2 ^ k - startAddr.toNat % 2 ^ k
  have hchunkPos : 0 < 2 ^ k := Nat.two_pow_pos k
  have hchunkLt : 2 ^ k < 2 ^ 32 := Nat.pow_lt_pow_right (by decide) hk
  have hrem := Nat.mod_lt startAddr.toNat hchunkPos
  have hnew : ChunkGenerator.new startAddr totalSize (2 ^ k) = {
      curAddr := startAddr
      nextAddr := startAddr + BitVec.ofNat 64 left
      curSize := min totalSize left
      sizeLeft := totalSize - min totalSize left
      startAddr := startAddr
      chunkSize := 2 ^ k } := by
    have hnext : (if startAddr = ChunkGenerator.roundUp startAddr (2 ^ k) then
        ChunkGenerator.roundUp startAddr (2 ^ k) + BitVec.ofNat 64 (2 ^ k)
        else ChunkGenerator.roundUp startAddr (2 ^ k)) = startAddr + BitVec.ofNat 64 left :=
      next_boundary startAddr (show k < 64 by omega)
    have hleft : (startAddr + BitVec.ofNat 64 left - startAddr).toNat % 2 ^ 32 = left := by
      rw [BitVec.add_comm, BitVec.add_sub_cancel, BitVec.toNat_ofNat]
      omega
    simp only [ChunkGenerator.new, if_neg hchunkPos.ne', hnext, hleft]
  rw [chunks, hnew]
  dsimp only
  by_cases hzero : totalSize = 0
  · subst hzero
    simp [ChunkGenerator.turns, Tiles]
  · have htiles := ChunkGenerator.turns_tile (g := ChunkGenerator.new startAddr totalSize (2 ^ k))
      (show k < 64 by omega) (by rw [hnew]) (by rw [hnew]; dsimp only; omega)
      (by rw [hnew]; dsimp only; omega)
      (by
        rw [hnew]
        intro hmore
        dsimp only at hmore ⊢
        have hmin : min totalSize left = left := by omega
        exact ⟨by rw [hmin], by omega⟩)
      (Nat.lt_succ_self _)
    rw [hnew] at htiles
    dsimp only at htiles
    rwa [Nat.add_sub_cancel' (Nat.min_le_left _ _)] at htiles

/-- The chunk size nought asks for no cutting. -/
theorem chunks_whole (startAddr : Addr) {totalSize : Nat} (htotal : totalSize < 2 ^ 32) :
    chunks startAddr totalSize 0 = if totalSize = 0 then [] else [(startAddr, totalSize)] := by
  have hleft : (startAddr + BitVec.ofNat 64 totalSize - startAddr).toNat % 2 ^ 32 = totalSize := by
    rw [BitVec.add_comm, BitVec.add_sub_cancel, BitVec.toNat_ofNat]
    omega
  simp only [chunks, ChunkGenerator.new, if_true, hleft, Nat.min_self, Nat.sub_self,
    ChunkGenerator.turns]

/-- The chunks give each byte of the region once and in order; none is empty or goes over a
boundary, and all but the first start at one. -/
theorem chunks_cover {chunkSize : Nat} (hchunk : chunkSize = 0 ∨ ∃ k < 32, chunkSize = 2 ^ k)
    (startAddr : Addr) {totalSize : Nat} (htotal : totalSize < 2 ^ 32) :
    ((chunks startAddr totalSize chunkSize).flatMap fun c => (List.range c.2).map (byteAt c.1)) =
        (List.range totalSize).map (byteAt startAddr) ∧
      (∀ c ∈ chunks startAddr totalSize chunkSize,
        0 < c.2 ∧ (chunkSize ≠ 0 → c.1.toNat % chunkSize + c.2 ≤ chunkSize)) ∧
      ∀ c ∈ (chunks startAddr totalSize chunkSize).tail, c.1.toNat % chunkSize = 0 := by
  rcases hchunk with rfl | ⟨k, hk, rfl⟩
  · rw [chunks_whole startAddr htotal]
    by_cases hzero : totalSize = 0
    · simp [hzero]
    · simp [hzero, Nat.pos_of_ne_zero hzero]
  · have htiles := chunks_tile hk startAddr htotal
    refine ⟨htiles.bytes, ?_, ?_⟩
    · intro c hc
      obtain ⟨hpos, hfit⟩ := htiles.chunk hc
      exact ⟨hpos, fun _ => hfit⟩
    · intro c hc
      exact htiles.tail (show k < 64 by omega) hc

theorem chunks_cover_line :
    (∀ c ∈ chunks 60 200 64, 0 < c.2 ∧ (64 ≠ 0 → c.1.toNat % 64 + c.2 ≤ 64)) ∧
      chunks 60 200 64 = [(60, 4), (64, 64), (128, 64), (192, 64), (256, 4)] :=
  ⟨(chunks_cover (Or.inr ⟨6, by decide, by decide⟩) 60 (by decide)).2.1, by decide⟩

end ModernArch.Mem
