import ModernArch.SimpleCNN.Effects

/-!
# Padding, input and output

The stages that move data: `op_padding` clears its destination before it copies, `op_input`
turns the bytes of an image into floats, and `op_output` only reads.
-/

namespace ModernArch.SimpleCNN
open Framework Vdev
set_option linter.unusedSectionVars false

variable {N F : Type} [Field F] [FloatModel F] [DecidableEq N]

section Padding

/-- Destination indices that receive a copy. -/
def PadIndex (padLength inXLen inYLen inZLen inWLen : Int) (x y z w : Int) : Prop :=
  (padLength ≤ x ∧ x < inXLen + padLength) ∧ (padLength ≤ y ∧ y < inYLen + padLength) ∧
    (0 ≤ z ∧ z < inZLen) ∧ (0 ≤ w ∧ w < inWLen)

instance (padLength inXLen inYLen inZLen inWLen x y z w : Int) :
    Decidable (PadIndex padLength inXLen inYLen inZLen inWLen x y z w) := by
  unfold PadIndex; infer_instance

def padValue (input : Tensor F) (padLength inXLen inYLen inZLen inWLen : Int) : Tensor F :=
  fun x y z w => if PadIndex padLength inXLen inYLen inZLen inWLen x y z w then
    input (x - padLength) (y - padLength) z w else 0

variable {outMem inMem : Memory N} {reads : Set (Ptr N)}

private theorem footprint_memsetZero {fr : OpFrame N F} {p : Ptr N} {n : Int}
    (hsize : 0 ≤ n ∧ n * 4 < 2 ^ 64)
    (hfinal : ∀ i, 0 ≤ i → i < n → fr.final (p.add i) = .bytes fun _ => 0)
    (hstore : ∀ i, 0 ≤ i → i < n → fr.allowed (.store (p.add i)))
    (hread : ∀ i, 0 ≤ i → i < n → p.add i ∉ fr.reads) :
    Footprint fr {q | ∃ i, (0 ≤ i ∧ i < n) ∧ q = p.add i}
      (memsetZero p (n * 4) : Exec N F Unit) () := by
  have hlen : n * 4 % 2 ^ 64 / 4 = n := by
    rw [Int.emod_eq_of_lt (by omega) hsize.2, Int.mul_ediv_cancel n (by decide)]
  have hloop : Footprint fr (⋃ i ∈ steps 0 n 1, {p.add i})
      (forEach (steps 0 n 1) () fun i _ => storeWord (p.add i) (.bytes fun _ => 0)) _ :=
    Footprint.forEach (g := fun _ _ => ())
      (fun i hi _ => footprint_storeWord (hfinal i (mem_steps_one.mp hi).1 (mem_steps_one.mp hi).2)
        (hstore i (mem_steps_one.mp hi).1 (mem_steps_one.mp hi).2))
      (fun i hi => Set.disjoint_singleton_left.mpr
        (hread i (mem_steps_one.mp hi).1 (mem_steps_one.mp hi).2)) ()
  unfold memsetZero
  rw [hlen]
  apply hloop.congr _ rfl
  ext q
  simp [mem_steps_one]

private theorem clear_writes (m : Machine (Ptr N) (Word F) (Access N))
    (hin : outMem.InShape 0 0 0 0)
    (hfit : outMem.byteLen < 2 ^ 31) (hd : Disjoint outMem.region reads) :
    Writes outMem reads outMem.InShape (fun _ _ _ _ => .bytes fun _ => 0) m
      ((do memsetZero (← getPtr outMem) outMem.getMemSizeByByte : Exec N F Unit).run m).2 := by
  classical
  obtain ⟨h0, hlt⟩ := Memory.index_bounds hin
  have hlen : outMem.byteLen = outMem.wzyxLen * 4 := rfl
  have hcell (i : Int) (h0 : 0 ≤ i) (hi : i < outMem.wzyxLen) :
      (outMem.addr 0 0 0 0).add i ∈ outMem.region := by
    refine ⟨rfl, ?_⟩
    simp only [Memory.addr, Memory.index, Ptr.add_off]
    omega
  let fr := opFrame reads m.heap (fun _ => .bytes fun _ => 0) outMem
  have hclear : Footprint fr
      {q | ∃ i, (0 ≤ i ∧ i < outMem.wzyxLen) ∧ q = (outMem.addr 0 0 0 0).add i}
      (memsetZero (outMem.addr 0 0 0 0) outMem.getMemSizeByByte : Exec N F Unit) () := by
    rw [Memory.getMemSizeByByte_eq (by omega) hfit]
    exact footprint_memsetZero (by omega) (fun _ _ _ => rfl) hcell
      fun i h0 hi => Set.disjoint_left.mp hd (hcell i h0 hi)
  have hfoot := Footprint.bind_read (k := fun p => memsetZero p outMem.getMemSizeByByte)
    (footprint_getPtr hin : Footprint fr ∅ (getPtr outMem) _) hclear
  obtain ⟨-, hheap, htrace⟩ := hfoot m fun _ _ => rfl
  apply Writes.mk _ _ htrace
  · intro x y z w hs
    have hmem : outMem.addr x y z w ∈
        {q | ∃ i, (0 ≤ i ∧ i < outMem.wzyxLen) ∧ q = (outMem.addr 0 0 0 0).add i} := by
      refine ⟨outMem.index x y z w, Memory.index_bounds hs, ?_⟩
      simp [Memory.addr, Memory.index]
    exact (congrFun hheap _).trans (Set.piecewise_eq_of_mem _ _ _ hmem)
  · intro p hp
    apply (congrFun hheap p).trans (Set.piecewise_eq_of_notMem _ _ _ _)
    rintro ⟨i, hi, rfl⟩
    exact hp (hcell i hi.1 hi.2)

variable {padLength inXLen inYLen inZLen inWLen : Int}

private theorem cellsAt_padIndex :
    (⋃ x ∈ steps 0 inXLen 1, ⋃ y ∈ steps 0 inYLen 1, ⋃ z ∈ steps 0 inZLen 1,
      ⋃ w ∈ steps 0 inWLen 1, {outMem.addr (x + padLength) (y + padLength) z w}) =
      cellsAt outMem (PadIndex padLength inXLen inYLen inZLen inWLen) := by
  ext p
  simp only [Set.mem_iUnion, mem_steps_one, Set.mem_singleton_iff, cellsAt, Set.mem_ofPred_eq,
    PadIndex, exists_prop]
  constructor
  · rintro ⟨x, hx, y, hy, z, hz, w, hw, rfl⟩
    exact ⟨_, _, z, w, ⟨by omega, by omega, hz, hw⟩, rfl⟩
  · rintro ⟨x, y, z, w, ⟨hx, hy, hz, hw⟩, rfl⟩
    refine ⟨x - padLength, by omega, y - padLength, by omega, z, hz, w, hw, ?_⟩
    simp

private theorem copy_produces (m : Machine (Ptr N) (Word F) (Access N))
    (hd : Disjoint outMem.region reads) (hreads : inMem.region ⊆ reads)
    (hout : ∀ x y z w, PadIndex padLength inXLen inYLen inZLen inWLen x y z w →
      outMem.InShape x y z w ∧ inMem.InShape (x - padLength) (y - padLength) z w) :
    Produces outMem reads (PadIndex padLength inXLen inYLen inZLen inWLen)
      (fun x y z w => .float (inMem.value m.heap (x - padLength) (y - padLength) z w)) m
      ((forEach (steps 0 inXLen 1) () fun x _ => forEach (steps 0 inYLen 1) () fun y _ =>
        forEach (steps 0 inZLen 1) () fun z _ => forEach (steps 0 inWLen 1) () fun w _ => do
          let v ← loadAt inMem x y z w
          storeAt outMem (x + padLength) (y + padLength) z w v : Exec N F Unit).run m).2 := by
  apply Produces.of_footprint fun x y z w hs => (hout x y z w hs).1
  intro v hv
  have hdisj := disjoint_cellsAt hd fun x y z w hs => (hout x y z w hs).1
  rw [← cellsAt_padIndex] at hdisj ⊢
  simp only [Set.disjoint_iUnion_left] at hdisj
  apply Footprint.forEach_some
  · intro x hx _
    apply Footprint.forEach_some
    · intro y hy _
      apply Footprint.forEach_some
      · intro z hz _
        apply Footprint.forEach_some
        · intro w hw _
          have hidx : PadIndex padLength inXLen inYLen inZLen inWLen
              (x + padLength) (y + padLength) z w := by
            simp only [mem_steps_one] at hx hy hz hw
            exact ⟨by omega, by omega, hz, hw⟩
          have hsrc := (hout _ _ _ _ hidx).2
          have hcell := hv _ _ _ _ hidx
          simp only [add_sub_cancel_right] at hsrc hcell
          exact ⟨_, (footprint_loadAt (readsAt_opFrame hreads hsrc)).bind_read
            (footprint_storeAt (writesAt_opFrame hd (hout _ _ _ _ hidx).1 hcell) rfl)⟩
        · exact hdisj x hx y hy z hz
      · intro z hz
        simp only [Set.disjoint_iUnion_left]
        exact hdisj x hx y hy z hz
    · intro y hy
      simp only [Set.disjoint_iUnion_left]
      exact hdisj x hx y hy
  · intro x hx
    simp only [Set.disjoint_iUnion_left]
    exact hdisj x hx

/-- `op_padding` surrounds a copy of its input by zeros, whatever the destination held. -/
theorem padding_computes (m : Machine (Ptr N) (Word F) (Access N))
    (hin : outMem.InShape 0 0 0 0) (hfit : outMem.byteLen < 2 ^ 31)
    (hd : Disjoint outMem.region reads) (hreads : inMem.region ⊆ reads)
    (hout : ∀ x y z w, PadIndex padLength inXLen inYLen inZLen inWLen x y z w →
      outMem.InShape x y z w ∧ inMem.InShape (x - padLength) (y - padLength) z w) :
    Computes outMem reads (padValue (inMem.value m.heap) padLength inXLen inYLen inZLen inWLen) m
      ((paddingLoops inMem outMem padLength inXLen inYLen inZLen inWLen).run m).2 := by
  have h₁ := clear_writes m hin hfit hd
  have h₂ := copy_produces ((do memsetZero (← getPtr outMem) outMem.getMemSizeByByte :
    Exec N F Unit).run m).2 hd hreads hout
  have hsource (x y z w : Int) (hs : inMem.InShape x y z w) :=
    h₁.frame _ fun hp => Set.disjoint_left.mp hd hp (hreads (Memory.addr_mem_region hs))
  apply Computes.mk _ _ (h₁.trace.trans h₂.trace)
  · intro x y z w hs
    unfold padValue
    split
    · rename_i hidx
      have hcopy := congrArg Word.toFloat (h₂.value x y z w hidx)
      have hkeep := congrArg Word.toFloat (hsource _ _ _ _ (hout x y z w hidx).2)
      exact hcopy.trans hkeep
    · rename_i hidx
      have hborder := h₂.frame (outMem.addr x y z w) fun x' y' z' w' hs' he => by
        obtain ⟨rfl, rfl, rfl, rfl⟩ := Memory.addr_inj hs (hout _ _ _ _ hs').1 he
        exact hidx hs'
      have hzero := congrArg Word.toFloat (hborder.trans (h₁.value x y z w hs))
      exact hzero.trans Word.toFloat_zero
  · intro p hp
    have hframe := (h₂.writes fun x y z w hs => (hout x y z w hs).1).frame p hp
    exact hframe.trans (h₁.frame p hp)

/-- A view whose byte size is a multiple of `2 ^ 32` is not cleared: `op_padding` only copies. -/
theorem padding_uncleared (m : Machine (Ptr N) (Word F) (Access N)) (hin : outMem.InShape 0 0 0 0)
    (hsize : outMem.getMemSizeByByte = 0) (hd : Disjoint outMem.region reads)
    (hreads : inMem.region ⊆ reads)
    (hout : ∀ x y z w, PadIndex padLength inXLen inYLen inZLen inWLen x y z w →
      outMem.InShape x y z w ∧ inMem.InShape (x - padLength) (y - padLength) z w) :
    Produces outMem reads (PadIndex padLength inXLen inYLen inZLen inWLen)
      (fun x y z w => .float (inMem.value m.heap (x - padLength) (y - padLength) z w)) m
      ((paddingLoops inMem outMem padLength inXLen inYLen inZLen inWLen).run m).2 := by
  let cleared : Machine (Ptr N) (Word F) (Access N) :=
    { m with trace := .getPtr outMem 0 0 0 0 :: m.trace }
  have hclear : (do memsetZero (← getPtr outMem) outMem.getMemSizeByByte : Exec N F Unit).run m =
      ((), cleared) := by
    rw [hsize]
    rfl
  have hcopy := copy_produces cleared hd hreads hout
  have htrace : Extends (OpAccess reads outMem.region) m cleared :=
    ⟨[.getPtr outMem 0 0 0 0], rfl, by simpa [OpAccess] using hin⟩
  have hrun : ((paddingLoops inMem outMem padLength inXLen inYLen inZLen inWLen).run m).2 =
      ((forEach (steps 0 inXLen 1) () fun x _ => forEach (steps 0 inYLen 1) () fun y _ =>
        forEach (steps 0 inZLen 1) () fun z _ => forEach (steps 0 inWLen 1) () fun w _ => do
          let v ← loadAt inMem x y z w
          storeAt outMem (x + padLength) (y + padLength) z w v : Exec N F Unit).run
        ((do memsetZero (← getPtr outMem) outMem.getMemSizeByByte : Exec N F Unit).run m).2).2 := rfl
  rw [hrun, hclear]
  exact ⟨hcopy.value, hcopy.frame, htrace.trans hcopy.trace⟩

end Padding

section Input

variable {fromMem toMem : Memory N} {reads : Set (Ptr N)}

/-- The float of pixel `x, y`. -/
def pixelValue (image : Nat → UInt8) : Tensor F :=
  fun x y _ _ => pixel (image (x * 28 + y).toNat)

private theorem cellsAt_image (h28 : toMem.yLen = 28 ∧ toMem.zLen = 1 ∧ toMem.wLen = 1)
    (hx : toMem.xLen = 28) :
    (⋃ x ∈ steps 0 28 1, ⋃ y ∈ steps 0 28 1, {(toMem.addr 0 0 0 0).add (x * 28 + y)}) =
      cellsAt toMem toMem.InShape := by
  have haddr (x y : Int) : (toMem.addr 0 0 0 0).add (x * 28 + y) = toMem.addr x y 0 0 := by
    simp [Memory.addr, Memory.index, Memory.wzyLen, Memory.wzLen, h28, add_comm]
  ext p
  simp only [Set.mem_iUnion, mem_steps_one, Set.mem_singleton_iff, cellsAt, Set.mem_ofPred_eq,
    exists_prop, haddr, Memory.InShape, h28, hx]
  constructor
  · rintro ⟨x, hx, y, hy, rfl⟩
    exact ⟨x, y, 0, 0, ⟨hx, hy, by decide, by decide⟩, rfl⟩
  · rintro ⟨x, y, z, w, ⟨hx, hy, hz, hw⟩, rfl⟩
    obtain rfl : z = 0 := by omega
    obtain rfl : w = 0 := by omega
    exact ⟨x, hx, y, hy, rfl⟩

theorem input_produces (m : Machine (Ptr N) (Word F) (Access N))
    (h28 : toMem.yLen = 28 ∧ toMem.zLen = 1 ∧ toMem.wLen = 1) (hx : toMem.xLen = 28)
    (hd : Disjoint toMem.region reads) (hin : fromMem.InShape 0 0 0 0)
    (hreads : ∀ k < 784, (fromMem.addr 0 0 0 0).wordOf k ∈ reads) :
    Produces toMem reads toMem.InShape
      (fun x y z w => .float (pixelValue (readByte m.heap (fromMem.addr 0 0 0 0)) x y z w)) m
      ((inputLoops fromMem toMem).run m).2 := by
  have haddr (x y : Int) : (toMem.addr 0 0 0 0).add (x * 28 + y) = toMem.addr x y 0 0 := by
    simp [Memory.addr, Memory.index, Memory.wzyLen, Memory.wzLen, h28, add_comm]
  apply Produces.of_footprint fun _ _ _ _ hs => hs
  intro v hv
  have hdisj : Disjoint (cellsAt toMem toMem.InShape) reads :=
    disjoint_cellsAt hd fun _ _ _ _ hs => hs
  have hzero : toMem.InShape 0 0 0 0 := by simp [Memory.InShape, h28, hx]
  rw [← cellsAt_image h28 hx] at hdisj ⊢
  simp only [Set.disjoint_iUnion_left] at hdisj
  unfold inputLoops
  refine ⟨10, (footprint_getPtr hin).bind_read ((footprint_getPtr hzero).bind_read ?_)⟩
  have hrow (x : Int) (hx' : x ∈ steps 0 28 1) (u : Unit) :
      Footprint (opFrame reads m.heap v toMem)
        (⋃ y ∈ steps 0 28 1, {(toMem.addr 0 0 0 0).add (x * 28 + y)})
        (forEach (steps 0 28 1) u fun y _ => do
          let b ← loadByte (fromMem.addr 0 0 0 0) (x * 28 + y).toNat
          store ((toMem.addr 0 0 0 0).add (x * 28 + y)) (pixel b))
        ((steps 0 28 1).foldl (fun _ _ => ()) u) := by
    apply Footprint.forEach
    · intro y hy _
      rw [mem_steps_one] at hx' hy
      have hs : toMem.InShape x y 0 0 := by simp [Memory.InShape, h28, hx, hx', hy]
      have hbyte := hreads (x * 28 + y).toNat (by omega)
      apply (footprint_loadByte hbyte hbyte).bind_read
      rw [haddr]
      exact footprint_storeWord (hv x y 0 0 hs) (Memory.addr_mem_region hs)
    · exact hdisj x hx'
  obtain ⟨b, hloop⟩ := Footprint.forEach_some (fun x hx' u => ⟨_, hrow x hx' u⟩)
    (fun x hx' => by
      simp only [Set.disjoint_iUnion_left]
      exact hdisj x hx') ()
  refine hloop.bind_return ?_ rfl
  simp only [Set.disjoint_iUnion_left]
  exact hdisj

end Input

section Output

variable [LinearOrder F] {mem : Memory N} {reads : Set (Ptr N)}

/-- `op_output` returns the index of the greatest of ten floats and writes nothing. -/
theorem output_spec (m : Machine (Ptr N) (Word F) (Access N)) (hin : mem.InShape 0 0 0 0)
    (hlen : ∀ i, 0 ≤ i → i < 10 → (mem.addr 0 0 0 0).add i ∈ mem.region)
    (hreads : mem.region ⊆ reads) :
    let r := (outputScan mem).run m
    r.1 = maxElement (fun i => (m.heap ((mem.addr 0 0 0 0).add i)).toFloat) 10 ∧
      r.2.heap = m.heap ∧ Extends (OpAccess reads ∅) m r.2 := by
  classical
  let fr : OpFrame N F := ⟨reads, m.heap, m.heap, OpAccess reads ∅⟩
  let value := fun i => (m.heap ((mem.addr 0 0 0 0).add i)).toFloat
  have hload (i : Int) (h0 : 0 ≤ i) (hi : i < 10) :
      Footprint fr ∅ (load ((mem.addr 0 0 0 0).add i) : Exec N F F) (value i) :=
    footprint_load (hreads (hlen i h0 hi)) (hreads (hlen i h0 hi))
  have hfoot : Footprint fr ∅ (outputScan mem) (maxElement value 10) := by
    unfold outputScan maxElement
    apply (footprint_getPtr hin).bind_read
    apply Footprint.forEach_read_inv fun best : Int => 0 ≤ best ∧ best < 10
    · intro i hi best hb
      rw [mem_steps_one] at hi
      apply (hload best hb.1 hb.2).bind_read
      apply (hload i (by omega) hi.2).bind_read
      exact Footprint.pure _
    · intro i hi best hb
      rw [mem_steps_one] at hi
      split
      · omega
      · exact hb
    · decide
  obtain ⟨hval, hheap, htrace⟩ := hfoot m fun _ _ => rfl
  rw [Set.piecewise_empty] at hheap
  exact ⟨hval, hheap, htrace⟩

end Output

end ModernArch.SimpleCNN
