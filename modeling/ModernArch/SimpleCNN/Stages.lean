import ModernArch.SimpleCNN.Network
import ModernArch.SimpleCNN.Views

/-!
# Stages on views

Each kind of stage, at the shapes for which its loops fill the destination, carries the tensor
its source view holds to the tensor of the abstract network.
-/

namespace ModernArch.SimpleCNN
open Framework Vdev
set_option linter.unusedSectionVars false

variable {N F : Type} [Field F] [FloatModel F] [LinearOrder F] [DecidableEq N]
variable {src dst kernel bias : Memory N} {reads : Set (Ptr N)}
  {m : Machine (Ptr N) (Word F) (Access N)} {t tk tb : Tensor F}

theorem input_computes {image : Nat → UInt8} (hdst : dst.HasShape 28 28 1 1)
    (hd : Disjoint dst.region reads) (hsrc : src.InShape 0 0 0 0)
    (hreads : ∀ k < 784, (src.addr 0 0 0 0).wordOf k ∈ reads)
    (himage : ∀ k < 784, readByte m.heap (src.addr 0 0 0 0) k = image k) :
    Computes dst reads (pixelValue image) m ((inputLoops src dst).run m).2 := by
  have hprod := input_produces m ⟨hdst.2.1, hdst.2.2⟩ hdst.1 hd hsrc hreads
  apply (hprod.computes fun _ _ _ _ => Iff.rfl).congr
  intro x y z w hin
  rw [hdst.inShape_iff] at hin
  have hpixel := himage (x * 28 + y).toNat (by omega)
  simp only [pixelValue, hpixel]

theorem padding_stage {a c : Int} (ha : 0 ≤ a) (hc : 0 < c)
    (hfit : 1 * c * (a + 4) * (a + 4) * 4 < 2 ^ 31) (hsrc : src.HasShape a a c 1)
    (hdst : dst.HasShape (a + 4) (a + 4) c 1) (hd : Disjoint dst.region reads)
    (hreads : src.region ⊆ reads) (ht : src.Holds m.heap t) :
    Computes dst reads (padValue t 2 a a c 1) m ((paddingLoops src dst 2 a a c 1).run m).2 := by
  have hpad (x y z w : Int) (hidx : PadIndex 2 a a c 1 x y z w) :
      dst.InShape x y z w ∧ src.InShape (x - 2) (y - 2) z w := by
    rw [hdst.inShape_iff, hsrc.inShape_iff]
    unfold PadIndex at hidx
    omega
  have hzero : dst.InShape 0 0 0 0 := by
    rw [hdst.inShape_iff]
    omega
  have hbytes : dst.byteLen < 2 ^ 31 := by
    rw [Memory.byteLen, hdst.wzyxLen_eq]
    exact hfit
  apply (padding_computes m hzero hbytes hd hreads hpad).congr
  intro x y z w _
  apply padValue_congr
  intro hidx
  exact ht _ _ _ _ (hpad _ _ _ _ hidx).2

theorem conv_stage (u : Simd F) (hu : u.Exact) {a c o : Int} (ho : o % 4 = 0)
    (hsrc : src.HasShape (a + 4) (a + 4) c 1) (hdst : dst.HasShape a a o 1)
    (hkernel : kernel.HasShape 5 5 c o) (hbias : bias.HasShape o 1 1 1)
    (hd : Disjoint dst.region reads)
    (hreads : src.region ⊆ reads ∧ kernel.region ⊆ reads ∧ bias.region ⊆ reads)
    (ht : src.Holds m.heap t) (htk : kernel.Holds m.heap tk) (htb : bias.Holds m.heap tb) :
    Computes dst reads (fun x y z _ => convValue t tk tb c 5 1 x y z) m
      ((convLoops u src dst kernel bias c ⟨0, o⟩ ⟨0, a⟩ ⟨0, a⟩ 5 1).run m).2 := by
  have hgroup (x y z w : Int) :
      GroupIndex ⟨0, o⟩ ⟨0, a⟩ ⟨0, a⟩ x y z w ↔ dst.InShape x y z w := by
    rw [groupIndex_iff ho, hdst.inShape_iff]
    omega
  have hrange (x y z w : Int) (hin : dst.InShape x y z w) : bias.InShape z 0 0 0 ∧
      ∀ wX ∈ steps 0 5 1, ∀ wY ∈ steps 0 5 1, ∀ i ∈ steps 0 c 1,
        kernel.InShape wX wY i z ∧ src.InShape (x * 1 + wX) (y * 1 + wY) i 0 := by
    rw [hdst.inShape_iff] at hin
    rw [hbias.inShape_iff]
    refine ⟨by omega, ?_⟩
    intro wX hX wY hY i hi
    rw [mem_steps_one] at hX hY hi
    rw [hkernel.inShape_iff, hsrc.inShape_iff]
    omega
  have hout := fun x y z w hs =>
    And.intro ((hgroup x y z w).mp hs) (hrange x y z w ((hgroup x y z w).mp hs))
  have hprod := conv_produces u hu m hd hreads hout
  apply (hprod.computes hgroup).congr
  intro x y z w hin
  obtain ⟨hb, hloop⟩ := hrange x y z w hin
  apply convValue_congr
  · intro wX hX wY hY i hi
    exact ht _ _ _ _ (hloop wX hX wY hY i hi).2
  · intro wX hX wY hY i hi
    exact htk _ _ _ _ (hloop wX hX wY hY i hi).1
  · exact htb _ _ _ _ hb

theorem pool_stage {a o : Int} (ho : o % 4 = 0) (hsrc : src.HasShape (a * 2) (a * 2) o 1)
    (hdst : dst.HasShape a a o 1) (hd : Disjoint dst.region reads) (hreads : src.region ⊆ reads)
    (ht : src.Holds m.heap t) :
    Computes dst reads (fun x y z _ => poolValue t 2 2 x y z) m
      ((poolLoops src dst ⟨0, o⟩ ⟨0, a⟩ ⟨0, a⟩ 2 2).run m).2 := by
  have hgroup (x y z w : Int) :
      GroupIndex ⟨0, o⟩ ⟨0, a⟩ ⟨0, a⟩ x y z w ↔ dst.InShape x y z w := by
    rw [groupIndex_iff ho, hdst.inShape_iff]
    omega
  have hrange (x y z w : Int) (hin : dst.InShape x y z w) :
      ∀ inX ∈ steps (x * 2) (x * 2 + 2) 1, ∀ inY ∈ steps (y * 2) (y * 2 + 2) 1,
        src.InShape inX inY z 0 := by
    intro inX hX inY hY
    rw [mem_steps_one] at hX hY
    rw [hdst.inShape_iff] at hin
    rw [hsrc.inShape_iff]
    omega
  have hprod := pool_produces m hd hreads fun x y z w hs =>
    ⟨(hgroup x y z w).mp hs, hrange x y z w ((hgroup x y z w).mp hs)⟩
  apply (hprod.computes hgroup).congr
  intro x y z w hin
  apply poolValue_congr
  intro inX hX inY hY
  exact ht _ _ _ _ (hrange x y z w hin inX hX inY hY)

/-- A dense layer reads its source in the order of the buffer. -/
theorem inputAt_flatten {a b c : Int} (hsrc : src.HasShape a b c 1) (hb : 0 < b) (hc : 0 < c)
    (h : Heap N F) (i : Int) :
    inputAt h src i = src.value h (i / (b * c)) (i / c % b) (i % c) 0 := by
  have hdigits : i = i % c + c * (i / c % b + b * (i / (b * c))) := by
    rw [mul_comm b c, ← Int.ediv_ediv_of_nonneg hc.le, Int.emod_add_mul_ediv,
      Int.emod_add_mul_ediv]
  obtain ⟨-, rfl, rfl, hw⟩ := hsrc
  have hindex : src.index 0 0 0 0 + i =
      src.index (i / (src.yLen * src.zLen)) (i / src.zLen % src.yLen) (i % src.zLen) 0 := by
    simp only [Memory.index, Memory.wzyLen, Memory.wzLen, hw]
    nth_rewrite 1 [hdigits]
    ring
  rw [inputAt, Memory.value, Memory.addr, Memory.addr, Ptr.add_add, hindex]

theorem fc_stage (u : Simd F) (hu : u.Exact) {a b c n o : Int} (ho : o % 2 = 0)
    (hb : 0 < b) (hc : 0 < c) (hn : n = a * b * c) (ha : 0 < a) (hsrc : src.HasShape a b c 1)
    (hdst : dst.HasShape o 1 1 1) (hkernel : kernel.HasShape n o 1 1)
    (hbias : bias.HasShape o 1 1 1) (hd : Disjoint dst.region reads)
    (hreads : src.region ⊆ reads ∧ kernel.region ⊆ reads ∧ bias.region ⊆ reads)
    (ht : src.Holds m.heap t) (htk : kernel.Holds m.heap tk) (htb : bias.Holds m.heap tb) :
    Computes dst reads (fun x _ _ _ => fcValue (flatten t b c) tk tb n x) m
      ((fcLoops u src dst kernel bias n ⟨0, o⟩).run m).2 := by
  have hindex (x y z w : Int) : FcIndex ⟨0, o⟩ x y z w ↔ dst.InShape x y z w := by
    rw [fcIndex_iff ho, hdst.inShape_iff]
    omega
  have hrange (x y z w : Int) (hin : dst.InShape x y z w) :
      bias.InShape x 0 0 0 ∧ ∀ i ∈ steps 0 n 1, kernel.InShape i x 0 0 := by
    rw [hdst.inShape_iff] at hin
    rw [hbias.inShape_iff]
    refine ⟨by omega, ?_⟩
    intro i hi
    rw [mem_steps_one] at hi
    rw [hkernel.inShape_iff]
    omega
  have hflat (i : Int) (hi : i ∈ steps 0 n 1) :
      src.InShape (i / (b * c)) (i / c % b) (i % c) 0 := by
    rw [mem_steps_one] at hi
    rw [hsrc.inShape_iff]
    have hbc : 0 < b * c := mul_pos hb hc
    refine ⟨⟨Int.ediv_nonneg hi.1 hbc.le, Int.ediv_lt_of_lt_mul hbc ?_⟩,
      ⟨Int.emod_nonneg _ hb.ne', Int.emod_lt_of_pos _ hb⟩,
      ⟨Int.emod_nonneg _ hc.ne', Int.emod_lt_of_pos _ hc⟩, by decide⟩
    rw [← mul_assoc, ← hn]
    exact hi.2
  have hzero : src.InShape 0 0 0 0 := by
    rw [hsrc.inShape_iff]
    omega
  have hlen (i : Int) (hi : i ∈ steps 0 n 1) : (src.addr 0 0 0 0).add i ∈ src.region := by
    rw [mem_steps_one] at hi
    refine ⟨rfl, ?_⟩
    rw [hsrc.wzyxLen_eq]
    have hsize : 1 * c * b * a = n := by rw [hn]; ring
    simp only [Memory.addr, Memory.index, Ptr.add_off]
    omega
  have hprod := fc_produces u hu m hd hreads hzero hlen fun x y z w hs =>
    ⟨(hindex x y z w).mp hs, hrange x y z w ((hindex x y z w).mp hs)⟩
  apply (hprod.computes hindex).congr
  intro x y z w hin
  obtain ⟨hbx, hloop⟩ := hrange x y z w hin
  apply fcValue_congr
  · intro i hi
    rw [inputAt_flatten hsrc hb hc]
    exact ht _ _ _ _ (hflat i hi)
  · intro i hi
    exact htk _ _ _ _ (hloop i hi)
  · exact htb _ _ _ _ hbx

end ModernArch.SimpleCNN
