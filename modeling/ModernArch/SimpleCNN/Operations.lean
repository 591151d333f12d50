import ModernArch.Framework.Binary32
import ModernArch.SimpleCNN.Conv
import ModernArch.SimpleCNN.Dense
import ModernArch.SimpleCNN.Staging
import ModernArch.SimpleCNN.Views

/-!
# Operations of the core, one call at a time

What a call of `op_pool`, of `op_fc`, and of `op_padding` followed by `op_conv` does, for every
shape, range and content. A call returns when its names are in the hub and every assertion of
`getPtr` holds.
-/

namespace ModernArch.SimpleCNN
open Framework Vdev
set_option linter.unusedSectionVars false

variable {N F : Type} [Field F] [FloatModel F] [LinearOrder F]

/-- The assertion that an access makes. -/
def Access.Asserts : Access N → Prop
  | .getPtr m x y z w => m.Asserts x y z w
  | .load _ | .store _ => True

instance : DecidablePred (Access.Asserts (N := N)) := fun e =>
  match e with
  | .getPtr m x y z w => inferInstanceAs (Decidable (m.index x y z w < m.wzyxLen))
  | .load _ | .store _ => inferInstanceAs (Decidable True)

theorem OpAccess.asserts {reads writes : Set (Ptr N)} (e : Access N)
    (h : OpAccess reads writes e) : e.Asserts := by
  cases e with
  | getPtr m x y z w => exact Memory.InShape.asserts h
  | load p => trivial
  | store p => trivial

def Returns (op : CoreM F (BitVec 32)) (core core' : Core F) : Prop :=
  (∃ cycles, op.run core = some (cycles, core')) ∧
    Extends Access.Asserts core.machine core'.machine

theorem Returns.of_run {op : CoreM F (BitVec 32)} {core : Core F} {cycles : BitVec 32}
    {m' : Machine (Ptr MemName) (Word F) (Access MemName)} {reads writes : Set (Ptr MemName)}
    (hrun : op.run core = some (cycles, { core with machine := m' }))
    (htrace : Extends (OpAccess reads writes) core.machine m') :
    Returns op core { core with machine := m' } :=
  ⟨⟨cycles, hrun⟩, htrace.mono OpAccess.asserts⟩

theorem Returns.unique {op : CoreM F (BitVec 32)} {core core' : Core F} {cycles : BitVec 32}
    {m' : Machine (Ptr MemName) (Word F) (Access MemName)}
    (hrun : op.run core = some (cycles, { core with machine := m' }))
    (h : Returns op core core') : core' = { core with machine := m' } := by
  obtain ⟨⟨cycles', hrun'⟩, _⟩ := h
  rw [hrun] at hrun'
  exact (Prod.ext_iff.mp (Option.some.inj hrun')).2.symm

section Pool

/-- The arguments of a call of `op_pool` stay inside two memories that do not overlap. -/
structure PoolInRange (inMem outMem : Memory N) (outChannelRange outXRange outYRange : Range)
    (filterSize stride : Int) : Prop where
  channels : (outChannelRange.end_ - outChannelRange.begin) % 4 = 0
  filterPos : 1 ≤ filterSize
  stridePos : 1 ≤ stride
  output : ∀ x ∈ outXRange, ∀ y ∈ outYRange, ∀ z ∈ outChannelRange, outMem.InShape x y z 0
  input : ∀ x ∈ outXRange, ∀ y ∈ outYRange, ∀ z ∈ outChannelRange,
    ∀ inX ∈ (⟨x * stride, x * stride + filterSize⟩ : Range),
      ∀ inY ∈ (⟨y * stride, y * stride + filterSize⟩ : Range), inMem.InShape inX inY z 0
  disjoint : Disjoint outMem.region inMem.region

/-- Max pooling: the outputs of the ranges are the maxima of their windows, and nothing else
is written. -/
structure MaxPooled (inMem outMem : Memory N) (outChannelRange outXRange outYRange : Range)
    (filterSize stride : Int) (h h' : Heap N F) : Prop where
  value : ∀ x ∈ outXRange, ∀ y ∈ outYRange, ∀ z ∈ outChannelRange,
    IsGreatest (poolWindow (inMem.value h) filterSize stride x y z) (outMem.value h' x y z 0)
  frame : ∀ p, (∀ x ∈ outXRange, ∀ y ∈ outYRange, ∀ z ∈ outChannelRange,
    p ≠ outMem.addr x y z 0) → h' p = h p

variable {outChannelRange outXRange outYRange : Range} {filterSize stride : Int}

/-- What the loops of `op_pool` leave: maxima over the window and the start value. -/
structure Pooled (inMem outMem : Memory N) (outChannelRange outXRange outYRange : Range)
    (filterSize stride : Int) (m m' : Machine (Ptr N) (Word F) (Access N)) : Prop where
  value : ∀ x ∈ outXRange, ∀ y ∈ outYRange, ∀ z ∈ outChannelRange,
    IsGreatest (insert floatMin (poolWindow (inMem.value m.heap) filterSize stride x y z))
      (outMem.value m'.heap x y z 0)
  frame : ∀ p, (∀ x ∈ outXRange, ∀ y ∈ outYRange, ∀ z ∈ outChannelRange,
    p ≠ outMem.addr x y z 0) → m'.heap p = m.heap p
  trace : Extends (OpAccess inMem.region outMem.region) m m'

private theorem poolLoops_pooled [DecidableEq N] {inMem outMem : Memory N}
    (hb : PoolInRange inMem outMem outChannelRange outXRange outYRange filterSize stride)
    (m : Machine (Ptr N) (Word F) (Access N)) :
    Pooled inMem outMem outChannelRange outXRange outYRange filterSize stride m
      ((poolLoops inMem outMem outChannelRange outXRange outYRange filterSize stride).run m).2 := by
  have hidx {x y z w : Int} : GroupIndex outChannelRange outXRange outYRange x y z w ↔
      x ∈ outXRange ∧ y ∈ outYRange ∧ z ∈ outChannelRange ∧ w = 0 :=
    groupIndex_iff_mem hb.channels
  have hprod := pool_produces m hb.disjoint subset_rfl fun x y z w hs => by
    obtain ⟨hx, hy, hz, rfl⟩ := hidx.mp hs
    refine ⟨hb.output x hx y hy z hz, ?_⟩
    intro inX hX inY hY
    exact hb.input x hx y hy z hz inX (mem_steps_one.mp hX) inY (mem_steps_one.mp hY)
  constructor
  · intro x hx y hy z hz
    have hval := congrArg Word.toFloat (hprod.value x y z 0 (hidx.mpr ⟨hx, hy, hz, rfl⟩))
    rw [Memory.value, hval]
    exact poolValue_greatest _ _ _ _ _ _
  · intro p hp
    apply hprod.frame
    intro x y z w hs
    obtain ⟨hx, hy, hz, rfl⟩ := hidx.mp hs
    exact hp x hx y hy z hz
  · exact hprod.trace

variable {core : Core F} {inMemName outMemName : MemName} {inMem outMem : Memory MemName}

private theorem opPool_eq (hi : core.memhub.getMemory inMemName = some inMem)
    (ho : core.memhub.getMemory outMemName = some outMem) :
    (Core.opPool inMemName outMemName outChannelRange outXRange outYRange filterSize stride).run
        core =
      let r := (poolLoops inMem outMem outChannelRange outXRange outYRange filterSize stride).run
        core.machine
      some (intCycles r.1, { core with machine := r.2 }) := by
  simp [Core.opPool, Core.run_getMemory_eq, hi, ho]

/-- A window that stays below the start value does not give its maximum. -/
theorem opPool_not_maxPooled (hi : core.memhub.getMemory inMemName = some inMem)
    (ho : core.memhub.getMemory outMemName = some outMem)
    (hb : PoolInRange inMem outMem outChannelRange outXRange outYRange filterSize stride)
    {x y z : Int} (hx : x ∈ outXRange) (hy : y ∈ outYRange) (hz : z ∈ outChannelRange)
    (hlow : ∀ v ∈ poolWindow (inMem.value core.machine.heap) filterSize stride x y z,
      v < floatMin) :
    ¬ ∃ core', Returns (Core.opPool inMemName outMemName outChannelRange outXRange outYRange
        filterSize stride) core core' ∧
      MaxPooled inMem outMem outChannelRange outXRange outYRange filterSize stride
        core.machine.heap core'.machine.heap := by
  intro h
  obtain ⟨core', hret, hmax⟩ := h
  obtain rfl := hret.unique (opPool_eq hi ho)
  have hval := hmax.value x hx y hy z hz
  have hstart := ((poolLoops_pooled hb core.machine).value x hx y hy z hz).2
    (Set.mem_insert _ _)
  exact absurd hstart (not_le.mpr (hlow _ hval.1))

/-- The start value of the running maximum is the least positive float, so `op_pool` is max
pooling exactly when every window has an element that is at least as large. -/
theorem opPool_max_iff (hi : core.memhub.getMemory inMemName = some inMem)
    (ho : core.memhub.getMemory outMemName = some outMem)
    (hb : PoolInRange inMem outMem outChannelRange outXRange outYRange filterSize stride) :
    (∃ core', Returns (Core.opPool inMemName outMemName outChannelRange outXRange outYRange
        filterSize stride) core core' ∧
      MaxPooled inMem outMem outChannelRange outXRange outYRange filterSize stride
        core.machine.heap core'.machine.heap) ↔
    ∀ x ∈ outXRange, ∀ y ∈ outYRange, ∀ z ∈ outChannelRange,
      ∃ v ∈ poolWindow (inMem.value core.machine.heap) filterSize stride x y z, floatMin ≤ v := by
  have hpool := poolLoops_pooled hb core.machine
  have hrun := @opPool_eq F _ _ _ outChannelRange outXRange outYRange filterSize stride _ _ _ _ _
    hi ho
  constructor
  · intro h
    obtain ⟨core', hret, hmax⟩ := h
    obtain rfl := hret.unique hrun
    intro x hx y hy z hz
    exact (isGreatest_insert_iff (hpool.value x hx y hy z hz)).mp (hmax.value x hx y hy z hz)
  · intro h
    refine ⟨_, Returns.of_run hrun hpool.trace, ?_, hpool.frame⟩
    intro x hx y hy z hz
    exact (isGreatest_insert_iff (hpool.value x hx y hy z hz)).mpr (h x hx y hy z hz)

/-- One position of four channels. -/
def flatMem (name : MemName) : Memory MemName := ⟨⟨name, 0⟩, 1, 1, 4, 1⟩

def flatCore (v : ℚ) : Core ℚ where
  memhub := (MemHub.empty.addMemory .convOut 1 1 4).addMemory .poolOut 1 1 4
  machine := ⟨fun _ => .float v, []⟩

private theorem flatCore_getMemory (v : ℚ) :
    (flatCore v).memhub.getMemory .convOut = some (flatMem .convOut) ∧
      (flatCore v).memhub.getMemory .poolOut = some (flatMem .poolOut) := ⟨rfl, rfl⟩

/-- One window of four channels. -/
private theorem window_inRange {inMem outMem : Memory MemName} {len : Int} (hlen : 0 < len)
    (hin : inMem.HasShape len len 4 1) (hout : outMem.HasShape 1 1 4 1)
    (hbuf : outMem.data.buf ≠ inMem.data.buf) :
    PoolInRange inMem outMem ⟨0, 4⟩ ⟨0, 1⟩ ⟨0, 1⟩ len 1 := by
  constructor
  · decide
  · exact hlen
  · decide
  · intro x hx y hy z hz
    exact hout.inShape_iff.mpr ⟨hx, hy, hz, by decide⟩
  · intro x hx y hy z hz inX hX inY hY
    obtain ⟨hx, hx'⟩ := hx
    obtain ⟨hy, hy'⟩ := hy
    obtain ⟨hX, hX'⟩ := hX
    obtain ⟨hY, hY'⟩ := hY
    simp only at hx hx' hy hy' hX hX' hY hY'
    exact hin.inShape_iff.mpr ⟨by omega, by omega, hz, by decide⟩
  · exact disjoint_region hbuf

private theorem flat_inRange :
    PoolInRange (flatMem .convOut) (flatMem .poolOut) ⟨0, 4⟩ ⟨0, 1⟩ ⟨0, 1⟩ 1 1 :=
  window_inRange (by decide) ⟨rfl, rfl, rfl, rfl⟩ ⟨rfl, rfl, rfl, rfl⟩ (by decide)

/-- Two by two positions of four channels, over cells that differ. -/
def squareMem : Memory MemName := ⟨⟨.convOut, 0⟩, 2, 2, 4, 1⟩

def squareCore : Core ℚ where
  memhub := (MemHub.empty.addMemory .convOut 2 2 4).addMemory .poolOut 1 1 4
  machine := ⟨fun p => .float (p.off - 6), []⟩

/-- The windows hold negative and positive values. -/
theorem opPool_max_iff_square : ∃ core', Returns (Core.opPool .convOut .poolOut ⟨0, 4⟩ ⟨0, 1⟩
      ⟨0, 1⟩ 2 1) squareCore core' ∧ MaxPooled squareMem (flatMem .poolOut) ⟨0, 4⟩ ⟨0, 1⟩
        ⟨0, 1⟩ 2 1 squareCore.machine.heap core'.machine.heap := by
  have hrange : PoolInRange squareMem (flatMem .poolOut) ⟨0, 4⟩ ⟨0, 1⟩ ⟨0, 1⟩ 2 1 :=
    window_inRange (by decide) ⟨rfl, rfl, rfl, rfl⟩ ⟨rfl, rfl, rfl, rfl⟩ (by decide)
  have hi : squareCore.memhub.getMemory .convOut = some squareMem := rfl
  apply (opPool_max_iff hi rfl hrange).mpr
  intro x hx y hy z hz
  obtain rfl : x = 0 := by
    obtain ⟨hx, hx'⟩ := hx
    simp only at hx hx'
    omega
  obtain rfl : y = 0 := by
    obtain ⟨hy, hy'⟩ := hy
    simp only at hy hy'
    omega
  refine ⟨squareMem.value squareCore.machine.heap 1 1 z 0, ⟨1, ⟨by decide, by decide⟩, 1,
    ⟨by decide, by decide⟩, rfl⟩, ?_⟩
  have hz0 := hz.1
  have hvalue : squareMem.value squareCore.machine.heap 1 1 z 0 =
      ((squareMem.index 1 1 z 0 : Int) : ℚ) - 6 := by
    simp [squareCore, squareMem, Memory.value, Memory.addr]
  have hindex : 7 ≤ squareMem.index 1 1 z 0 := by
    simp only [squareMem, Memory.index, Memory.wzLen, Memory.wzyLen]
    simp only at hz0
    omega
  have hcast : (7 : ℚ) ≤ (squareMem.index 1 1 z 0 : Int) := by exact_mod_cast hindex
  rw [hvalue]
  norm_num [floatMin]
  linarith

/-- A window whose only element is `-1` does not give `-1`. -/
theorem opPool_not_max :
    ((flatCore (-1)).memhub.getMemory .convOut = some (flatMem .convOut) ∧
      (flatCore (-1)).memhub.getMemory .poolOut = some (flatMem .poolOut) ∧
      PoolInRange (flatMem .convOut) (flatMem .poolOut) ⟨0, 4⟩ ⟨0, 1⟩ ⟨0, 1⟩ 1 1) ∧
    ¬ ∃ core', Returns (Core.opPool .convOut .poolOut ⟨0, 4⟩ ⟨0, 1⟩ ⟨0, 1⟩ 1 1) (flatCore (-1))
      core' ∧ MaxPooled (flatMem .convOut) (flatMem .poolOut) ⟨0, 4⟩ ⟨0, 1⟩ ⟨0, 1⟩ 1 1
        (flatCore (-1)).machine.heap core'.machine.heap := by
  have hmem := flatCore_getMemory (-1)
  refine ⟨⟨hmem.1, hmem.2, flat_inRange⟩, ?_⟩
  have h0 : (0 : Int) ∈ (⟨0, 1⟩ : Range) := ⟨by decide, by decide⟩
  have hc : (0 : Int) ∈ (⟨0, 4⟩ : Range) := ⟨by decide, by decide⟩
  apply opPool_not_maxPooled hmem.1 hmem.2 flat_inRange h0 h0 hc
  intro v hv
  obtain ⟨inX, -, inY, -, rfl⟩ := hv
  have hneg : (flatMem .convOut).value (flatCore (-1)).machine.heap inX inY 0 0 = -1 := rfl
  rw [hneg]
  norm_num [floatMin]

end Pool

section Dense

/-- The arguments of a call of `op_fc` stay inside memories, and the output overlaps none of
the memories that are read. -/
structure FcInRange (inMem outMem weight bias : Memory N) (inDataLength : Int)
    (outRange : Range) : Prop where
  disjoint : Disjoint outMem.region (inMem.region ∪ weight.region ∪ bias.region)
  start : inMem.InShape 0 0 0 0
  input : inDataLength ≤ inMem.getMemSizeByFloat
  weight : ∀ o ∈ outRange, ∀ i ∈ (⟨0, inDataLength⟩ : Range), weight.InShape i o 0 0
  bias : ∀ o ∈ outRange, bias.InShape o 0 0 0
  output : ∀ o ∈ outRange, outMem.InShape o 0 0 0

/-- The dense layer on a range of outputs: the rest of the output memory is unchanged. -/
structure DenseLayer (inMem outMem weight bias : Memory N) (inDataLength : Int)
    (outRange : Range) (h h' : Heap N F) : Prop where
  value : ∀ o ∈ outRange, outMem.value h' o 0 0 0 =
    max (∑ i ∈ Finset.Ico 0 inDataLength, inputAt h inMem i * weight.value h i o 0 0 +
      bias.value h o 0 0 0) 0
  other : ∀ x y z w, outMem.InShape x y z w → ¬ (x ∈ outRange ∧ y = 0 ∧ z = 0 ∧ w = 0) →
    h' (outMem.addr x y z w) = h (outMem.addr x y z w)

variable [DecidableEq N] {inMem outMem weight bias : Memory N} {inDataLength : Int}
  {outRange : Range}

private theorem fcLoops_produces (u : Simd F) (hu : u.Exact)
    (hr : FcInRange inMem outMem weight bias inDataLength outRange)
    (hmod : (outRange.end_ - outRange.begin) % 4 ≠ 1 ∨ outRange.end_ ≤ outRange.begin)
    (m : Machine (Ptr N) (Word F) (Access N)) :
    Produces outMem (inMem.region ∪ weight.region ∪ bias.region) (FcIndex outRange)
      (fun x _ _ _ => .float (fcValue (inputAt m.heap inMem) (weight.value m.heap)
        (bias.value m.heap) inDataLength x)) m
      ((fcLoops u inMem outMem weight bias inDataLength outRange).run m).2 := by
  apply fc_produces u hu m hr.disjoint _ hr.start
  · intro i hi
    have hsize := hr.input
    rw [mem_steps_one] at hi
    refine ⟨rfl, ?_⟩
    simp only [Memory.addr, Memory.index, Ptr.add_off, Memory.getMemSizeByFloat] at hsize ⊢
    omega
  · intro x y z w hs
    obtain ⟨hx, rfl, rfl, rfl⟩ := hs.mem hmod
    exact ⟨hr.output x hx, hr.bias x hx, fun i hi => hr.weight x hx i (mem_steps_one.mp hi)⟩
  · refine ⟨?_, ?_, Set.subset_union_right⟩
    · exact Set.subset_union_left.trans Set.subset_union_left
    · exact Set.subset_union_right.trans Set.subset_union_left

private theorem fcValue_eq_sum (input : Int → F) (weight bias : Tensor F) (inDataLength o : Int) :
    fcValue input weight bias inDataLength o =
      max (∑ i ∈ Finset.Ico 0 inDataLength, input i * weight i o 0 0 + bias o 0 0 0) 0 := by
  rw [fcValue, fcLogit, fcSum, sum_steps_one]

/-- A last group that is not full stores its second lane, rectified, past its first. -/
theorem fcGroup_tail (u : Simd F) (hu : u.Exact) {outEnd outIndex : Int}
    (htail : outEnd < outIndex + 4) (cycles : Nat) (m : Machine (Ptr N) (Word F) (Access N)) :
    let m' := ((fcGroup u inMem outMem weight bias inDataLength outEnd outIndex cycles).run m).2
    (∃ v : F, 0 ≤ v ∧ m'.heap (outMem.addr (outIndex + 1) 0 0 0) = .float v) ∧
      Access.getPtr outMem (outIndex + 1) 0 0 0 ∈ m'.trace := by
  intro m'
  have hfit : ¬ outIndex + 4 ≤ outEnd := by omega
  let acc := (forEach (steps 0 inDataLength 1) (Data.ofLanes 0 0 0 0, cycles)
    (fcMac u inMem weight outIndex outEnd)).run m
  let b := (loadLanes (loadAt bias outIndex) (loadAt bias (outIndex + 1))
    (loadUnless (outIndex + 4 > outEnd) (loadAt bias (outIndex + 2)))
    (loadUnless (outIndex + 4 > outEnd) (loadAt bias (outIndex + 3)))).run acc.2
  have hm' : m' = ((storeMasked outMem outEnd outIndex
      (u.relu (u.add acc.1.1 b.1).1).1).run b.2).2 := rfl
  rw [hm', hu.relu, storeMasked, if_neg hfit]
  refine ⟨⟨(relu (u.add acc.1.1 b.1).1).1.data 1, le_max_right _ _, ?_⟩, ?_⟩
  · exact Function.update_self _ _ _
  · exact List.mem_cons_of_mem _ List.mem_cons_self

private theorem fcLoops_even (u : Simd F) (hu : u.Exact)
    (hr : FcInRange inMem outMem weight bias inDataLength outRange)
    (heven : outRange.end_ ≤ outRange.begin ∨ (outRange.end_ - outRange.begin) % 2 = 0)
    (m : Machine (Ptr N) (Word F) (Access N)) :
    let m' := ((fcLoops u inMem outMem weight bias inDataLength outRange).run m).2
    DenseLayer inMem outMem weight bias inDataLength outRange m.heap m'.heap ∧
      Extends Access.Asserts m m' := by
  intro m'
  have hprod := fcLoops_produces u hu hr (by omega) m
  refine ⟨⟨?_, ?_⟩, hprod.trace.mono OpAccess.asserts⟩
  · intro o ho
    have hidx : FcIndex outRange o 0 0 0 := by
      obtain ⟨hlow, hhigh⟩ := ho
      exact (fcIndex_iff_mem (by omega)).mpr ⟨⟨hlow, hhigh⟩, rfl, rfl, rfl⟩
    rw [← fcValue_eq_sum]
    exact congrArg Word.toFloat (hprod.value o 0 0 0 hidx)
  · intro x y z w hin hout
    apply hprod.frame
    intro x' y' z' w' hs he
    obtain ⟨hx, rfl, rfl, rfl⟩ := hs.mem (by omega)
    obtain ⟨rfl, hrest⟩ := Memory.addr_inj hin (hr.output x' hx) he
    exact hout ⟨hx, hrest⟩

private theorem Memory.not_asserts {m : Memory N} {x : Int} (hin : m.InShape (x - 1) 0 0 0)
    (hout : ¬ m.InShape x 0 0 0) : ¬ m.Asserts x 0 0 0 := by
  obtain ⟨hx, hy, hz, hw⟩ := hin
  have hlen : m.xLen ≤ x := by
    by_contra hlt
    exact hout ⟨by omega, hy, hz, hw⟩
  have hpos : 0 ≤ m.wzyLen := mul_nonneg (mul_nonneg hw.2.le hz.2.le) hy.2.le
  have hmul : m.wzyLen * m.xLen ≤ m.wzyLen * x := mul_le_mul_of_nonneg_left hlen hpos
  simp only [Memory.Asserts, Memory.index, Memory.wzyxLen]
  linarith [mul_comm x m.wzyLen]

/-- With one output left for the last group, the output after the range is overwritten. -/
theorem fcLoops_one (u : Simd F) (hu : u.Exact)
    (hmod : (outRange.end_ - outRange.begin) % 4 = 1) (hne : outRange.begin < outRange.end_)
    (m : Machine (Ptr N) (Word F) (Access N)) :
    let m' := ((fcLoops u inMem outMem weight bias inDataLength outRange).run m).2
    (∃ v : F, 0 ≤ v ∧ m'.heap (outMem.addr outRange.end_ 0 0 0) = .float v) ∧
      Access.getPtr outMem outRange.end_ 0 0 0 ∈ m'.trace := by
  have hsteps : steps outRange.begin outRange.end_ 4 =
      steps outRange.begin (outRange.end_ - 1) 4 ++ [outRange.end_ - 1] :=
    @steps_snoc outRange.begin (outRange.end_ - 1) 4 outRange.end_
      ((outRange.end_ - 1 - outRange.begin) / 4).toNat (by omega) (by omega) (by omega)
  intro m'
  have htail := @fcGroup_tail N F _ _ _ _ inMem outMem weight bias inDataLength u hu outRange.end_
    (outRange.end_ - 1) (by omega)
  rw [sub_add_cancel] at htail
  have hm' : m' = ((fcLoops u inMem outMem weight bias inDataLength outRange).run m).2 := rfl
  rw [hm', fcLoops, hsteps, forEach_snoc, run_bind_eq]
  exact htail _ _

variable [IsStrictOrderedRing F]

/-- On memories that hold `-1` everywhere an odd range is not computed. -/
theorem fcLoops_odd (u : Simd F) (hu : u.Exact)
    (hr : FcInRange inMem outMem weight bias inDataLength outRange)
    (hne : outRange.begin < outRange.end_) (hodd : (outRange.end_ - outRange.begin) % 2 ≠ 0) :
    let m : Machine (Ptr N) (Word F) (Access N) := ⟨fun _ => .float (-1), []⟩
    let m' := ((fcLoops u inMem outMem weight bias inDataLength outRange).run m).2
    ¬ (DenseLayer inMem outMem weight bias inDataLength outRange m.heap m'.heap ∧
      Extends Access.Asserts m m') := by
  intro m m' h
  obtain ⟨hlayer, es, htrace, hasserts⟩ := h
  have hlast : outRange.end_ - 1 ∈ outRange := ⟨by omega, by omega⟩
  by_cases hmod : (outRange.end_ - outRange.begin) % 4 = 1
  · obtain ⟨⟨v, hv, hcell⟩, hcall⟩ := @fcLoops_one N F _ _ _ _ inMem outMem weight bias
      inDataLength outRange u hu hmod hne m
    by_cases hin : outMem.InShape outRange.end_ 0 0 0
    · have hkeep := hlayer.other _ _ _ _ hin fun hs => by
        obtain ⟨⟨_, hlt⟩, _⟩ := hs
        exact lt_irrefl _ hlt
      have hneg : (-1 : F) = v := Word.float.inj (hkeep.symm.trans hcell)
      linarith
    · have hes : m'.trace = es := by rw [htrace, List.append_nil]
      have hassert : outMem.Asserts outRange.end_ 0 0 0 :=
        hasserts (.getPtr outMem outRange.end_ 0 0 0) (hes ▸ hcall)
      exact Memory.not_asserts (hr.output _ hlast) hin hassert
  · have hthree : (outRange.end_ - outRange.begin) % 4 = 3 := by omega
    have hprod := fcLoops_produces u hu hr (Or.inl hmod) m
    have hkeep := hprod.frame (outMem.addr (outRange.end_ - 1) 0 0 0) fun x y z w hs he => by
      obtain ⟨hx, rfl, rfl, rfl⟩ := hs.mem (Or.inl hmod)
      obtain ⟨rfl, -⟩ := Memory.addr_inj (hr.output _ hlast) (hr.output x hx) he
      exact hs.ne_last hthree rfl
    have hval := hlayer.value _ hlast
    rw [Memory.value, hkeep] at hval
    have hneg : (-1 : F) = max _ 0 := hval
    have hpos : (0 : F) ≤ -1 := hneg ▸ le_max_right _ _
    linarith

end Dense

section FullyConnected

variable {inMemName outMemName weightMemName biasMemName : MemName}
  {inMem outMem weight bias : Memory MemName} {inDataLength : Int} {outRange : Range}

/-- The four memories of a dense layer or a convolution are in the hub under their names. -/
structure FcHub (memhub : MemHub MemName) (inMemName outMemName weightMemName biasMemName : MemName)
    (inMem outMem weight bias : Memory MemName) : Prop where
  input : memhub.getMemory inMemName = some inMem
  output : memhub.getMemory outMemName = some outMem
  weight : memhub.getMemory weightMemName = some weight
  bias : memhub.getMemory biasMemName = some bias

theorem opFc_eq (u : Simd F) {core : Core F} (hh : FcHub core.memhub inMemName outMemName
    weightMemName biasMemName inMem outMem weight bias) :
    (Core.opFc u inMemName outMemName weightMemName biasMemName inDataLength outRange).run core =
      let r := (fcLoops u inMem outMem weight bias inDataLength outRange).run core.machine
      some (intCycles r.1, { core with machine := r.2 }) := by
  simp [Core.opFc, Core.run_getMemory_eq, hh.input, hh.output, hh.weight, hh.bias]

theorem opConv_eq (u : Simd F) {core : Core F} (hh : FcHub core.memhub inMemName outMemName
    weightMemName biasMemName inMem outMem weight bias) (inChannelNum : Int)
    (outChannelRange outXRange outYRange : Range) (filterSize stride : Int) :
    (Core.opConv u inMemName outMemName weightMemName biasMemName inChannelNum outChannelRange
      outXRange outYRange filterSize stride).run core =
      let r := (convLoops u inMem outMem weight bias inChannelNum outChannelRange outXRange
        outYRange filterSize stride).run core.machine
      some (intCycles r.1, { core with machine := r.2 }) := by
  simp [Core.opConv, Core.run_getMemory_eq, hh.input, hh.output, hh.weight, hh.bias]

/-- A call of `op_fc` returns with the dense layer computed. -/
def ComputesDense (u : Simd F) (inMemName outMemName weightMemName biasMemName : MemName)
    (inMem outMem weight bias : Memory MemName) (inDataLength : Int) (outRange : Range)
    (core : Core F) : Prop :=
  ∃ core', Returns (Core.opFc u inMemName outMemName weightMemName biasMemName inDataLength
      outRange) core core' ∧
    DenseLayer inMem outMem weight bias inDataLength outRange core.machine.heap core'.machine.heap

private theorem cores_exact {u : Simd F} (hu : u ∈ ({denseSimd, sparseSimd} : Set (Simd F))) :
    u.Exact := by
  rcases hu with rfl | rfl
  · exact denseSimd_exact
  · exact sparseSimd_exact

variable [IsStrictOrderedRing F]

/-- On memories that hold `-1` everywhere `op_fc` fails for every odd range. -/
theorem opFc_odd {memhub : MemHub MemName} (hh : FcHub memhub inMemName outMemName weightMemName
      biasMemName inMem outMem weight bias)
    (hr : FcInRange inMem outMem weight bias inDataLength outRange)
    (hne : outRange.begin < outRange.end_) (hodd : (outRange.end_ - outRange.begin) % 2 ≠ 0)
    {u : Simd F} (hu : u ∈ ({denseSimd, sparseSimd} : Set (Simd F))) :
    ¬ ComputesDense u inMemName outMemName weightMemName biasMemName inMem outMem weight bias
      inDataLength outRange { memhub := memhub, machine := ⟨fun _ => .float (-1), []⟩ } := by
  intro h
  obtain ⟨core', hret, hlayer⟩ := h
  obtain rfl := hret.unique (opFc_eq u hh)
  exact fcLoops_odd u (cores_exact hu) hr hne hodd ⟨hlayer, hret.2⟩

/-- The tail of `op_fc` has two lanes, so both cores compute the dense layer, whatever the
memories hold, exactly on the ranges of even length. -/
theorem opFc_dense_iff {memhub : MemHub MemName} (hh : FcHub memhub inMemName outMemName
      weightMemName biasMemName inMem outMem weight bias)
    (hr : FcInRange inMem outMem weight bias inDataLength outRange)
    {u : Simd F} (hu : u ∈ ({denseSimd, sparseSimd} : Set (Simd F))) :
    (∀ core : Core F, core.memhub = memhub → ComputesDense u inMemName outMemName weightMemName
        biasMemName inMem outMem weight bias inDataLength outRange core) ↔
      outRange.end_ ≤ outRange.begin ∨ (outRange.end_ - outRange.begin) % 2 = 0 := by
  constructor
  · intro h
    by_contra hodd
    rw [not_or, not_le] at hodd
    exact opFc_odd hh hr hodd.1 hodd.2 hu (h _ rfl)
  · intro heven core hhub
    subst hhub
    obtain ⟨hlayer, hasserts⟩ := fcLoops_even u (cores_exact hu) hr heven core.machine
    exact ⟨_, ⟨⟨_, opFc_eq u hh⟩, hasserts⟩, hlayer⟩

/-- Three inputs, four outputs and their weights, one after the other in a buffer each. -/
def denseMem : MemName → Memory MemName
  | .pool1Out => ⟨⟨.pool1Out, 0⟩, 3, 1, 1, 1⟩
  | .denseKernel => ⟨⟨.denseKernel, 0⟩, 3, 4, 1, 1⟩
  | name => ⟨⟨name, 0⟩, 4, 1, 1, 1⟩

def denseHub : MemHub MemName := ⟨fun name => some (denseMem name)⟩

private theorem denseHub_fcHub : FcHub denseHub .pool1Out .denseOut .denseKernel .denseBias
    (denseMem .pool1Out) (denseMem .denseOut) (denseMem .denseKernel) (denseMem .denseBias) :=
  ⟨rfl, rfl, rfl, rfl⟩

private theorem dense_inRange {r : Range} (hlow : 0 ≤ r.begin) (hhigh : r.end_ ≤ 4) :
    FcInRange (denseMem .pool1Out) (denseMem .denseOut) (denseMem .denseKernel)
      (denseMem .denseBias) 3 r := by
  have hkernel : (denseMem .denseKernel).HasShape 3 4 1 1 := ⟨rfl, rfl, rfl, rfl⟩
  have hbias : (denseMem .denseBias).HasShape 4 1 1 1 := ⟨rfl, rfl, rfl, rfl⟩
  have hout : (denseMem .denseOut).HasShape 4 1 1 1 := ⟨rfl, rfl, rfl, rfl⟩
  constructor
  · simp only [Set.disjoint_union_right]
    refine ⟨⟨?_, ?_⟩, ?_⟩ <;> exact disjoint_region (by decide)
  · decide
  · decide
  · intro o ho i hi
    obtain ⟨ho, ho'⟩ := ho
    exact hkernel.inShape_iff.mpr ⟨hi, by omega, by decide, by decide⟩
  · intro o ho
    obtain ⟨ho, ho'⟩ := ho
    exact hbias.inShape_iff.mpr ⟨by omega, by decide, by decide, by decide⟩
  · intro o ho
    obtain ⟨ho, ho'⟩ := ho
    exact hout.inShape_iff.mpr ⟨by omega, by decide, by decide, by decide⟩

theorem opFc_dense_iff_two :
    ComputesDense denseSimd .pool1Out .denseOut .denseKernel .denseBias (denseMem .pool1Out)
      (denseMem .denseOut) (denseMem .denseKernel) (denseMem .denseBias) 3 ⟨1, 3⟩
      { memhub := denseHub, machine := ⟨fun _ => .float (-1 : ℚ), []⟩ } :=
  (opFc_dense_iff denseHub_fcHub (dense_inRange (by decide) (by decide)) (Or.inl rfl)).mpr
    (Or.inr (by decide)) _ rfl

/-- A range of three outputs, inside memories that hold `-1`, on either core. -/
theorem opFc_not_dense :
    (FcHub denseHub .pool1Out .denseOut .denseKernel .denseBias (denseMem .pool1Out)
        (denseMem .denseOut) (denseMem .denseKernel) (denseMem .denseBias) ∧
      FcInRange (denseMem .pool1Out) (denseMem .denseOut) (denseMem .denseKernel)
        (denseMem .denseBias) 3 ⟨0, 3⟩) ∧
    ∀ u ∈ ({denseSimd, sparseSimd} : Set (Simd ℚ)),
      ¬ ComputesDense u .pool1Out .denseOut .denseKernel .denseBias (denseMem .pool1Out)
        (denseMem .denseOut) (denseMem .denseKernel) (denseMem .denseBias) 3 ⟨0, 3⟩
        { memhub := denseHub, machine := ⟨fun _ => .float (-1), []⟩ } :=
  ⟨⟨denseHub_fcHub, dense_inRange (by decide) (by decide)⟩, fun _ hu =>
    opFc_odd denseHub_fcHub (dense_inRange (by decide) (by decide)) (by decide) (by decide) hu⟩

end FullyConnected

end ModernArch.SimpleCNN
