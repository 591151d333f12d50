import ModernArch.SimpleCNN.Network
import ModernArch.SimpleCNN.Operations

/-!
# The convolution that keeps the shape

`op_padding` by half a filter and then `op_conv` with stride one: together they are the
convolution of the input extended by zero, whatever the padded view held before.
-/

namespace ModernArch.SimpleCNN
open Framework Vdev
set_option linter.unusedSectionVars false

variable {N F : Type} [Field F] [FloatModel F] [LinearOrder F]

/-- The input, with zero outside its bounds. -/
def extended (input : Tensor F) (xLen yLen x y k : Int) : F :=
  if (0 ≤ x ∧ x < xLen) ∧ 0 ≤ y ∧ y < yLen then input x y k 0 else 0

/-- The convolution with a filter of size `2 * p + 1` around each position. -/
noncomputable def sameValue (input weight bias : Tensor F) (xLen yLen kLen p x y c : Int) : F :=
  max (bias c 0 0 0 + ∑ dx ∈ Finset.Ico 0 (2 * p + 1), ∑ dy ∈ Finset.Ico 0 (2 * p + 1),
    ∑ k ∈ Finset.Ico 0 kLen, extended input xLen yLen (x + dx - p) (y + dy - p) k *
      weight dx dy k c) 0

/-- Views of an input of shape `xLen, yLen, kLen`, its padded copy, and `cLen` output channels. -/
structure SameViews (inMem padMem outMem weight bias : Memory N)
    (xLen yLen kLen p cLen : Int) : Prop where
  apart : Disjoint padMem.region (inMem.region ∪ outMem.region ∪ weight.region ∪ bias.region)
  channels : cLen % 4 = 0
  input : inMem.HasShape xLen yLen kLen 1
  padded : padMem.HasShape (xLen + 2 * p) (yLen + 2 * p) kLen 1
  weights : ∀ dx ∈ (⟨0, 2 * p + 1⟩ : Range), ∀ dy ∈ (⟨0, 2 * p + 1⟩ : Range),
    ∀ k ∈ (⟨0, kLen⟩ : Range), ∀ c ∈ (⟨0, cLen⟩ : Range), weight.InShape dx dy k c
  biases : ∀ c ∈ (⟨0, cLen⟩ : Range), bias.InShape c 0 0 0
  output : ∀ x ∈ (⟨0, xLen⟩ : Range), ∀ y ∈ (⟨0, yLen⟩ : Range), ∀ c ∈ (⟨0, cLen⟩ : Range),
    outMem.InShape x y c 0

/-- The views are not empty, the output is apart from the parameters as well, and the byte size
of the padded view fits an `int`. -/
structure SameInRange (inMem padMem outMem weight bias : Memory N) (xLen yLen kLen p cLen : Int) :
    Prop extends SameViews inMem padMem outMem weight bias xLen yLen kLen p cLen where
  lengths : 0 < xLen ∧ 0 < yLen ∧ 0 < kLen ∧ 0 ≤ p
  kept : Disjoint outMem.region (weight.region ∪ bias.region)
  fits : padMem.byteLen < 2 ^ 31

/-- Between `m` and `m''` the padded view is filled, and from it the outputs. -/
structure SameConv (inMem padMem outMem weight bias : Memory N) (xLen yLen kLen p cLen : Int)
    (m m' m'' : Machine (Ptr N) (Word F) (Access N)) : Prop where
  value : ∀ x ∈ (⟨0, xLen⟩ : Range), ∀ y ∈ (⟨0, yLen⟩ : Range), ∀ c ∈ (⟨0, cLen⟩ : Range),
    outMem.value m''.heap x y c 0 = sameValue (inMem.value m.heap) (weight.value m.heap)
      (bias.value m.heap) xLen yLen kLen p x y c
  frame : ∀ q, q ∉ padMem.region → (∀ x ∈ (⟨0, xLen⟩ : Range), ∀ y ∈ (⟨0, yLen⟩ : Range),
    ∀ c ∈ (⟨0, cLen⟩ : Range), q ≠ outMem.addr x y c 0) → m''.heap q = m.heap q
  padding : Extends (OpAccess inMem.region padMem.region) m m'
  convolution :
    Extends (OpAccess (padMem.region ∪ weight.region ∪ bias.region) outMem.region) m' m''

variable {inMem padMem outMem weight bias : Memory N} {xLen yLen kLen p cLen : Int}

/-- On a padded copy the filter meets the extended input. -/
theorem convValue_padValue (input weight bias : Tensor F) (x y c : Int) :
    convValue (padValue input p xLen yLen kLen 1) weight bias kLen (2 * p + 1) 1 x y c =
      sameValue input weight bias xLen yLen kLen p x y c := by
  simp only [convValue, convSum, sameValue, sum_steps_one]
  rw [add_comm]
  congr 2
  apply Finset.sum_congr rfl
  intro dx hdx
  apply Finset.sum_congr rfl
  intro dy hdy
  apply Finset.sum_congr rfl
  intro k hk
  rw [Finset.mem_Ico] at hk
  congr 1
  have hpad : PadIndex p xLen yLen kLen 1 (x + dx) (y + dy) k 0 ↔
      (0 ≤ x + dx - p ∧ x + dx - p < xLen) ∧ 0 ≤ y + dy - p ∧ y + dy - p < yLen := by
    unfold PadIndex
    omega
  simp only [padValue, extended, hpad, mul_one]

variable [DecidableEq N]

private theorem paddingLoops_computes
    (hr : SameInRange inMem padMem outMem weight bias xLen yLen kLen p
    cLen) (m : Machine (Ptr N) (Word F) (Access N)) :
    Computes padMem inMem.region (padValue (inMem.value m.heap) p xLen yLen kLen 1) m
      ((paddingLoops inMem padMem p xLen yLen kLen 1).run m).2 := by
  obtain ⟨hx, hy, hk, hp⟩ := hr.lengths
  have hapart := hr.apart
  simp only [Set.disjoint_union_right] at hapart
  apply padding_computes m _ hr.fits hapart.1.1.1 subset_rfl
  · intro x y z w hidx
    rw [hr.padded.inShape_iff, hr.input.inShape_iff]
    unfold PadIndex at hidx
    omega
  · rw [hr.padded.inShape_iff]
    omega

/-- The convolution of a padded view reads inside it. -/
theorem convLoops_computes (hr : SameViews inMem padMem outMem weight bias xLen yLen kLen p cLen)
    (hkept : Disjoint outMem.region (weight.region ∪ bias.region))
    (m : Machine (Ptr N) (Word F) (Access N)) :
    Produces outMem (padMem.region ∪ weight.region ∪ bias.region)
      (GroupIndex ⟨0, cLen⟩ ⟨0, xLen⟩ ⟨0, yLen⟩)
      (fun x y z _ => .float (convValue (padMem.value m.heap) (weight.value m.heap)
        (bias.value m.heap) kLen (2 * p + 1) 1 x y z)) m
      ((convLoops denseSimd padMem outMem weight bias kLen ⟨0, cLen⟩ ⟨0, xLen⟩ ⟨0, yLen⟩
        (2 * p + 1) 1).run m).2 := by
  have hapart := hr.apart
  simp only [Set.disjoint_union_right] at hapart hkept
  apply conv_produces denseSimd denseSimd_exact
  · simp only [Set.disjoint_union_right]
    exact ⟨⟨hapart.1.1.2.symm, hkept.1⟩, hkept.2⟩
  · refine ⟨?_, ?_, Set.subset_union_right⟩
    · exact Set.subset_union_left.trans Set.subset_union_left
    · exact Set.subset_union_right.trans Set.subset_union_left
  · intro x y z w hs
    obtain ⟨hx, hy, hz, rfl⟩ := (groupIndex_iff hr.channels).mp hs
    refine ⟨hr.output x hx y hy z hz, hr.biases z hz, ?_⟩
    intro dx hdx dy hdy k hk
    rw [mem_steps_one] at hdx hdy hk
    refine ⟨hr.weights dx hdx dy hdy k hk z hz, ?_⟩
    rw [hr.padded.inShape_iff]
    omega

/-- The outputs are the convolution of what the padded view holds. -/
theorem convLoops_holds (hr : SameViews inMem padMem outMem weight bias xLen yLen kLen p cLen)
    (hkept : Disjoint outMem.region (weight.region ∪ bias.region))
    {m m' : Machine (Ptr N) (Word F) (Access N)}
    (hframe : ∀ q, q ∉ padMem.region → m'.heap q = m.heap q) {t : Tensor F}
    (ht : padMem.Holds m'.heap t) {x y c : Int} (hx : x ∈ (⟨0, xLen⟩ : Range))
    (hy : y ∈ (⟨0, yLen⟩ : Range)) (hc : c ∈ (⟨0, cLen⟩ : Range)) :
    outMem.value ((convLoops denseSimd padMem outMem weight bias kLen ⟨0, cLen⟩ ⟨0, xLen⟩ ⟨0, yLen⟩
      (2 * p + 1) 1).run m').2.heap x y c 0 =
      convValue t (weight.value m.heap) (bias.value m.heap) kLen (2 * p + 1) 1 x y c := by
  have hapart := hr.apart
  simp only [Set.disjoint_union_right] at hapart
  have hkeep {r : Memory N} (hd : Disjoint padMem.region r.region) {x y z w : Int}
      (hin : r.InShape x y z w) : r.value m'.heap x y z w = r.value m.heap x y z w :=
    congrArg Word.toFloat (hframe _ fun hp =>
      Set.disjoint_left.mp hd hp (Memory.addr_mem_region hin))
  have hval := (convLoops_computes hr hkept m').value x y c 0
    ((groupIndex_iff hr.channels).mpr ⟨hx, hy, hc, rfl⟩)
  refine (congrArg Word.toFloat hval).trans ?_
  apply convValue_congr
  · intro dx hdx dy hdy k hk
    rw [mem_steps_one] at hdx hdy hk
    apply ht
    rw [hr.padded.inShape_iff]
    obtain ⟨hx, hx'⟩ := hx
    obtain ⟨hy, hy'⟩ := hy
    simp only at hx hx' hy hy'
    omega
  · intro dx hdx dy hdy k hk
    rw [mem_steps_one] at hdx hdy hk
    exact hkeep hapart.1.2 (hr.weights dx hdx dy hdy k hk c hc)
  · exact hkeep hapart.2 (hr.biases c hc)

private theorem sameConv_loops
    (hr : SameInRange inMem padMem outMem weight bias xLen yLen kLen p cLen)
    (m : Machine (Ptr N) (Word F) (Access N)) :
    let m' := ((paddingLoops inMem padMem p xLen yLen kLen 1).run m).2
    let m'' := ((convLoops denseSimd padMem outMem weight bias kLen ⟨0, cLen⟩ ⟨0, xLen⟩ ⟨0, yLen⟩
      (2 * p + 1) 1).run m').2
    SameConv inMem padMem outMem weight bias xLen yLen kLen p cLen m m' m'' := by
  intro m' m''
  have hpad := paddingLoops_computes hr m
  have hconv := convLoops_computes hr.toSameViews hr.kept m'
  constructor
  · intro x hx y hy c hc
    rw [← convValue_padValue]
    exact convLoops_holds hr.toSameViews hr.kept hpad.frame hpad.holds hx hy hc
  · intro q hq hout
    have hframe := hconv.frame q fun x y z w hs => by
      obtain ⟨hx, hy, hz, rfl⟩ := (groupIndex_iff hr.channels).mp hs
      exact hout x hx y hy z hz
    exact hframe.trans (hpad.frame q hq)
  · exact hpad.trace
  · exact hconv.trace

/-- A padded view that was not cleared: the copy, and what it held before around it. -/
theorem paddingLoops_uncleared (hr : SameViews inMem padMem outMem weight bias xLen yLen kLen p
    cLen) (hpos : 0 < xLen ∧ 0 < yLen ∧ 0 < kLen ∧ 0 ≤ p) (hsize : padMem.getMemSizeByByte = 0)
    (m : Machine (Ptr N) (Word F) (Access N)) :
    let m' := ((paddingLoops inMem padMem p xLen yLen kLen 1).run m).2
    (∀ q, q ∉ padMem.region → m'.heap q = m.heap q) ∧
      padMem.Holds m'.heap fun x y z w => if PadIndex p xLen yLen kLen 1 x y z w then
        inMem.value m.heap (x - p) (y - p) z w else padMem.value m.heap x y z w := by
  intro m'
  have hapart := hr.apart
  simp only [Set.disjoint_union_right] at hapart
  have hidx (x y z w : Int) (h : PadIndex p xLen yLen kLen 1 x y z w) :
      padMem.InShape x y z w ∧ inMem.InShape (x - p) (y - p) z w := by
    rw [hr.padded.inShape_iff, hr.input.inShape_iff]
    unfold PadIndex at h
    omega
  have hzero : padMem.InShape 0 0 0 0 := by
    rw [hr.padded.inShape_iff]
    omega
  have hcopy := padding_uncleared m hzero hsize hapart.1.1.1 subset_rfl hidx
  constructor
  · exact (hcopy.writes fun x y z w h => (hidx x y z w h).1).frame
  · intro x y z w hin
    by_cases h : PadIndex p xLen yLen kLen 1 x y z w
    · simp only [if_pos h]
      exact (congrArg Word.toFloat (hcopy.value x y z w h)).trans rfl
    · simp only [if_neg h]
      refine congrArg Word.toFloat (hcopy.frame _ fun x' y' z' w' h' he => ?_)
      obtain ⟨rfl, rfl, rfl, rfl⟩ := Memory.addr_inj hin (hidx x' y' z' w' h').1 he
      exact h h'

/-- The five memories of the two operations are in the hub under their names. -/
structure SameHub (memhub : MemHub MemName) (inName padName outName weightName biasName : MemName)
    (inMem padMem outMem weight bias : Memory MemName) : Prop where
  input : memhub.getMemory inName = some inMem
  padded : memhub.getMemory padName = some padMem
  output : memhub.getMemory outName = some outMem
  weight : memhub.getMemory weightName = some weight
  bias : memhub.getMemory biasName = some bias

variable {inMem padMem outMem weight bias : Memory MemName}
  {inName padName outName weightName biasName : MemName} {core : Core F}

private theorem opPadding_eq
    (hh : SameHub core.memhub inName padName outName weightName biasName inMem
      padMem outMem weight bias) (padLength inXLen inYLen inZLen inWLen : Int) :
    (Core.opPadding inName padName padLength inXLen inYLen inZLen inWLen).run core =
      let r := (paddingLoops inMem padMem padLength inXLen inYLen inZLen inWLen).run core.machine
      some (r.1, { core with machine := r.2 }) := by
  simp [Core.opPadding, Core.run_getMemory_eq, hh.input, hh.padded]

theorem SameHub.conv (hh : SameHub core.memhub inName padName outName weightName biasName inMem
      padMem outMem weight bias) :
    FcHub core.memhub padName outName weightName biasName padMem outMem weight bias :=
  ⟨hh.padded, hh.output, hh.weight, hh.bias⟩

/-- `op_padding` and then `op_conv` both return, and the outputs are the convolution of the input
extended by zero. -/
def ComputesSame (inName padName outName weightName biasName : MemName)
    (inMem padMem outMem weight bias : Memory MemName) (xLen yLen kLen p cLen : Int)
    (core : Core F) : Prop :=
  ∃ core' core'', Returns (Core.opPadding inName padName p xLen yLen kLen 1) core core' ∧
    Returns (Core.opConv denseSimd padName outName weightName biasName kLen ⟨0, cLen⟩
      ⟨0, xLen⟩ ⟨0, yLen⟩ (2 * p + 1) 1) core' core'' ∧
    SameConv inMem padMem outMem weight bias xLen yLen kLen p cLen core.machine core'.machine
      core''.machine

/-- Padding and then convolving keeps the shape, for every shape and every content. -/
theorem padding_conv_same
    (hh : SameHub core.memhub inName padName outName weightName biasName inMem padMem outMem
      weight bias)
    (hr : SameInRange inMem padMem outMem weight bias xLen yLen kLen p cLen) :
    ComputesSame inName padName outName weightName biasName inMem padMem outMem weight bias xLen
      yLen kLen p cLen core := by
  have hsame := sameConv_loops hr core.machine
  have hpad := opPadding_eq hh p xLen yLen kLen 1
  let core' : Core F :=
    { core with machine := ((paddingLoops inMem padMem p xLen yLen kLen 1).run core.machine).2 }
  have hhub : FcHub core'.memhub padName outName weightName biasName padMem outMem weight bias :=
    hh.conv
  have hconv := opConv_eq denseSimd hhub kLen ⟨0, cLen⟩ ⟨0, xLen⟩ ⟨0, yLen⟩ (2 * p + 1) 1
  exact ⟨core', _, Returns.of_run hpad hsame.padding, Returns.of_run hconv hsame.convolution, hsame⟩

/-- What the two operations leave when they return. -/
theorem ComputesSame.loops
    (hh : SameHub core.memhub inName padName outName weightName biasName inMem padMem outMem
      weight bias)
    (h : ComputesSame inName padName outName weightName biasName inMem padMem outMem weight bias
      xLen yLen kLen p cLen core) :
    let m' := ((paddingLoops inMem padMem p xLen yLen kLen 1).run core.machine).2
    let m'' := ((convLoops denseSimd padMem outMem weight bias kLen ⟨0, cLen⟩ ⟨0, xLen⟩ ⟨0, yLen⟩
      (2 * p + 1) 1).run m').2
    Extends Access.Asserts core.machine m' ∧
      SameConv inMem padMem outMem weight bias xLen yLen kLen p cLen core.machine m' m'' := by
  obtain ⟨core', core'', hpad, hconv, hsame⟩ := h
  obtain rfl := hpad.unique (opPadding_eq hh p xLen yLen kLen 1)
  let padded : Core F :=
    { core with machine := ((paddingLoops inMem padMem p xLen yLen kLen 1).run core.machine).2 }
  have hhub : FcHub padded.memhub padName outName weightName biasName padMem outMem weight bias :=
    hh.conv
  obtain rfl := Returns.unique (opConv_eq denseSimd hhub kLen ⟨0, cLen⟩ ⟨0, xLen⟩ ⟨0, yLen⟩
    (2 * p + 1) 1) hconv
  exact ⟨hpad.2, hsame⟩

/-- Without the clearing the outputs would have to be the convolution of what was there. -/
theorem ComputesSame.stale
    (hh : SameHub core.memhub inName padName outName weightName biasName inMem padMem outMem
      weight bias)
    (hr : SameViews inMem padMem outMem weight bias xLen yLen kLen p cLen)
    (hkept : Disjoint outMem.region (weight.region ∪ bias.region))
    (hpos : 0 < xLen ∧ 0 < yLen ∧ 0 < kLen ∧ 0 ≤ p) (hsize : padMem.getMemSizeByByte = 0)
    (h : ComputesSame inName padName outName weightName biasName inMem padMem outMem weight bias
      xLen yLen kLen p cLen core) {x y c : Int} (hx : x ∈ (⟨0, xLen⟩ : Range))
    (hy : y ∈ (⟨0, yLen⟩ : Range)) (hc : c ∈ (⟨0, cLen⟩ : Range)) :
    let heap := core.machine.heap
    convValue (fun x y z w => if PadIndex p xLen yLen kLen 1 x y z w then
        inMem.value heap (x - p) (y - p) z w else padMem.value heap x y z w)
      (weight.value heap) (bias.value heap) kLen (2 * p + 1) 1 x y c =
      sameValue (inMem.value heap) (weight.value heap) (bias.value heap) xLen yLen kLen p x y c := by
  obtain ⟨-, hsame⟩ := h.loops hh
  obtain ⟨hframe, hholds⟩ := paddingLoops_uncleared hr hpos hsize core.machine
  have hstale := convLoops_holds hr hkept hframe hholds hx hy hc
  exact hstale.symm.trans (hsame.value x hx y hy c hc)

/-- The views of one convolution, in a buffer each. -/
def ownMem (xLen yLen kLen p cLen : Int) : MemName → Memory MemName
  | .paddingIn => ⟨⟨.paddingIn, 0⟩, xLen, yLen, kLen, 1⟩
  | .paddingOut => ⟨⟨.paddingOut, 0⟩, xLen + 2 * p, yLen + 2 * p, kLen, 1⟩
  | .convOut => ⟨⟨.convOut, 0⟩, xLen, yLen, cLen, 1⟩
  | .conv2dKernel => ⟨⟨.conv2dKernel, 0⟩, 2 * p + 1, 2 * p + 1, kLen, cLen⟩
  | name => ⟨⟨name, 0⟩, cLen, 1, 1, 1⟩

private theorem own_sameViews {outMem : Memory MemName} {xLen yLen kLen p cLen : Int}
    (hc : cLen % 4 = 0)
    (hout : outMem.HasShape xLen yLen cLen 1) (hbuf : .paddingOut ≠ outMem.data.buf) :
    let own := ownMem xLen yLen kLen p cLen
    SameViews (own .paddingIn) (own .paddingOut) outMem (own .conv2dKernel) (own .conv2dBias) xLen
      yLen kLen p cLen := by
  intro own
  have hkernel : (own .conv2dKernel).HasShape (2 * p + 1) (2 * p + 1) kLen cLen :=
    ⟨rfl, rfl, rfl, rfl⟩
  have hbias : (own .conv2dBias).HasShape cLen 1 1 1 := ⟨rfl, rfl, rfl, rfl⟩
  constructor
  · simp only [Set.disjoint_union_right]
    refine ⟨⟨⟨?_, ?_⟩, ?_⟩, ?_⟩
    · exact disjoint_region (show MemName.paddingOut ≠ .paddingIn by decide)
    · exact disjoint_region hbuf
    · exact disjoint_region (show MemName.paddingOut ≠ .conv2dKernel by decide)
    · exact disjoint_region (show MemName.paddingOut ≠ .conv2dBias by decide)
  · exact hc
  · exact ⟨rfl, rfl, rfl, rfl⟩
  · exact ⟨rfl, rfl, rfl, rfl⟩
  · intro dx hdx dy hdy k hk c hc
    exact hkernel.inShape_iff.mpr ⟨hdx, hdy, hk, hc⟩
  · intro c hc
    exact hbias.inShape_iff.mpr ⟨hc, by decide, by decide, by decide⟩
  · intro x hx y hy c hc
    exact hout.inShape_iff.mpr ⟨hx, hy, hc, by decide⟩

private theorem own_kept (xLen yLen kLen p cLen : Int) :
    let own := ownMem xLen yLen kLen p cLen
    Disjoint (own .convOut).region ((own .conv2dKernel).region ∪ (own .conv2dBias).region) := by
  simp only [Set.disjoint_union_right]
  constructor
  · exact disjoint_region (show MemName.convOut ≠ .conv2dKernel by decide)
  · exact disjoint_region (show MemName.convOut ≠ .conv2dBias by decide)

/-- Three by two pixels of two channels, over cells that differ. -/
theorem padding_conv_same_pixels :
    ComputesSame .paddingIn .paddingOut .convOut .conv2dKernel .conv2dBias
      (ownMem 3 2 2 1 8 .paddingIn) (ownMem 3 2 2 1 8 .paddingOut) (ownMem 3 2 2 1 8 .convOut)
      (ownMem 3 2 2 1 8 .conv2dKernel) (ownMem 3 2 2 1 8 .conv2dBias) 3 2 2 1 8
      (⟨-1, ⟨fun name => some (ownMem 3 2 2 1 8 name)⟩, ⟨fun q => .float q.off, []⟩⟩ : Core ℚ) :=
  padding_conv_same ⟨rfl, rfl, rfl, rfl, rfl⟩
    ⟨own_sameViews (by decide) ⟨rfl, rfl, rfl, rfl⟩ (by decide), by decide, own_kept 3 2 2 1 8,
      by decide⟩

/-- A core with its views and nothing accessed yet. -/
def sameCore (mem : MemName → Memory MemName) (heap : Heap MemName ℚ) : Core ℚ where
  memhub := ⟨fun name => some (mem name)⟩
  machine := ⟨heap, []⟩

/-- The views are as they should be, and still the outputs are not the convolution. -/
def FailsSame (mem : MemName → Memory MemName) (xLen yLen kLen p cLen : Int)
    (heap : Heap MemName ℚ) : Prop :=
  SameViews (mem .paddingIn) (mem .paddingOut) (mem .convOut) (mem .conv2dKernel) (mem .conv2dBias)
    xLen yLen kLen p cLen ∧
  ¬ ComputesSame .paddingIn .paddingOut .convOut .conv2dKernel .conv2dBias (mem .paddingIn)
    (mem .paddingOut) (mem .convOut) (mem .conv2dKernel) (mem .conv2dBias) xLen yLen kLen p cLen
    (sameCore mem heap)

/-- The cells of the padded view that a copy of one less on each side leaves. -/
theorem convValue_border : convValue (fun x y z w => if PadIndex 1 1022 1022 1024 1 x y z w then
      (0 : ℚ) else 1) (fun _ _ _ _ => 1) (fun _ _ _ _ => 0) 1024 3 1 0 0 0 = 5120 := by
  have hcell (x y k : Int) (hx : 0 ≤ x ∧ x < 3) (hy : 0 ≤ y ∧ y < 3) (hk : 0 ≤ k ∧ k < 1024) :
      PadIndex 1 1022 1022 1024 1 x y k 0 ↔ 1 ≤ x ∧ 1 ≤ y := by
    unfold PadIndex
    omega
  have hrow (x y : Int) (hx : 0 ≤ x ∧ x < 3) (hy : 0 ≤ y ∧ y < 3) :
      ∑ k ∈ Finset.Ico (0 : Int) 1024,
        (if PadIndex 1 1022 1022 1024 1 x y k 0 then (0 : ℚ) else 1) =
        if 1 ≤ x ∧ 1 ≤ y then 0 else 1024 := by
    have hconst := Finset.sum_congr rfl fun k hk =>
      if_congr (hcell x y k hx hy (Finset.mem_Ico.mp hk)) (rfl : (0 : ℚ) = 0) (rfl : (1 : ℚ) = 1)
    rw [hconst, Finset.sum_const, Int.card_Ico]
    split_ifs <;> simp
  have hthree : Finset.Ico (0 : Int) 3 = {0, 1, 2} := by decide
  simp only [convValue, convSum, sum_steps_one, hthree, zero_add, mul_one, add_zero]
  simp [hrow]
  norm_num

/-- Zero inputs, a bias of zero and weights of one, over a padded view of ones. -/
def largeHeap : Heap MemName ℚ := fun q =>
  .float (if q.buf = .paddingOut ∨ q.buf = .conv2dKernel then 1 else 0)

/-- A padded view of `2 ^ 30` floats: the byte size is `2 ^ 32`, the `int` is zero, and the ones
around the copy stay. -/
theorem failsSame_large :
    FailsSame (ownMem 1022 1022 1024 1 4) 1022 1022 1024 1 4 largeHeap := by
  have hviews := @own_sameViews (ownMem 1022 1022 1024 1 4 .convOut) 1022 1022 1024 1 4 (by decide)
    ⟨rfl, rfl, rfl, rfl⟩ (by decide)
  refine ⟨hviews, ?_⟩
  intro h
  have h0 : (0 : Int) ∈ (⟨0, 1022⟩ : Range) := ⟨by decide, by decide⟩
  have hstale := h.stale ⟨rfl, rfl, rfl, rfl, rfl⟩ hviews (own_kept 1022 1022 1024 1 4) (by decide)
    rfl h0 h0 (show (0 : Int) ∈ (⟨0, 4⟩ : Range) from ⟨by decide, by decide⟩)
  have hsum : (5120 : ℚ) = sameValue (fun _ _ _ _ => 0) (fun _ _ _ _ => 1) (fun _ _ _ _ => 0)
      1022 1022 1024 1 0 0 0 := convValue_border.symm.trans hstale
  simp [sameValue, extended] at hsum

/-- The outputs of the first group of channels are the weights of the second. -/
def overMem : MemName → Memory MemName :=
  Function.update (ownMem 1 1 1 0 8) .convOut ⟨⟨.conv2dKernel, 4⟩, 1, 1, 8, 1⟩

def overHeap : Heap MemName ℚ := fun q =>
  .float (if q.buf = .paddingIn then 2 else if q.buf = .conv2dKernel then 1 else 0)

/-- Channel 4 takes the output of channel 0 for its weight. -/
theorem failsSame_overlap : FailsSame overMem 1 1 1 0 8 overHeap := by
  refine ⟨own_sameViews (by decide) ⟨rfl, rfl, rfl, rfl⟩ (by decide), ?_⟩
  intro h
  have h0 : (0 : Int) ∈ (⟨0, 1⟩ : Range) := ⟨by decide, by decide⟩
  obtain ⟨-, hsame⟩ := h.loops ⟨rfl, rfl, rfl, rfl, rfl⟩
  have hfour : (overMem .convOut).value ((convLoops denseSimd (overMem .paddingOut)
      (overMem .convOut) (overMem .conv2dKernel) (overMem .conv2dBias) 1 ⟨0, 8⟩ ⟨0, 1⟩ ⟨0, 1⟩
      (2 * 0 + 1) 1).run ((paddingLoops (overMem .paddingIn) (overMem .paddingOut) 0 1 1 1 1).run
        (sameCore overMem overHeap).machine).2).2.heap 0 0 4 0 = 4 := by
    decide +kernel
  have htwo : sameValue (fun _ _ _ _ => 2) (fun _ _ _ _ => 1) (fun _ _ _ _ => 0) 1 1 1 0 0 0 4 =
      (2 : ℚ) := by
    have hone : Finset.Ico (0 : Int) 1 = {0} := by decide
    simp [sameValue, extended, hone]
  have hvalue : (4 : ℚ) = sameValue (fun _ _ _ _ => 2) (fun _ _ _ _ => 1) (fun _ _ _ _ => 0) 1 1 1
      0 0 0 4 := hfour.symm.trans (hsame.value 0 h0 0 h0 4 ⟨by decide, by decide⟩)
  rw [htwo] at hvalue
  norm_num at hvalue

/-- Without channels the padded view is empty, and the first `getPtr` asserts. -/
theorem failsSame_empty : FailsSame (ownMem 1 1 0 1 4) 1 1 0 1 4 fun _ => .float 0 := by
  refine ⟨own_sameViews (by decide) ⟨rfl, rfl, rfl, rfl⟩ (by decide), ?_⟩
  intro h
  obtain ⟨⟨es, htrace, hasserts⟩, -⟩ := h.loops ⟨rfl, rfl, rfl, rfl, rfl⟩
  have hes : es = [.getPtr (ownMem 1 1 0 1 4 .paddingOut) 0 0 0 0] :=
    (List.append_nil es).symm.trans htrace.symm
  subst hes
  exact lt_irrefl (0 : Int) (hasserts _ List.mem_cons_self)

/-- The three ways in which the two operations are not the convolution. -/
theorem padding_conv_not_same : FailsSame (ownMem 1022 1022 1024 1 4) 1022 1022 1024 1 4 largeHeap ∧
    FailsSame overMem 1 1 1 0 8 overHeap ∧
    FailsSame (ownMem 1 1 0 1 4) 1 1 0 1 4 fun _ => .float 0 :=
  ⟨failsSame_large, failsSame_overlap, failsSame_empty⟩

end ModernArch.SimpleCNN
