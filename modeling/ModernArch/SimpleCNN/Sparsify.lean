import ModernArch.SimpleCNN.Main
import ModernArch.SimpleCNN.SparseDense

/-!
# Thresholds of the driver and cycles of the chip

A greater threshold zeroes more weights, a second one makes the first useless, and the chip never
takes more cycles for what was sent with the greater one. The value of a bit pattern is free, so
patterns that are no numbers may stand above every threshold.
-/

namespace ModernArch.SimpleCNN
open Framework Vdev Vdev.Driver
set_option linter.unusedSectionVars false

variable {N F : Type} [Field F] [FloatModel F] [LinearOrder F] [DecidableEq N]

section Host

variable {threshold t₁ t₂ : F} (weights : Nat → Bits) (len : Nat)

private theorem sparsify_apply (h : 0 ≤ threshold) (i : Nat) :
    sparsify weights len threshold i =
      if i < len ∧ |(FloatModel.ofBytes (weights i) : F)| < threshold then fun _ => 0
      else weights i := by
  rw [sparsify, if_neg (not_lt.mpr h)]
  -- entries from the loop index on are untouched
  have hloop := forRange_inv (fun k (w : Nat → Bits) => ∀ i, w i =
      if i < k ∧ |(FloatModel.ofBytes (weights i) : F)| < threshold then fun _ => 0 else weights i)
    len (fun i w => if |(FloatModel.ofBytes (w i) : F)| < threshold then
      Function.update w i fun _ => 0 else w)
    (by
      intro k _ w hw i
      have hk : w k = weights k := by rw [hw k, if_neg fun h => absurd h.1 (lt_irrefl k)]
      by_cases hik : i = k
      · subst hik
        by_cases hsmall : |(FloatModel.ofBytes (weights i) : F)| < threshold
        · simp [hk, hsmall]
        · simp [hk, hsmall]
      · have hlt : i < k + 1 ↔ i < k := by omega
        simp only [hk, hlt, ← hw i]
        split_ifs
        · rw [Function.update_of_ne hik]
        · rfl)
    weights (by simp)
  exact hloop i

private theorem ofBytes_sparsify_eq_zero (h : 0 ≤ threshold) (i : Nat) :
    (FloatModel.ofBytes (sparsify weights len threshold i) : F) = 0 ↔
      (i < len ∧ |(FloatModel.ofBytes (weights i) : F)| < threshold) ∨
        (FloatModel.ofBytes (weights i) : F) = 0 := by
  rw [sparsify_apply weights len h]
  split_ifs with hz
  · simp [hz, FloatModel.ofBytes_zero]
  · simp [hz]

variable (h₁ : 0 ≤ t₁) (h : t₁ ≤ t₂)

include h₁ h

private theorem sparsify_zero_mono {i : Nat}
    (hz : (FloatModel.ofBytes (sparsify weights len t₁ i) : F) = 0) :
    (FloatModel.ofBytes (sparsify weights len t₂ i) : F) = 0 := by
  rw [ofBytes_sparsify_eq_zero weights len (h₁.trans h)]
  rw [ofBytes_sparsify_eq_zero weights len h₁] at hz
  exact hz.imp_left fun hz => ⟨hz.1, hz.2.trans_le h⟩

private theorem sparsify_changed_mono {i : Nat} (hne : sparsify weights len t₁ i ≠ weights i) :
    sparsify weights len t₂ i ≠ weights i := by
  rw [sparsify_apply weights len h₁] at hne
  rw [sparsify_apply weights len (h₁.trans h)]
  split_ifs at hne with hz
  · rwa [if_pos ⟨hz.1, hz.2.trans_le h⟩]
  · exact absurd rfl hne

/-- The second threshold decides alone. -/
theorem sparsify_sparsify :
    sparsify (sparsify weights len t₁) len t₂ = sparsify weights len t₂ := by
  funext i
  rw [sparsify_apply _ len (h₁.trans h), sparsify_apply weights len (h₁.trans h),
    sparsify_apply weights len h₁]
  by_cases hz : i < len ∧ |(FloatModel.ofBytes (weights i) : F)| < t₁
  · rw [if_pos hz, ite_self, if_pos ⟨hz.1, hz.2.trans_le h⟩]
  · rw [if_neg hz]

end Host

private theorem zeroGroup_mono {w w' : Data F} (h : ∀ k, w.data k = 0 → w'.data k = 0) :
    zeroGroup w ≤ zeroGroup w' := by
  unfold zeroGroup
  by_cases hz : flagZero w = true
  · have hz' : flagZero w' = true := by
      simp only [flagZero, List.all_eq_true, List.mem_finRange, beq_iff_eq, true_implies] at hz ⊢
      exact fun k => h k (hz k)
    rw [if_pos hz, if_pos hz']
  · rw [if_neg hz]
    exact Nat.zero_le _

/-- Where the first tensor has a zero inside the shape, so has the second. -/
def ZerosIn (m : Memory N) (t t' : Tensor F) : Prop :=
  ∀ x y z w, m.InShape x y z w → t x y z w = 0 → t' x y z w = 0

section Zeros

variable {outMem weight : Memory N} {t t' : Tensor F} (h : ZerosIn weight t t')

include h

private theorem convZeros_mono {inChannelNum : Int} {outChannelRange outXRange outYRange : Range}
    {filterSize : Int}
    (hkeep : ConvKeeps outMem weight inChannelNum outChannelRange outXRange outYRange filterSize) :
    convZeros t inChannelNum outChannelRange outXRange outYRange filterSize ≤
      convZeros t' inChannelNum outChannelRange outXRange outYRange filterSize := by
  apply List.sum_le_sum
  intro outX _
  apply List.sum_le_sum
  intro outY _
  apply List.sum_le_sum
  intro outChannel hc
  apply List.sum_le_sum
  intro wX hX
  apply List.sum_le_sum
  intro wY hY
  apply List.sum_le_sum
  intro inChannel hi
  apply zeroGroup_mono
  intro k
  exact h _ _ _ _ (hkeep.inShape wX hX wY hY inChannel hi outChannel hc k)

private theorem fcZeros_mono {inDataLength : Int} {outRange : Range}
    (hkeep : FcKeeps outMem weight inDataLength outRange) :
    fcZeros t inDataLength outRange ≤ fcZeros t' inDataLength outRange := by
  apply List.sum_le_sum
  intro outIndex ho
  apply List.sum_le_sum
  intro inIndex hi
  apply zeroGroup_mono
  intro k hz
  by_cases hlive : LiveLane outRange.end_ outIndex k
  · simp only [if_pos hlive] at hz ⊢
    exact h _ _ _ _ (hkeep.inShape inIndex hi outIndex ho k hlive) hz
  · simp only [if_neg hlive]

end Zeros

/-- The sparse loops take no longer when the weights have more zeros, whatever else the two
memories hold. -/
theorem convLoops_sparse_mono (inMem bias : Memory N) {outMem weight : Memory N}
    {inChannelNum : Int} {outChannelRange outXRange outYRange : Range} {filterSize : Int}
    (hkeep : ConvKeeps outMem weight inChannelNum outChannelRange outXRange outYRange filterSize)
    (stride : Int) {m m' : Machine (Ptr N) (Word F) (Access N)}
    (h : ZerosIn weight (weight.value m.heap) (weight.value m'.heap)) :
    ((convLoops sparseSimd inMem outMem weight bias inChannelNum outChannelRange outXRange outYRange
      filterSize stride).run m').1 ≤
    ((convLoops sparseSimd inMem outMem weight bias inChannelNum outChannelRange outXRange outYRange
      filterSize stride).run m).1 := by
  have hcost := convLoops_sparse inMem bias hkeep stride m
  have hcost' := convLoops_sparse inMem bias hkeep stride m'
  have hzeros := convZeros_mono h hkeep
  omega

private theorem fcLoops_sparse_mono (inMem bias : Memory N) {outMem weight : Memory N}
    {inDataLength : Int} {outRange : Range} (hkeep : FcKeeps outMem weight inDataLength outRange)
    {m m' : Machine (Ptr N) (Word F) (Access N)}
    (h : ZerosIn weight (weight.value m.heap) (weight.value m'.heap)) :
    ((fcLoops sparseSimd inMem outMem weight bias inDataLength outRange).run m').1 ≤
    ((fcLoops sparseSimd inMem outMem weight bias inDataLength outRange).run m).1 := by
  have hcost := fcLoops_sparse inMem bias hkeep m
  have hcost' := fcLoops_sparse inMem bias hkeep m'
  have hzeros := fcZeros_mono h hkeep
  omega

/-- The floats of a view that is filled with bit patterns. -/
def tensorOf (m : Memory N) (weights : Nat → Bits) : Tensor F :=
  fun x y z w => FloatModel.ofBytes (weights (m.index x y z w).toNat)

/-- Two thresholds on one tensor, each in a memory of its own. -/
theorem zerosIn_sparsify {weight : Memory N} {h h' : Heap N F} {t₁ t₂ : F} (h₁ : 0 ≤ t₁)
    (hle : t₁ ≤ t₂) {weights : Nat → Bits} {len : Nat}
    (hw : weight.Holds h (tensorOf weight (sparsify weights len t₁)))
    (hw' : weight.Holds h' (tensorOf weight (sparsify weights len t₂))) :
    ZerosIn weight (weight.value h) (weight.value h') := by
  intro x y z w hin hz
  rw [hw _ _ _ _ hin] at hz
  rw [hw' _ _ _ _ hin]
  exact sparsify_zero_mono weights len h₁ hle hz

/-- Float `i` of a block. -/
def blockWord (b : Block) (i : Nat) : Bits := fun k => b.byte (4 * i + k)

private theorem blockWord_floatBlock (weights : Nat → Bits) (size i : Nat) :
    blockWord (floatBlock weights size) i = weights i := by
  funext k
  have hk := k.isLt
  have hdiv : (4 * i + k.val) / 4 = i := by omega
  have hlane : lane (4 * i + k.val) = k := Fin.ext (by simp only [lane]; omega)
  simp only [blockWord, floatBlock, hdiv, hlane]

private theorem readTensors_zeros {t₁ t₂ : F} (h₁ : 0 ≤ t₁) (hle : t₁ ≤ t₂) (file : Nat → Bits)
    (pos : Nat)
    (ts : List ModelTensor) : ∀ p ∈ readTensors t₁ file pos ts, ∃ q ∈ readTensors t₂ file pos ts,
      q.1 = p.1 ∧ ∀ i, (FloatModel.ofBytes (blockWord p.2 i) : F) = 0 →
        (FloatModel.ofBytes (blockWord q.2 i) : F) = 0 := by
  induction ts generalizing pos with
  | nil => simp [readTensors]
  | cons t ts ih =>
      intro p hp
      rcases List.mem_cons.mp hp with rfl | hp
      · refine ⟨_, List.mem_cons_self, rfl, fun i hz => ?_⟩
        simp only [blockWord_floatBlock] at hz ⊢
        cases hsparse : t.sparse with
        | false => simpa [hsparse] using hz
        | true =>
            simp only [hsparse, if_true] at hz ⊢
            exact sparsify_zero_mono _ _ h₁ hle hz
      · obtain ⟨q, hq, hname, hzeros⟩ := ih _ p hp
        exact ⟨q, List.mem_cons_of_mem _ hq, hname, hzeros⟩

/-- The heap after the load phase. -/
def loadedHeap (heap : Heap MemName F) (threshold : F) (file : Nat → Bits) : Heap MemName F :=
  sendAll AIChip.mem3 heap 0 ((sent threshold file).map Prod.snd)

theorem sent_names (threshold : F) (file : Nat → Bits) :
    (sent threshold file).map Prod.fst = weightNames :=
  readTensors_fst threshold file 0 modelTensors

theorem weightsIn_loaded (heap : Heap MemName F) (threshold : F) (file : Nat → Bits) :
    ∀ p ∈ sent threshold file, ∀ x y z w, (view aliased p.1).InShape x y z w →
      weightsIn (loadedHeap heap threshold file) p.1 x y z w =
        FloatModel.ofBytes (blockWord p.2 ((view aliased p.1).index x y z w).toNat) := by
  intro p hp x y z w hin
  have hlaid : Laid AIChip.mem3 0 (((sent threshold file).map fun p => view aliased p.1) ++ []) := by
    have hviews : ((sent threshold file).map fun p => view aliased p.1) =
        weightNames.map (view aliased) := by
      rw [← sent_names threshold file, List.map_map]
      rfl
    rw [List.append_nil, hviews]
    decide
  have hsize : ∀ p ∈ sent threshold file,
      (p.2.size : Int) = (view aliased p.1).byteLen := by
    intro p hp
    obtain ⟨t, ht, hname, hsize⟩ := readTensors_size threshold file 0 modelTensors p hp
    rw [hname, hsize]
    exact modelTensors_size t ht
  obtain ⟨hlow, hhigh⟩ := Memory.index_bounds hin
  have hfit : 4 * ((view aliased p.1).index x y z w).toNat + 4 ≤ p.2.size := by
    have hp' := hsize p hp
    simp only [Memory.byteLen] at hp'
    omega
  have hword := @Laid.words _ _ _ _ _ _ _ _ _ _ hlaid [] rfl hsize heap p hp _ hfit
  rw [Int.toNat_of_nonneg hlow] at hword
  exact congrArg Word.toFloat hword

/-- Every weight view has the zeros of the first tensor in the second. -/
def MoreZeros (weights weights' : MemName → Tensor F) : Prop :=
  ∀ w ∈ weightNames, ZerosIn (view aliased w) (weights w) (weights' w)

private theorem loaded_moreZeros {t₁ t₂ : F} (h₁ : 0 ≤ t₁) (hle : t₁ ≤ t₂) (file : Nat → Bits)
    (heap₁ heap₂ : Heap MemName F) : MoreZeros (weightsIn (loadedHeap heap₁ t₁ file))
      (weightsIn (loadedHeap heap₂ t₂ file)) := by
  intro w hw x y z v hin hz
  rw [← sent_names t₁ file] at hw
  obtain ⟨p, hp, rfl⟩ := List.mem_map.mp hw
  obtain ⟨q, hq, hname, hzeros⟩ := readTensors_zeros h₁ hle file 0 modelTensors p hp
  have hvalue := weightsIn_loaded heap₂ t₂ file q hq x y z v (hname ▸ hin)
  rw [hname] at hvalue
  rw [weightsIn_loaded heap₁ t₁ file p hp x y z v hin] at hz
  rw [hvalue]
  exact hzeros _ hz

private theorem zeroGroups_mono {weights weights' : MemName → Tensor F}
    (h : MoreZeros weights weights')
    (counter : UInt8) : zeroGroups weights counter ≤ zeroGroups weights' counter := by
  have hshape := view_hasShape aliased
  unfold zeroGroups
  split
  · exact convZeros_mono (h .conv2dKernel (by decide)) (convKeeps_of_shape (by decide)
      (hshape .conv2dKernel) (show (view aliased .convOut).data.buf ≠ _ by decide))
  · exact convZeros_mono (h .conv2d1Kernel (by decide)) (convKeeps_of_shape (by decide)
      (hshape .conv2d1Kernel) (show (view aliased .conv1Out).data.buf ≠ _ by decide))
  · exact fcZeros_mono (h .denseKernel (by decide)) (fcKeeps_of_shape (by decide)
      ⟨by decide, rfl, rfl, rfl⟩ (show (view aliased .denseOut).data.buf ≠ _ by decide))
  · exact fcZeros_mono (h .dense1Kernel (by decide)) (fcKeeps_of_shape (by decide)
      (hshape .dense1Kernel) (show (view aliased .dense1Out).data.buf ≠ _ by decide))
  · exact le_rfl

private theorem stageCycles_anti {zeros zeros' : UInt8 → Nat} (counter : UInt8)
    (h : zeros counter ≤ zeros' counter) :
    stageCycles zeros' counter ≤ stageCycles zeros counter := by
  unfold stageCycles
  split
  all_goals first | exact le_rfl | skip
  exact Nat.div_le_div_right (Nat.sub_le_sub_left h _)

private theorem stageCycles_congr {zeros zeros' : UInt8 → Nat} {counter : UInt8}
    (h : zeros counter = zeros' counter) :
    stageCycles zeros counter = stageCycles zeros' counter :=
  le_antisymm (stageCycles_anti counter h.ge) (stageCycles_anti counter h.le)

/-- Loaded weights have the zeros of the heap. -/
theorem Loaded.zeroGroups_eq {weights : MemName → Tensor F} {core : Core F}
    (h : Loaded aliased weights core) (counter : UInt8) :
    zeroGroups (weightsIn core.machine.heap) counter = zeroGroups weights counter := by
  apply le_antisymm
  · exact zeroGroups_mono (fun w hw x y z v hin hz =>
      (h.weights w hw x y z v hin).symm.trans hz) counter
  · exact zeroGroups_mono (fun w hw x y z v hin hz =>
      (h.weights w hw x y z v hin).trans hz) counter

private theorem stage_keeps (u : Simd F) (hu : u.Exact) {weights : MemName → Tensor F}
    {core : Core F} (h : Loaded aliased weights core) (counter : UInt8) :
    ∃ r core', (AIChip.stage u counter).run core = some (r, core') ∧
      Loaded aliased weights core' := by
  obtain ⟨n, hn, rfl⟩ : ∃ n < 256, counter = UInt8.ofNat n :=
    ⟨counter.toNat, counter.toNat_lt, UInt8.ofNat_toNat.symm⟩
  have hcomputes {k : Nat} {t : Tensor F} (hk : k < 9)
      (hstage : StageComputes u aliased (k + 1) t core) : ∃ r core',
      (AIChip.stage u (UInt8.ofNat (k + 1))).run core = some (r, core') ∧
        Loaded aliased weights core' := by
    obtain ⟨cycles, m', hrun, hc⟩ := hstage
    exact ⟨_, _, hrun, (h.of_computes aliased_separated hk hc).toLoaded⟩
  match n with
  | 0 =>
      obtain ⟨m', hrun, hheap, -⟩ := stage_init u h.hub
      exact ⟨_, _, hrun, h.of_heap rfl fun w _ p _ => congrFun hheap p⟩
  | 1 => exact hcomputes (by decide) (stage_input u aliased_separated h fun k _ => rfl)
  | k + 2 =>
      by_cases hk : k < 8
      · exact hcomputes (by omega) (stage_layer u hu aliased_separated hk
          ⟨h, fun _ _ _ _ _ => rfl⟩)
      · by_cases hlast : k = 8
        · subst hlast
          have hready : Ready aliased weights 9 ((view aliased (dest 9)).value core.machine.heap)
              core := ⟨h, fun _ _ _ _ _ => rfl⟩
          obtain ⟨m', hrun, hheap, -⟩ := stage_output u hready
          refine ⟨_, _, hrun, h.of_heap rfl fun w hw p hp => ?_⟩
          simp only [hheap]
          apply writeByte_other
          intro he
          exact (aliased_separated.host w hw).1 (hp.symm.trans (congrArg Ptr.buf he))
        · have hne (j : UInt8) (hj : j.toNat ≤ 10) : UInt8.ofNat (k + 2) ≠ j := by
            intro he
            have hnat := congrArg UInt8.toNat he
            rw [UInt8.toNat_ofNat_of_lt' hn] at hnat
            omega
          refine ⟨(0, false), core, ?_, h⟩
          unfold AIChip.stage
          split
          all_goals first | rfl | exact absurd ‹_› (hne _ (by decide))

theorem stage_returns (u : Simd F) (hu : u.Exact) {core : Core F}
    (hs : Serves aliased core.memhub) (counter : UInt8) : ∃ r core',
      (AIChip.stage u counter).run core = some (r, core') ∧
        Loaded aliased (weightsIn core.machine.heap) core' :=
  stage_keeps u hu ⟨hs, fun _ _ _ _ _ _ _ => rfl⟩ counter

theorem stage_cycles {weights : MemName → Tensor F} {core : Core F}
    (h : Loaded aliased weights core) (counter : UInt8) : ∃ done core',
      (AIChip.stage sparseSimd counter).run core =
        some ((stageCycles (zeroGroups weights) counter, done), core') ∧
      Loaded aliased weights core' := by
  obtain ⟨done, core₁, hcycles⟩ := stage_sparse h.hub counter
  obtain ⟨r, core', hrun, hloaded⟩ := stage_keeps sparseSimd sparseSimd_exact h counter
  obtain rfl : core₁ = core' := congrArg Prod.snd (Option.some.inj (hcycles.symm.trans hrun))
  rw [stageCycles_congr (h.zeroGroups_eq counter)] at hcycles
  exact ⟨done, core₁, hcycles, hloaded⟩

/-- The cycles of the stage that a call runs. -/
def callCycles (u : Simd F) : Call → AIChip (Core F) → Option (List Nat)
  | .periInit counter, chip =>
      ((AIChip.stage u counter).run chip.core).map fun r => [r.1.1]
  | _, _ => some []

/-- The cycles of the stages that a list of calls runs, in order. -/
def cyclesAll (u : Simd F) : List Call → AIChip (Core F) → Option (List Nat)
  | [], _ => some []
  | c :: cs, chip => do
      let own ← callCycles u c chip
      let rest ← cyclesAll u cs (← c.apply (AIChip.ops u) chip)
      return own ++ rest

/-- Calls that leave the weights alone. -/
def SparesWeights : Call → Prop
  | .periWrite offset _ _ => (window offset).1 ≠ .mem3
  | _ => True

/-- The counters that calls run. -/
def counters : List Call → List UInt8
  | [] => []
  | .periInit counter :: cs => counter :: counters cs
  | _ :: cs => counters cs

private theorem cyclesAll_eq {weights : MemName → Tensor F} (cs : List Call)
    (hcs : ∀ c ∈ cs, SparesWeights c) {chip : AIChip (Core F)}
    (h : Loaded aliased weights chip.core) :
    cyclesAll sparseSimd cs chip = some ((counters cs).map (stageCycles (zeroGroups weights))) := by
  induction cs generalizing chip with
  | nil => rfl
  | cons c cs ih =>
      have hrest (chip : AIChip (Core F)) (h : Loaded aliased weights chip.core) :=
        ih (fun c hc => hcs c (List.mem_cons_of_mem _ hc)) h
      have hc := hcs c List.mem_cons_self
      cases c with
      | periInit counter =>
          obtain ⟨done, core', hrun, hloaded⟩ := stage_cycles h counter
          have happly : (Call.periInit counter).apply (AIChip.ops sparseSimd) chip =
              some { chip with counter, finished := done, core := core' } := by
            rw [Call.apply, AIChip.runCounter_of_stage (AIChip.ops sparseSimd) hrun]
            rfl
          simp only [cyclesAll, callCycles, hrun, happly, Option.map_some, Option.bind_eq_bind,
            Option.bind_some, hrest { chip with counter, finished := done, core := core' } hloaded]
          rfl
      | periWrite offset src len =>
          have hbuf : ∀ w ∈ weightNames, (aliased w).buf ≠
              (AIChip.dataMem (window offset).1).buf := by
            cases hd : (window offset).1 with
            | mem1 => exact fun w hw => (aliased_separated.host w hw).1
            | mem2 => exact fun w hw => (aliased_separated.host w hw).2
            | mem3 => exact absurd hd hc
          have hloaded : Loaded aliased weights ((AIChip.ops sparseSimd).writeMem (window offset).1
              (window offset).2 len src chip.core) :=
            h.of_heap rfl fun w hw p hp =>
              memcpy_other_buf _ _ _ _ _ _ fun he => hbuf w hw (hp.symm.trans he)
          simp only [cyclesAll, callCycles, Call.apply, Option.bind_eq_bind, Option.bind_some,
            hrest { chip with core := _ } hloaded]
          rfl
      | periRead offset len =>
          simp only [cyclesAll, callCycles, Call.apply, Option.bind_eq_bind, Option.bind_some,
            hrest chip h]
          rfl
      | periIsFinished =>
          simp only [cyclesAll, callCycles, Call.apply, Option.bind_eq_bind, Option.bind_some,
            hrest chip h]
          rfl

/-! ## Two thresholds -/

/-- Of two cores the second returns, with no more cycles than the first. -/
def NoSlower (op : CoreM F (BitVec 32)) (core₁ core₂ : Core F) : Prop :=
  ∃ c₁ core₁' c₂ core₂', op.run core₁ = some (c₁, core₁') ∧ op.run core₂ = some (c₂, core₂') ∧
    c₂.toInt ≤ c₁.toInt

/-- The greater threshold zeroes more entries and makes the smaller one useless; `op_conv` and
`op_fc` on weights cut with it take no more cycles, as long as the counter of the first call does
not overflow, and neither does any stage of the chip after the load phase. -/
theorem sparsify_monotone {t₁ t₂ : F} (h₁ : 0 ≤ t₁) (hle : t₁ ≤ t₂) :
    (∀ (weights : Nat → Bits) (len : Nat),
      (∀ i, sparsify weights len t₁ i ≠ weights i → sparsify weights len t₂ i ≠ weights i) ∧
      (∀ i, (FloatModel.ofBytes (sparsify weights len t₁ i) : F) = 0 →
        (FloatModel.ofBytes (sparsify weights len t₂ i) : F) = 0) ∧
      sparsify (sparsify weights len t₁) len t₂ = sparsify weights len t₂) ∧
    (∀ (inMemName outMemName weightMemName biasMemName : MemName)
      (inMem outMem weight bias : Memory MemName) (weights : Nat → Bits) (len : Nat)
      (core₁ core₂ : Core F),
      FcHub core₁.memhub inMemName outMemName weightMemName biasMemName inMem outMem weight bias →
      FcHub core₂.memhub inMemName outMemName weightMemName biasMemName inMem outMem weight bias →
      weight.Holds core₁.machine.heap (tensorOf weight (sparsify weights len t₁)) →
      weight.Holds core₂.machine.heap (tensorOf weight (sparsify weights len t₂)) →
      (∀ (inChannelNum : Int) (outChannelRange outXRange outYRange : Range)
        (filterSize stride : Int),
        ConvKeeps outMem weight inChannelNum outChannelRange outXRange outYRange filterSize →
        ((convLoops sparseSimd inMem outMem weight bias inChannelNum outChannelRange outXRange
          outYRange filterSize stride).run core₁.machine).1 < 2 ^ 31 →
        NoSlower (Core.opConv sparseSimd inMemName outMemName weightMemName biasMemName inChannelNum
          outChannelRange outXRange outYRange filterSize stride) core₁ core₂) ∧
      ∀ (inDataLength : Int) (outRange : Range), FcKeeps outMem weight inDataLength outRange →
        ((fcLoops sparseSimd inMem outMem weight bias inDataLength outRange).run
          core₁.machine).1 < 2 ^ 31 →
        NoSlower (Core.opFc sparseSimd inMemName outMemName weightMemName biasMemName inDataLength
          outRange) core₁ core₂) ∧
    ∀ (tickPerCycle : Nat) (heap₁ heap₂ : Heap MemName F) (file : Nat → Bits),
      ∃ chip₁ chip₂, applyAll (AIChip.ops sparseSimd) (loadCalls t₁ file)
          (AIChip.new tickPerCycle heap₁) = some chip₁ ∧
        applyAll (AIChip.ops sparseSimd) (loadCalls t₂ file) (AIChip.new tickPerCycle heap₂) =
          some chip₂ ∧
        ∀ cs : List Call, (∀ c ∈ cs, SparesWeights c) → ∃ ns₁ ns₂,
          cyclesAll sparseSimd cs chip₁ = some ns₁ ∧ cyclesAll sparseSimd cs chip₂ = some ns₂ ∧
          List.Forall₂ (· ≤ ·) ns₂ ns₁ := by
  refine ⟨?_, ?_, ?_⟩
  · intro weights len
    exact ⟨fun i => sparsify_changed_mono weights len h₁ hle,
      fun i => sparsify_zero_mono weights len h₁ hle, sparsify_sparsify weights len h₁ hle⟩
  · intro i o w b inMem outMem weight bias weights len core₁ core₂ hh₁ hh₂ hw₁ hw₂
    have hzeros := zerosIn_sparsify h₁ hle hw₁ hw₂
    constructor
    · intro n rc rx ry f st hkeep hlt
      exact ⟨_, _, _, _, opConv_eq sparseSimd hh₁ n rc rx ry f st,
        opConv_eq sparseSimd hh₂ n rc rx ry f st,
        toInt_intCycles_mono (convLoops_sparse_mono inMem bias hkeep st hzeros) hlt⟩
    · intro n ro hkeep hlt
      exact ⟨_, _, _, _, opFc_eq sparseSimd hh₁, opFc_eq sparseSimd hh₂,
        toInt_intCycles_mono (fcLoops_sparse_mono inMem bias hkeep hzeros) hlt⟩
  · intro tickPerCycle heap₁ heap₂ file
    refine ⟨_, _, apply_load sparseSimd tickPerCycle heap₁ t₁ file,
      apply_load sparseSimd tickPerCycle heap₂ t₂ file, ?_⟩
    intro cs hcs
    have hloaded (heap : Heap MemName F) (t : F) : Loaded aliased
        (weightsIn (loadedHeap heap t file)) ({ initCore heap with
          machine.heap := loadedHeap heap t file } : Core F) :=
      ⟨aliasedHub_serves, fun _ _ _ _ _ _ _ => rfl⟩
    refine ⟨_, _, cyclesAll_eq cs hcs (hloaded heap₁ t₁), cyclesAll_eq cs hcs (hloaded heap₂ t₂),
      ?_⟩
    rw [List.forall₂_map_left_iff, List.forall₂_map_right_iff, List.forall₂_same]
    intro counter _
    exact stageCycles_anti counter
      (zeroGroups_mono (loaded_moreZeros h₁ hle file heap₁ heap₂) counter)

/-- A view that holds one number everywhere holds what a threshold leaves of it. -/
theorem holds_cut {m : Memory N} {h : Heap N F} {bits : Bits} {t : F} (ht : 0 ≤ t) {len : Nat}
    (hlen : m.wzyxLen ≤ len) {v : F} (hvalue : ∀ x y z w, m.value h x y z w = v)
    (hcut : v = if |(FloatModel.ofBytes bits : F)| < t then 0 else FloatModel.ofBytes bits) :
    m.Holds h (tensorOf m (sparsify (fun _ => bits) len t)) := by
  intro x y z w hin
  obtain ⟨h0, hlt⟩ := Memory.index_bounds hin
  have hi : (m.index x y z w).toNat < len := by omega
  rw [hvalue, hcut, tensorOf, sparsify_apply _ len ht]
  simp only [hi, true_and]
  split_ifs
  · exact FloatModel.ofBytes_zero.symm
  · rfl

/-- The bits of a quarter. -/
def quarterBits : Bits := ![0, 0, 128, 62]

/-- A core with `op_init` done, over one number. -/
def evenCore (v : ℚ) : Core ℚ := initCore fun _ => .float v

private theorem evenCore_fcHub (v : ℚ) (i o w b : MemName) : FcHub (evenCore v).memhub i o w b
    (view aliased i) (view aliased o) (view aliased w) (view aliased b) :=
  ⟨aliasedHub_serves i, aliasedHub_serves o, aliasedHub_serves w, aliasedHub_serves b⟩

/-- An eighth leaves weights of a quarter and a half cuts them. -/
theorem sparsify_monotone_zero :
    NoSlower (Core.opConv sparseSimd .paddingOut .convOut .conv2dKernel .conv2dBias 1 ⟨0, 32⟩
      ⟨0, 28⟩ ⟨0, 28⟩ 5 1) (evenCore (1 / 4)) (evenCore 0) ∧
    NoSlower (Core.opFc sparseSimd .denseOut .dense1Out .dense1Kernel .dense1Bias 512 ⟨0, 10⟩)
      (evenCore (1 / 4)) (evenCore 0) ∧
    sparsify (sparsify (fun _ => quarterBits) 4 (1 / 8 : ℚ)) 4 (1 / 2 : ℚ) =
      sparsify (fun _ => quarterBits) 4 (1 / 2 : ℚ) := by
  have h₁ : (0 : ℚ) ≤ 1 / 8 := by norm_num
  have hmono := sparsify_monotone h₁ (show (1 / 8 : ℚ) ≤ 1 / 2 by norm_num)
  have hbits : (FloatModel.ofBytes quarterBits : ℚ) = 1 / 4 := by decide +kernel
  have habs : |(1 / 4 : ℚ)| = 1 / 4 := abs_of_pos (by norm_num)
  have hops (i o w b : MemName) (len : Nat) (hlen : (view aliased w).wzyxLen ≤ len) :=
    hmono.2.1 i o w b _ _ _ _ (fun _ => quarterBits) len (evenCore (1 / 4)) (evenCore 0)
      (evenCore_fcHub _ i o w b) (evenCore_fcHub _ i o w b)
      (holds_cut (v := 1 / 4) h₁ hlen (fun _ _ _ _ => rfl) (by rw [hbits, habs]; norm_num))
      (holds_cut (v := 0) (by norm_num) hlen (fun _ _ _ _ => rfl) (by rw [hbits, habs]; norm_num))
  have hcount (i o w b : MemName) (counter : UInt8) : ((stageLoops sparseSimd (view aliased i)
      (view aliased o) (view aliased w) (view aliased b) counter).run
        (evenCore (1 / 4)).machine).1 < 2 ^ 31 := by
    have hle := stageLoops_sparse (view aliased i) (view aliased o) (view aliased w)
      (view aliased b) counter (evenCore (1 / 4)).machine
    have hcounted := counted_le counter
    rw [stageLoops_dense] at hle
    omega
  refine ⟨?_, ?_, (hmono.1 (fun _ => quarterBits) 4).2.2⟩
  · exact (hops _ _ .conv2dKernel _ 800 (by decide)).1 _ _ _ _ _ _ (convKeeps_of_shape (by decide)
      (view_hasShape aliased .conv2dKernel) (by decide)) (hcount _ _ _ _ 3)
  · exact (hops _ _ .dense1Kernel _ 5120 (by decide)).2 _ _ (fcKeeps_of_shape (by decide)
      (view_hasShape aliased .dense1Kernel) (by decide)) (hcount _ _ _ _ 9)

/-- The bits of one. -/
def oneBits : Bits := ![0, 0, 128, 63]

/-- One tensor cut with two thresholds, in the weights of two cores, on which a call keeps to the
shapes and takes `n₁` and `n₂` cycles. -/
structure CutCycles (weight : Memory MemName) (weights : Nat → Bits) (len : Nat) (t₁ t₂ : ℚ)
    (op : CoreM ℚ (BitVec 32)) (core₁ core₂ : Core ℚ) (n₁ n₂ : Int) : Prop where
  first : weight.Holds core₁.machine.heap (tensorOf weight (sparsify weights len t₁))
  second : weight.Holds core₂.machine.heap (tensorOf weight (sparsify weights len t₂))
  cycles : ∃ c₁ core₁' c₂ core₂', op.run core₁ = some (c₁, core₁') ∧
    op.run core₂ = some (c₂, core₂') ∧ Extends Access.Asserts core₁.machine core₁'.machine ∧
    Extends Access.Asserts core₂.machine core₂'.machine ∧ c₁.toInt = n₁ ∧ c₂.toInt = n₂

private theorem cutCycles_wide : CutCycles (wideMem .conv2dKernel) (fun _ => oneBits) 1048576 0 2
    (wideConv sparseSimd) (wideCore 1) (wideCore 0) (-33488896) 65536 := by
  have hbits : (FloatModel.ofBytes oneBits : ℚ) = 1 := by decide +kernel
  have hlen : (wideMem .conv2dKernel).wzyxLen ≤ (1048576 : Nat) := by decide
  constructor
  · exact holds_cut (v := 1) le_rfl hlen (fun _ _ _ _ => rfl) (by rw [hbits]; norm_num)
  · exact holds_cut (v := 0) (by norm_num) hlen (fun _ _ _ _ => rfl) (by rw [hbits]; norm_num)
  · obtain ⟨core₁, hone, hasserts₁⟩ := wide_returns sparseSimd_exact 1 (wide_sparse 1)
    obtain ⟨core₂, hzero, hasserts₂⟩ := wide_returns sparseSimd_exact 0 (wide_sparse 0)
    rw [if_neg one_ne_zero] at hone
    rw [if_pos rfl] at hzero
    exact ⟨_, core₁, _, core₂, hone, hzero, hasserts₁, hasserts₂, toInt_wide⟩

/-- 22 positions of one channel, whose outputs begin on the four weights. -/
def rowMem : MemName → Memory MemName
  | .paddingOut => ⟨⟨.paddingOut, 0⟩, 22, 1, 1, 1⟩
  | .convOut => ⟨⟨.conv2dKernel, 0⟩, 22, 1, 4, 1⟩
  | .conv2dKernel => ⟨⟨.conv2dKernel, 0⟩, 1, 1, 1, 4⟩
  | name => ⟨⟨name, 0⟩, 4, 1, 1, 1⟩

/-- The bits of minus two, and of minus one. -/
def minusTwoBits : Bits := ![0, 0, 0, 192]

def minusOneBits : Bits := ![0, 0, 128, 191]

def rowBits (i : Nat) : Bits := if i = 0 then minusTwoBits else minusOneBits

/-- A weight of minus two and three of `w`; the inputs and the biases are one. -/
def rowCore (w : ℚ) : Core ℚ where
  memhub := ⟨fun name => some (rowMem name)⟩
  machine :=
    ⟨fun p => .float (if p.buf ≠ .conv2dKernel then 1 else if p.off = 0 then -2 else w), []⟩

def rowConv : CoreM ℚ (BitVec 32) :=
  Core.opConv sparseSimd .paddingOut .convOut .conv2dKernel .conv2dBias 1 ⟨0, 4⟩ ⟨0, 22⟩ ⟨0, 1⟩ 1 1

private theorem row_fcHub (w : ℚ) : FcHub (rowCore w).memhub .paddingOut .convOut .conv2dKernel
    .conv2dBias (rowMem .paddingOut) (rowMem .convOut) (rowMem .conv2dKernel)
    (rowMem .conv2dBias) := ⟨rfl, rfl, rfl, rfl⟩

def rowLoops : Exec MemName ℚ Nat :=
  convLoops sparseSimd (rowMem .paddingOut) (rowMem .convOut) (rowMem .conv2dKernel)
    (rowMem .conv2dBias) 1 ⟨0, 4⟩ ⟨0, 22⟩ ⟨0, 1⟩ 1 1

private theorem row_returns (w : ℚ) {n : Nat} (hn : (rowLoops.run (rowCore w).machine).1 = n)
    (hasserts : ∀ e ∈ (rowLoops.run (rowCore w).machine).2.trace, e.Asserts) :
    ∃ core', rowConv.run (rowCore w) = some (intCycles n, core') ∧
      Extends Access.Asserts (rowCore w).machine core'.machine := by
  have hempty : (rowCore w).machine.trace = [] := rfl
  have hextends : Extends Access.Asserts (rowCore w).machine
      (rowLoops.run (rowCore w).machine).2 := by
    refine ⟨(rowLoops.run (rowCore w).machine).2.trace, ?_, hasserts⟩
    rw [hempty, List.append_nil]
  exact opConv_returns (row_fcHub w) hn hextends

private theorem holds_row {w t : ℚ} (hcut : ∀ k : Fin 4, (rowMem .conv2dKernel).value
    (rowCore w).machine.heap 0 0 0 k = tensorOf (rowMem .conv2dKernel) (sparsify rowBits 4 t) 0 0 0 k) :
    (rowMem .conv2dKernel).Holds (rowCore w).machine.heap
      (tensorOf (rowMem .conv2dKernel) (sparsify rowBits 4 t)) := by
  intro x y z k hin
  obtain ⟨hx, hy, hz, hk⟩ := hin
  simp only [rowMem] at hx hy hz hk
  obtain rfl : x = 0 := by omega
  obtain rfl : y = 0 := by omega
  obtain rfl : z = 0 := by omega
  obtain ⟨k, rfl⟩ := Int.eq_ofNat_of_zero_le hk.1
  exact hcut ⟨k, by omega⟩

/-- The outputs of the first position are zero with the weights as they are, and the later ones
skip them. With the three weights cut they are not. -/
private theorem cutCycles_row : CutCycles (rowMem .conv2dKernel) rowBits 4 0 (3 / 2) rowConv
    (rowCore (-1)) (rowCore 0) 0 1 := by
  constructor
  · exact holds_row (by decide +kernel)
  · exact holds_row (by decide +kernel)
  · obtain ⟨core₁, hfull, hasserts₁⟩ := row_returns (-1) (n := 45) (by decide +kernel)
      (by decide +kernel)
    obtain ⟨core₂, hcut, hasserts₂⟩ := row_returns 0 (n := 66) (by decide +kernel)
      (by decide +kernel)
    exact ⟨_, core₁, _, core₂, hfull, hcut, hasserts₁, hasserts₂, rfl, rfl⟩

/-- The two ways in which the greater threshold makes a call slower: a threshold of zero leaves
weights of one, whose count overflows, and a threshold of two cuts them; and weights that are
overwritten by outputs, which are zero as long as none of them is cut. -/
theorem sparsify_slower :
    CutCycles (wideMem .conv2dKernel) (fun _ => oneBits) 1048576 0 2 (wideConv sparseSimd)
      (wideCore 1) (wideCore 0) (-33488896) 65536 ∧
    CutCycles (rowMem .conv2dKernel) rowBits 4 0 (3 / 2) rowConv (rowCore (-1)) (rowCore 0) 0 1 :=
  ⟨cutCycles_wide, cutCycles_row⟩

end ModernArch.SimpleCNN
