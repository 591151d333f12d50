import ModernArch.BinNet.Views

/-!
# One image on the BinNet chip

What each counter leaves in the two activation buffers, for stale contents of any kind. A stage
speaks only of the bytes and floats at the rows of the layer just computed.
-/

namespace ModernArch.BinNet
open Framework Vdev
set_option linter.unusedSectionVars false

variable {F N : Type} [Field F] [FloatModel F] [LinearOrder F]

section Buffers

variable [DecidableEq N] {bytes floats : Ptr N} (hbuf : bytes.buf ≠ floats.buf) (h : Heap N F)

include hbuf

private theorem inputLoop_eq : inputLoop floats bytes h =
    memcpy h bytes 0 (fun i => if 0 < readByte h floats i then 1 else 0) 784 := by
  apply forRange_writeByte
  intro i h' hkeep
  rw [readByte, hkeep (floats.wordOf i) hbuf.symm]
  rfl

private theorem inputLoop_live {image : Nat → UInt8}
    (himage : ∀ j < 784, readByte h floats j = image j) {j : Nat} (hj : j < 784) :
    ((int8At (inputLoop floats bytes h) bytes j).toInt : F) = pixel image j := by
  rw [inputLoop_eq hbuf, int8At, readByte_memcpy, if_pos ⟨Nat.zero_le j, by omega⟩, Nat.sub_zero,
    himage j hj]
  unfold pixel
  split <;> simp

private theorem calculate_live {a : RramArray F} {row n col m : Nat} (ha : a.Placed row n col m)
    (hrow : row + n ≤ 1024) {x : Nat → F}
    (hx : ∀ j < m, ((int8At h bytes (col + j)).toInt : F) = x j) {i : Nat} (hi : i < n) :
    (a.calculate bytes floats h (floats.add (row + i : Nat))).toFloat =
      (a.layer row col).output m x i := by
  have hcell := (calculateRows_spec a.rowOutput hbuf h).1 (row + i) (by omega)
  rw [RramArray.calculate, hcell, Word.toFloat_float]
  exact RramArray.rowOutput_placed ha hx hi

theorem sign_live {x : Nat → F} {row n : Nat} (hrow : row + n ≤ 1024)
    (hx : ∀ i < n, (h (floats.add (row + i : Nat))).toFloat = x i) {i : Nat} (hi : i < n) :
    ((int8At (sign floats bytes h) bytes (row + i)).toInt : F) = signValue (x i) := by
  rw [sign_eq hbuf.symm, int8At, readByte_memcpy, if_pos ⟨Nat.zero_le _, by omega⟩, Nat.sub_zero,
    hx i hi]
  exact signInt8_toInt (x i)

end Buffers

/-- The array each product uses, from the weights in `base`. -/
def arrayUsed (base : Heap MemName F) (chip : Chip F) : FcName → RramArray F :=
  let fc1 := if !chip.loadOnce || !chip.weightLoaded then Core.loadedArray base .fc1 chip.array
    else chip.array
  let fc2 := if !chip.loadOnce then Core.loadedArray base .fc2 fc1 else fc1
  let fc3 := if !chip.loadOnce then Core.loadedArray base .fc3 fc2 else fc2
  fun
    | .fc1 => fc1
    | .fc2 => fc2
    | .fc3 => fc3

/-- The network these arrays compute. -/
def classifierOf (used : FcName → RramArray F) : Classifier F where
  fc1 := (used .fc1).layer (FcName.rowBias .fc1) (FcName.colBias .fc1)
  fc2 := (used .fc2).layer (FcName.rowBias .fc2) (FcName.colBias .fc2)
  fc3 := (used .fc3).layer (FcName.rowBias .fc3) (FcName.colBias .fc3)

def AllPlaced (used : FcName → RramArray F) : Prop :=
  ∀ fc, (used fc).Placed fc.rowBias fc.rows fc.colBias fc.cols

/-- The views are there and the weights are those of `base`. -/
structure Stocked (base : Heap MemName F) (chip : Chip F) : Prop where
  hub : Serves chip.core.memhub
  weights : ∀ p : Ptr MemName, p.buf = .weightAndBiasMem → chip.core.heap p = base p

theorem Stocked.of_heap {base : Heap MemName F} {chip chip' : Chip F} (h : Stocked base chip)
    (hhub : chip'.core.memhub = chip.core.memhub)
    (hheap : ∀ p : Ptr MemName, p.buf = .weightAndBiasMem →
      chip'.core.heap p = chip.core.heap p) : Stocked base chip' :=
  ⟨hhub ▸ h.hub, fun p hp => (hheap p hp).trans (h.weights p hp)⟩

/-- What counter `k` has left for the next one. -/
def Live (c : Classifier F) (image : Nat → UInt8) (h : Heap MemName F) : Nat → Prop
  | 0 => ∀ j < 784, readByte h AIChip.mem2 j = image j
  | 1 => ∀ j < 784, ((int8At h AIChip.mem1 (0 + j)).toInt : F) = pixel image j
  | 2 => ∀ i < 64, (h (AIChip.mem2.add (10 + i : Nat))).toFloat = c.fc1.output 784 (pixel image) i
  | 3 => ∀ i < 64, ((int8At h AIChip.mem1 (10 + i)).toInt : F) = c.hidden1 image i
  | 4 => ∀ i < 256, (h (AIChip.mem2.add (768 + i : Nat))).toFloat =
      c.fc2.output 64 (c.hidden1 image) i
  | 5 => ∀ i < 256, ((int8At h AIChip.mem1 (768 + i)).toInt : F) = c.hidden2 image i
  | 6 => ∀ i < 10, (h (AIChip.mem2.add (0 + i : Nat))).toFloat =
      c.fc3.output 256 (c.hidden2 image) i
  | _ => True

/-- The array in the chip after counter `k`. -/
def arrayAfter (used : FcName → RramArray F) (array : RramArray F) : Nat → RramArray F
  | 0 | 1 => array
  | 2 | 3 => used .fc1
  | 4 | 5 => used .fc2
  | _ => used .fc3

structure Progress (base : Heap MemName F) (start : Chip F) (image : Nat → UInt8) (k : Nat)
    (chip : Chip F) : Prop extends Stocked base chip where
  loadOnce : chip.loadOnce = start.loadOnce
  weightLoaded : chip.weightLoaded = (start.weightLoaded || 2 ≤ k)
  array : chip.array = arrayAfter (arrayUsed base start) start.array k
  live : Live (classifierOf (arrayUsed base start)) image chip.core.heap k
  result : 7 ≤ k → chip.core.outputIndex = (classifierOf (arrayUsed base start)).predict image

private theorem mem1_ne_mem2 : AIChip.mem1.buf ≠ AIChip.mem2.buf := by decide

/-- A product writes the rows of its layer. -/
theorem product_live (fc : FcName) {array : RramArray F}
    (ha : array.Placed fc.rowBias fc.rows fc.colBias fc.cols) {x : Nat → F} {h : Heap MemName F}
    (hx : ∀ j < fc.cols, ((int8At h AIChip.mem1 (fc.colBias + j)).toInt : F) = x j) :
    let h' := array.calculate AIChip.mem1 AIChip.mem2 h
    (∀ i < fc.rows, (h' (AIChip.mem2.add (fc.rowBias + i : Nat))).toFloat =
      (array.layer fc.rowBias fc.colBias).output fc.cols x i) ∧
      ∀ p : Ptr MemName, p.buf = .weightAndBiasMem → h' p = h p := by
  constructor
  · intro i hi
    exact calculate_live mem1_ne_mem2 h ha fc.fits.1 hx hi
  · intro p hp
    exact (calculateRows_spec array.rowOutput mem1_ne_mem2 h).2 p (by simp [hp, AIChip.mem2])

private theorem signs_live (fc : FcName) {x : Nat → F} {h : Heap MemName F}
    (hx : ∀ i < fc.rows, (h (AIChip.mem2.add (fc.rowBias + i : Nat))).toFloat = x i) :
    let h' := sign AIChip.mem2 AIChip.mem1 h
    (∀ i < fc.rows, ((int8At h' AIChip.mem1 (fc.rowBias + i)).toInt : F) = signValue (x i)) ∧
      ∀ p : Ptr MemName, p.buf = .weightAndBiasMem → h' p = h p := by
  constructor
  · intro i hi
    exact sign_live mem1_ne_mem2 h fc.fits.1 hx hi
  · intro p hp
    rw [sign_eq (Ne.symm mem1_ne_mem2)]
    exact memcpy_other_buf _ _ _ _ _ _ (by simp [hp, AIChip.mem1])

section Step

variable {base : Heap MemName F} {start : Chip F} {image : Nat → UInt8} {chip : Chip F}

theorem stage_input (h : Progress base start image 0 chip) :
    ∃ r chip', (AIChip.stage 1).run chip = some (r, chip') ∧ Progress base start image 1 chip' := by
  let heap := inputLoop AIChip.mem2 AIChip.mem1 chip.core.heap
  have hrun : (AIChip.stage 1).run chip = some ((10, false), { chip with core.heap := heap }) := by
    have hop := Core.run_opInput h.hub .activationMem2 .fc1In
    simp [AIChip.stage, hop]
    rfl
  have hkeep (p : Ptr MemName) (hp : p.buf = .weightAndBiasMem) : heap p = chip.core.heap p := by
    change inputLoop AIChip.mem2 AIChip.mem1 chip.core.heap p = _
    rw [inputLoop_eq mem1_ne_mem2]
    exact memcpy_other_buf _ _ _ _ _ _ (by simp [hp, AIChip.mem1])
  refine ⟨_, _, hrun, ⟨h.toStocked.of_heap rfl hkeep, h.loadOnce, ?_, h.array, ?_, by omega⟩⟩
  · simp [h.weightLoaded]
  · intro j hj
    rw [Nat.zero_add]
    exact inputLoop_live mem1_ne_mem2 chip.core.heap h.live hj

/-- The products run on the array the weights of `base` give. -/
theorem run_product (h : Stocked base chip) (input output : MemName)
    (hin : place input = AIChip.mem1) (hout : place output = AIChip.mem2) (fc : FcName)
    (loadWeight : Bool) {array : RramArray F}
    (harray : array = if loadWeight then Core.loadedArray base fc chip.array else chip.array) :
    ∃ cycles, (Core.opFcCalculate input output (.fcWeight fc) (.bnVar fc) (.bnMean fc)
        (.bnWeight fc) (.bnBias fc) loadWeight).run chip =
      some (cycles, { chip with
        array
        core.heap := array.calculate AIChip.mem1 AIChip.mem2 chip.core.heap }) := by
  obtain ⟨cycles, hrun⟩ := Core.run_opFcCalculate h.hub input output fc loadWeight
  rw [loadedArray_congr h.weights, ← harray, hin, hout] at hrun
  exact ⟨cycles, hrun⟩

private theorem stage_fc1 (hplaced : AllPlaced (arrayUsed base start))
    (h : Progress base start image 1 chip) :
    ∃ r chip', (AIChip.stage 2).run chip = some (r, chip') ∧ Progress base start image 2 chip' := by
  have harray : arrayUsed base start .fc1 = if !chip.loadOnce || !chip.weightLoaded then
      Core.loadedArray base .fc1 chip.array else chip.array := by
    rw [h.array, h.loadOnce, h.weightLoaded]
    simp [arrayUsed, arrayAfter]
  obtain ⟨cycles, hop⟩ := run_product h.toStocked .fc1In .fc1Out rfl rfl .fc1 _ harray
  have hrun : (AIChip.stage 2).run chip = some ((cycles, false), { chip with
      array := arrayUsed base start .fc1
      core.heap := (arrayUsed base start .fc1).calculate AIChip.mem1 AIChip.mem2 chip.core.heap
      weightLoaded := true }) := by
    simp [AIChip.stage, hop]
  obtain ⟨hlive, hkeep⟩ := product_live .fc1 (hplaced .fc1) h.live
  exact ⟨_, _, hrun, ⟨h.toStocked.of_heap rfl hkeep, h.loadOnce, by simp, rfl, hlive, by omega⟩⟩

/-- The product of a later layer, between what counter `k` has left and what the next one leaves. -/
theorem stage_product (hplaced : AllPlaced (arrayUsed base start)) (fc : FcName)
    (counter : UInt8) (input output : MemName) {k : Nat} (x : Nat → F) (hk : 2 ≤ k ∧ k < 6)
    (hin : place input = AIChip.mem1) (hout : place output = AIChip.mem2)
    (hstage : (AIChip.stage counter).run chip = (do
      return (← Core.opFcCalculate input output (.fcWeight fc) (.bnVar fc) (.bnMean fc)
        (.bnWeight fc) (.bnBias fc) (!chip.loadOnce), false) : ChipM F (Nat × Bool)).run chip)
    (hused : arrayUsed base start fc = if !start.loadOnce then
      Core.loadedArray base fc (arrayAfter (arrayUsed base start) start.array k)
      else arrayAfter (arrayUsed base start) start.array k)
    (hafter : arrayAfter (arrayUsed base start) start.array (k + 1) = arrayUsed base start fc)
    (hbefore : Live (classifierOf (arrayUsed base start)) image chip.core.heap k →
      ∀ j < fc.cols, ((int8At chip.core.heap AIChip.mem1 (fc.colBias + j)).toInt : F) = x j)
    (hnext : ∀ heap : Heap MemName F, (∀ i < fc.rows,
      (heap (AIChip.mem2.add (fc.rowBias + i : Nat))).toFloat =
        ((arrayUsed base start fc).layer fc.rowBias fc.colBias).output fc.cols x i) →
      Live (classifierOf (arrayUsed base start)) image heap (k + 1))
    (h : Progress base start image k chip) :
    ∃ r chip', (AIChip.stage counter).run chip = some (r, chip') ∧
      Progress base start image (k + 1) chip' := by
  have harray : arrayUsed base start fc = if !chip.loadOnce then
      Core.loadedArray base fc chip.array else chip.array := by
    rw [h.array, h.loadOnce]
    exact hused
  obtain ⟨cycles, hop⟩ := run_product h.toStocked input output hin hout fc _ harray
  have hrun : (AIChip.stage counter).run chip = some ((cycles, false), { chip with
      array := arrayUsed base start fc
      core.heap := (arrayUsed base start fc).calculate AIChip.mem1 AIChip.mem2
        chip.core.heap }) := by
    rw [hstage]
    simp [hop]
  obtain ⟨hlive, hkeep⟩ := product_live fc (hplaced fc) (hbefore h.live)
  refine ⟨_, _, hrun, ⟨h.toStocked.of_heap rfl hkeep, h.loadOnce, ?_, hafter.symm, hnext _ hlive,
    by omega⟩⟩
  simp [h.weightLoaded, hk.1, hk.1.trans (Nat.le_succ k)]

/-- The signs of a layer, after its product. -/
theorem stage_sign (fc : FcName) (counter : UInt8) (input output : MemName) {k : Nat} (x : Nat → F)
    (hk : 2 ≤ k ∧ k < 6) (hin : place input = AIChip.mem2) (hout : place output = AIChip.mem1)
    (hstage : (AIChip.stage counter).run chip =
      (do return (← Core.opSign input output, false) : ChipM F (Nat × Bool)).run chip)
    (hafter : arrayAfter (arrayUsed base start) start.array (k + 1) =
      arrayAfter (arrayUsed base start) start.array k)
    (hbefore : Live (classifierOf (arrayUsed base start)) image chip.core.heap k →
      ∀ i < fc.rows, (chip.core.heap (AIChip.mem2.add (fc.rowBias + i : Nat))).toFloat = x i)
    (hnext : ∀ heap : Heap MemName F, (∀ i < fc.rows,
      ((int8At heap AIChip.mem1 (fc.rowBias + i)).toInt : F) = signValue (x i)) →
      Live (classifierOf (arrayUsed base start)) image heap (k + 1))
    (h : Progress base start image k chip) :
    ∃ r chip', (AIChip.stage counter).run chip = some (r, chip') ∧
      Progress base start image (k + 1) chip' := by
  have hrun : (AIChip.stage counter).run chip = some ((1, false), { chip with
      core.heap := sign AIChip.mem2 AIChip.mem1 chip.core.heap }) := by
    have hop := Core.run_opSign h.hub input output
    rw [hin, hout] at hop
    rw [hstage]
    simp [hop]
  obtain ⟨hlive, hkeep⟩ := signs_live fc (hbefore h.live)
  refine ⟨_, _, hrun, ⟨h.toStocked.of_heap rfl hkeep, h.loadOnce, ?_, h.array.trans hafter.symm,
    hnext _ hlive, by omega⟩⟩
  simp [h.weightLoaded, hk.1, hk.1.trans (Nat.le_succ k)]

theorem stage_output (h : Progress base start image 6 chip) :
    ∃ r chip', (AIChip.stage 7).run chip = some (r, chip') ∧ Progress base start image 7 chip' := by
  let best := (classifierOf (arrayUsed base start)).predict image
  have hbest : maxElement (fun i => (chip.core.heap (AIChip.mem2.add i)).toFloat) 10 = best := by
    apply maxElement_congr (by decide)
    intro i h0 hi
    have hlive := h.live i.toNat (by omega)
    rwa [Nat.zero_add, Int.toNat_of_nonneg h0] at hlive
  have hrun : (AIChip.stage 7).run chip = some ((10, true), { chip with
      core.outputIndex := best
      core.heap := writeByte chip.core.heap AIChip.mem1 0 (UInt8.ofInt best) }) := by
    have hop := Core.run_opOutput h.hub .fc3Out
    rw [show place .fc3Out = AIChip.mem2 from rfl, hbest] at hop
    simp [AIChip.stage, hop]
  have hkeep (p : Ptr MemName) (hp : p.buf = .weightAndBiasMem) :
      writeByte chip.core.heap AIChip.mem1 0 (UInt8.ofInt best) p = chip.core.heap p := by
    apply writeByte_other
    intro he
    rw [he] at hp
    exact absurd hp (by decide)
  refine ⟨_, _, hrun, ⟨h.toStocked.of_heap rfl hkeep, h.loadOnce, ?_, h.array, trivial, ?_⟩⟩
  · simp [h.weightLoaded]
  · intro _
    rfl

/-- One counter carries the progress on. -/
theorem stage_step (hplaced : AllPlaced (arrayUsed base start)) {k : Nat} (hk : k < 7)
    (h : Progress base start image k chip) :
    ∃ r chip', (AIChip.stage (UInt8.ofNat (k + 1))).run chip = some (r, chip') ∧
      Progress base start image (k + 1) chip' := by
  let c := classifierOf (arrayUsed base start)
  interval_cases k
  · exact stage_input h
  · exact stage_fc1 hplaced h
  · exact stage_sign .fc1 3 .fc1Out .sign1Out (c.fc1.output 784 (pixel image)) (by decide) rfl rfl
      (by simp [AIChip.stage]) rfl id (fun _ hlive => hlive) h
  · exact stage_product hplaced .fc2 4 .sign1Out .fc2Out (c.hidden1 image) (by decide) rfl rfl
      (by simp [AIChip.stage]) rfl rfl id (fun _ hlive => hlive) h
  · exact stage_sign .fc2 5 .fc2Out .sign2Out (c.fc2.output 64 (c.hidden1 image)) (by decide) rfl rfl
      (by simp [AIChip.stage]) rfl id (fun _ hlive => hlive) h
  · exact stage_product hplaced .fc3 6 .sign2Out .fc3Out (c.hidden2 image) (by decide) rfl rfl
      (by simp [AIChip.stage]) rfl rfl id (fun _ hlive => hlive) h
  · exact stage_output h

end Step

end ModernArch.BinNet
