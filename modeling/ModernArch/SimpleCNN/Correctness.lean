import ModernArch.Framework.Binary32
import ModernArch.SimpleCNN.Session

/-!
# Results of the CNN chip

The two activation buffers serve as well as a buffer for every tensor, and the class reported
is the first greatest output of the last layer after its rectifier.
-/

namespace ModernArch.SimpleCNN
open Framework Vdev
set_option linter.unusedSectionVars false

variable {F : Type} [Field F] [FloatModel F] [LinearOrder F]

/-- The weights of `heap` in buffers of their own; everything else holds what it may. -/
def privateHeap (heap junk : Heap MemName F) : Heap MemName F :=
  fun p => if p.buf ∈ weightNames then heap ((aliased p.buf).add p.off) else junk p

def privateChip (tickPerCycle : Nat) (heap junk : Heap MemName F) : AIChip (Core F) where
  tickPerCycle
  core := { memhub := privateHub, machine := ⟨privateHeap heap junk, []⟩ }

private theorem privateChip_loaded (tickPerCycle : Nat) (heap junk : Heap MemName F) :
    Loaded separate (weightsIn heap) (privateChip tickPerCycle heap junk).core := by
  refine ⟨privateHub_serves, ?_⟩
  intro w hw x y z v _
  have hcell : privateHeap heap junk ((view separate w).addr x y z v) =
      heap ((view aliased w).addr x y z v) := by
    have hbuf : ((view separate w).addr x y z v).buf ∈ weightNames := hw
    unfold privateHeap
    rw [if_pos hbuf]
    simp [Memory.addr, Memory.index, Memory.wzyLen, Memory.wzLen, view, separate]
  exact congrArg Word.toFloat hcell

def Outcome.result (r : Outcome F) : Int × UInt8 := (r.outputIndex, r.byte)

private theorem Outcome.Correct.result_eq {place : Place} {weights : MemName → Tensor F}
    {image : Nat → UInt8} {r : Outcome F} (h : r.Correct place weights image) :
    r.result = (predict weights image, UInt8.ofInt (predict weights image)) := by
  rw [Outcome.result, h.outputIndex, h.byte]

/-- Sharing two activation buffers changes neither a class nor the byte shown for it, and every
run of the chip stays inside the shapes and its destination. -/
theorem aliased_eq_private (tickPerCycle : Nat) (heap junk : Heap MemName F)
    (sessions : List Session) :
    ∃ first chip rs chip₁ ps chip₂,
      (observe denseSimd 0).run (AIChip.new tickPerCycle heap) = some (first, chip) ∧
      (sessions.mapM (session denseSimd)).run chip = some (rs, chip₁) ∧
      ((sessions.map fun s => { s with inits := 0 }).mapM (session denseSimd)).run
        (privateChip tickPerCycle heap junk) = some (ps, chip₂) ∧
      rs.map Outcome.result = ps.map Outcome.result ∧
      first.Confined aliased ∧ (∀ r ∈ rs, ∀ x ∈ r.runs, x.Confined aliased) ∧
      ∀ p ∈ ps, ∀ x ∈ p.runs, x.Confined separate := by
  obtain ⟨first, chip, hfirst, hconf, hloaded⟩ :=
    first_init (denseSimd : Simd F) tickPerCycle heap
  obtain ⟨rs, chip₁, hrs, hall⟩ :=
    sessions_spec denseSimd denseSimd_exact aliased_separated hloaded sessions
  obtain ⟨ps, chip₂, hps, hall'⟩ :=
    sessions_spec denseSimd denseSimd_exact separate_separated
      (privateChip_loaded tickPerCycle heap junk) (sessions.map fun s => { s with inits := 0 })
  have hresult := forall₂_map_eq hall fun s r h => Outcome.Correct.result_eq h
  have hresult' := forall₂_map_eq hall' fun s r h => Outcome.Correct.result_eq h
  rw [List.map_map] at hresult'
  refine ⟨first, chip, rs, chip₁, ps, chip₂, hfirst, hrs, hps, hresult.trans hresult'.symm, hconf,
    ?_, ?_⟩
  · intro r hr
    obtain ⟨s, h⟩ := forall₂_mem_right hall r hr
    exact h.confined
  · intro p hp
    obtain ⟨s, h⟩ := forall₂_mem_right hall' p hp
    exact h.confined

theorem predict_isFirstMax (weights : MemName → Tensor F) (image : Nat → UInt8) :
    IsFirstMax (fun o => max (logit weights image o) 0) 10 (predict weights image) := by
  apply (maxElement_spec _ (by decide)).congr
  intro o _ _
  exact network_nine weights image o

/-- Every session reports the first greatest rectified logit: the first greatest logit when one
is positive, and class `0` otherwise. -/
theorem outputIndex_isFirstMax (tickPerCycle : Nat) (heap : Heap MemName F)
    (sessions : List Session) :
    ∃ first chip rs chip₁,
      (observe denseSimd 0).run (AIChip.new tickPerCycle heap) = some (first, chip) ∧
      (sessions.mapM (session denseSimd)).run chip = some (rs, chip₁) ∧
      List.Forall₂ (fun s r =>
        IsFirstMax (fun o => max (logit (weightsIn heap) s.image o) 0) 10 r.outputIndex ∧
        ((∃ o, (0 ≤ o ∧ o < 10) ∧ 0 < logit (weightsIn heap) s.image o) →
          IsFirstMax (logit (weightsIn heap) s.image) 10 r.outputIndex) ∧
        ((∀ o, 0 ≤ o → o < 10 → logit (weightsIn heap) s.image o ≤ 0) → r.outputIndex = 0))
        sessions rs := by
  obtain ⟨first, chip, hfirst, -, hloaded⟩ := first_init (denseSimd : Simd F) tickPerCycle heap
  obtain ⟨rs, chip₁, hrs, hall⟩ :=
    sessions_spec denseSimd denseSimd_exact aliased_separated hloaded sessions
  refine ⟨first, chip, rs, chip₁, hfirst, hrs, hall.imp ?_⟩
  intro s r h
  have hmax := predict_isFirstMax (weightsIn heap) s.image
  rw [h.outputIndex]
  exact ⟨hmax, hmax.of_max, hmax.eq_zero_of_le⟩

/-- Zero weights and the biases `-2, -1, -2, …` in the last layer. -/
def negativeBias : Heap MemName ℚ := fun p =>
  if p.buf = .weightAndBiasMem ∧ 1663360 ≤ p.off then
    .float (if p.off = 1663361 then -1 else -2)
  else .float 0

private theorem logit_negativeBias (image : Nat → UInt8) {o : Int} (h0 : 0 ≤ o) (ho : o < 10) :
    logit (weightsIn negativeBias) image o = if o = 1 then -1 else -2 := by
  have hkernel (i : Nat) (hi : i ∈ Finset.range 512) :
      weightsIn negativeBias .dense1Kernel i o 0 0 = 0 := by
    have haddr : (view aliased .dense1Kernel).addr i o 0 0 =
        ⟨.weightAndBiasMem, 1658240 + (o + i * 10)⟩ := by
      simp [Memory.addr, Memory.index, Memory.wzyLen, Memory.wzLen, view, shape, aliased, Ptr.add]
    rw [Finset.mem_range] at hi
    rw [weightsIn, Memory.value, haddr, negativeBias, if_neg (by simp only; omega)]
    rfl
  have hbias : weightsIn negativeBias .dense1Bias o 0 0 0 = if o = 1 then -1 else -2 := by
    have haddr : (view aliased .dense1Bias).addr o 0 0 0 = ⟨.weightAndBiasMem, 1663360 + o⟩ := by
      simp [Memory.addr, Memory.index, Memory.wzyLen, Memory.wzLen, view, shape, aliased, Ptr.add]
    have hone : 1663360 + o = 1663361 ↔ o = 1 := by omega
    rw [weightsIn, Memory.value, haddr, negativeBias, if_pos ⟨rfl, by simp only; omega⟩]
    simp only [hone, Word.toFloat_float]
  unfold logit
  rw [hbias, Finset.sum_eq_zero, zero_add]
  intro i hi
  rw [hkernel i hi, mul_zero]

/-- With every logit negative the chip reports class `0` although class `1` has the greatest. -/
theorem outputIndex_not_argmax :
    ∃ first chip r chip₁,
      (observe denseSimd 0).run (AIChip.new 1 negativeBias) = some (first, chip) ∧
      (session denseSimd ⟨0, fun _ => 0⟩).run chip = some (r, chip₁) ∧
      r.outputIndex = 0 ∧ IsFirstMax (logit (weightsIn negativeBias) fun _ => 0) 10 1 ∧
      ¬ IsFirstMax (logit (weightsIn negativeBias) fun _ => 0) 10 r.outputIndex := by
  obtain ⟨first, chip, hfirst, -, hloaded⟩ := first_init (denseSimd : Simd ℚ) 1 negativeBias
  obtain ⟨r, chip₁, hr, hcorrect, -⟩ :=
    session_spec denseSimd denseSimd_exact aliased_separated hloaded ⟨0, fun _ => 0⟩
  have hlogit := @logit_negativeBias fun _ => 0
  have hmax : IsFirstMax (logit (weightsIn negativeBias) fun _ => 0) 10 1 := by
    refine ⟨by decide, ?_, ?_⟩
    · intro i h0 hi
      rw [hlogit h0 hi, hlogit (by decide) (by decide)]
      split <;> norm_num
    · intro i h0 hi
      rw [hlogit h0 (by omega), hlogit (by decide) (by decide), if_neg (by omega)]
      norm_num
  have hzero : r.outputIndex = 0 := by
    rw [hcorrect.outputIndex]
    apply (predict_isFirstMax _ _).eq_zero_of_le
    intro o h0 ho
    rw [hlogit h0 ho]
    split <;> norm_num
  refine ⟨first, chip, r, chip₁, hfirst, hr, hzero, hmax, ?_⟩
  intro hfirstMax
  have heq := hfirstMax.unique hmax
  rw [hzero] at heq
  exact absurd heq (by decide)

end ModernArch.SimpleCNN
