import ModernArch.BinNet.Core

/-!
# Cycle counts of the BinNet chip

A stage takes a fixed number of cycles; a layer takes more when it loads its weights.
-/

namespace ModernArch.BinNet
open Framework Vdev
set_option linter.unusedSectionVars false

variable {F : Type} [Field F] [FloatModel F] [LinearOrder F]

/-- The cycles of a layer. -/
def fcCycles (loadWeight : Bool) : Nat := (if loadWeight then 100000 else 0) + 100

def stageCycles (loadOnce weightLoaded : Bool) : UInt8 → Nat
  | 0 => 1
  | 1 => 10
  | 2 => fcCycles (!loadOnce || !weightLoaded)
  | 3 => 1
  | 4 => fcCycles !loadOnce
  | 5 => 1
  | 6 => fcCycles !loadOnce
  | 7 => 10
  | _ => 0

theorem stageCycles_le (loadOnce weightLoaded : Bool) (counter : UInt8) :
    stageCycles loadOnce weightLoaded counter ≤ 100100 := by
  have hfc (loadWeight : Bool) : fcCycles loadWeight ≤ 100100 := by
    cases loadWeight <;> decide
  unfold stageCycles
  split
  all_goals first | exact hfc _ | decide

private theorem opFcCalculate_yields (i o w v m k b : MemName) (loadWeight : Bool) :
    Yields (Core.opFcCalculate (F := F) i o w v m k b loadWeight) (· = fcCycles loadWeight) := by
  iterate 7
    apply Yields.after
    intro
  cases loadWeight with
  | false => exact .after fun _ => .after fun _ => .pure rfl
  | true => exact .after fun _ => .after fun _ => .after fun _ => .pure rfl

theorem opInit_yields : Yields (Core.opInit (F := F)) (· = 1) :=
  .after fun _ => .after fun _ => .after fun _ => .after fun _ => .pure rfl

theorem opInput_yields (i o : MemName) : Yields (Core.opInput (F := F) i o) (· = 10) :=
  .after fun _ => .after fun _ => .after fun _ => .pure rfl

private theorem opSign_yields (i o : MemName) : Yields (Core.opSign (F := F) i o) (· = 1) :=
  .after fun _ => .after fun _ => .after fun _ => .pure rfl

theorem opOutput_yields (i : MemName) : Yields (Core.opOutput (F := F) i) (· = 10) :=
  .after fun _ => .after fun _ => .pure rfl

theorem stage_of_op {op : ChipM F Nat} {c : Nat} (h : Yields op (· = c)) :
    Yields (do return (← op, false)) fun r : Nat × Bool => r.1 = c :=
  h.bind fun _ ha => .pure ha

/-- Whatever the memories hold, a stage that returns has taken the cycles of the table. -/
theorem stage_cycles {chip : Chip F} {counter : UInt8} {r : (Nat × Bool) × Chip F}
    (h : (AIChip.stage counter).run chip = some r) :
    r.1.1 = stageCycles chip.loadOnce chip.weightLoaded counter := by
  have hyields {c : ChipM F (Nat × Bool)} {n : Nat} (hc : Yields c fun r => r.1 = n)
      (hr : c.run chip = some r) : r.1.1 = n := hc chip r hr
  rw [AIChip.stage, StateT.run_bind, StateT.run_get] at h
  simp only [Option.pure_def, Option.bind_eq_bind, Option.bind_some] at h
  split at h
  · exact hyields (stage_of_op opInit_yields) h
  · exact hyields (stage_of_op (opInput_yields _ _)) h
  · exact hyields ((opFcCalculate_yields _ _ _ _ _ _ _ _).bind fun _ ha =>
      .after fun _ => .pure ha) h
  · exact hyields (stage_of_op (opSign_yields _ _)) h
  · exact hyields (stage_of_op (opFcCalculate_yields _ _ _ _ _ _ _ _)) h
  · exact hyields (stage_of_op (opSign_yields _ _)) h
  · exact hyields (stage_of_op (opFcCalculate_yields _ _ _ _ _ _ _ _)) h
  · exact hyields ((opOutput_yields _).bind fun _ ha => .after fun _ => .pure ha) h
  · apply hyields (n := stageCycles _ _ counter) (.pure ?_) h
    unfold stageCycles
    split <;> simp_all

/-- With the views in place every stage returns. -/
theorem stage_returns {chip : Chip F} (h : Serves chip.core.memhub) (counter : UInt8) :
    ∃ r, (AIChip.stage counter).run chip = some r := by
  have hfc (i o : MemName) (fc : FcName) (loadWeight : Bool) :=
    Core.run_opFcCalculate h i o fc loadWeight
  rw [AIChip.stage, StateT.run_bind, StateT.run_get]
  simp only [Option.pure_def, Option.bind_eq_bind, Option.bind_some]
  split
  · simp [Core.opInit, Core.run_getPtr h]
  · simp [Core.run_opInput h]
  · obtain ⟨cycles, hrun⟩ := hfc .fc1In .fc1Out .fc1 (!chip.loadOnce || !chip.weightLoaded)
    simp [hrun]
  · simp [Core.run_opSign h]
  · obtain ⟨cycles, hrun⟩ := hfc .sign1Out .fc2Out .fc2 (!chip.loadOnce)
    simp [hrun]
  · simp [Core.run_opSign h]
  · obtain ⟨cycles, hrun⟩ := hfc .sign2Out .fc3Out .fc3 (!chip.loadOnce)
    simp [hrun]
  · simp [Core.run_opOutput h]
  · exact ⟨_, rfl⟩

end ModernArch.BinNet
