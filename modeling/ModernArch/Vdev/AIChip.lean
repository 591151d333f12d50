import ModernArch.Framework.Packing
import ModernArch.Vdev.Memory

/-!
# The accelerator behind a device

A chip keeps a counter that selects the stage to run and a flag for the last stage of a
computation. The device sees nothing else of it but three data memories.
-/

namespace ModernArch.Vdev
open Framework

inductive DataMem where
  | mem1 | mem2 | mem3
deriving DecidableEq, Repr

/-- What differs between chips: the stage a counter selects, which says how many cycles it
took and whether it finished the computation or throws, and the bytes of the data memories. -/
structure ChipOps (C : Type) where
  stage : UInt8 → StateT C Option (Nat × Bool)
  readMem : DataMem → C → Nat → UInt8
  writeMem : DataMem → Nat → Nat → (Nat → UInt8) → C → C

/-- Blocks written to a data memory at running offsets. -/
def ChipOps.writeAll {C : Type} (ops : ChipOps C) (d : DataMem) : Nat → List Block → C → C
  | _, [], c => c
  | off, b :: bs, c => writeAll ops d (off + b.size) bs (ops.writeMem d off b.size b.byte c)

structure AIChip (C : Type) where
  tickPerCycle : Nat := 1
  finished : Bool := false
  counter : UInt8 := 0
  core : C

namespace AIChip

variable {C : Type} (ops : ChipOps C)

/-- `AIChip::run`: `finished` is cleared first and set again by a last stage. -/
def run : StateT (AIChip C) Option Nat := fun chip => do
  let r ← (ops.stage chip.counter).run chip.core
  return (r.1.1 * chip.tickPerCycle, { chip with finished := r.1.2, core := r.2 })

/-- The request a driver makes: set the counter register, then run. -/
def runCounter (counter : UInt8) : StateT (AIChip C) Option Nat := fun chip =>
  (run ops).run { chip with counter }

theorem runCounter_of_stage {chip : AIChip C} {counter : UInt8} {cycles : Nat} {done : Bool}
    {core : C} (h : (ops.stage counter).run chip.core = some ((cycles, done), core)) :
    (runCounter ops counter).run chip = some (cycles * chip.tickPerCycle,
      { chip with counter, finished := done, core }) := by
  have hrun : (runCounter ops counter).run chip =
      ((ops.stage counter).run chip.core).bind fun r =>
        some (r.1.1 * chip.tickPerCycle,
          { chip with counter, finished := r.1.2, core := r.2 }) := rfl
  rw [hrun, h]
  rfl

end AIChip

end ModernArch.Vdev
