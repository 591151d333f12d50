import ModernArch.SimpleCNN.Device
import ModernArch.SimpleCNN.Session
import ModernArch.Vdev.Layout
import ModernArch.Vdev.Sequential

/-!
# The CNN driver on the device

`main` reads the tensors of `ModelData` one after another, makes the convolution weights sparse
and sends every tensor behind the last.
-/

namespace ModernArch.SimpleCNN
open Framework Vdev Vdev.Driver
set_option linter.unusedSectionVars false

variable {F : Type} [Field F] [FloatModel F] [LinearOrder F]

/-- The bytes of a float. -/
abbrev Bits := Fin 4 → UInt8

def sparsify (weights : Nat → Bits) (len : Nat) (threshold : F) : Nat → Bits :=
  if threshold < 0 then weights
  else forRange len weights fun i weights =>
    if |(FloatModel.ofBytes (weights i) : F)| < threshold then
      Function.update weights i fun _ => 0
    else weights

/-- A tensor of the model: its size, and whether `main` makes it sparse. -/
structure ModelTensor where
  name : MemName
  size : Nat
  sparse : Bool

def modelTensors : List ModelTensor :=
  [⟨.conv2dKernel, 5 * 5 * 1 * 32, true⟩, ⟨.conv2dBias, 32, true⟩,
    ⟨.conv2d1Kernel, 5 * 5 * 32 * 64, true⟩, ⟨.conv2d1Bias, 64, true⟩,
    ⟨.denseKernel, 3136 * 512, false⟩, ⟨.denseBias, 512, false⟩,
    ⟨.dense1Kernel, 512 * 10, false⟩, ⟨.dense1Bias, 10, false⟩]

def floatBlock (weights : Nat → Bits) (size : Nat) : Block where
  size := size * 4
  byte k := weights (k / 4) (lane k)

/-- What `main` reads from position `pos` of the file, and sends under each name. -/
def readTensors (threshold : F) (file : Nat → Bits) : Nat → List ModelTensor → List (MemName × Block)
  | _, [] => []
  | pos, t :: ts =>
      let weights := fun i => file (pos + i)
      let weights := if t.sparse then sparsify weights t.size threshold else weights
      (t.name, floatBlock weights t.size) :: readTensors threshold file (pos + t.size) ts

def sent (threshold : F) (file : Nat → Bits) : List (MemName × Block) :=
  readTensors threshold file 0 modelTensors

def loadCalls (threshold : F) (file : Nat → Bits) : List Call :=
  .periInit 0 :: writeCalls (2 + 1024 * 1024 * 2) ((sent threshold file).map Prod.snd)

theorem loadCalls_inWindow (threshold : F) (file : Nat → Bits) :
    ∀ c ∈ loadCalls threshold file, c.InWindow := by
  intro c hc
  rcases List.mem_cons.mp hc with rfl | hc
  · trivial
  · exact writeCalls_inWindow (by decide) window_weights 0 _ c hc

theorem writeAll_eq (u : Simd F) (off : Nat) (bs : List Block) (core : Core F) :
    (AIChip.ops u).writeAll .mem3 off bs core =
      { core with machine.heap := sendAll AIChip.mem3 core.machine.heap off bs } := by
  induction bs generalizing off core with
  | nil => rfl
  | cons b bs ih =>
      rw [ChipOps.writeAll, ih]
      rfl

theorem apply_load (u : Simd F) (tickPerCycle : Nat) (heap : Heap MemName F) (threshold : F)
    (file : Nat → Bits) :
    applyAll (AIChip.ops u) (loadCalls threshold file) (AIChip.new tickPerCycle heap) =
      some ⟨tickPerCycle, false, 0, { initCore heap with
        machine.heap := sendAll AIChip.mem3 heap 0 ((sent threshold file).map Prod.snd) }⟩ := by
  have hrun := @AIChip.runCounter_of_stage _ (AIChip.ops u) (AIChip.new tickPerCycle heap) 0 _ _ _
    (stage_first u tickPerCycle heap)
  have hwrites := applyAll_writeCalls (AIChip.ops u) window_weights 0
    ((sent threshold file).map Prod.snd) ⟨tickPerCycle, false, 0, initCore heap⟩
  have hinit : (Call.periInit 0).apply (AIChip.ops u) (AIChip.new tickPerCycle heap) =
      some ⟨tickPerCycle, false, 0, initCore heap⟩ := by
    rw [Call.apply, hrun]
    rfl
  rw [writeAll_eq, Nat.add_zero] at hwrites
  rw [loadCalls, applyAll, List.foldlM_cons, hinit, Option.bind_eq_bind, Option.bind_some]
  exact hwrites

theorem readTensors_fst (threshold : F) (file : Nat → Bits) (pos : Nat) (ts : List ModelTensor) :
    (readTensors threshold file pos ts).map Prod.fst = ts.map ModelTensor.name := by
  induction ts generalizing pos with
  | nil => rfl
  | cons t ts ih => simp [readTensors, ih]

theorem readTensors_size (threshold : F) (file : Nat → Bits) (pos : Nat) (ts : List ModelTensor) :
    ∀ p ∈ readTensors threshold file pos ts, ∃ t ∈ ts, p.1 = t.name ∧ p.2.size = t.size * 4 := by
  induction ts generalizing pos with
  | nil => simp [readTensors]
  | cons t ts ih =>
      intro p hp
      rcases List.mem_cons.mp hp with rfl | hp
      · exact ⟨t, List.mem_cons_self, rfl, rfl⟩
      · obtain ⟨u, hu, hname, hsize⟩ := ih _ p hp
        exact ⟨u, List.mem_cons_of_mem _ hu, hname, hsize⟩

/-- The sizes of the driver are those of the views. -/
theorem modelTensors_size :
    ∀ t ∈ modelTensors, ((t.size * 4 : Nat) : Int) = (view aliased t.name).byteLen := by
  decide

theorem load_delivers (heap : Heap MemName F) (threshold : F) (file : Nat → Bits) :
    Delivered aliasedHub (sendAll AIChip.mem3 heap 0 ((sent threshold file).map Prod.snd))
      .weightAndBiasMem weightNames (sent threshold file) := by
  have hlaid : Laid AIChip.mem3 0 (weightNames.map (view aliased)) := by decide
  have hnames : (sent threshold file).map Prod.fst <+: weightNames := by
    rw [sent, readTensors_fst]
    exact List.prefix_rfl
  refine hlaid.delivers aliasedHub_serves rfl (by decide) hnames ?_ heap
  intro p hp
  obtain ⟨t, ht, hname, hsize⟩ := readTensors_size threshold file 0 modelTensors p hp
  rw [hname, hsize]
  exact modelTensors_size t ht

end ModernArch.SimpleCNN
