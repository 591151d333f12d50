import ModernArch.SimpleCNN.AIChip

/-!
# Placements of the named views

`op_init` lays the views over the three buffers of the chip. A placement says where each view
starts; a second one gives every tensor a buffer of its own.
-/

namespace ModernArch.SimpleCNN
open Framework Vdev

def shape : MemName → Int × Int × Int × Int
  | .activationMem1 => (28 * 28 * 32, 1, 1, 1)
  | .activationMem2 => (28 * 28 * 32, 1, 1, 1)
  | .weightAndBiasMem => (1663371, 1, 1, 1)
  | .conv2dKernel => (5, 5, 1, 32)
  | .conv2dBias => (32, 1, 1, 1)
  | .conv2d1Kernel => (5, 5, 32, 64)
  | .conv2d1Bias => (64, 1, 1, 1)
  | .denseKernel => (3136, 512, 1, 1)
  | .denseBias => (512, 1, 1, 1)
  | .dense1Kernel => (512, 10, 1, 1)
  | .dense1Bias => (10, 1, 1, 1)
  | .paddingIn => (28, 28, 1, 1)
  | .paddingOut => (32, 32, 1, 1)
  | .convOut => (28, 28, 32, 1)
  | .poolOut => (14, 14, 32, 1)
  | .padding1Out => (18, 18, 32, 1)
  | .conv1Out => (14, 14, 64, 1)
  | .pool1Out => (7, 7, 64, 1)
  | .denseOut => (512, 1, 1, 1)
  | .dense1Out => (10, 1, 1, 1)

abbrev Place := MemName → Ptr MemName

def view (place : Place) (name : MemName) : Memory MemName :=
  ⟨place name, (shape name).1, (shape name).2.1, (shape name).2.2.1, (shape name).2.2.2⟩

theorem view_hasShape (place : Place) (name : MemName) : (view place name).HasShape
    (shape name).1 (shape name).2.1 (shape name).2.2.1 (shape name).2.2.2 := ⟨rfl, rfl, rfl, rfl⟩

/-- Where `op_init` puts the views. -/
def aliased : Place
  | .conv2dKernel => ⟨.weightAndBiasMem, 0⟩
  | .conv2dBias => ⟨.weightAndBiasMem, 800⟩
  | .conv2d1Kernel => ⟨.weightAndBiasMem, 832⟩
  | .conv2d1Bias => ⟨.weightAndBiasMem, 52032⟩
  | .denseKernel => ⟨.weightAndBiasMem, 52096⟩
  | .denseBias => ⟨.weightAndBiasMem, 1657728⟩
  | .dense1Kernel => ⟨.weightAndBiasMem, 1658240⟩
  | .dense1Bias => ⟨.weightAndBiasMem, 1663360⟩
  | .paddingIn | .convOut | .padding1Out | .pool1Out | .dense1Out => ⟨.activationMem1, 0⟩
  | .paddingOut | .poolOut | .conv1Out | .denseOut => ⟨.activationMem2, 0⟩
  | name => ⟨name, 0⟩

/-- Every name its own buffer. -/
def separate : Place := fun name => ⟨name, 0⟩

def weightNames : List MemName :=
  [.conv2dKernel, .conv2dBias, .conv2d1Kernel, .conv2d1Bias, .denseKernel, .denseBias,
    .dense1Kernel, .dense1Bias]

def activationNames : List MemName :=
  [.paddingIn, .paddingOut, .convOut, .poolOut, .padding1Out, .conv1Out, .pool1Out, .denseOut,
    .dense1Out]

/-- The hub finds every view where the placement puts it. -/
def Serves (place : Place) (memhub : MemHub MemName) : Prop :=
  ∀ name, memhub.getMemory name = some (view place name)

def aliasedHub : MemHub MemName :=
  Core.addViews AIChip.baseHub AIChip.mem1 AIChip.mem2 AIChip.mem3

/-- The hub in which `addMemory` made every named tensor. -/
def privateHub : MemHub MemName :=
  (weightNames ++ activationNames).foldl (fun hub name =>
    hub.addMemory name (shape name).1 (shape name).2.1 (shape name).2.2.1 (shape name).2.2.2)
    AIChip.baseHub

theorem aliasedHub_serves : Serves aliased aliasedHub := by
  intro name
  cases name <;> simp [aliasedHub, Core.addViews, MemHub.addSharedMemory, AIChip.baseHub,
    MemHub.addMemory, MemHub.getMemory_emplace, view, shape,
    aliased, AIChip.mem1, AIChip.mem2, AIChip.mem3, Ptr.add]

theorem privateHub_serves : Serves separate privateHub := by
  intro name
  cases name <;> simp [privateHub, weightNames, activationNames, AIChip.baseHub,
    MemHub.addMemory, MemHub.getMemory_emplace, view, shape,
    separate]

/-- A second `op_init` finds every name present. -/
theorem addViews_of_serves {place : Place} {memhub : MemHub MemName} (h : Serves place memhub)
    (mem1 mem2 mem3 : Ptr MemName) : Core.addViews memhub mem1 mem2 mem3 = memhub := by
  have hkeep (name : MemName) (m : Memory MemName) : memhub.emplace name m = memhub :=
    memhub.emplace_of_present (h name)
  simp [Core.addViews, MemHub.addSharedMemory, hkeep]

/-- The view a stage fills. -/
def dest : Nat → MemName
  | 1 => .paddingIn
  | 2 => .paddingOut
  | 3 => .convOut
  | 4 => .poolOut
  | 5 => .padding1Out
  | 6 => .conv1Out
  | 7 => .pool1Out
  | 8 => .denseOut
  | _ => .dense1Out

/-- The weights a stage reads. -/
def weightsOf : Nat → List MemName
  | 3 => [.conv2dKernel, .conv2dBias]
  | 6 => [.conv2d1Kernel, .conv2d1Bias]
  | 8 => [.denseKernel, .denseBias]
  | 9 => [.dense1Kernel, .dense1Bias]
  | _ => []

/-- The buffer a stage writes is none of those it reads. -/
structure Separated (place : Place) : Prop where
  chain : ∀ k < 8, (place (dest (k + 2))).buf ≠ (place (dest (k + 1))).buf
  weights : ∀ w ∈ weightNames, ∀ k < 9, (place (dest (k + 1))).buf ≠ (place w).buf
  image : place .activationMem2 = AIChip.mem2 ∧ (place .paddingIn).buf ≠ .activationMem2
  host : ∀ w ∈ weightNames, (place w).buf ≠ .activationMem1 ∧ (place w).buf ≠ .activationMem2

theorem aliased_separated : Separated aliased :=
  ⟨by decide, by decide, by decide, by decide⟩

theorem separate_separated : Separated separate :=
  ⟨by decide, by decide, by decide, by decide⟩

/-- The cells a stage may load from. -/
def stageReads (place : Place) : Nat → Set (Ptr MemName)
  | 0 => ∅
  | 1 => {p | ∃ k < 784, p = AIChip.mem2.wordOf k}
  | k + 2 => (view place (dest (k + 1))).region ∪
      {p | ∃ w ∈ weightsOf (k + 2), p ∈ (view place w).region}

/-- The cells a stage may store to. -/
def stageWrites (place : Place) : Nat → Set (Ptr MemName)
  | 0 => ∅
  | 10 => {AIChip.mem1}
  | k => (view place (dest k)).region

theorem disjoint_region {m m' : Memory MemName} (h : m.data.buf ≠ m'.data.buf) :
    Disjoint m.region m'.region := by
  rw [Set.disjoint_left]
  intro p hp hp'
  exact h (hp.1.symm.trans hp'.1)

theorem weightsOf_subset {k : Nat} (hk : k < 8) : ∀ w ∈ weightsOf (k + 2), w ∈ weightNames := by
  interval_cases k <;> decide

theorem stage_disjoint {place : Place} (hsep : Separated place) {k : Nat} (hk : k < 8) :
    Disjoint (view place (dest (k + 2))).region (stageReads place (k + 2)) := by
  apply Set.disjoint_union_right.mpr ⟨disjoint_region (hsep.chain k hk), _⟩
  rw [Set.disjoint_left]
  intro p hp hread
  obtain ⟨w, hw, hpw⟩ := hread
  have hbuf := hsep.weights w (weightsOf_subset hk w hw) (k + 1) (by omega)
  have hd : Disjoint (view place (dest (k + 2))).region (view place w).region :=
    disjoint_region hbuf
  exact Set.disjoint_left.mp hd hp hpw

section Running

variable {F : Type}

@[simp] theorem Core.run_exec {α : Type} (c : Exec MemName F α) (core : Core F) :
    (Core.exec c).run core =
      some ((c.run core.machine).1, { core with machine := (c.run core.machine).2 }) := rfl

theorem Core.run_getMemory_eq (core : Core F) (name : MemName) :
    (Core.getMemory name).run core = (core.memhub.getMemory name).map fun m => (m, core) := by
  cases h : core.memhub.getMemory name <;> simp [Core.getMemory, h]

theorem Core.run_getMemory {place : Place} {core : Core F} (h : Serves place core.memhub)
    (name : MemName) : (Core.getMemory name).run core = some (view place name, core) := by
  simp [Core.run_getMemory_eq, h name]

end Running

end ModernArch.SimpleCNN
