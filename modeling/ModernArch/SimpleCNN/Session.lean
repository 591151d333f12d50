import ModernArch.SimpleCNN.Pipeline

/-!
# Sessions with the CNN chip

A session runs `op_init` any number of times, receives an image and runs counters `1` to `10`.
Every run of the chip is recorded together with its accesses.
-/

namespace ModernArch.SimpleCNN
open Framework Vdev
set_option linter.unusedSectionVars false

variable {F : Type} [Field F] [FloatModel F] [LinearOrder F]

/-- One run of the chip: what it found, what it accessed and what it left. -/
structure StageRun (F : Type) where
  counter : Nat
  before : Heap MemName F
  events : List (Access MemName)
  after : Heap MemName F

/-- Indices inside the shapes, loads from the source and the weights, and no change outside
the destination. -/
def StageRun.Confined (place : Place) (r : StageRun F) : Prop :=
  (∀ e ∈ r.events, OpAccess (stageReads place r.counter) (stageWrites place r.counter) e) ∧
    ∀ p, p ∉ stageWrites place r.counter → r.after p = r.before p

abbrev ChipM (F : Type) := StateT (AIChip (Core F)) Option

/-- `periInit(data, j)`: the counter is cut to a byte. -/
def observe (u : Simd F) (j : Nat) : ChipM F (StageRun F) := fun chip => do
  let r ← (Vdev.AIChip.runCounter (AIChip.ops u) (UInt8.ofNat j)).run
    { chip with core.machine.trace := [] }
  return (⟨j, chip.core.machine.heap, r.2.core.machine.trace, r.2.core.machine.heap⟩, r.2)

structure Session where
  inits : Nat
  image : Nat → UInt8

structure Outcome (F : Type) where
  outputIndex : Int
  byte : UInt8
  runs : List (StageRun F)

def session (u : Simd F) (s : Session) : ChipM F (Outcome F) := do
  let idle ← (List.replicate s.inits 0).mapM (observe u)
  modify fun chip =>
    { chip with core := (AIChip.ops u).writeMem .mem2 0 784 s.image chip.core }
  let runs ← (List.range' 1 10).mapM (observe u)
  let chip ← get
  return ⟨chip.core.outputIndex, (AIChip.ops u).readMem .mem1 chip.core 0, idle ++ runs⟩

section Step

variable {place : Place} {weights : MemName → Tensor F}

private theorem observe_of_stage {u : Simd F} {j cycles : Nat} {done : Bool}
    {chip : AIChip (Core F)} {core' : Core F}
    (h : (AIChip.stage u (UInt8.ofNat j)).run { chip.core with machine.trace := [] } =
      some ((cycles, done), core')) :
    (observe u j).run chip =
      some (⟨j, chip.core.machine.heap, core'.machine.trace, core'.machine.heap⟩,
        ⟨chip.tickPerCycle, done, UInt8.ofNat j, core'⟩) := by
  have hrun := @Vdev.AIChip.runCounter_of_stage _ (AIChip.ops u)
    { chip with core.machine.trace := [] } _ _ _ _ h
  change ((Vdev.AIChip.runCounter (AIChip.ops u) (UInt8.ofNat j)).run _).bind _ = _
  rw [hrun]
  rfl

private theorem events_of_extends {P : Access MemName → Prop}
    {m m' : Machine (Ptr MemName) (Word F) (Access MemName)} (h : Extends P m m')
    (hm : m.trace = []) : ∀ e ∈ m'.trace, P e := by
  obtain ⟨es, ht, hP⟩ := h
  rw [hm, List.append_nil] at ht
  rw [ht]
  exact hP

theorem Loaded.of_computes (hsep : Separated place) {k : Nat} (hk : k < 9) {core : Core F}
    {reads : Set (Ptr MemName)} {t : Tensor F}
    {m' : Machine (Ptr MemName) (Word F) (Access MemName)} (h : Loaded place weights core)
    (hc : Computes (view place (dest (k + 1))) reads t core.machine m') :
    Ready place weights (k + 1) t { core with machine := m' } := by
  refine ⟨⟨h.hub, ?_⟩, hc.holds⟩
  intro w hw x y z v hin
  have hd : Disjoint (view place (dest (k + 1))).region (view place w).region :=
    disjoint_region (hsep.weights w hw k hk)
  have hkeep := hc.frame ((view place w).addr x y z v)
    (Set.disjoint_right.mp hd (Memory.addr_mem_region hin))
  exact (congrArg Word.toFloat hkeep).trans (h.weights w hw x y z v hin)

/-- Cells outside the weight buffers may change. -/
theorem Loaded.of_heap {core core' : Core F} (h : Loaded place weights core)
    (hhub : core'.memhub = core.memhub)
    (hheap : ∀ w ∈ weightNames, ∀ p, p.buf = (place w).buf →
      core'.machine.heap p = core.machine.heap p) : Loaded place weights core' := by
  refine ⟨hhub ▸ h.hub, ?_⟩
  intro w hw x y z v hin
  have hkeep := hheap w hw ((view place w).addr x y z v) rfl
  exact (congrArg Word.toFloat hkeep).trans (h.weights w hw x y z v hin)

/-- What holds between the runs of a session. -/
def Progress (place : Place) (weights : MemName → Tensor F) (image : Nat → UInt8) (k : Nat)
    (core : Core F) : Prop :=
  match k with
  | 0 => Loaded place weights core ∧
      ∀ j < 784, readByte core.machine.heap AIChip.mem2 j = image j
  | 10 => Loaded place weights core ∧ core.outputIndex = predict weights image ∧
      readByte core.machine.heap AIChip.mem1 0 = UInt8.ofInt (predict weights image)
  | k => Ready place weights k (network weights image k) core

private theorem observe_computes {u : Simd F} (hsep : Separated place) {k : Nat} (hk : k < 9)
    {t : Tensor F} {chip : AIChip (Core F)} (h : Loaded place weights chip.core)
    (hstage : StageComputes u place (k + 1) t { chip.core with machine.trace := [] }) :
    ∃ r chip', (observe u (k + 1)).run chip = some (r, chip') ∧ r.Confined place ∧
      Ready place weights (k + 1) t chip'.core := by
  obtain ⟨cycles, m', hrun, hc⟩ := hstage
  refine ⟨_, _, observe_of_stage hrun, ?_, ?_⟩
  · have hwrites : stageWrites place (k + 1) = (view place (dest (k + 1))).region := by
      interval_cases k <;> rfl
    unfold StageRun.Confined
    rw [hwrites]
    exact ⟨events_of_extends hc.trace rfl, hc.frame⟩
  · have hloaded : Loaded place weights { chip.core with machine.trace := [] } :=
      ⟨h.hub, h.weights⟩
    exact hloaded.of_computes hsep hk hc

private theorem observe_step (u : Simd F) (hu : u.Exact) (hsep : Separated place)
    {image : Nat → UInt8}
    {k : Nat} (hk : k < 10) {chip : AIChip (Core F)} (h : Progress place weights image k chip.core) :
    ∃ r chip', (observe u (k + 1)).run chip = some (r, chip') ∧ r.Confined place ∧
      Progress place weights image (k + 1) chip'.core := by
  cases k with
  | zero =>
      have hloaded : Loaded place weights { chip.core with machine.trace := [] } :=
        ⟨h.1.hub, h.1.weights⟩
      exact observe_computes hsep (by decide) h.1 (stage_input u hsep hloaded h.2)
  | succ k =>
      by_cases hlast : k = 8
      · subst hlast
        have hready : Ready place weights 9 (network weights image 9)
            { chip.core with machine.trace := [] } := ⟨⟨h.hub, h.weights⟩, h.live⟩
        obtain ⟨m', hrun, hheap, htrace⟩ := stage_output u hready
        refine ⟨_, _, observe_of_stage hrun, ⟨events_of_extends htrace rfl, ?_⟩, ?_, rfl, ?_⟩
        · intro p hp
          simp only [hheap]
          exact writeByte_other _ _ _ _ _ hp
        · refine h.toLoaded.of_heap ?_ ?_
          · rfl
          intro w hw p hp
          simp only [hheap]
          apply writeByte_other
          intro he
          exact (hsep.host w hw).1 (hp.symm.trans (congrArg Ptr.buf he))
        · simp only [hheap, readByte_writeByte]
          rfl
      · have hk' : k < 8 := by omega
        have hready : Ready place weights (k + 1) (network weights image (k + 1)) chip.core := by
          interval_cases k <;> exact h
        have hcleared : Ready place weights (k + 1) (network weights image (k + 1))
            { chip.core with machine.trace := [] } :=
          ⟨⟨hready.hub, hready.weights⟩, hready.live⟩
        have hstage := stage_layer u hu hsep hk' hcleared
        obtain ⟨r, chip', hrun, hconf, hnext⟩ :=
          observe_computes hsep (by omega) hready.toLoaded hstage
        refine ⟨r, chip', hrun, hconf, ?_⟩
        interval_cases k <;> exact hnext

private theorem observe_init (u : Simd F) {chip : AIChip (Core F)}
    (h : Loaded place weights chip.core) :
    ∃ r chip', (observe u 0).run chip = some (r, chip') ∧ r.Confined place ∧
      Loaded place weights chip'.core := by
  have hhub : Serves place ({ chip.core with machine.trace := [] } : Core F).memhub := h.hub
  obtain ⟨m', hrun, hheap, htrace⟩ := stage_init u hhub
  refine ⟨_, _, observe_of_stage hrun, ⟨events_of_extends htrace rfl, ?_⟩, ?_⟩
  · intro p _
    exact congrFun hheap p
  · refine h.of_heap ?_ ?_
    · rfl
    intro w _ p _
    exact congrFun hheap p

end Step

section Sessions

variable {place : Place} {weights : MemName → Tensor F}

structure Outcome.Correct (place : Place) (weights : MemName → Tensor F) (image : Nat → UInt8)
    (r : Outcome F) : Prop where
  outputIndex : r.outputIndex = predict weights image
  byte : r.byte = UInt8.ofInt (predict weights image)
  confined : ∀ x ∈ r.runs, x.Confined place

private theorem idle_spec (u : Simd F) (n : Nat) {chip : AIChip (Core F)}
    (h : Loaded place weights chip.core) :
    ∃ rs chip', ((List.replicate n 0).mapM (observe u)).run chip = some (rs, chip') ∧
      (∀ r ∈ rs, r.Confined place) ∧ Loaded place weights chip'.core := by
  obtain ⟨rs, chip', hrun, hP, hend⟩ := mapM_run
    (fun l chip => (∀ j ∈ l, j = 0) ∧ Loaded place weights chip.core)
    (fun _ r => r.Confined place) (observe u)
    (fun j l chip hI => by
      obtain ⟨hzero, hloaded⟩ := hI
      rw [hzero j List.mem_cons_self]
      obtain ⟨r, chip', hrun, hconf, hnext⟩ := observe_init u hloaded
      exact ⟨r, chip', hrun, hconf, fun i hi => hzero i (List.mem_cons_of_mem j hi), hnext⟩)
    (List.replicate n 0) chip ⟨fun j hj => List.eq_of_mem_replicate hj, h⟩
  refine ⟨rs, chip', hrun, ?_, hend.2⟩
  intro r hr
  obtain ⟨_, hconf⟩ := forall₂_mem_right hP r hr
  exact hconf

private theorem counters_spec (u : Simd F) (hu : u.Exact) (hsep : Separated place)
    {image : Nat → UInt8} {chip : AIChip (Core F)} (h : Progress place weights image 0 chip.core) :
    ∃ rs chip', ((List.range' 1 10).mapM (observe u)).run chip = some (rs, chip') ∧
      (∀ r ∈ rs, r.Confined place) ∧ Progress place weights image 10 chip'.core := by
  obtain ⟨rs, chip', hrun, hP, k, hk, hempty, hend⟩ := mapM_run
    (fun l chip => ∃ k ≤ 10, l = List.range' (k + 1) (10 - k) ∧
      Progress place weights image k chip.core)
    (fun _ r => r.Confined place) (observe u)
    (fun j l chip hI => by
      obtain ⟨k, hk, hl, hprog⟩ := hI
      have hlt : k < 10 := by
        by_contra hge
        simp [show 10 - k = 0 by omega] at hl
      rw [show 10 - k = (10 - (k + 1)) + 1 by omega, List.range'_succ] at hl
      injection hl with hj hl
      obtain ⟨r, chip', hrun, hconf, hnext⟩ := observe_step u hu hsep hlt hprog
      exact ⟨r, chip', hj ▸ hrun, hconf, k + 1, hlt, hl, hnext⟩)
    (List.range' 1 10) chip ⟨0, by decide, rfl, h⟩
  obtain rfl : k = 10 := by
    have hlen := congrArg List.length hempty
    simp at hlen
    omega
  refine ⟨rs, chip', hrun, ?_, hend⟩
  intro r hr
  obtain ⟨_, hconf⟩ := forall₂_mem_right hP r hr
  exact hconf

/-- A session on a chip that holds the weights reports the class of its image. -/
theorem session_spec (u : Simd F) (hu : u.Exact) (hsep : Separated place) {chip : AIChip (Core F)}
    (h : Loaded place weights chip.core) (s : Session) :
    ∃ r chip', (session u s).run chip = some (r, chip') ∧ r.Correct place weights s.image ∧
      Loaded place weights chip'.core := by
  obtain ⟨idle, chip₁, hidle, hconf₁, hloaded⟩ := idle_spec u s.inits h
  let chip₂ : AIChip (Core F) :=
    { chip₁ with core := (AIChip.ops u).writeMem .mem2 0 784 s.image chip₁.core }
  have hstart : Progress place weights s.image 0 chip₂.core := by
    constructor
    · refine hloaded.of_heap ?_ ?_
      · rfl
      intro w hw p hp
      exact memcpy_other_buf _ _ _ _ _ _ fun he => (hsep.host w hw).2 (hp.symm.trans he)
    · intro j hj
      have hread := readByte_memcpy chip₁.core.machine.heap AIChip.mem2 0 784 j s.image
      rw [if_pos ⟨Nat.zero_le j, by omega⟩] at hread
      exact hread
  obtain ⟨runs, chip₃, hruns, hconf₂, hend⟩ := counters_spec u hu hsep hstart
  obtain ⟨hlast, hindex, hbyte⟩ := hend
  refine ⟨⟨chip₃.core.outputIndex, (AIChip.ops u).readMem .mem1 chip₃.core 0, idle ++ runs⟩, chip₃,
    ?_, ⟨hindex, hbyte, ?_⟩, hlast⟩
  · simp only [session, StateT.run_bind, hidle, Option.bind_eq_bind, Option.bind_some]
    simp only [StateT.run_modify, Option.pure_def, Option.bind_some]
    change (((List.range' 1 10).mapM (observe u)).run chip₂).bind _ = _
    rw [hruns]
    rfl
  · intro x hx
    cases List.mem_append.mp hx with
    | inl hx => exact hconf₁ x hx
    | inr hx => exact hconf₂ x hx

theorem sessions_spec (u : Simd F) (hu : u.Exact) (hsep : Separated place)
    {chip : AIChip (Core F)} (h : Loaded place weights chip.core) (ss : List Session) :
    ∃ rs chip', (ss.mapM (session u)).run chip = some (rs, chip') ∧
      List.Forall₂ (fun s r => r.Correct place weights s.image) ss rs := by
  obtain ⟨rs, chip', hrun, hP, -⟩ := mapM_run (fun _ chip => Loaded place weights chip.core)
    (fun s r => r.Correct place weights s.image) (session u)
    (fun s _ chip hI => session_spec u hu hsep hI s) ss chip h
  exact ⟨rs, chip', hrun, hP⟩

/-- The weights a heap holds under the placement of `op_init`. -/
def weightsIn (heap : Heap MemName F) (w : MemName) : Tensor F := (view aliased w).value heap

/-- The core after `op_init`. -/
def initCore (heap : Heap MemName F) : Core F where
  memhub := aliasedHub
  machine := ⟨heap, [.getPtr (view aliased .activationMem2) 0 0 0 0,
    .getPtr (view aliased .activationMem1) 0 0 0 0,
    .getPtr (view aliased .weightAndBiasMem) 0 0 0 0]⟩

theorem stage_first (u : Simd F) (tickPerCycle : Nat) (heap : Heap MemName F) :
    (AIChip.stage u 0).run (AIChip.new tickPerCycle heap).core =
      some ((1, false), initCore heap) := by
  simp [AIChip.stage, Core.opInit, Core.run_getMemory_eq, AIChip.new, AIChip.baseHub,
    MemHub.addMemory, MemHub.getMemory_emplace]
  rfl

/-- The first `op_init` puts the views in place and touches no memory. -/
theorem first_init (u : Simd F) (tickPerCycle : Nat) (heap : Heap MemName F) :
    ∃ r chip, (observe u 0).run (AIChip.new tickPerCycle heap) = some (r, chip) ∧
      r.Confined aliased ∧ Loaded aliased (weightsIn heap) chip.core := by
  have hstage := stage_first u tickPerCycle heap
  have hrun := @observe_of_stage F _ _ _ u 0 _ _ (AIChip.new tickPerCycle heap) _ hstage
  refine ⟨_, _, hrun, ⟨?_, ?_⟩, ?_⟩
  · intro e he
    simp only [initCore, List.mem_cons, List.not_mem_nil, or_false] at he
    rcases he with rfl | rfl | rfl <;> simp [OpAccess, Memory.InShape, view, shape]
  · intro p _
    rfl
  · exact ⟨aliasedHub_serves, fun w _ x y z v _ => rfl⟩

end Sessions

end ModernArch.SimpleCNN
