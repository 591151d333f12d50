import ModernArch.BinNet.Session
import ModernArch.Framework.Binary32
import ModernArch.Vdev.Layout
import ModernArch.Vdev.Sequential

/-!
# The BinNet driver on the device

The calls of `main` in their order, made through the machine of the driver.
-/

namespace ModernArch.BinNet
open Framework Vdev Vdev.Driver
set_option linter.unusedSectionVars false

variable {F : Type} [Field F] [FloatModel F] [LinearOrder F]

def loadCalls (loadOnce : Bool) (files : ModelFiles) : List Call :=
  .periInit 0 :: writeCalls (2 + 1024 * 1024 * 2) (payload loadOnce files)

/-- One pass of the image loop. -/
def imageCalls (image : Nat → UInt8) : List Call :=
  .periWrite (2 + 1024 * 1024) image 784 ::
    ((List.range' 1 7).map fun j => .periInit (UInt8.ofNat j)) ++ [.periIsFinished, .periRead 2 1]

def mainCalls (loadOnce : Bool) (files : ModelFiles) (images : List (Nat → UInt8)) : List Call :=
  loadCalls loadOnce files ++ images.flatMap imageCalls

def lawfulOps : LawfulOps (Chip F) where
  toChipOps := AIChip.ops
  write_nil _ _ _ _ := rfl
  write_split d off n m src c := by
    simp only [AIChip.ops, memcpy_split]
  write_congr d off n src src' c h := by
    simp only [AIChip.ops, memcpy_congr h]

private theorem window_image {k : Nat} (hk : k < 784) :
    window (2 + 1024 * 1024 + k) = (.mem2, k) := by
  rw [window, if_neg (by omega), if_pos (by omega)]
  exact congrArg (Prod.mk DataMem.mem2) (by omega)

private theorem imageCalls_inWindow (image : Nat → UInt8) : ∀ c ∈ imageCalls image, c.InWindow := by
  intro c hc
  simp only [imageCalls, List.cons_append, List.mem_cons, List.mem_append, List.mem_map,
    List.not_mem_nil, or_false] at hc
  rcases hc with rfl | ⟨j, -, rfl⟩ | rfl | rfl
  · refine ⟨by decide, fun k hk => ?_⟩
    have hfirst := window_image (show 0 < 784 by decide)
    rw [Nat.add_zero] at hfirst
    rw [window_image hk, hfirst]
  all_goals trivial

/-- `periIsFinished` is called after counter 7, with `last` the counter before. -/
def Asserts : Option UInt8 → List Call → Prop
  | _, [] => True
  | _, .periInit counter :: cs => Asserts (some counter) cs
  | last, .periIsFinished :: cs => last = some 7 ∧ Asserts last cs
  | last, .periWrite _ _ _ :: cs | last, .periRead _ _ :: cs => Asserts last cs

theorem Asserts.last {last : Option UInt8} {cs : List Call} (h : Asserts last cs) {pre : List Call}
    (hp : pre ++ [.periIsFinished] <+: cs) : (inits pre).getLast?.or last = some 7 := by
  induction pre generalizing last cs with
  | nil =>
      obtain ⟨rest, rfl⟩ := hp
      exact h.1
  | cons c pre ih =>
      obtain ⟨rest, rfl⟩ := hp
      have hrest : pre ++ [.periIsFinished] <+: pre ++ [.periIsFinished] ++ rest :=
        List.prefix_append _ _
      cases c with
      | periInit counter =>
          have htail : Asserts (some counter) (pre ++ [.periIsFinished] ++ rest) := h
          have hlast := ih htail hrest
          change (counter :: inits pre).getLast?.or last = some 7
          rw [List.getLast?_cons]
          cases hpre : (inits pre).getLast? <;> simpa [hpre] using hlast
      | periIsFinished => exact ih h.2 hrest
      | periWrite offset src len =>
          have htail : Asserts last (pre ++ [.periIsFinished] ++ rest) := h
          exact ih htail hrest
      | periRead offset len =>
          have htail : Asserts last (pre ++ [.periIsFinished] ++ rest) := h
          exact ih htail hrest

private theorem asserts_writeCalls (last : Option UInt8) (off : Nat) (bs : List Block)
    (cs : List Call) (h : Asserts last cs) : Asserts last (writeCalls off bs ++ cs) := by
  induction bs generalizing off with
  | nil => exact h
  | cons b bs ih => exact ih (off + b.size)

private theorem asserts_images (last : Option UInt8) (images : List (Nat → UInt8)) :
    Asserts last (images.flatMap imageCalls) := by
  induction images generalizing last with
  | nil => trivial
  | cons image images ih => exact ⟨rfl, ih (some 7)⟩

private theorem asserts_main (loadOnce : Bool) (files : ModelFiles) (images : List (Nat → UInt8)) :
    Asserts none (mainCalls loadOnce files images) :=
  asserts_writeCalls _ _ _ _ (asserts_images _ _)

private theorem apply_init (tickPerCycle : Nat) (loadOnce : Bool) (array : RramArray F)
    (heap : Heap MemName F) :
    (Call.periInit 0).apply AIChip.ops (AIChip.new tickPerCycle loadOnce array heap) =
      some ⟨tickPerCycle, false, 0, initChip loadOnce array heap⟩ := by
  have hrun := @Vdev.AIChip.runCounter_of_stage _ AIChip.ops
    (AIChip.new tickPerCycle loadOnce array heap) 0 _ _ _
    (stage_init tickPerCycle loadOnce array heap)
  rw [Call.apply, hrun]
  rfl

theorem apply_load (tickPerCycle : Nat) (loadOnce : Bool) (array : RramArray F)
    (heap : Heap MemName F) (bs : List Block) :
    applyAll AIChip.ops (.periInit 0 :: writeCalls (2 + 1024 * 1024 * 2) bs)
        (AIChip.new tickPerCycle loadOnce array heap) =
      some ⟨tickPerCycle, false, 0, initChip loadOnce array (sendAll AIChip.mem3 heap 0 bs)⟩ := by
  have hwrites := applyAll_writeCalls AIChip.ops window_weights 0 bs
    ⟨tickPerCycle, false, 0, initChip loadOnce array heap⟩
  rw [writeAll_eq, Nat.add_zero] at hwrites
  rw [applyAll, List.foldlM_cons, apply_init, Option.bind_eq_bind, Option.bind_some]
  exact hwrites

def namedBlocks (fc : FcName) (a : LayerArrays) : List (MemName × Block) :=
  [(.fcWeight fc, gridBlock a.fcW), (.bnBias fc, rowBlock a.bnB), (.bnWeight fc, rowBlock a.bnW),
    (.bnVar fc, rowBlock a.bnVar), (.bnMean fc, rowBlock a.bnMean)]

def layerNames (fc : FcName) : List MemName :=
  [.fcWeight fc, .bnBias fc, .bnWeight fc, .bnVar fc, .bnMean fc]

def weightNames : List MemName := layerNames .fc1 ++ layerNames .fc2 ++ layerNames .fc3

/-- What `main` sends of its arrays, with the names the chip has for them. -/
def sent (loadOnce : Bool) (separate : FcName → LayerArrays) (merged : LayerArrays) :
    List (MemName × Block) :=
  if loadOnce then namedBlocks .fc1 merged
  else namedBlocks .fc1 (separate .fc1) ++ namedBlocks .fc2 (separate .fc2) ++
    namedBlocks .fc3 (separate .fc3)

/-- The load phase of a driver with these arrays. -/
def sendCalls (loadOnce : Bool) (separate : FcName → LayerArrays) (merged : LayerArrays) :
    List Call :=
  .periInit 0 :: writeCalls (2 + 1024 * 1024 * 2) ((sent loadOnce separate merged).map Prod.snd)

private theorem loadCalls_eq (loadOnce : Bool) (files : ModelFiles) :
    loadCalls loadOnce files =
      sendCalls loadOnce (separateArrays files) (mergedArrays files) := by
  cases loadOnce <;> rfl

theorem sent_names (loadOnce : Bool) (separate : FcName → LayerArrays) (merged : LayerArrays) :
    (sent loadOnce separate merged).map Prod.fst =
      if loadOnce then layerNames .fc1 else weightNames := by
  cases loadOnce <;> rfl

theorem sendCalls_inWindow (loadOnce : Bool) (separate : FcName → LayerArrays)
    (merged : LayerArrays) : ∀ c ∈ sendCalls loadOnce separate merged, c.InWindow := by
  intro c hc
  rcases List.mem_cons.mp hc with rfl | hc
  · trivial
  · exact writeCalls_inWindow (by decide) window_weights 0 _ c hc

theorem mainCalls_inWindow (loadOnce : Bool) (files : ModelFiles) (images : List (Nat → UInt8)) :
    ∀ c ∈ mainCalls loadOnce files images, c.InWindow := by
  intro c hc
  rcases List.mem_append.mp hc with hc | hc
  · rw [loadCalls_eq] at hc
    exact sendCalls_inWindow _ _ _ c hc
  · obtain ⟨image, -, hc⟩ := List.mem_flatMap.mp hc
    exact imageCalls_inWindow image c hc

private theorem namedBlocks_size (fc : FcName) (a : LayerArrays) :
    ∀ p ∈ namedBlocks fc a, (p.2.size : Int) = (view p.1).byteLen := by
  simp [namedBlocks, gridBlock, rowBlock, view, viewLen, Memory.byteLen, Memory.wzyxLen,
    Memory.wzyLen, Memory.wzLen]

theorem load_delivers (loadOnce : Bool) (separate : FcName → LayerArrays) (merged : LayerArrays)
    (heap : Heap MemName F) :
    Delivered initHub (sendAll AIChip.mem3 heap 0 ((sent loadOnce separate merged).map Prod.snd))
      .weightAndBiasMem weightNames (sent loadOnce separate merged) := by
  have hlaid : Laid AIChip.mem3 0 (weightNames.map view) := by decide
  have hnames : (sent loadOnce separate merged).map Prod.fst <+: weightNames := by
    rw [sent_names]
    cases loadOnce <;> decide
  refine hlaid.delivers initHub_serves rfl (by decide) hnames ?_ heap
  intro p hp
  cases loadOnce with
  | true => exact namedBlocks_size _ _ p hp
  | false =>
      rcases List.mem_append.mp hp with hp | hp
      · rcases List.mem_append.mp hp with hp | hp <;> exact namedBlocks_size _ _ p hp
      · exact namedBlocks_size _ _ p hp

/-- Whatever the operation does, it leaves this flag. -/
def Leaves (done : Bool) (x : ChipM F (Nat × Bool)) : Prop :=
  ∀ chip r, x.run chip = some r → r.1.2 = done

private theorem leaves_pure (n : Nat) (done : Bool) : Leaves done (pure (n, done) : ChipM F _) := by
  intro chip r h
  cases h
  rfl

theorem Leaves.bind {α : Type} {done : Bool} {x : ChipM F α} {f : α → ChipM F (Nat × Bool)}
    (h : ∀ a, Leaves done (f a)) : Leaves done (x >>= f) := by
  intro chip r hr
  rw [StateT.run_bind, Option.bind_eq_bind, Option.bind_eq_some_iff] at hr
  obtain ⟨p, -, hp⟩ := hr
  exact h p.1 p.2 r hp

/-- Only the output stage finishes a computation. -/
theorem stage_leaves (counter : UInt8) :
    Leaves (counter == 7) (AIChip.stage counter : ChipM F (Nat × Bool)) := by
  refine Leaves.bind fun chip => ?_
  split
  case h_9 h₀ h₁ h₂ h₃ h₄ h₅ h₆ h₇ =>
      have hno : (counter == 7) = false := beq_eq_false_iff_ne.mpr h₇
      rw [hno]
      exact leaves_pure 0 false
  case h_3 | h_8 => exact Leaves.bind fun _ => Leaves.bind fun _ => leaves_pure _ _
  all_goals exact Leaves.bind fun _ => leaves_pure _ _

private theorem run_finished (chip : Vdev.AIChip (Chip F)) (t : Nat) (chip' : Vdev.AIChip (Chip F))
    (h : (Vdev.AIChip.run AIChip.ops).run chip = some (t, chip')) :
    chip'.finished = (chip.counter == 7) := by
  change ((AIChip.stage chip.counter).run chip.core).bind _ = _ at h
  obtain ⟨r, hr, hchip⟩ := Option.bind_eq_some_iff.mp h
  cases hchip
  exact stage_leaves chip.counter chip.core r hr

/-- While only `periInit` starts the device, every request is accepted and runs once with its
counter, `periInit` returns after the interrupt of its run, data memory is touched while the
device rests, and the assertion in the image loop of `main` holds. -/
theorem handshake {C : Type} (ops : ChipOps C) (chip : Vdev.AIChip C) {ls : List (Label C)}
    {m : Machine C} (h : Run (Step ops) (boot chip) ls m) (hcalls : ∀ c ∈ calls ls, ¬ c.Starts) :
    runs ls ++ m.pc.pending = inits (calls ls) ∧
    (∀ l ∈ ls, l.discarded = false ∧ l.races = false) ∧
    (∀ es c result, es ++ [.ret c result] <+: ls →
      calls es = rets es ++ [c] ∧ runs es = inits (calls es) ∧
        interrupts es = (runs es).length) ∧
    ∀ (tickPerCycle : Nat) (loadOnce : Bool) (array : RramArray F) (heap : Heap MemName F)
      (files : ModelFiles) (images : List (Nat → UInt8)) (log : List (Label (Chip F)))
      (last : Machine (Chip F)),
      Run (Step AIChip.ops) (boot (AIChip.new tickPerCycle loadOnce array heap)) log last →
      calls log <+: mainCalls loadOnce files images →
      ∀ b, .ret .periIsFinished b ∈ log → b = true := by
  have hinv := run_inv h hcalls
  refine ⟨hinv.requested, hinv.safe, ?_, ?_⟩
  · intro es c result hret
    obtain ⟨hcall, hruns, hinterrupts, -⟩ := returned h hcalls hret
    exact ⟨hcall, hruns, hinterrupts⟩
  · intro tickPerCycle loadOnce array heap files images log last hrun hmain b hmem
    have hstarts : ∀ c ∈ calls log, ¬ c.Starts := fun c hc =>
      (mainCalls_inWindow loadOnce files images c (hmain.subset hc)).not_starts
    obtain ⟨es, fs, rfl⟩ := List.append_of_mem hmem
    have hret : es ++ [.ret .periIsFinished b] <+: es ++ .ret .periIsFinished b :: fs :=
      ⟨fs, by simp⟩
    obtain ⟨hcall, hruns, -, hresult⟩ := returned hrun hstarts hret
    obtain ⟨t, hes⟩ := hrun.of_prefix ((List.prefix_append es _).trans hret)
    have hpre : rets es ++ [.periIsFinished] <+: mainCalls loadOnce files images := by
      rw [← hcall]
      exact ((List.prefix_append es _).filterMap _).trans hmain
    have hseven := (asserts_main loadOnce files images).last hpre
    rw [Option.or_none] at hseven
    have hinits : inits (calls es) = inits (rets es) := by
      rw [hcall, inits, List.filterMap_append]
      simp [inits, Call.counter]
    have hfinished := @finished_eq _ _ _ _ _ (fun counter => counter == 7) run_finished hes
    rw [hresult rfl, hfinished, hruns, hinits, hseven]
    rfl

def zeroChip : Vdev.AIChip (Chip ℚ) :=
  AIChip.new 1 false
    ⟨fun _ => 1, 0, fun _ _ => 0, fun _ _ => 0, fun _ => 0, fun _ => 0, fun _ => 0, fun _ => 0⟩
    fun _ => .float 0

/-- A call of each kind, and two runs of the chip. -/
def everyCall : List Call :=
  [.periInit 0, .periWrite 2 (fun k => UInt8.ofNat k) 4, .periInit 8, .periIsFinished,
    .periRead 2 4]

theorem handshake_every : ∃ ls m, Run (Step AIChip.ops) (boot zeroChip) ls m ∧
    calls ls = everyCall ∧ runs ls = [0, 8] ∧ ∀ l ∈ ls, l.discarded = false ∧ l.races = false := by
  have hin : ∀ c ∈ everyCall, c.InWindow := by
    simp only [everyCall, List.forall_mem_cons, List.not_mem_nil, false_implies, implies_true,
      and_true, Call.InWindow, true_and]
    decide
  obtain ⟨now, hnow⟩ : ∃ now, applyAll AIChip.ops everyCall zeroChip = some now := by
    rw [applyAll, everyCall, List.foldlM_cons, zeroChip, apply_init]
    exact ⟨_, rfl⟩
  obtain ⟨ls, dev, cpu, hrun, hcalls, -⟩ := exists_run lawfulOps hin hnow
  have hstarts : ∀ c ∈ calls ls, ¬ c.Starts := fun c hc => (hin c (hcalls ▸ hc)).not_starts
  obtain ⟨hruns, hsafe, -⟩ := handshake (F := ℚ) AIChip.ops zeroChip hrun hstarts
  rw [hcalls] at hruns
  exact ⟨ls, _, hrun, hcalls, (List.append_nil _).symm.trans hruns, hsafe⟩

/-- A driver that writes the start bit with `periWrite` has its next `periInit` discarded. -/
theorem handshake_broken : ∃ ls m, Run (Step AIChip.ops) (boot zeroChip) ls m ∧
    calls ls = [.periWrite 0 (fun _ => vdevSet) 1, .periInit 0] ∧
    ∃ l ∈ ls, l.discarded = true := by
  let dev := (boot zeroChip).dev
  let cpu := (boot zeroChip).cpu
  have hdev : InStep cpu 0 dev none := (boot_inv zeroChip).device
  have hidle := InStep.idle hdev rfl
  have hcall := Run.snoc Run.nil
    (@Step.call _ AIChip.ops (.periWrite 0 (fun _ => vdevSet) 1) dev cpu)
  obtain ⟨l, hl, hpoll⟩ := @poll_ready _ AIChip.ops _ _ _ _
    (.periWrite 0 (fun _ => vdevSet) 1) hdev rfl
  have hpolled := hcall.snoc hpoll
  rcases hdev.start AIChip.ops hidle (InStep.registered hdev) with hfault | ⟨aichip, hok, -⟩
  · have hrun : (Vdev.AIChip.run AIChip.ops).run dev.aichip = some (1, _) :=
      @Vdev.AIChip.runCounter_of_stage _ AIChip.ops dev.aichip 0 _ _ _ (stage_init 1 false _ _)
    simp only [Vdev.start, hrun] at hfault
    cases hfault
  · have hset : Packet.requests ⟨false, true, 0 + 0, 1, fun _ => vdevSet⟩ :=
      ⟨rfl, rfl, rfl, by decide⟩
    have haccess : access AIChip.ops ⟨false, true, 0 + 0, 1, fun _ => vdevSet⟩ dev cpu =
        .ok ⟨fun _ => vdevSet, ⟨dev.id, aichip, .active, true, vdevWork⟩,
          cpu.virtualDeviceStart 0⟩ := by
      rw [access_request hset, if_pos hidle, hok]
      rfl
    have hcopied := hpolled.snoc (Step.access (Issues.copyOut Nat.one_pos le_rfl) haccess)
    have hreturned := hcopied.snoc (Step.ret _ _ (.write 0 (fun _ => vdevSet) 1))
    have hagain := hreturned.snoc (Step.call (.periInit 0) _ _)
    have hstored := hagain.snoc (Step.access (Issues.storeCounter 0) rfl)
    have hworking : vdevWork &&& vdevWork ≠ 0 := by decide
    have hdiscarded := hstored.snoc (Step.access (Issues.storeInit 0)
      ((access_request storeInit_requests _ _).trans (if_neg hworking)))
    refine ⟨_, _, hdiscarded, ?_, _, List.mem_append_right _ (List.mem_singleton_self _),
      discarded_iff.mpr ⟨storeInit_requests, hworking⟩⟩
    simp only [calls_snoc, called_call, called_access, called_ret, hl, Option.toList_some,
      Option.toList_none, List.append_nil]
    rfl

end ModernArch.BinNet
