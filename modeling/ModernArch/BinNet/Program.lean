import ModernArch.BinNet.ReadBack
import ModernArch.Vdev.Answers

/-!
# The BinNet program

`main` on the machine of its driver returns what the main loop over the chip computes.
-/

namespace ModernArch.BinNet
open Framework Vdev Vdev.Driver
set_option linter.unusedSectionVars false

variable {F : Type} [Field F] [FloatModel F] [LinearOrder F]

def imageAnswers (p : Int) : List Answer :=
  List.replicate 8 .unit ++ [.finished true, .bytes [UInt8.ofInt p]]

/-- What the calls of `main` return where the chip computes these classes. -/
def mainAnswers (loadOnce : Bool) (files : ModelFiles) (ps : List Int) : List Answer :=
  List.replicate (loadCalls loadOnce files).length .unit ++ ps.flatMap imageAnswers

theorem readBytes_main (loadOnce : Bool) (files : ModelFiles) (ps : List Int) :
    readBytes (mainAnswers loadOnce files ps) = ps.map UInt8.ofInt := by
  rw [mainAnswers, readBytes_append, readBytes_units, List.nil_append]
  induction ps with
  | nil => rfl
  | cons p ps ih =>
      rw [List.flatMap_cons, readBytes_append, ih, imageAnswers, readBytes_append, readBytes_units]
      rfl

private theorem mainCalls_reads (loadOnce : Bool) (files : ModelFiles)
    (images : List (Nat → UInt8)) :
    ∀ c ∈ mainCalls loadOnce files images, c.InWindow ∧ c.ReadsWindow := by
  intro c hc
  refine ⟨mainCalls_inWindow loadOnce files images c hc, ?_⟩
  rcases List.mem_append.mp hc with hc | hc
  · rcases List.mem_cons.mp hc with rfl | hc
    · trivial
    · exact (writeCalls_quiet _ _ c hc).readsWindow
  · obtain ⟨image, -, hc⟩ := List.mem_flatMap.mp hc
    simp only [imageCalls, List.cons_append, List.mem_cons, List.mem_append, List.mem_map,
      List.not_mem_nil, or_false] at hc
    rcases hc with rfl | ⟨j, -, rfl⟩ | rfl | rfl
    · trivial
    · trivial
    · trivial
    · refine ⟨le_rfl, fun k hk => ?_⟩
      rw [Nat.lt_one_iff.mp hk, Nat.add_zero]

theorem image_exec {image : Nat → UInt8} {s : Rest (Chip F)} {chip : Vdev.AIChip (Chip F)}
    {p : Int} (h : (classify image).run s.chip = some (p, chip)) :
    ∃ flag, (execAll AIChip.ops (imageCalls image)).run s =
      some (imageAnswers p, ⟨chip, flag⟩) := by
  obtain ⟨hfinished, -, hbyte⟩ := classify_byte h
  let written : Vdev.AIChip (Chip F) :=
    { s.chip with core := AIChip.ops.writeMem .mem2 0 784 image s.chip.core }
  have hclassify : (classify image).run s.chip =
      (((List.range' 1 7).mapM fun j =>
        Vdev.AIChip.runCounter AIChip.ops (UInt8.ofNat j)).run written).bind fun r =>
          some (r.2.core.core.outputIndex, r.2) := rfl
  rw [hclassify] at h
  obtain ⟨⟨ts, chip'⟩, hrun, h⟩ := Option.bind_eq_some_iff.mp h
  cases h
  have happly : (Call.periWrite (2 + 1024 * 1024) image 784).apply AIChip.ops s.chip =
      some written := by
    rw [Call.apply, ← Nat.add_zero (2 + 1024 * 1024), window_images (by decide)]
  obtain ⟨flag, hcounters, hflag⟩ := execAll_counters UInt8.ofNat
    (s := ⟨written, s.flag⟩) hrun
  have hasked := execAll_snoc hcounters (c := .periIsFinished) rfl
  have hread := execAll_snoc hasked (c := .periRead 2 1) rfl
  have hcalls : imageCalls image = [.periWrite (2 + 1024 * 1024) image 784] ++
      (((List.range' 1 7).map fun j => .periInit (UInt8.ofNat j)) ++ [.periIsFinished] ++
        [.periRead 2 1]) := by
    rw [imageCalls, List.append_assoc]
    rfl
  have hfetch : fetch AIChip.ops chip' 2 1 = [UInt8.ofInt chip'.core.core.outputIndex] := by
    rw [← hbyte]
    rfl
  have htrue : flag = true := (hflag (by decide)).trans hfinished
  refine ⟨flag, ?_⟩
  rw [hcalls, execAll_append (execAll_single happly)]
  change ((execAll AIChip.ops _).run ⟨written, s.flag⟩).map _ = _
  rw [hread]
  simp only [Call.answer, htrue, hfetch]
  rfl

theorem images_exec (images : List (Nat → UInt8)) {s : Rest (Chip F)}
    {chip : Vdev.AIChip (Chip F)} {ps : List Int}
    (h : (images.mapM classify).run s.chip = some (ps, chip)) :
    ∃ flag, (execAll AIChip.ops (images.flatMap imageCalls)).run s =
      some (ps.flatMap imageAnswers, ⟨chip, flag⟩) := by
  induction images generalizing s ps with
  | nil =>
      cases h
      exact ⟨s.flag, rfl⟩
  | cons image images ih =>
      rw [List.mapM_cons, StateT.run_bind, Option.bind_eq_bind, Option.bind_eq_some_iff] at h
      obtain ⟨⟨p, chip₁⟩, hclass, h⟩ := h
      rw [StateT.run_bind, Option.bind_eq_bind, Option.bind_eq_some_iff] at h
      obtain ⟨⟨rest, chip₂⟩, hrest, h⟩ := h
      cases h
      obtain ⟨flag₁, hfirst⟩ := image_exec hclass
      obtain ⟨flag, hexec⟩ := ih (s := ⟨chip₁, flag₁⟩) hrest
      refine ⟨flag, ?_⟩
      rw [List.flatMap_cons, execAll_append hfirst, hexec]
      rfl

/-- The sequential program returns the classes of the main loop. -/
theorem main_exec (loadOnce : Bool) (files : ModelFiles) (images : List (Nat → UInt8))
    (tickPerCycle : Nat) (array : RramArray F) (heap : Heap MemName F)
    {chip : Vdev.AIChip (Chip F)} {ps : List Int}
    (h : (mainLoop loadOnce files images).run (AIChip.new tickPerCycle loadOnce array heap) =
      some (ps, chip)) :
    ∃ flag, (execAll AIChip.ops (mainCalls loadOnce files images)).run
      ⟨AIChip.new tickPerCycle loadOnce array heap, true⟩ =
        some (mainAnswers loadOnce files ps, ⟨chip, flag⟩) := by
  let loaded : Vdev.AIChip (Chip F) :=
    ⟨tickPerCycle, false, 0, initChip loadOnce array (loadedHeap loadOnce files heap)⟩
  have hload : (loadPhase loadOnce files).run (AIChip.new tickPerCycle loadOnce array heap) =
      some ((), loaded) := by
    have hrun := @Vdev.AIChip.runCounter_of_stage _ AIChip.ops
      (AIChip.new tickPerCycle loadOnce array heap) 0 _ _ _
      (stage_init tickPerCycle loadOnce array heap)
    have hwrite := writeAll_eq 0 (payload loadOnce files) (initChip loadOnce array heap)
    simp only [loadPhase, StateT.run_bind, hrun, Option.bind_eq_bind, Option.bind_some]
    change some ((), (⟨tickPerCycle, false, 0, _⟩ : Vdev.AIChip (Chip F))) = _
    rw [hwrite]
    rfl
  rw [mainLoop, StateT.run_bind, hload, Option.bind_eq_bind, Option.bind_some] at h
  have hquiet : ∀ c ∈ loadCalls loadOnce files, c.Quiet := by
    intro c hc
    rcases List.mem_cons.mp hc with rfl | hc
    · trivial
    · exact writeCalls_quiet _ _ c hc
  obtain ⟨flag₁, hfirst⟩ := execAll_quiet hquiet
    (s := ⟨AIChip.new tickPerCycle loadOnce array heap, true⟩)
    (apply_load tickPerCycle loadOnce array heap (payload loadOnce files))
  obtain ⟨flag, hrest⟩ := images_exec images (s := ⟨loaded, flag₁⟩) h
  refine ⟨flag, ?_⟩
  rw [mainCalls, execAll_append hfirst]
  change ((execAll AIChip.ops _).run ⟨loaded, flag₁⟩).map _ = _
  rw [hrest]
  rfl

/-- In every run of the program, at every moment, what has been read are classes of the main
loop, and every assertion has held. The classes are those of the merged array where the device
loads once, and those of the model where it loads every layer and has no noise. -/
theorem main_reads (tickPerCycle : Nat) (loadOnce : Bool) (files : ModelFiles)
    (images : List (Nat → UInt8)) (array : RramArray F) (heap : Heap MemName F)
    {ls : List (Label (Chip F))} {m : Machine (Chip F)}
    (h : Run (Step AIChip.ops) (boot (AIChip.new tickPerCycle loadOnce array heap)) ls m)
    (hcalls : calls ls <+: mainCalls loadOnce files images) :
    ∃ ps chip, (mainLoop loadOnce files images).run
        (AIChip.new tickPerCycle loadOnce array heap) = some (ps, chip) ∧
      (loadOnce = true →
        ps = images.map (classifierOf fun _ => mergedArray files heap array).predict) ∧
      (loadOnce = false → array.Noiseless →
        ps = images.map (files.classifier : Classifier F).predict) ∧
      answers ls <+: mainAnswers loadOnce files ps ∧
      (rets ls = mainCalls loadOnce files images →
        readBytes (answers ls) = ps.map UInt8.ofInt ∧ (m.pc = .idle → m.dev.aichip = chip)) := by
  obtain ⟨ps, chip, hmain, honce, halways⟩ : ∃ ps chip, (mainLoop loadOnce files images).run
      (AIChip.new tickPerCycle loadOnce array heap) = some (ps, chip) ∧
        (loadOnce = true →
          ps = images.map (classifierOf fun _ => mergedArray files heap array).predict) ∧
        (loadOnce = false → array.Noiseless →
          ps = images.map (files.classifier : Classifier F).predict) := by
    cases loadOnce with
    | true =>
        obtain ⟨chip, hrun, -⟩ := mainLoop_once files tickPerCycle array heap images
        exact ⟨_, chip, hrun, fun _ => rfl, fun hno => absurd hno (by decide)⟩
    | false =>
        obtain ⟨ps, chip, hrun, -, hps⟩ := mainLoop_always files tickPerCycle array heap images
        exact ⟨ps, chip, hrun, fun hno => absurd hno (by decide), fun _ => hps⟩
  refine ⟨ps, chip, hmain, honce, halways, ?_⟩
  obtain ⟨flag, hprogram⟩ := main_exec loadOnce files images tickPerCycle array heap hmain
  have hwithin : ∀ c ∈ calls ls, c.InWindow ∧ c.ReadsWindow := fun c hc =>
    mainCalls_reads loadOnce files images c (hcalls.subset hc)
  obtain ⟨s, hexec, hmeets, -⟩ := run_holds lawfulOps h hwithin
  have hrets : rets ls <+: mainCalls loadOnce files images := by
    refine (List.prefix_append _ m.pc.call.toList).trans ?_
    rw [← calls_eq h]
    exact hcalls
  refine ⟨execAll_initial hexec hprogram hrets, fun hdone => ?_⟩
  rw [hdone] at hexec
  have hsame := Option.some.inj (hexec.symm.trans hprogram)
  refine ⟨?_, fun hpc => ?_⟩
  · have hanswers : answers ls = mainAnswers loadOnce files ps := congrArg Prod.fst hsame
    rw [hanswers]
    exact readBytes_main loadOnce files ps
  · rw [hpc] at hmeets
    have hchip : m.dev.aichip = s.chip := hmeets
    rw [hchip]
    exact congrArg (fun r => r.2.chip) hsame

/-- The program can be run, on memories that hold zeros. -/
theorem main_reads_runs : ∃ (ls : List (Label (Chip ℚ))) (m : Machine (Chip ℚ)) (ps : List Int),
    Run (Step AIChip.ops) (boot zeroChip) ls m ∧
      calls ls = mainCalls false zeroFiles [fun _ => 0, fun _ => 255] ∧
      readBytes (answers ls) = ps.map UInt8.ofInt := by
  obtain ⟨ps, chip, hloop⟩ := mainLoop_ends false zeroFiles [fun _ => 0, fun _ => 255] 1
    zeroChip.core.array zeroChip.core.core.heap
  obtain ⟨flag, hmain⟩ := main_exec false zeroFiles [fun _ => 0, fun _ => 255] 1
    zeroChip.core.array zeroChip.core.core.heap hloop
  have hwithin := mainCalls_reads false zeroFiles [fun _ => 0, fun _ => 255]
  obtain ⟨ls, dev, cpu, hrun, hcalls, -⟩ := exists_run lawfulOps
    (fun c hc => (hwithin c hc).1) (execAll_chip hmain)
  obtain ⟨qs, _, -, -, -, -, hread⟩ := main_reads 1 false zeroFiles [fun _ => 0, fun _ => 255]
    zeroChip.core.array zeroChip.core.core.heap hrun (hcalls ▸ List.prefix_rfl)
  have hrets : rets ls = calls ls := by
    rw [calls_eq hrun]
    simp
  exact ⟨ls, _, qs, hrun, hcalls, (hread (hrets.trans hcalls)).1⟩

end ModernArch.BinNet
