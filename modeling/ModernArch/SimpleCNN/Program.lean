import ModernArch.SimpleCNN.Correctness
import ModernArch.SimpleCNN.Sparsify
import ModernArch.Vdev.Answers

/-!
# The CNN program

`main` on the machine of its driver: whatever the interleaving, it reads the class that the
network of its model file gives for each image, and counts the labels that are right.
-/

namespace ModernArch.SimpleCNN
open Framework Vdev Vdev.Driver
set_option linter.unusedSectionVars false

variable {F : Type} [Field F] [FloatModel F] [LinearOrder F]

/-- One pass of the image loop. -/
def imageCalls (image : Nat → UInt8) : List Call :=
  .periWrite (2 + 1024 * 1024) image 784 ::
    ((List.range' 1 10).map fun j => .periInit (UInt8.ofNat j)) ++ [.periIsFinished, .periRead 2 1]

def mainCalls (threshold : F) (file : Nat → Bits) (images : List (Nat → UInt8)) : List Call :=
  loadCalls threshold file ++ images.flatMap imageCalls

/-- The comparison with the labels. -/
def correct (total : Nat) (finalresult : List UInt8) (target : Nat → UInt8) : Nat :=
  forRange total 0 fun i n => if finalresult.getD i 0 = target i then n + 1 else n

/-- The tensors of the model file, as they are sent. -/
def modelWeights (threshold : F) (file : Nat → Bits) (w : MemName) : Tensor F := fun x y z v =>
  match (sent threshold file).lookup w with
  | some b => FloatModel.ofBytes (blockWord b ((view aliased w).index x y z v).toNat)
  | none => 0

/-- The class of an image. -/
def classOf (threshold : F) (file : Nat → Bits) (image : Nat → UInt8) : Int :=
  predict (modelWeights threshold file) image

def imageAnswers (threshold : F) (file : Nat → Bits) (image : Nat → UInt8) : List Answer :=
  List.replicate 11 .unit ++
    [.finished true, .bytes [UInt8.ofInt (classOf threshold file image)]]

def mainAnswers (threshold : F) (file : Nat → Bits) (images : List (Nat → UInt8)) : List Answer :=
  List.replicate 9 .unit ++ images.flatMap (imageAnswers threshold file)

private theorem imageCalls_within (image : Nat → UInt8) :
    ∀ c ∈ imageCalls image, c.InWindow ∧ c.ReadsWindow := by
  intro c hc
  simp only [imageCalls, List.cons_append, List.mem_cons, List.mem_append, List.mem_map,
    List.not_mem_nil, or_false] at hc
  rcases hc with rfl | ⟨j, -, rfl⟩ | rfl | rfl
  · refine ⟨⟨by decide, fun k hk => ?_⟩, trivial⟩
    have hfirst := window_images (show 0 < 1024 * 1024 by decide)
    rw [Nat.add_zero] at hfirst
    rw [window_images (by omega), hfirst]
  · exact ⟨trivial, trivial⟩
  · exact ⟨trivial, trivial⟩
  · refine ⟨trivial, le_rfl, fun k hk => ?_⟩
    rw [Nat.lt_one_iff.mp hk, Nat.add_zero]

private theorem loadCalls_quiet (threshold : F) (file : Nat → Bits) :
    ∀ c ∈ loadCalls threshold file, c.Quiet := by
  intro c hc
  rcases List.mem_cons.mp hc with rfl | hc
  · trivial
  · exact writeCalls_quiet _ _ c hc

private theorem mainCalls_within (threshold : F) (file : Nat → Bits) (images : List (Nat → UInt8)) :
    ∀ c ∈ mainCalls threshold file images, c.InWindow ∧ c.ReadsWindow := by
  intro c hc
  rcases List.mem_append.mp hc with hc | hc
  · exact ⟨loadCalls_inWindow threshold file c hc,
      (loadCalls_quiet threshold file c hc).readsWindow⟩
  · obtain ⟨image, -, hc⟩ := List.mem_flatMap.mp hc
    exact imageCalls_within image c hc

private theorem lookup_of_mem {κ β : Type} [DecidableEq κ] {l : List (κ × β)}
    (h : (l.map Prod.fst).Nodup) {p : κ × β} (hp : p ∈ l) : l.lookup p.1 = some p.2 := by
  induction l with
  | nil => cases hp
  | cons q l ih =>
      obtain ⟨k, b⟩ := q
      rw [List.map_cons, List.nodup_cons] at h
      rcases List.mem_cons.mp hp with rfl | hp
      · exact List.lookup_cons_self
      · have hne : (p.1 == k) = false := by
          rw [beq_eq_false_iff_ne]
          intro he
          exact h.1 (List.mem_map.mpr ⟨p, hp, he⟩)
        rw [List.lookup_cons, hne]
        exact ih h.2 hp

private theorem modelWeights_eq {threshold : F} {file : Nat → Bits} {p : MemName × Block}
    (hp : p ∈ sent threshold file) (x y z v : Int) :
    modelWeights threshold file p.1 x y z v =
      FloatModel.ofBytes (blockWord p.2 ((view aliased p.1).index x y z v).toNat) := by
  have hnodup : ((sent threshold file).map Prod.fst).Nodup := by
    rw [sent_names]
    decide
  rw [modelWeights, lookup_of_mem hnodup hp]

private theorem loaded_model (heap : Heap MemName F) (threshold : F) (file : Nat → Bits) :
    Loaded aliased (modelWeights threshold file) ({ initCore heap with
      machine.heap := loadedHeap heap threshold file } : Core F) := by
  refine ⟨aliasedHub_serves, ?_⟩
  intro w hw x y z v hin
  rw [← sent_names threshold file] at hw
  obtain ⟨p, hp, rfl⟩ := List.mem_map.mp hw
  rw [modelWeights_eq hp]
  exact weightsIn_loaded heap threshold file p hp x y z v hin

section Image

variable {u : Simd F} {weights : MemName → Tensor F} {image : Nat → UInt8}

private theorem apply_of_stage {chip : AIChip (Core F)} {counter : UInt8} {cycles : Nat}
    {done : Bool}
    {core : Core F} (h : (AIChip.stage u counter).run chip.core = some ((cycles, done), core)) :
    (Call.periInit counter).apply (AIChip.ops u) chip =
      some ⟨chip.tickPerCycle, done, counter, core⟩ := by
  rw [Call.apply, Vdev.AIChip.runCounter_of_stage (AIChip.ops u) h]
  rfl

/-- Each counter of the loop carries the network on; the last shows the class and finishes. -/
theorem periInit_step (hu : u.Exact) {k : Nat} (hk : k < 10) {chip : AIChip (Core F)}
    (h : Progress aliased weights image k chip.core) :
    ∃ chip', (Call.periInit (UInt8.ofNat (k + 1))).apply (AIChip.ops u) chip = some chip' ∧
      chip'.finished = (k + 1 == 10) ∧ Progress aliased weights image (k + 1) chip'.core := by
  have hcompute {t : Tensor F} (hk : k < 9) (hloaded : Loaded aliased weights chip.core)
      (hstage : StageComputes u aliased (k + 1) t chip.core) :
      ∃ chip', (Call.periInit (UInt8.ofNat (k + 1))).apply (AIChip.ops u) chip = some chip' ∧
        chip'.finished = (k + 1 == 10) ∧ Ready aliased weights (k + 1) t chip'.core := by
    obtain ⟨cycles, m', hrun, hc⟩ := hstage
    refine ⟨_, apply_of_stage hrun, ?_, hloaded.of_computes aliased_separated hk hc⟩
    exact (beq_eq_false_iff_ne.mpr (by omega)).symm
  cases k with
  | zero => exact hcompute (by decide) h.1 (stage_input u aliased_separated h.1 h.2)
  | succ k =>
      by_cases hlast : k = 8
      · subst hlast
        have hready : Ready aliased weights 9 (network weights image 9) chip.core := h
        obtain ⟨m', hrun, hheap, -⟩ := stage_output u hready
        refine ⟨_, apply_of_stage hrun, rfl, ?_, rfl, ?_⟩
        · refine hready.toLoaded.of_heap rfl fun w hw p hp => ?_
          rw [hheap]
          apply writeByte_other
          intro he
          exact (aliased_separated.host w hw).1 (hp.symm.trans (congrArg Ptr.buf he))
        · rw [hheap, readByte_writeByte]
          rfl
      · have hk' : k < 8 := by omega
        have hready : Ready aliased weights (k + 1) (network weights image (k + 1)) chip.core := by
          interval_cases k <;> exact h
        obtain ⟨chip', happly, hflag, hnext⟩ := hcompute (by omega) hready.toLoaded
          (stage_layer u hu aliased_separated hk' hready)
        refine ⟨chip', happly, hflag, ?_⟩
        interval_cases k <;> exact hnext

private theorem counters_exec (hu : u.Exact) {s : Rest (Core F)}
    (h : Progress aliased weights image 0 s.chip.core) {k : Nat} (hk : k ≤ 10) :
    ∃ t, (execAll (AIChip.ops u)
        ((List.range' 1 k).map fun j => .periInit (UInt8.ofNat j))).run s =
        some (List.replicate k .unit, t) ∧
      (0 < k → t.flag = (k == 10)) ∧ Progress aliased weights image k t.chip.core := by
  induction k with
  | zero => exact ⟨s, rfl, fun hpos => absurd hpos (Nat.lt_irrefl 0), h⟩
  | succ k ih =>
      obtain ⟨t, hexec, -, hprogress⟩ := ih (by omega)
      obtain ⟨chip', happly, hflag, hnext⟩ := periInit_step hu (by omega) hprogress
      refine ⟨⟨chip', chip'.finished⟩, ?_, fun _ => hflag, hnext⟩
      rw [List.range'_concat, List.map_append, List.replicate_succ']
      rw [Nat.add_comm] at happly
      simpa [Call.answer, Call.flag] using execAll_snoc hexec happly

variable (image) in
/-- The image is written, the counters run, and the class is read. -/
theorem image_exec (hu : u.Exact) {s : Rest (Core F)} (h : Loaded aliased weights s.chip.core) :
    ∃ t, (execAll (AIChip.ops u) (imageCalls image)).run s =
        some (List.replicate 11 .unit ++
          [.finished true, .bytes [UInt8.ofInt (predict weights image)]], t) ∧
      Loaded aliased weights t.chip.core := by
  let written : AIChip (Core F) :=
    { s.chip with core := (AIChip.ops u).writeMem .mem2 0 784 image s.chip.core }
  have happly : (Call.periWrite (2 + 1024 * 1024) image 784).apply (AIChip.ops u) s.chip =
      some written := by
    rw [Call.apply, ← Nat.add_zero (2 + 1024 * 1024), window_images (by decide)]
  have hstart : Progress aliased weights image 0 written.core := by
    constructor
    · refine h.of_heap rfl fun w hw p hp => ?_
      exact memcpy_other_buf _ _ _ _ _ _ fun he => (aliased_separated.host w hw).2 (hp.symm.trans he)
    · intro j hj
      have hread := readByte_memcpy s.chip.core.machine.heap AIChip.mem2 0 784 j image
      rw [if_pos ⟨Nat.zero_le j, by omega⟩] at hread
      exact hread
  have hwrite := execAll_single happly
  obtain ⟨t, hcounters, hflag, hlast, -, hbyte⟩ :=
    counters_exec (s := ⟨written, s.flag⟩) hu hstart le_rfl
  have hasked := execAll_snoc hcounters (c := .periIsFinished) rfl
  have hread := execAll_snoc hasked (c := .periRead 2 1) rfl
  have hcalls : imageCalls image = [.periWrite (2 + 1024 * 1024) image 784] ++
      (((List.range' 1 10).map fun j => .periInit (UInt8.ofNat j)) ++ [.periIsFinished] ++
        [.periRead 2 1]) := by
    rw [imageCalls, List.append_assoc]
    rfl
  have hfetch : fetch (AIChip.ops u) t.chip 2 1 = [UInt8.ofInt (predict weights image)] := by
    rw [← hbyte]
    rfl
  refine ⟨⟨t.chip, true⟩, ?_, hlast⟩
  rw [hcalls, execAll_append hwrite]
  change ((execAll (AIChip.ops u) _).run ⟨written, s.flag⟩).map _ = _
  rw [hread]
  simp only [Call.answer, hflag (by decide), hfetch]
  rfl

theorem images_exec (hu : u.Exact) (images : List (Nat → UInt8)) {s : Rest (Core F)}
    (h : Loaded aliased weights s.chip.core) :
    ∃ t, (execAll (AIChip.ops u) (images.flatMap imageCalls)).run s =
      some (images.flatMap fun image => List.replicate 11 .unit ++
        [.finished true, .bytes [UInt8.ofInt (predict weights image)]], t) := by
  induction images generalizing s with
  | nil => exact ⟨s, rfl⟩
  | cons image images ih =>
      obtain ⟨t, hfirst, hloaded⟩ := image_exec image hu h
      obtain ⟨t', hrest⟩ := ih hloaded
      refine ⟨t', ?_⟩
      rw [List.flatMap_cons, execAll_append hfirst, hrest]
      rfl

end Image

/-- The sequential program classifies every image. -/
theorem main_exec {u : Simd F} (hu : u.Exact) (tickPerCycle : Nat) (heap : Heap MemName F)
    (threshold : F) (file : Nat → Bits) (images : List (Nat → UInt8)) :
    ∃ t, (execAll (AIChip.ops u) (mainCalls threshold file images)).run
        ⟨AIChip.new tickPerCycle heap, true⟩ = some (mainAnswers threshold file images, t) := by
  obtain ⟨flag, hload⟩ := execAll_quiet (loadCalls_quiet threshold file)
    (s := ⟨AIChip.new tickPerCycle heap, true⟩) (apply_load u tickPerCycle heap threshold file)
  have hlength : (loadCalls threshold file).length = 9 := rfl
  let loaded : AIChip (Core F) :=
    ⟨tickPerCycle, false, 0, { initCore heap with
      machine.heap := loadedHeap heap threshold file }⟩
  obtain ⟨t, hexec⟩ := images_exec hu images (s := ⟨loaded, flag⟩)
    (loaded_model heap threshold file)
  refine ⟨t, ?_⟩
  rw [mainCalls, execAll_append hload, hlength]
  change ((execAll (AIChip.ops u) _).run ⟨loaded, flag⟩).map _ = _
  rw [hexec]
  rfl

theorem readBytes_main (threshold : F) (file : Nat → Bits) (images : List (Nat → UInt8)) :
    readBytes (mainAnswers threshold file images) =
      images.map fun image => UInt8.ofInt (classOf threshold file image) := by
  rw [mainAnswers, readBytes_append, readBytes_units, List.nil_append]
  induction images with
  | nil => rfl
  | cons image images ih =>
      rw [List.flatMap_cons, readBytes_append, ih, imageAnswers, readBytes_append, readBytes_units]
      rfl

private theorem classOf_bounds (threshold : F) (file : Nat → Bits) (image : Nat → UInt8) :
    0 ≤ classOf threshold file image ∧ classOf threshold file image < 10 :=
  (predict_isFirstMax (modelWeights threshold file) image).mem

private theorem ofInt_eq_iff {p : Int} (h : 0 ≤ p ∧ p < 256) (b : UInt8) :
    UInt8.ofInt p = b ↔ p = b.toNat := by
  lift p to Nat using h.1
  rw [← UInt8.toNat_inj]
  have hbyte : (UInt8.ofInt p).toNat = p := by
    simp [UInt8.ofInt]
    omega
  rw [hbyte, Nat.cast_inj]

private theorem correct_of_bytes {total : Nat} {bytes : List UInt8} {f : Nat → Int}
    (hf : ∀ i < total, bytes.getD i 0 = UInt8.ofInt (f i) ∧ 0 ≤ f i ∧ f i < 10)
    (target : Nat → UInt8) :
    correct total bytes target = (List.range total).countP fun i => f i = (target i).toNat := by
  induction total with
  | zero => simp [correct]
  | succ n ih =>
      obtain ⟨hbyte, hlow, hhigh⟩ := hf n n.lt_succ_self
      have hrest := ih fun i hi => hf i (Nat.lt_succ_of_lt hi)
      have hlabel := ofInt_eq_iff (p := f n) ⟨hlow, by omega⟩ (target n)
      rw [correct, forRange_succ, List.range_succ, List.countP_append, ← hrest, hbyte]
      by_cases hn : f n = (target n).toNat
      · rw [if_pos (hlabel.mpr hn)]
        simp [hn, correct]
      · rw [if_neg (mt hlabel.mp hn)]
        simp [hn, correct]

private theorem correct_eq (images : List (Nat → UInt8)) {f : (Nat → UInt8) → Int}
    (hf : ∀ image, 0 ≤ f image ∧ f image < 10) (target : Nat → UInt8) :
    correct images.length (images.map fun image => UInt8.ofInt (f image)) target =
      (List.range images.length).countP fun i =>
        f (images.getD i fun _ => 0) = (target i).toNat := by
  refine correct_of_bytes (fun i hi => ⟨?_, hf _⟩) target
  rw [List.getD_eq_getElem _ _ (by simpa using hi), List.getElem_map,
    List.getD_eq_getElem _ _ hi]

/-- In every run of the program, at every moment, what has been read are the classes of the first
images, and every assertion has held; at the end the count is that of the right classes. -/
theorem main_classifies {u : Simd F} (hu : u.Exact) (tickPerCycle : Nat) (heap : Heap MemName F)
    (threshold : F) (file : Nat → Bits) (images : List (Nat → UInt8))
    {ls : List (Label (Core F))} {m : Machine (Core F)}
    (h : Run (Step (AIChip.ops u)) (boot (AIChip.new tickPerCycle heap)) ls m)
    (hcalls : calls ls <+: mainCalls threshold file images) :
    answers ls <+: mainAnswers threshold file images ∧
      (rets ls = mainCalls threshold file images →
        readBytes (answers ls) =
            (images.map fun image => UInt8.ofInt (classOf threshold file image)) ∧
          ∀ target, correct images.length (readBytes (answers ls)) target =
            (List.range images.length).countP fun i =>
              classOf threshold file (images.getD i fun _ => 0) = (target i).toNat) := by
  have hwithin : ∀ c ∈ calls ls, c.InWindow ∧ c.ReadsWindow := fun c hc =>
    mainCalls_within threshold file images c (hcalls.subset hc)
  obtain ⟨s, hexec, -⟩ := run_holds (lawfulOps u) h hwithin
  obtain ⟨t, hmain⟩ := main_exec hu tickPerCycle heap threshold file images
  have hrets : rets ls <+: mainCalls threshold file images := by
    refine (List.prefix_append _ m.pc.call.toList).trans ?_
    rw [← calls_eq h]
    exact hcalls
  refine ⟨execAll_initial hexec hmain hrets, fun hdone => ?_⟩
  have hanswers : answers ls = mainAnswers threshold file images := by
    rw [hdone] at hexec
    exact congrArg Prod.fst (Option.some.inj (hexec.symm.trans hmain))
  have hread := readBytes_main threshold file images
  rw [hanswers, hread]
  exact ⟨rfl, correct_eq images (classOf_bounds threshold file)⟩

/-- The program can be run, on memories that hold zeros. -/
theorem main_classifies_runs : ∃ (ls : List (Label (Core ℚ))) (m : Machine (Core ℚ)),
    Run (Step (AIChip.ops sparseSimd)) (boot (AIChip.new 1 fun _ => .float 0)) ls m ∧
      calls ls = mainCalls (1 : ℚ) (fun _ => ![0, 0, 128, 63]) [fun _ => 0, fun _ => 255] ∧
      readBytes (answers ls) =
        [UInt8.ofInt (classOf (1 : ℚ) (fun _ => ![0, 0, 128, 63]) fun _ => 0),
          UInt8.ofInt (classOf (1 : ℚ) (fun _ => ![0, 0, 128, 63]) fun _ => 255)] := by
  obtain ⟨t, hmain⟩ := main_exec (sparseSimd_exact (F := ℚ)) 1 (fun _ => .float 0) 1
    (fun _ => ![0, 0, 128, 63]) [fun _ => 0, fun _ => 255]
  have hwithin := mainCalls_within (1 : ℚ) (fun _ => ![0, 0, 128, 63]) [fun _ => 0, fun _ => 255]
  obtain ⟨ls, dev, cpu, hrun, hcalls, -⟩ := exists_run (lawfulOps sparseSimd)
    (fun c hc => (hwithin c hc).1) (execAll_chip hmain)
  have hclassified := main_classifies sparseSimd_exact 1 (fun _ => .float 0) (1 : ℚ)
    (fun _ => ![0, 0, 128, 63]) [fun _ => 0, fun _ => 255] hrun (hcalls ▸ List.prefix_rfl)
  have hrets : rets ls = calls ls := by
    rw [calls_eq hrun]
    simp
  exact ⟨ls, _, hrun, hcalls, (hclassified.2 (hrets.trans hcalls)).1⟩

end ModernArch.SimpleCNN
