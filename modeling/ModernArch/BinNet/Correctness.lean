import ModernArch.BinNet.Original
import ModernArch.BinNet.Session

/-!
# Results of the BinNet chip

The merged array, the separate arrays and the original program classify alike, and no class
depends on what was classified before.
-/

namespace ModernArch.BinNet
open Framework Vdev
set_option linter.unusedSectionVars false

variable {F : Type} [Field F] [FloatModel F] [LinearOrder F]

/-- Between images: the array has its first content or the merged weights. -/
structure Once (files : ModelFiles) (heap : Heap MemName F) (first : RramArray F) (chip : Chip F) :
    Prop extends Stocked (loadedHeap true files heap) chip where
  loadOnce : chip.loadOnce = true
  array : chip.weightLoaded = false ∧ chip.array = first ∨
    chip.weightLoaded = true ∧
      chip.array = Core.loadedArray (loadedHeap true files heap) .fc1 first

section LoadOnce

variable {files : ModelFiles} {heap : Heap MemName F} {first : RramArray F}

/-- The only array such a device computes with. -/
def mergedArray (files : ModelFiles) (heap : Heap MemName F) (first : RramArray F) : RramArray F :=
  Core.loadedArray (loadedHeap true files heap) .fc1 first

private theorem Once.arrayUsed_eq {chip : Chip F} (h : Once files heap first chip) (fc : FcName) :
    arrayUsed (loadedHeap true files heap) chip fc = mergedArray files heap first := by
  have hfirst : arrayUsed (loadedHeap true files heap) chip .fc1 = mergedArray files heap first := by
    rcases h.array with ⟨hflag, harray⟩ | ⟨hflag, harray⟩
    · simp [arrayUsed, hflag, harray, mergedArray]
    · simp [arrayUsed, hflag, harray, h.loadOnce, mergedArray]
  cases fc with
  | fc1 => exact hfirst
  | fc2 | fc3 => simpa [arrayUsed, h.loadOnce] using hfirst

private theorem mergedArray_placed (fc : FcName) :
    (mergedArray files heap first).Placed fc.rowBias fc.rows fc.colBias fc.cols :=
  (payload_holds_merged heap files).placed (mergedArrays_hosts files fc) first

theorem Once.classify {chip : Vdev.AIChip (Chip F)} (h : Once files heap first chip.core)
    (image : Nat → UInt8) :
    ∃ chip', (classify image).run chip = some
        ((classifierOf fun _ => mergedArray files heap first).predict image, chip') ∧
      Once files heap first chip'.core := by
  have hused : arrayUsed (loadedHeap true files heap) chip.core =
      fun _ => mergedArray files heap first := funext h.arrayUsed_eq
  have hplaced : AllPlaced (arrayUsed (loadedHeap true files heap) chip.core) := by
    rw [hused]
    exact fun fc => mergedArray_placed fc
  obtain ⟨chip', hrun, hs, honce, hflag, harray⟩ := classify_spec h.toStocked hplaced image
  rw [hused] at hrun harray
  exact ⟨chip', hrun, hs, honce.trans h.loadOnce, .inr ⟨hflag, harray⟩⟩

theorem mainLoop_once (files : ModelFiles) (tickPerCycle : Nat) (first : RramArray F)
    (heap : Heap MemName F) (images : List (Nat → UInt8)) :
    ∃ chip, (mainLoop true files images).run (AIChip.new tickPerCycle true first heap) = some
        (images.map (classifierOf fun _ => mergedArray files heap first).predict, chip) ∧
      Once files heap first chip.core := by
  obtain ⟨chip, hload, hs, honce, hflag, harray⟩ := loadPhase_spec true files tickPerCycle first heap
  obtain ⟨rs, chip', hrun, hP, hend⟩ := mapM_run (fun _ chip => Once files heap first chip.core)
    (fun image r => r = (classifierOf fun _ => mergedArray files heap first).predict image)
    BinNet.classify
    (fun image _ chip hI => by
      obtain ⟨chip', hrun, hnext⟩ := hI.classify image
      exact ⟨_, chip', hrun, rfl, hnext⟩)
    images chip ⟨hs, honce, .inl ⟨hflag, harray⟩⟩
  have hrs := forall₂_map_eq hP (g := id) fun image r h => h
  rw [List.map_id] at hrs
  refine ⟨chip', ?_, hend⟩
  simp only [mainLoop, StateT.run_bind, hload, Option.bind_eq_bind, Option.bind_some, hrun, hrs]

/-- With every sample one the merged array computes the layers of the files. -/
theorem mergedArray_agree (h : first.Noiseless) :
    (classifierOf fun _ => mergedArray files heap first).Agree files.classifier :=
  have hholds := payload_holds_merged heap files
  ⟨hholds.layer_agree (mergedArrays_hosts files .fc1) h,
    hholds.layer_agree (mergedArrays_hosts files .fc2) h,
    hholds.layer_agree (mergedArrays_hosts files .fc3) h⟩

end LoadOnce

section LoadAlways

variable {files : ModelFiles} {heap : Heap MemName F}

structure Always (files : ModelFiles) (heap : Heap MemName F) (chip : Chip F) : Prop
    extends Stocked (loadedHeap false files heap) chip where
  loadOnce : chip.loadOnce = false

/-- What loading keeps holds of the arrays every product of two such devices loads over. -/
theorem Always.loaded_rel {heap' : Heap MemName F} {chip chip' : Chip F}
    (h : Always files heap chip) (h' : Always files heap' chip')
    (R : RramArray F → RramArray F → Prop)
    (hR : ∀ fc a b, R a b → R (Core.loadedArray (loadedHeap false files heap) fc a)
      (Core.loadedArray (loadedHeap false files heap') fc b))
    (h₀ : R chip.array chip'.array) (fc : FcName) :
    ∃ a b, R a b ∧
      arrayUsed (loadedHeap false files heap) chip fc =
        Core.loadedArray (loadedHeap false files heap) fc a ∧
      arrayUsed (loadedHeap false files heap') chip' fc =
        Core.loadedArray (loadedHeap false files heap') fc b := by
  have h₁ := hR .fc1 _ _ h₀
  have h₂ := hR .fc2 _ _ h₁
  cases fc with
  | fc1 => exact ⟨_, _, h₀, by simp [arrayUsed, h.loadOnce], by simp [arrayUsed, h'.loadOnce]⟩
  | fc2 => exact ⟨_, _, h₁, by simp [arrayUsed, h.loadOnce], by simp [arrayUsed, h'.loadOnce]⟩
  | fc3 => exact ⟨_, _, h₂, by simp [arrayUsed, h.loadOnce], by simp [arrayUsed, h'.loadOnce]⟩

theorem Always.loaded {chip : Chip F} (h : Always files heap chip) (P : RramArray F → Prop)
    (hP : ∀ fc a, P a → P (Core.loadedArray (loadedHeap false files heap) fc a))
    (h₀ : P chip.array) (fc : FcName) :
    ∃ a, P a ∧ arrayUsed (loadedHeap false files heap) chip fc =
      Core.loadedArray (loadedHeap false files heap) fc a := by
  obtain ⟨a, _, ha, harray, -⟩ := h.loaded_rel h (fun a _ => P a) (fun fc a _ => hP fc a) h₀ fc
  exact ⟨a, ha, harray⟩

theorem Always.placed {chip : Chip F} (h : Always files heap chip) :
    AllPlaced (arrayUsed (loadedHeap false files heap) chip) := by
  intro fc
  obtain ⟨a, -, harray⟩ := h.loaded (fun _ => True) (fun _ _ _ => trivial) trivial fc
  rw [harray]
  exact (payload_holds_separate heap files fc).placed (loadLayer_hosts _ _ fc _) a

private theorem loadedArray_noiseless (h : Heap MemName F) (fc : FcName) (a : RramArray F)
    (ha : a.Noiseless) : (Core.loadedArray h fc a).Noiseless :=
  RramArray.loadWeight_noiseless _ _ _ _ _ a ha

private theorem Always.agree {chip : Chip F} (h : Always files heap chip)
    (hnoise : chip.array.Noiseless) :
    (classifierOf (arrayUsed (loadedHeap false files heap) chip)).Agree files.classifier := by
  have hlayer (fc : FcName) :
      ((arrayUsed (loadedHeap false files heap) chip fc).layer fc.rowBias fc.colBias).Agree
        ((files fc).layer fc) fc.rows fc.cols := by
    obtain ⟨a, ha, harray⟩ := h.loaded RramArray.Noiseless (loadedArray_noiseless _) hnoise fc
    rw [harray]
    exact (payload_holds_separate heap files fc).layer_agree (loadLayer_hosts _ _ fc _) ha
  exact ⟨hlayer .fc1, hlayer .fc2, hlayer .fc3⟩

theorem Always.classify {chip : Vdev.AIChip (Chip F)} (h : Always files heap chip.core)
    (image : Nat → UInt8) :
    ∃ chip', (classify image).run chip = some
        ((classifierOf (arrayUsed (loadedHeap false files heap) chip.core)).predict image, chip') ∧
      Always files heap chip'.core ∧
      chip'.core.array = arrayUsed (loadedHeap false files heap) chip.core .fc3 := by
  obtain ⟨chip', hrun, hs, honce, -, harray⟩ := classify_spec h.toStocked h.placed image
  exact ⟨chip', hrun, ⟨hs, honce.trans h.loadOnce⟩, harray⟩

/-- Noise or not, the loop ends between two images. -/
theorem mainLoop_always (files : ModelFiles) (tickPerCycle : Nat) (array : RramArray F)
    (heap : Heap MemName F) (images : List (Nat → UInt8)) :
    ∃ rs chip, (mainLoop false files images).run (AIChip.new tickPerCycle false array heap) =
        some (rs, chip) ∧
      Always files heap chip.core ∧
      (array.Noiseless → rs = images.map (files.classifier : Classifier F).predict) := by
  obtain ⟨chip, hload, hs, honce, -, harray⟩ :=
    loadPhase_spec false files tickPerCycle array heap
  obtain ⟨rs, chip', hrun, hP, hend⟩ := mapM_run
    (fun _ chip => Always files heap chip.core ∧ (array.Noiseless → chip.core.array.Noiseless))
    (fun image r => array.Noiseless → r = (files.classifier : Classifier F).predict image)
    BinNet.classify
    (fun image _ chip hI => by
      obtain ⟨halways, hnoise⟩ := hI
      obtain ⟨chip', hrun, hnext, harray⟩ := halways.classify image
      refine ⟨_, chip', hrun, ?_, hnext, ?_⟩
      · intro h
        exact (halways.agree (hnoise h)).predict_eq fun _ _ => rfl
      · intro h
        obtain ⟨a, ha, hused⟩ :=
          halways.loaded RramArray.Noiseless (loadedArray_noiseless _) (hnoise h) .fc3
        rw [harray, hused]
        exact loadedArray_noiseless _ _ _ ha)
    images chip ⟨⟨hs, honce⟩, fun h => harray ▸ h⟩
  refine ⟨rs, chip', ?_, hend.1, ?_⟩
  · simp only [mainLoop, StateT.run_bind, hload, Option.bind_eq_bind, Option.bind_some, hrun]
  · intro h
    have hrs := forall₂_map_eq hP (g := id) fun image r hr => hr h
    rwa [List.map_id] at hrs

end LoadAlways

/-- An array with every sample one; its content may be anything. -/
def noiseless (array : RramArray F) : RramArray F := { array with dist := fun _ => 1 }

private theorem noiseless_noiseless (array : RramArray F) :
    (noiseless array).Noiseless := fun _ => rfl

/-- Loading merged weights once classifies as loading the layers for every image does. -/
theorem loadOnce_eq_loadAlways (files : ModelFiles) (images : List (Nat → UInt8))
    (tickPerCycle tickPerCycle' : Nat) (array array' : RramArray F) (heap heap' : Heap MemName F) :
    ∃ rs chip chip',
      (mainLoop true files images).run
        (AIChip.new tickPerCycle true (noiseless array) heap) = some (rs, chip) ∧
      (mainLoop false files images).run
        (AIChip.new tickPerCycle' false (noiseless array') heap') = some (rs, chip') := by
  obtain ⟨chip, honce, -⟩ := mainLoop_once files tickPerCycle (noiseless array) heap images
  obtain ⟨rs, chip', halways, -, hrs⟩ :=
    mainLoop_always files tickPerCycle' (noiseless array') heap' images
  have hagree : (classifierOf fun _ => mergedArray files heap (noiseless array)).Agree
      files.classifier :=
    mergedArray_agree (noiseless_noiseless array)
  have hpredict : ∀ image ∈ images,
      (classifierOf fun _ => mergedArray files heap (noiseless array)).predict image =
        (files.classifier : Classifier F).predict image := by
    intro image _
    exact hagree.predict_eq fun _ _ => rfl
  rw [List.map_congr_left hpredict, ← hrs (noiseless_noiseless array')] at honce
  exact ⟨rs, chip, chip', honce, halways⟩

/-- The original program and the accelerator classify alike. -/
theorem original_eq_loadAlways (files : ModelFiles)
    (jobs : List (Heap Local F × (Nat → UInt8))) (object : Original.RramArray F)
    (tickPerCycle : Nat) (array : RramArray F) (heap : Heap MemName F) :
    ∃ chip, (mainLoop false files (jobs.map Prod.snd)).run
        (AIChip.new tickPerCycle false (noiseless array) heap) =
      some (Original.mainLoop (Original.arrays files) object jobs, chip) := by
  obtain ⟨rs, chip, hrun, -, hrs⟩ :=
    mainLoop_always files tickPerCycle (noiseless array) heap (jobs.map Prod.snd)
  have heq : rs = Original.mainLoop (Original.arrays files) object jobs := by
    rw [hrs (noiseless_noiseless array), Original.mainLoop_eq, List.map_map, Function.comp_def]
  rw [heq] at hrun
  exact ⟨chip, hrun⟩

section SameNoise

variable {h h' : Heap MemName F} {fc fc' : FcName} {arrays : LayerArrays} {file : LayerFile}
  {a b : RramArray F}

private theorem Holds.sameNoise (hh : Holds h fc' arrays) (hh' : Holds h' fc' arrays)
    (hnoise : RramArray.SameNoise a b) :
    RramArray.SameNoise (Core.loadedArray h fc' a) (Core.loadedArray h' fc' b) := by
  apply (RramArray.loadCells_same _ hnoise).1
  intro i hi j hj
  rw [hh.weight i hi j hj, hh'.weight i hi j hj]

/-- Equal noise makes equal layers, over arrays and memories of different content. -/
theorem Holds.layer_same (hh : Holds h fc' arrays) (hh' : Holds h' fc' arrays)
    (hosts : arrays.Hosts fc.rowBias fc.colBias fc file) (hnoise : RramArray.SameNoise a b) :
    ((Core.loadedArray h fc' a).layer fc.rowBias fc.colBias).Agree
      ((Core.loadedArray h' fc' b).layer fc.rowBias fc.colBias) fc.rows fc.cols := by
  have hfit := fc.fits
  have hparams := fun i (hi : i < fc.rows) => hh.params hosts a hi
  have hparams' := fun i (hi : i < fc.rows) => hh'.params hosts b hi
  have hweights : ∀ i < 1024, ∀ j < 1024, gridAt h (place (.fcWeight fc')) i j =
      gridAt h' (place (.fcWeight fc')) i j := by
    intro i hi j hj
    rw [hh.weight i hi j hj, hh'.weight i hi j hj]
  apply Layer.Agree.mk
  · intro i hi j hj
    obtain ⟨hp, hn⟩ := (RramArray.loadCells_same hweights hnoise).2 (fc.rowBias + i) (by omega)
      (fc.colBias + j) (by omega)
    exact congrArg₂ (· - ·) hp hn
  · exact fun i hi => (hparams i hi).1.trans (hparams' i hi).1.symm
  · exact fun i hi => (hparams i hi).2.1.trans (hparams' i hi).2.1.symm
  · exact fun i hi => (hparams i hi).2.2.1.trans (hparams' i hi).2.2.1.symm
  · exact fun i hi => (hparams i hi).2.2.2.trans (hparams' i hi).2.2.2.symm

end SameNoise

/-- Any content for the activation memories. -/
def stir (stale : Heap MemName F) : DriverM F Unit :=
  modify fun chip => { chip with
    core.core.heap := fun p =>
      if p.buf = .weightAndBiasMem then chip.core.core.heap p else stale p }

/-- The samples of the noise from here on. -/
def reseed (noise : Nat → F) : DriverM F Unit :=
  modify fun chip => { chip with core.array := { chip.core.array with dist := noise, drawn := 0 } }

/-- An image after a history of others and any change of the activation memories. -/
def classifyAfter (files : ModelFiles) (history : List (Nat → UInt8)) (stale : Heap MemName F)
    (image : Nat → UInt8) : DriverM F Int := do
  let _ ← mainLoop true files history
  stir stale
  classify image

/-- On a device that loads every layer the samples for the image are drawn after the history. -/
def classifyReseeded (files : ModelFiles) (history : List (Nat → UInt8)) (stale : Heap MemName F)
    (noise : Nat → F) (image : Nat → UInt8) : DriverM F Int := do
  let _ ← mainLoop false files history
  stir stale
  reseed noise
  classify image

def withNoise (noise : Nat → F) (array : RramArray F) : RramArray F :=
  { array with dist := noise, drawn := 0 }

private theorem Stocked.stir {base stale : Heap MemName F} {chip : Chip F} (h : Stocked base chip) :
    Stocked base { chip with
      core.heap := fun p => if p.buf = .weightAndBiasMem then chip.core.heap p else stale p } :=
  h.of_heap rfl fun _ hp => if_pos hp

private theorem classifyAfter_same (files : ModelFiles) (noise : Nat → F) (image : Nat → UInt8)
    (tickPerCycle : Nat) (array array' : RramArray F) (heap heap' stale stale' : Heap MemName F)
    (history history' : List (Nat → UInt8)) :
    ∃ r chip chip',
      (classifyAfter files history stale image).run
        (AIChip.new tickPerCycle true (withNoise noise array) heap) = some (r, chip) ∧
      (classifyAfter files history' stale' image).run
        (AIChip.new tickPerCycle true (withNoise noise array') heap') = some (r, chip') := by
  have hrun (array : RramArray F) (heap stale : Heap MemName F) (history : List (Nat → UInt8)) :
      ∃ chip, (classifyAfter files history stale image).run
          (AIChip.new tickPerCycle true (withNoise noise array) heap) =
        some ((classifierOf fun _ => mergedArray files heap (withNoise noise array)).predict image,
          chip) := by
    obtain ⟨chip, hloop, honce⟩ :=
      mainLoop_once files tickPerCycle (withNoise noise array) heap history
    let stirred : Vdev.AIChip (Chip F) := { chip with
      core.core.heap := fun p =>
        if p.buf = .weightAndBiasMem then chip.core.core.heap p else stale p }
    have hstirred : Once files heap (withNoise noise array) stirred.core :=
      ⟨honce.toStocked.stir, honce.loadOnce, honce.array⟩
    obtain ⟨chip', hclass, -⟩ := hstirred.classify image
    refine ⟨chip', ?_⟩
    simp only [classifyAfter, StateT.run_bind, hloop, Option.bind_eq_bind, Option.bind_some]
    exact hclass
  obtain ⟨chip, h⟩ := hrun array heap stale history
  obtain ⟨chip', h'⟩ := hrun array' heap' stale' history'
  have hnoise : RramArray.SameNoise (withNoise noise array) (withNoise noise array') :=
    fun _ => rfl
  have hlayer (fc : FcName) := (payload_holds_merged heap files).layer_same
    (payload_holds_merged heap' files) (mergedArrays_hosts files fc) hnoise
  have hagree : (classifierOf fun _ => mergedArray files heap (withNoise noise array)).Agree
      (classifierOf fun _ => mergedArray files heap' (withNoise noise array')) :=
    ⟨hlayer .fc1, hlayer .fc2, hlayer .fc3⟩
  rw [← hagree.predict_eq fun _ _ => rfl] at h'
  exact ⟨_, chip, chip', h, h'⟩

private theorem classifyReseeded_same (files : ModelFiles) (noise : Nat → F) (image : Nat → UInt8)
    (tickPerCycle : Nat) (array array' : RramArray F) (heap heap' stale stale' : Heap MemName F)
    (history history' : List (Nat → UInt8)) :
    ∃ r chip chip',
      (classifyReseeded files history stale noise image).run
        (AIChip.new tickPerCycle false array heap) = some (r, chip) ∧
      (classifyReseeded files history' stale' noise image).run
        (AIChip.new tickPerCycle false array' heap') = some (r, chip') := by
  have hrun (array : RramArray F) (heap stale : Heap MemName F) (history : List (Nat → UInt8)) :
      ∃ seeded chip, (classifyReseeded files history stale noise image).run
          (AIChip.new tickPerCycle false array heap) =
        some ((classifierOf (arrayUsed (loadedHeap false files heap) seeded)).predict image,
          chip) ∧
        Always files heap seeded ∧ ∃ array, seeded.array = withNoise noise array := by
    obtain ⟨rs, chip, hloop, halways, -⟩ := mainLoop_always files tickPerCycle array heap history
    let stirred : Vdev.AIChip (Chip F) := { chip with
      core.core.heap := fun p =>
        if p.buf = .weightAndBiasMem then chip.core.core.heap p else stale p }
    let seeded : Vdev.AIChip (Chip F) :=
      { stirred with core.array := withNoise noise stirred.core.array }
    have hstirred : Stocked (loadedHeap false files heap) stirred.core := halways.toStocked.stir
    have hseeded : Always files heap seeded.core :=
      ⟨⟨hstirred.hub, hstirred.weights⟩, halways.loadOnce⟩
    obtain ⟨chip', hclass, -⟩ := hseeded.classify image
    refine ⟨seeded.core, chip', ?_, hseeded, _, rfl⟩
    simp only [classifyReseeded, StateT.run_bind, hloop, Option.bind_eq_bind, Option.bind_some]
    exact hclass
  obtain ⟨seeded, chip, h, halways, first, hfirst⟩ := hrun array heap stale history
  obtain ⟨seeded', chip', h', halways', first', hfirst'⟩ := hrun array' heap' stale' history'
  have hholds := fun (heap : Heap MemName F) fc => payload_holds_separate heap files fc
  have hnoise : RramArray.SameNoise seeded.array seeded'.array := by
    rw [hfirst, hfirst']
    exact fun _ => rfl
  have hlayer (fc : FcName) :
      ((arrayUsed (loadedHeap false files heap) seeded fc).layer fc.rowBias fc.colBias).Agree
        ((arrayUsed (loadedHeap false files heap') seeded' fc).layer fc.rowBias fc.colBias)
        fc.rows fc.cols := by
    obtain ⟨a, b, hab, harray, harray'⟩ := halways.loaded_rel halways' RramArray.SameNoise
      (fun fc a b hab => (hholds heap fc).sameNoise (hholds heap' fc) hab) hnoise fc
    rw [harray, harray']
    exact (hholds heap fc).layer_same (hholds heap' fc) (loadLayer_hosts _ _ fc _) hab
  have hagree : (classifierOf (arrayUsed (loadedHeap false files heap) seeded)).Agree
      (classifierOf (arrayUsed (loadedHeap false files heap') seeded')) :=
    ⟨hlayer .fc1, hlayer .fc2, hlayer .fc3⟩
  rw [← hagree.predict_eq fun _ _ => rfl] at h'
  exact ⟨_, chip, chip', h, h'⟩

/-- The class of an image depends on the files, the noise its weights were loaded with and the
image, not on the images before it nor on what the memories and the array held. -/
theorem history_independent (files : ModelFiles) (noise : Nat → F) (image : Nat → UInt8)
    (tickPerCycle : Nat) (array array' : RramArray F) (heap heap' stale stale' : Heap MemName F)
    (history history' : List (Nat → UInt8)) :
    (∃ r chip chip',
      (classifyAfter files history stale image).run
        (AIChip.new tickPerCycle true (withNoise noise array) heap) = some (r, chip) ∧
      (classifyAfter files history' stale' image).run
        (AIChip.new tickPerCycle true (withNoise noise array') heap') = some (r, chip')) ∧
    ∃ r chip chip',
      (classifyReseeded files history stale noise image).run
        (AIChip.new tickPerCycle false array heap) = some (r, chip) ∧
      (classifyReseeded files history' stale' noise image).run
        (AIChip.new tickPerCycle false array' heap') = some (r, chip') :=
  ⟨classifyAfter_same files noise image tickPerCycle array array' heap heap' stale stale' history
      history',
    classifyReseeded_same files noise image tickPerCycle array array' heap heap' stale stale'
      history history'⟩

end ModernArch.BinNet
