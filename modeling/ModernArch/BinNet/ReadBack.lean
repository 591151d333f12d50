import ModernArch.BinNet.Correctness
import ModernArch.BinNet.Main

/-!
# Reading the classes back

The driver keeps the classes in an `int` array that it never initialises. For every image it
reads one byte of the chip into an element and compares the elements with the labels later.
-/

namespace ModernArch.BinNet
open Framework Vdev
set_option linter.unusedSectionVars false

variable {F : Type} [Field F] [FloatModel F] [LinearOrder F]

/-- Element `i` without its lowest byte. -/
def highBytes (a : Nat → UInt8) (i : Nat) : Nat :=
  (a (4 * i + 1)).toNat + 256 * ((a (4 * i + 2)).toNat + 256 * (a (4 * i + 3)).toNat)

/-- Element `i`, little-endian. -/
def wordAt (a : Nat → UInt8) (i : Nat) : Nat := (a (4 * i)).toNat + 256 * highBytes a i

def intAt (a : Nat → UInt8) (i : Nat) : Int :=
  if wordAt a i < 2 ^ 31 then wordAt a i else wordAt a i - 2 ^ 32

private theorem highBytes_lt (a : Nat → UInt8) (i : Nat) : highBytes a i < 2 ^ 24 := by
  have h₁ := (a (4 * i + 1)).toNat_lt
  have h₂ := (a (4 * i + 2)).toNat_lt
  have h₃ := (a (4 * i + 3)).toNat_lt
  rw [highBytes]
  omega

/-- A number of one byte is what the element holds when the other bytes are zero. -/
theorem intAt_eq_iff {a : Nat → UInt8} {i : Nat} {p : Int} (h0 : 0 ≤ p) (hp : p < 256)
    (hlow : a (4 * i) = UInt8.ofInt p) : intAt a i = p ↔ highBytes a i = 0 := by
  have hbyte : ((a (4 * i)).toNat : Int) = p := by
    lift p to Nat using h0
    rw [hlow]
    simp [UInt8.ofInt]
    omega
  have hhigh := highBytes_lt a i
  rw [intAt, wordAt]
  split_ifs <;> omega

/-- `periRead` into an array of the host. -/
def periRead (offset dest len : Nat) (host : Nat → UInt8) : DriverM F (Nat → UInt8) := do
  let chip ← get
  let (mem, off) := window offset
  return fun k =>
    if dest ≤ k ∧ k < dest + len then AIChip.ops.readMem mem chip.core (off + (k - dest)) else host k

/-- The assertion before the read. -/
def assertFinished : DriverM F Unit := do
  if (← get).finished then return () else failure

/-- The image loop, with the class the chip computes for each image. -/
def imageLoop : Nat → List (Nat → UInt8) → (Nat → UInt8) → DriverM F (List Int × (Nat → UInt8))
  | _, [], finalresult => return ([], finalresult)
  | count, image :: images, finalresult => do
      let outputIndex ← classify image
      assertFinished
      let finalresult ← periRead 2 (4 * count) 1 finalresult
      let r ← imageLoop (count + 1) images finalresult
      return (outputIndex :: r.1, r.2)

/-- `main` up to the end of the image loop. -/
def mainRead (loadOnce : Bool) (files : ModelFiles) (images : List (Nat → UInt8))
    (finalresult : Nat → UInt8) : DriverM F (List Int × (Nat → UInt8)) := do
  loadPhase loadOnce files
  imageLoop 0 images finalresult

/-- The comparison with the labels. -/
def correct (total : Nat) (finalresult target : Nat → UInt8) : Nat :=
  forRange total 0 fun i n => if intAt finalresult i = (target i).toNat then n + 1 else n

/-- The output stage stores its class in the first byte of the first memory. -/
theorem stage_output_byte {chip chip' : Chip F} {r : Nat × Bool}
    (h : (AIChip.stage 7).run chip = some (r, chip')) :
    r.2 = true ∧ (0 ≤ chip'.core.outputIndex ∧ chip'.core.outputIndex < 10) ∧
      readByte chip'.core.heap AIChip.mem1 0 = UInt8.ofInt chip'.core.outputIndex := by
  have hstage : (AIChip.stage 7).run chip = ((Core.getPtr .fc3Out).run chip).bind fun p =>
      let best := maxElement (fun i => (p.2.core.heap (p.1.add i)).toFloat) 10
      some ((10, true), { p.2 with
        core.outputIndex := best
        core.heap := writeByte p.2.core.heap AIChip.mem1 0 (UInt8.ofInt best) }) := by
    simp [AIChip.stage, Core.opOutput]
  rw [hstage] at h
  obtain ⟨p, -, hp⟩ := Option.bind_eq_some_iff.mp h
  cases hp
  refine ⟨rfl, (maxElement_spec _ (by decide)).mem, ?_⟩
  rw [readByte_writeByte, if_pos rfl]

theorem classify_byte {chip chip' : Vdev.AIChip (Chip F)} {image : Nat → UInt8} {p : Int}
    (h : (classify image).run chip = some (p, chip')) :
    chip'.finished = true ∧ (0 ≤ p ∧ p < 10) ∧
      AIChip.ops.readMem .mem1 chip'.core 0 = UInt8.ofInt p := by
  have hcounters : List.range' 1 7 = List.range' 1 6 ++ [7] := rfl
  have hrun : (classify image).run chip =
      (((List.range' 1 6).mapM fun j =>
        Vdev.AIChip.runCounter AIChip.ops (UInt8.ofNat j)).run { chip with
          core := AIChip.ops.writeMem .mem2 0 784 image chip.core }).bind fun s =>
        ((Vdev.AIChip.runCounter AIChip.ops 7).run s.2).bind fun e =>
          some (e.2.core.core.outputIndex, e.2) := by
    simp only [classify, hcounters, List.mapM_append, List.mapM_cons, List.mapM_nil, bind_assoc,
      pure_bind]
    rfl
  rw [hrun] at h
  obtain ⟨s, -, h⟩ := Option.bind_eq_some_iff.mp h
  obtain ⟨e, hseven, h⟩ := Option.bind_eq_some_iff.mp h
  obtain ⟨r, hstage, he⟩ := Option.bind_eq_some_iff.mp hseven
  obtain ⟨hfinished, hclass, hbyte⟩ := stage_output_byte hstage
  cases he
  cases h
  exact ⟨hfinished, hclass, hbyte⟩

/-- The classes in the low bytes of the elements from `count` on. -/
def stored : Nat → List Int → (Nat → UInt8) → Nat → UInt8
  | _, [], a => a
  | count, p :: ps, a => stored (count + 1) ps (Function.update a (4 * count) (UInt8.ofInt p))

private theorem periRead_run (chip : Vdev.AIChip (Chip F)) (count : Nat) (a : Nat → UInt8) :
    (periRead 2 (4 * count) 1 a).run chip =
      some (Function.update a (4 * count) (AIChip.ops.readMem .mem1 chip.core 0), chip) := by
  refine congrArg (fun b => some (b, chip)) (funext fun k => ?_)
  rw [Function.update_apply]
  by_cases hk : k = 4 * count
  · rw [if_pos hk, if_pos ⟨hk.ge, by omega⟩, hk, Nat.sub_self (4 * count)]
  · rw [if_neg hk, if_neg (by omega)]

/-- The loop classifies as before and stores one byte for each image. -/
theorem imageLoop_run (images : List (Nat → UInt8)) (chip : Vdev.AIChip (Chip F)) (count : Nat)
    (a : Nat → UInt8) :
    (imageLoop count images a).run chip =
      ((images.mapM classify).run chip).map fun r => ((r.1, stored count r.1 a), r.2) := by
  induction images generalizing chip count a with
  | nil => rfl
  | cons image images ih =>
      simp only [imageLoop, List.mapM_cons, StateT.run_bind, Option.bind_eq_bind]
      cases hclass : (classify image).run chip with
      | none => rfl
      | some r =>
          obtain ⟨hfinished, -, hbyte⟩ := classify_byte hclass
          have hassert : (assertFinished : DriverM F Unit).run r.2 = some ((), r.2) := by
            simp [assertFinished, hfinished]
          simp only [Option.bind_some, hassert, periRead_run, hbyte, ih]
          cases (images.mapM classify).run r.2 <;> rfl

private theorem stored_other (ps : List Int) (count : Nat) (a : Nat → UInt8) {k : Nat}
    (hk : ∀ i < ps.length, k ≠ 4 * (count + i)) : stored count ps a k = a k := by
  induction ps generalizing count a with
  | nil => rfl
  | cons p ps ih =>
      have hhead : k ≠ 4 * count := hk 0 (Nat.succ_pos _)
      have htail : ∀ i < ps.length, k ≠ 4 * (count + 1 + i) := by
        intro i hi
        rw [Nat.add_right_comm, Nat.add_assoc]
        exact hk (i + 1) (Nat.succ_lt_succ hi)
      rw [stored, ih _ _ htail, Function.update_of_ne hhead]

private theorem stored_low (ps : List Int) (count : Nat) (a : Nat → UInt8) {i : Nat}
    (hi : i < ps.length) : stored count ps a (4 * (count + i)) = UInt8.ofInt ps[i] := by
  induction ps generalizing count a i with
  | nil => exact absurd hi (Nat.not_lt_zero i)
  | cons p ps ih =>
      cases i with
      | zero =>
          rw [stored, stored_other]
          · simp
          · intro j _
            omega
      | succ i =>
          have hrest := ih (count + 1) (Function.update a (4 * count) (UInt8.ofInt p))
            (Nat.lt_of_succ_lt_succ hi)
          rw [Nat.add_right_comm, Nat.add_assoc] at hrest
          exact hrest

private theorem highBytes_stored (ps : List Int) (count : Nat) (a : Nat → UInt8) (i : Nat) :
    highBytes (stored count ps a) i = highBytes a i := by
  have hother (d : Nat) (hd : 0 < d ∧ d < 4) : stored count ps a (4 * i + d) = a (4 * i + d) := by
    apply stored_other
    intro j _
    omega
  rw [highBytes, highBytes, hother 1 (by decide), hother 2 (by decide), hother 3 (by decide)]

private theorem correct_congr {a : Nat → UInt8} {total : Nat} {f : Nat → Int}
    (h : ∀ i < total, intAt a i = f i) (target : Nat → UInt8) :
    correct total a target = (List.range total).countP fun i => f i = (target i).toNat := by
  induction total with
  | zero => simp [correct]
  | succ n ih =>
      have hrest := ih fun i hi => h i (Nat.lt_succ_of_lt hi)
      rw [correct, forRange_succ, List.range_succ, List.countP_append, ← hrest, h n n.lt_succ_self]
      by_cases hn : f n = (target n).toNat
      · simp [hn, correct]
      · simp [hn, correct]

theorem mainLoop_ends (loadOnce : Bool) (files : ModelFiles) (images : List (Nat → UInt8))
    (tickPerCycle : Nat) (array : RramArray F) (heap : Heap MemName F) :
    ∃ ps chip, (mainLoop loadOnce files images).run
      (AIChip.new tickPerCycle loadOnce array heap) = some (ps, chip) := by
  cases loadOnce with
  | true =>
      obtain ⟨chip, hrun, -⟩ := mainLoop_once files tickPerCycle array heap images
      exact ⟨_, chip, hrun⟩
  | false =>
      obtain ⟨ps, chip, hrun, -⟩ := mainLoop_always files tickPerCycle array heap images
      exact ⟨ps, chip, hrun⟩

private theorem classes_spec {images : List (Nat → UInt8)} {chip chip' : Vdev.AIChip (Chip F)}
    {ps : List Int} (h : (images.mapM classify).run chip = some (ps, chip')) :
    ps.length = images.length ∧ ∀ p ∈ ps, 0 ≤ p ∧ p < 10 := by
  induction images generalizing chip ps with
  | nil =>
      cases h
      simp
  | cons image images ih =>
      rw [List.mapM_cons, StateT.run_bind, Option.bind_eq_bind, Option.bind_eq_some_iff] at h
      obtain ⟨⟨p, chip₁⟩, hclass, h⟩ := h
      rw [StateT.run_bind, Option.bind_eq_bind, Option.bind_eq_some_iff] at h
      obtain ⟨⟨rest, chip₂⟩, hrest, h⟩ := h
      cases h
      obtain ⟨hlength, hrange⟩ := ih hrest
      constructor
      · rw [List.length_cons, hlength, List.length_cons]
      · intro q hq
        rcases List.mem_cons.mp hq with rfl | hq
        · exact (classify_byte hclass).2.1
        · exact hrange q hq

/-- An element of the array ends as the class of its image when its high bytes were zero. -/
theorem mainRead_spec (loadOnce : Bool) (files : ModelFiles) (images : List (Nat → UInt8))
    (tickPerCycle : Nat) (array : RramArray F) (heap : Heap MemName F) (finalresult : Nat → UInt8) :
    ∃ ps after chip,
      (mainLoop loadOnce files images).run (AIChip.new tickPerCycle loadOnce array heap) =
        some (ps, chip) ∧
      (mainRead loadOnce files images finalresult).run
        (AIChip.new tickPerCycle loadOnce array heap) = some ((ps, after), chip) ∧
      ps.length = images.length ∧
      ∀ i < images.length, intAt after i = ps.getD i 0 ↔ highBytes finalresult i = 0 := by
  obtain ⟨ps, chip, hmain⟩ := mainLoop_ends loadOnce files images tickPerCycle array heap
  have hmain' := hmain
  rw [mainLoop, StateT.run_bind, Option.bind_eq_bind, Option.bind_eq_some_iff] at hmain'
  obtain ⟨⟨_, loaded⟩, hload, hloop⟩ := hmain'
  obtain ⟨hlength, hrange⟩ := classes_spec hloop
  have hread : (mainRead loadOnce files images finalresult).run
      (AIChip.new tickPerCycle loadOnce array heap) =
        some ((ps, stored 0 ps finalresult), chip) := by
    rw [mainRead, StateT.run_bind, hload, Option.bind_eq_bind, Option.bind_some, imageLoop_run,
      hloop]
    rfl
  refine ⟨ps, stored 0 ps finalresult, chip, hmain, hread, hlength, ?_⟩
  intro i hi
  have hi' : i < ps.length := hlength ▸ hi
  have hclass := hrange _ (List.getElem_mem hi')
  have hlow := stored_low ps 0 finalresult hi'
  rw [Nat.zero_add] at hlow
  rw [List.getD_eq_getElem _ _ hi', ← highBytes_stored ps 0 finalresult i]
  exact intAt_eq_iff hclass.1 (by omega) hlow

/-- The array holds the classes, and the number of equal labels is right, exactly when the
three high bytes of every element the loop reads into are zero before. -/
theorem finalresult_iff (loadOnce : Bool) (files : ModelFiles) (images : List (Nat → UInt8))
    (tickPerCycle : Nat) (array : RramArray F) (heap : Heap MemName F)
    (finalresult target : Nat → UInt8) :
    ∃ ps after chip,
      (mainLoop loadOnce files images).run (AIChip.new tickPerCycle loadOnce array heap) =
        some (ps, chip) ∧
      (mainRead loadOnce files images finalresult).run
        (AIChip.new tickPerCycle loadOnce array heap) = some ((ps, after), chip) ∧
      ps.length = images.length ∧
      (((∀ i < images.length, intAt after i = ps.getD i 0) ∧
        correct images.length after target =
          (List.range images.length).countP fun i => ps.getD i 0 = (target i).toNat) ↔
        ∀ i < images.length, highBytes finalresult i = 0) := by
  obtain ⟨ps, after, chip, hmain, hread, hlength, helement⟩ :=
    mainRead_spec loadOnce files images tickPerCycle array heap finalresult
  refine ⟨ps, after, chip, hmain, hread, hlength, ?_⟩
  constructor
  · intro h i hi
    exact (helement i hi).mp (h.1 i hi)
  · intro h
    have hall := fun i hi => (helement i hi).mpr (h i hi)
    exact ⟨hall, correct_congr hall target⟩

def zeroFiles : ModelFiles := fun _ =>
  ⟨fun _ => 0, fun _ _ => 0, fun _ _ => 0, fun _ _ => 0, fun _ _ => 0⟩

/-- One image, read into an element whose bytes were all one. -/
theorem finalresult_garbage : ∃ ps after chip,
    (mainLoop false zeroFiles [fun _ => 0]).run zeroChip = some (ps, chip) ∧
    (mainRead false zeroFiles [fun _ => 0] fun _ => 1).run zeroChip = some ((ps, after), chip) ∧
    intAt after 0 ≠ ps.getD 0 0 := by
  obtain ⟨ps, after, chip, hmain, hread, -, helement⟩ :=
    mainRead_spec false zeroFiles [fun _ => 0] 1 zeroChip.core.array zeroChip.core.core.heap
      fun _ => 1
  refine ⟨ps, after, chip, hmain, hread, ?_⟩
  rw [Ne, helement 0 (by decide)]
  decide

end ModernArch.BinNet
