import ModernArch.SimpleCNN.Session

/-!
# Skipping zero weights

The modified loops leave out a multiply accumulate whose four weights are zero. Running them
beside the dense loops and beside loops that charge for nothing but such groups shows that the
three agree on memory and that the charges add up.
-/

namespace ModernArch.SimpleCNN
open Framework Vdev
set_option linter.unusedSectionVars false

variable {N F : Type} [Field F] [FloatModel F] [LinearOrder F] [DecidableEq N]

/-- The same arithmetic, with one cycle for every group of four zero weights and none else. -/
def zeroMeter : Simd F where
  mac sum i w := ((mac sum i w).1, if flagZero w then 1 else 0)
  add sum b := ((add sum b).1, 0)
  relu sum := ((relu sum).1, 0)

/-- The dense loops, the sparse loops and the meter. -/
def metered : Fin 3 → Simd F := ![denseSimd, sparseSimd, zeroMeter]

private theorem metered_exact (k : Fin 3) : (metered k : Simd F).Exact := by
  fin_cases k
  · exact denseSimd_exact
  · exact sparseSimd_exact
  · exact ⟨fun _ _ _ => rfl, fun _ _ => rfl, fun _ => rfl⟩

private theorem metered_mac (s i w : Data F) : ((metered 0).mac s i w).2 =
    ((metered 1).mac s i w).2 + ((metered 2).mac s i w).2 := by
  change (mac s i w).2 = (sparseMac s i w).2 + if flagZero w then 1 else 0
  by_cases hz : flagZero w = true <;> simp [sparseMac, mac, hz]

section Runs

variable {m : Machine (Ptr N) (Word F) (Access N)}

/-- One memory, and counts that add up. -/
def Adds (c : Fin 3 → Nat) (m : Fin 3 → Machine (Ptr N) (Word F) (Access N)) : Prop :=
  (∀ k, m k = m 0) ∧ c 0 = c 1 + c 2

/-- One memory, the same lanes, and counts that add up. -/
def AddsData (a : Fin 3 → Data F × Nat) (m : Fin 3 → Machine (Ptr N) (Word F) (Access N)) : Prop :=
  (∀ k, (a k).1 = (a 0).1) ∧ Adds (fun k => (a k).2) m

/-- The multiply accumulate of a loop body reads first and calls the arithmetic once. -/
theorem addsData_mac (body : Simd F → Data F × Nat → Exec N F (Data F × Nat))
    (hbody : ∀ m, ∃ i w m', ∀ u acc, (body u acc).run m =
      (((u.mac acc.1 i w).1, acc.2 + (u.mac acc.1 i w).2), m'))
    (a : Fin 3 → Data F × Nat) (s : Fin 3 → Machine (Ptr N) (Word F) (Access N))
    (h : AddsData a s) :
    AddsData (fun k => ((body (metered k) (a k)).run (s k)).1)
      (fun k => ((body (metered k) (a k)).run (s k)).2) := by
  obtain ⟨hdata, hmem, hcost⟩ := h
  obtain ⟨d, hd⟩ : ∃ d, ∀ k, (a k).1 = d := ⟨_, hdata⟩
  obtain ⟨m, hm⟩ : ∃ m, ∀ k, s k = m := ⟨_, hmem⟩
  obtain ⟨i, w, m', hrun⟩ := hbody m
  have hk (k : Fin 3) : (body (metered k) (a k)).run (s k) =
      (((mac d i w).1, (a k).2 + ((metered k).mac d i w).2), m') := by
    rw [hm k, hrun, hd k, (metered_exact k).mac]
  refine ⟨fun k => by simp only [hk], fun k => by simp only [hk], ?_⟩
  have hmac := metered_mac d i w
  simp only [hk] at hcost ⊢
  omega

/-- The end of a group: a bias that is read, the rectifier, and stores. -/
def groupEnd (u : Simd F) (bias : Exec N F (Data F)) (out : Data F → Exec N F Unit)
    (acc : Data F × Nat) : Exec N F Nat := do
  let b ← bias
  let s := u.add acc.1 b
  let r := u.relu s.1
  out r.1
  return acc.2 + s.2 + r.2

theorem convGroup_eq (u : Simd F) (inMem outMem weight bias : Memory N)
    (inChannelNum filterSize stride outX outY outChannel : Int) (cycles : Nat) :
    convGroup u inMem outMem weight bias inChannelNum filterSize stride outX outY outChannel
        cycles =
      (forEach (steps 0 filterSize 1) (Data.ofLanes 0 0 0 0, cycles) fun wX acc =>
        forEach (steps 0 filterSize 1) acc fun wY acc => forEach (steps 0 inChannelNum 1) acc
          (convMac u inMem weight outX outY outChannel stride wX wY)) >>=
      groupEnd u (loadLanes (loadAt bias outChannel) (loadAt bias (outChannel + 1))
        (loadAt bias (outChannel + 2)) (loadAt bias (outChannel + 3)))
        (storeLanes outMem outX outY outChannel) := rfl

theorem fcGroup_eq (u : Simd F) (inMem outMem weight bias : Memory N)
    (inDataLength outEnd outIndex : Int) (cycles : Nat) :
    fcGroup u inMem outMem weight bias inDataLength outEnd outIndex cycles =
      forEach (steps 0 inDataLength 1) (Data.ofLanes 0 0 0 0, cycles)
        (fcMac u inMem weight outIndex outEnd) >>=
      groupEnd u (loadLanes (loadAt bias outIndex) (loadAt bias (outIndex + 1))
        (loadUnless (outIndex + 4 > outEnd) (loadAt bias (outIndex + 2)))
        (loadUnless (outIndex + 4 > outEnd) (loadAt bias (outIndex + 3))))
        (storeMasked outMem outEnd outIndex) := rfl

private theorem adds_groupEnd (bias : Exec N F (Data F)) (out : Data F → Exec N F Unit)
    (a : Fin 3 → Data F × Nat) (s : Fin 3 → Machine (Ptr N) (Word F) (Access N))
    (h : AddsData a s) :
    Adds (fun k => ((groupEnd (metered k) bias out (a k)).run (s k)).1)
      (fun k => ((groupEnd (metered k) bias out (a k)).run (s k)).2) := by
  obtain ⟨hdata, hmem, hcost⟩ := h
  obtain ⟨d, hd⟩ : ∃ d, ∀ k, (a k).1 = d := ⟨_, hdata⟩
  obtain ⟨m, hm⟩ : ∃ m, ∀ k, s k = m := ⟨_, hmem⟩
  let b := (bias.run m).1
  have hk (k : Fin 3) : (groupEnd (metered k) bias out (a k)).run (s k) =
      ((a k).2 + ((metered k).add d b).2 + ((metered k).relu (add d b).1).2,
        ((out (relu (add d b).1).1).run (bias.run m).2).2) := by
    rw [hm k]
    simp only [groupEnd, run_bind_eq, run_pure_eq, hd k, (metered_exact k).add,
      (metered_exact k).relu]
    rfl
  refine ⟨fun k => by simp only [hk], ?_⟩
  have hend : ((metered 0).add d b).2 + ((metered 0).relu (add d b).1).2 =
      ((metered 1).add d b).2 + ((metered 1).relu (add d b).1).2 +
        (((metered 2).add d b).2 + ((metered 2).relu (add d b).1).2) := rfl
  simp only [hk] at hcost ⊢
  omega

variable (inMem outMem weight bias : Memory N)

private theorem convGroup_adds (inChannelNum filterSize stride outX outY outChannel : Int)
    (c : Fin 3 → Nat) (s : Fin 3 → Machine (Ptr N) (Word F) (Access N)) (h : Adds c s) :
    Adds
      (fun k => ((convGroup (metered k) inMem outMem weight bias inChannelNum filterSize stride
        outX outY outChannel (c k)).run (s k)).1)
      (fun k => ((convGroup (metered k) inMem outMem weight bias inChannelNum filterSize stride
        outX outY outChannel (c k)).run (s k)).2) := by
  have hacc := forEach_family AddsData (steps 0 filterSize 1)
    (fun k wX acc => forEach (steps 0 filterSize 1) acc fun wY acc =>
      forEach (steps 0 inChannelNum 1) acc
        (convMac (metered k) inMem weight outX outY outChannel stride wX wY))
    (fun wX _ a s h => forEach_family AddsData (steps 0 filterSize 1)
      (fun k wY acc => forEach (steps 0 inChannelNum 1) acc
        (convMac (metered k) inMem weight outX outY outChannel stride wX wY))
      (fun wY _ a s h => forEach_family AddsData (steps 0 inChannelNum 1)
        (fun k => convMac (metered k) inMem weight outX outY outChannel stride wX wY)
        (fun inChannel _ => addsData_mac
          (fun u acc => convMac u inMem weight outX outY outChannel stride wX wY inChannel acc)
          fun m => ⟨_, _, _, fun _ _ => rfl⟩) a s h) a s h)
    (fun k => (Data.ofLanes 0 0 0 0, c k)) s ⟨fun _ => rfl, h⟩
  simp only [convGroup_eq, run_bind_eq]
  exact adds_groupEnd (loadLanes (loadAt bias outChannel) (loadAt bias (outChannel + 1))
    (loadAt bias (outChannel + 2)) (loadAt bias (outChannel + 3)))
    (storeLanes outMem outX outY outChannel) _ _ hacc

theorem convLoops_adds (inChannelNum : Int) (outChannelRange outXRange outYRange : Range)
    (filterSize stride : Int) (m : Machine (Ptr N) (Word F) (Access N)) :
    Adds
      (fun k => ((convLoops (metered k) inMem outMem weight bias inChannelNum outChannelRange
        outXRange outYRange filterSize stride).run m).1)
      (fun k => ((convLoops (metered k) inMem outMem weight bias inChannelNum outChannelRange
        outXRange outYRange filterSize stride).run m).2) := by
  have hchannels (outX outY : Int) := forEach_family (Adds (N := N) (F := F))
    (steps outChannelRange.begin outChannelRange.end_ 4)
    (fun (k : Fin 3) outChannel cycles => convGroup (metered k) inMem outMem weight bias inChannelNum
      filterSize stride outX outY outChannel cycles)
    fun outChannel _ => convGroup_adds inMem outMem weight bias inChannelNum filterSize stride
      outX outY outChannel
  have hrow (outX : Int) := forEach_family (Adds (N := N) (F := F)) (steps outYRange.begin outYRange.end_ 1)
    (fun (k : Fin 3) outY cycles => forEach (steps outChannelRange.begin outChannelRange.end_ 4) cycles
      fun outChannel cycles => convGroup (metered k) inMem outMem weight bias inChannelNum
        filterSize stride outX outY outChannel cycles) fun outY _ => hchannels outX outY
  exact forEach_family Adds (steps outXRange.begin outXRange.end_ 1) _
    (fun outX _ => hrow outX) (fun _ => 0) (fun _ => m) ⟨fun _ => rfl, rfl⟩

private theorem fcGroup_adds (inDataLength outEnd outIndex : Int) (c : Fin 3 → Nat)
    (s : Fin 3 → Machine (Ptr N) (Word F) (Access N)) (h : Adds c s) :
    Adds
      (fun k => ((fcGroup (metered k) inMem outMem weight bias inDataLength outEnd outIndex
        (c k)).run (s k)).1)
      (fun k => ((fcGroup (metered k) inMem outMem weight bias inDataLength outEnd outIndex
        (c k)).run (s k)).2) := by
  have hacc := forEach_family AddsData (steps 0 inDataLength 1)
    (fun k => fcMac (metered k) inMem weight outIndex outEnd)
    (fun inIndex _ => addsData_mac
      (fun u acc => fcMac u inMem weight outIndex outEnd inIndex acc)
      fun m => ⟨_, _, _, fun _ _ => rfl⟩)
    (fun k => (Data.ofLanes 0 0 0 0, c k)) s ⟨fun _ => rfl, h⟩
  simp only [fcGroup_eq, run_bind_eq]
  exact adds_groupEnd (loadLanes (loadAt bias outIndex) (loadAt bias (outIndex + 1))
    (loadUnless (outIndex + 4 > outEnd) (loadAt bias (outIndex + 2)))
    (loadUnless (outIndex + 4 > outEnd) (loadAt bias (outIndex + 3))))
    (storeMasked outMem outEnd outIndex) _ _ hacc

theorem fcLoops_adds (inDataLength : Int) (outRange : Range)
    (m : Machine (Ptr N) (Word F) (Access N)) :
    Adds
      (fun k => ((fcLoops (metered k) inMem outMem weight bias inDataLength outRange).run m).1)
      (fun k => ((fcLoops (metered k) inMem outMem weight bias inDataLength outRange).run m).2) :=
  forEach_family Adds (steps outRange.begin outRange.end_ 4)
    (fun k => fcGroup (metered k) inMem outMem weight bias inDataLength outRange.end_)
    (fun outIndex _ => fcGroup_adds inMem outMem weight bias inDataLength outRange.end_ outIndex)
    (fun _ => 0) (fun _ => m) ⟨fun _ => rfl, rfl⟩

end Runs

section Zeros

def zeroGroup (w : Data F) : Nat := if flagZero w then 1 else 0

/-- Pairs of an output group and an input element whose four weights are zero. -/
def convZeros (weight : Tensor F) (inChannelNum : Int) (outChannelRange outXRange outYRange : Range)
    (filterSize : Int) : Nat :=
  ((steps outXRange.begin outXRange.end_ 1).map fun _ =>
    ((steps outYRange.begin outYRange.end_ 1).map fun _ =>
      ((steps outChannelRange.begin outChannelRange.end_ 4).map fun outChannel =>
        ((steps 0 filterSize 1).map fun wX => ((steps 0 filterSize 1).map fun wY =>
          ((steps 0 inChannelNum 1).map fun inChannel =>
            zeroGroup ⟨fun k => weight wX wY inChannel (outChannel + (k.val : Int))⟩).sum).sum).sum
        ).sum).sum).sum

/-- The same for a dense layer, where the masked lanes of the tail count as zero. -/
def fcZeros (weight : Tensor F) (inDataLength : Int) (outRange : Range) : Nat :=
  ((steps outRange.begin outRange.end_ 4).map fun outIndex =>
    ((steps 0 inDataLength 1).map fun inIndex =>
      zeroGroup ⟨fun k => if LiveLane outRange.end_ outIndex k then
        weight inIndex (outIndex + (k.val : Int)) 0 0 else 0⟩).sum).sum

/-- The weights read are in the shape and are not overwritten. -/
structure ConvKeeps (outMem weight : Memory N) (inChannelNum : Int)
    (outChannelRange outXRange outYRange : Range) (filterSize : Int) : Prop where
  inShape : ∀ wX ∈ steps 0 filterSize 1, ∀ wY ∈ steps 0 filterSize 1,
    ∀ inChannel ∈ steps 0 inChannelNum 1,
      ∀ outChannel ∈ steps outChannelRange.begin outChannelRange.end_ 4, ∀ k : Fin 4,
        weight.InShape wX wY inChannel (outChannel + (k.val : Int))
  apart : ∀ x y z w, GroupIndex outChannelRange outXRange outYRange x y z w →
    outMem.addr x y z w ∉ weight.region

structure FcKeeps (outMem weight : Memory N) (inDataLength : Int) (outRange : Range) : Prop where
  inShape : ∀ inIndex ∈ steps 0 inDataLength 1, ∀ outIndex ∈ steps outRange.begin outRange.end_ 4,
    ∀ k : Fin 4, LiveLane outRange.end_ outIndex k →
      weight.InShape inIndex (outIndex + (k.val : Int)) 0 0
  apart : ∀ x y z w, FcIndex outRange x y z w → outMem.addr x y z w ∉ weight.region

/-- The weights are those of the heap `h`. -/
def Keeps (h : Heap N F) (weight : Memory N) (m : Machine (Ptr N) (Word F) (Access N)) : Prop :=
  Set.EqOn m.heap h weight.region

theorem Keeps.value {h : Heap N F} {weight : Memory N} {m : Machine (Ptr N) (Word F) (Access N)}
    (hk : Keeps h weight m) {x y z w : Int} (hin : weight.InShape x y z w) :
    weight.value m.heap x y z w = weight.value h x y z w :=
  congrArg Word.toFloat (hk (Memory.addr_mem_region hin))

private theorem storeAt_heap (mem : Memory N) (x y z w : Int) (v : F)
    (m : Machine (Ptr N) (Word F) (Access N)) :
    ((storeAt mem x y z w v).run m).2.heap =
      Function.update m.heap (mem.addr x y z w) (.float v) := rfl

theorem Keeps.storeAt {h : Heap N F} {weight mem : Memory N} {x y z w : Int} {v : F}
    {m : Machine (Ptr N) (Word F) (Access N)} (hk : Keeps h weight m)
    (hout : mem.addr x y z w ∉ weight.region) :
    Keeps h weight ((SimpleCNN.storeAt mem x y z w v).run m).2 := by
  intro p hp
  have hne : p ≠ mem.addr x y z w := fun he => hout (he ▸ hp)
  rw [storeAt_heap, Function.update_of_ne hne]
  exact hk hp

section Conv

variable (inMem bias : Memory N) {outMem weight : Memory N} {inChannelNum : Int}
  {outChannelRange outXRange outYRange : Range} {filterSize : Int} {h : Heap N F}
  (hkeep : ConvKeeps outMem weight inChannelNum outChannelRange outXRange outYRange filterSize)

include hkeep

private theorem convMac_zeros {outX outY outChannel stride : Int}
    (hc : outChannel ∈ steps outChannelRange.begin outChannelRange.end_ 4) (wX : Int)
    (hX : wX ∈ steps 0 filterSize 1) (wY : Int) (hY : wY ∈ steps 0 filterSize 1) (inChannel : Int)
    (hi : inChannel ∈ steps 0 inChannelNum 1) (a : Data F × Nat)
    (s : Machine (Ptr N) (Word F) (Access N)) (hs : Keeps h weight s) :
    let r := (convMac zeroMeter inMem weight outX outY outChannel stride wX wY inChannel a).run s
    r.1.2 = a.2 + zeroGroup
        ⟨fun k => weight.value h wX wY inChannel (outChannel + (k.val : Int))⟩ ∧
      Keeps h weight r.2 := by
  intro r
  refine ⟨?_, hs⟩
  have hv (k : Fin 4) := hs.value (hkeep.inShape wX hX wY hY inChannel hi outChannel hc k)
  have h0 := hv 0
  simp only [Fin.val_zero, Nat.cast_zero, add_zero] at h0
  have hlanes : Data.ofLanes (weight.value s.heap wX wY inChannel outChannel)
      (weight.value s.heap wX wY inChannel (outChannel + 1))
      (weight.value s.heap wX wY inChannel (outChannel + 2))
      (weight.value s.heap wX wY inChannel (outChannel + 3)) =
      ⟨fun k => weight.value h wX wY inChannel (outChannel + (k.val : Int))⟩ := by
    unfold Data.ofLanes
    congr 1
    funext k
    fin_cases k
    · simpa using h0
    · exact hv 1
    · exact hv 2
    · exact hv 3
  exact congrArg (fun w => a.2 + zeroGroup w) hlanes

private theorem convGroup_zeros (stride : Int) (outX : Int)
    (hX : outX ∈ steps outXRange.begin outXRange.end_ 1) (outY : Int)
    (hY : outY ∈ steps outYRange.begin outYRange.end_ 1) (outChannel : Int)
    (hc : outChannel ∈ steps outChannelRange.begin outChannelRange.end_ 4) (c : Nat)
    (s : Machine (Ptr N) (Word F) (Access N)) (hs : Keeps h weight s) :
    let r := (convGroup zeroMeter inMem outMem weight bias inChannelNum filterSize stride outX outY
      outChannel c).run s
    r.1 = c + ((steps 0 filterSize 1).map fun wX => ((steps 0 filterSize 1).map fun wY =>
        ((steps 0 inChannelNum 1).map fun inChannel => zeroGroup
          ⟨fun k => weight.value h wX wY inChannel (outChannel + (k.val : Int))⟩).sum).sum).sum ∧
      Keeps h weight r.2 := by
  intro r
  obtain ⟨hcost, hend⟩ := forEach_sum (Keeps h weight) (fun a : Data F × Nat => a.2) _
    (steps 0 filterSize 1)
    (fun wX acc => forEach (steps 0 filterSize 1) acc fun wY acc =>
      forEach (steps 0 inChannelNum 1) acc
        (convMac zeroMeter inMem weight outX outY outChannel stride wX wY))
    (fun wX hwX => forEach_sum (Keeps h weight) (fun a : Data F × Nat => a.2) _ _ _
      fun wY hwY => forEach_sum (Keeps h weight) (fun a : Data F × Nat => a.2) _ _ _
        (convMac_zeros inMem hkeep hc wX hwX wY hwY))
    (Data.ofLanes 0 0 0 0, c) s hs
  refine ⟨hcost, ?_⟩
  have hcell (k : Fin 4) : outMem.addr outX outY (outChannel + (k.val : Int)) 0 ∉
      weight.region := hkeep.apart _ _ _ _ ⟨hX, hY, ⟨outChannel, hc, k, rfl⟩, rfl⟩
  have h0 := hcell 0
  simp only [Fin.val_zero, Nat.cast_zero, add_zero] at h0
  exact ((((show Keeps h weight _ from hend).storeAt h0).storeAt (hcell 1)).storeAt
    (hcell 2)).storeAt (hcell 3)

theorem convLoops_zeros (stride : Int) (m : Machine (Ptr N) (Word F) (Access N)) :
    ((convLoops zeroMeter inMem outMem weight bias inChannelNum outChannelRange outXRange outYRange
      filterSize stride).run m).1 =
      convZeros (weight.value m.heap) inChannelNum outChannelRange outXRange outYRange
        filterSize := by
  have hloops := forEach_sum (Keeps m.heap weight) (fun c : Nat => c) _
    (steps outXRange.begin outXRange.end_ 1) _
    (fun outX hX => forEach_sum (Keeps m.heap weight) (fun c : Nat => c) _
      (steps outYRange.begin outYRange.end_ 1) _
      fun outY hY => forEach_sum (Keeps m.heap weight) (fun c : Nat => c) _
        (steps outChannelRange.begin outChannelRange.end_ 4) _
        (convGroup_zeros inMem bias hkeep stride outX hX outY hY))
    0 m fun _ _ => rfl
  exact hloops.1.trans (Nat.zero_add _)

end Conv

section Fc

variable (inMem bias : Memory N) {outMem weight : Memory N} {inDataLength : Int} {outRange : Range}
  {h : Heap N F} (hkeep : FcKeeps outMem weight inDataLength outRange)

include hkeep

private theorem fcMac_zeros {outIndex : Int} (ho : outIndex ∈ steps outRange.begin outRange.end_ 4)
    (inIndex : Int) (hi : inIndex ∈ steps 0 inDataLength 1) (a : Data F × Nat)
    (s : Machine (Ptr N) (Word F) (Access N)) (hs : Keeps h weight s) :
    let r := (fcMac zeroMeter inMem weight outIndex outRange.end_ inIndex a).run s
    r.1.2 = a.2 + zeroGroup ⟨fun k => if LiveLane outRange.end_ outIndex k then
        weight.value h inIndex (outIndex + (k.val : Int)) 0 0 else 0⟩ ∧
      Keeps h weight r.2 := by
  have hv (k : Fin 4) (hl : LiveLane outRange.end_ outIndex k) :=
    hs.value (hkeep.inShape inIndex hi outIndex ho k hl)
  have hlow (k : Fin 4) (hk : k.val < 2) : LiveLane outRange.end_ outIndex k := Or.inl hk
  have h0 := hv 0 (hlow 0 (by decide))
  have h1 := hv 1 (hlow 1 (by decide))
  simp only [Fin.val_zero, Nat.cast_zero, add_zero] at h0
  have hlanes (b c : F)
      (hb : b = if LiveLane outRange.end_ outIndex 2 then
        weight.value h inIndex (outIndex + ((2 : Fin 4).val : Int)) 0 0 else 0)
      (hc : c = if LiveLane outRange.end_ outIndex 3 then
        weight.value h inIndex (outIndex + ((3 : Fin 4).val : Int)) 0 0 else 0) :
      Data.ofLanes (weight.value s.heap inIndex outIndex 0 0)
        (weight.value s.heap inIndex (outIndex + 1) 0 0) b c =
      ⟨fun k => if LiveLane outRange.end_ outIndex k then
        weight.value h inIndex (outIndex + (k.val : Int)) 0 0 else 0⟩ := by
    unfold Data.ofLanes
    congr 1
    funext k
    fin_cases k
    · simpa [hlow 0 (by decide)] using h0
    · simpa [hlow 1 (by decide)] using h1
    · exact hb
    · exact hc
  by_cases htail : outIndex + 4 > outRange.end_
  · have hdead (k : Fin 4) (hk : ¬ k.val < 2) : ¬ LiveLane outRange.end_ outIndex k := by
      intro hl
      rcases hl with hl | hl
      · exact hk hl
      · omega
    simp only [fcMac, loadUnless, if_pos htail]
    refine ⟨congrArg (fun w => a.2 + zeroGroup w) (hlanes 0 0 ?_ ?_), hs⟩
    · rw [if_neg (hdead 2 (by decide))]
    · rw [if_neg (hdead 3 (by decide))]
  · have hlive (k : Fin 4) : LiveLane outRange.end_ outIndex k := Or.inr (by omega)
    simp only [fcMac, loadUnless, if_neg htail]
    refine ⟨congrArg (fun w => a.2 + zeroGroup w) (hlanes _ _ ?_ ?_), hs⟩
    · rw [if_pos (hlive 2)]
      exact hv 2 (hlive 2)
    · rw [if_pos (hlive 3)]
      exact hv 3 (hlive 3)

private theorem fcGroup_zeros (outIndex : Int)
    (ho : outIndex ∈ steps outRange.begin outRange.end_ 4)
    (c : Nat) (s : Machine (Ptr N) (Word F) (Access N)) (hs : Keeps h weight s) :
    let r := (fcGroup zeroMeter inMem outMem weight bias inDataLength outRange.end_ outIndex
      c).run s
    r.1 = c + ((steps 0 inDataLength 1).map fun inIndex =>
        zeroGroup ⟨fun k => if LiveLane outRange.end_ outIndex k then
          weight.value h inIndex (outIndex + (k.val : Int)) 0 0 else 0⟩).sum ∧
      Keeps h weight r.2 := by
  obtain ⟨hcost, hend⟩ := forEach_sum (Keeps h weight) (fun a : Data F × Nat => a.2) _ _ _
    (fcMac_zeros inMem hkeep ho) (Data.ofLanes 0 0 0 0, c) s hs
  refine ⟨hcost, ?_⟩
  have hcell (k : Fin 4) (hl : LiveLane outRange.end_ outIndex k) :
      outMem.addr (outIndex + (k.val : Int)) 0 0 0 ∉ weight.region :=
    hkeep.apart _ _ _ _ ⟨⟨outIndex, ho, k, hl, rfl⟩, rfl, rfl, rfl⟩
  have h0 := hcell 0 (Or.inl (by decide))
  have h1 := hcell 1 (Or.inl (by decide))
  simp only [Fin.val_zero, Nat.cast_zero, add_zero] at h0
  by_cases hfit : outIndex + 4 ≤ outRange.end_
  · have h2 := hcell 2 (Or.inr hfit)
    have h3 := hcell 3 (Or.inr hfit)
    have htail : ¬ outIndex + 4 > outRange.end_ := not_lt.mpr hfit
    simp only [fcGroup, storeMasked, loadUnless, if_pos hfit, if_neg htail]
    exact ((((show Keeps h weight _ from hend).storeAt h0).storeAt h1).storeAt h2).storeAt h3
  · have htail : outIndex + 4 > outRange.end_ := not_le.mp hfit
    simp only [fcGroup, storeMasked, loadUnless, if_neg hfit, if_pos htail]
    exact ((show Keeps h weight _ from hend).storeAt h0).storeAt h1

theorem fcLoops_zeros (m : Machine (Ptr N) (Word F) (Access N)) :
    ((fcLoops zeroMeter inMem outMem weight bias inDataLength outRange).run m).1 =
      fcZeros (weight.value m.heap) inDataLength outRange := by
  have hloops := forEach_sum (Keeps m.heap weight) (fun c : Nat => c) _
    (steps outRange.begin outRange.end_ 4) _ (fcGroup_zeros inMem bias hkeep) 0 m fun _ _ => rfl
  exact hloops.1.trans (Nat.zero_add _)

end Fc

end Zeros

end ModernArch.SimpleCNN
