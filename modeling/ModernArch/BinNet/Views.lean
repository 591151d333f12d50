import ModernArch.BinNet.Driver
import ModernArch.BinNet.Loading

/-!
# The weights behind their views

What `main` sends reads back through the views of `op_init`, and a load from these views makes
an array that hosts the layer.
-/

namespace ModernArch.BinNet
open Framework Vdev
set_option linter.unusedSectionVars false

variable {F : Type} [Field F] [FloatModel F] [LinearOrder F]

/-- Reading a layer from the third buffer only. -/
theorem loadedArray_congr {h h' : Heap MemName F}
    (hw : ∀ p, p.buf = .weightAndBiasMem → h p = h' p) (fc : FcName) (a : RramArray F) :
    Core.loadedArray h fc a = Core.loadedArray h' fc a := by
  have hgrid : gridAt h (place (.fcWeight fc)) = gridAt h' (place (.fcWeight fc)) := by
    funext i j
    simp only [gridAt, int8At, readByte]
    rw [hw _ rfl]
  have hfloats (name : MemName) (hname : (place name).buf = .weightAndBiasMem) :
      floatsAt h (place name) = floatsAt h' (place name) := by
    funext i
    simp only [floatsAt]
    rw [hw ((place name).add i) hname]
  rw [Core.loadedArray, Core.loadedArray, hgrid, hfloats _ rfl, hfloats _ rfl, hfloats _ rfl,
    hfloats _ rfl]

/-- The views of a layer hold the arrays sent for it. -/
structure Holds (h : Heap MemName F) (fc : FcName) (a : LayerArrays) : Prop where
  weight : ∀ i < 1024, ∀ j < 1024, gridAt h (place (.fcWeight fc)) i j = a.fcW i j
  bnB : ∀ i < 1024, floatsAt h (place (.bnBias fc)) i = FloatModel.ofBytes (a.bnB i)
  bnW : ∀ i < 1024, floatsAt h (place (.bnWeight fc)) i = FloatModel.ofBytes (a.bnW i)
  bnVar : ∀ i < 1024, floatsAt h (place (.bnVar fc)) i = FloatModel.ofBytes (a.bnVar i)
  bnMean : ∀ i < 1024, floatsAt h (place (.bnMean fc)) i = FloatModel.ofBytes (a.bnMean i)

private theorem LayerArrays.total_blocks (a : LayerArrays) : Block.total a.blocks = 4 * 266240 := by
  simp [blocks, gridBlock, rowBlock]

/-- A layer's arrays sent at its offset fill its views. -/
theorem holds_of_blocks (h : Heap MemName F) (fc : FcName) (a : LayerArrays)
    (before after : List Block) (hbase : Block.total before = 4 * fc.base) :
    Holds (sendAll AIChip.mem3 h 0 (before ++ (a.blocks ++ after))) fc a := by
  have hfloat (name : MemName) (v : Nat → Bits) (pre post : List Block) (d : Nat)
      (hname : place name = AIChip.mem3.add (fc.base + d : Nat))
      (hpre : Block.total pre = 4 * d)
      (hblocks : a.blocks ++ after = pre ++ rowBlock v :: post) (i : Nat) (hi : i < 1024) :
      floatsAt (sendAll AIChip.mem3 h 0 (before ++ (a.blocks ++ after))) (place name) i =
        FloatModel.ofBytes (v i) := by
    have htotal : Block.total (before ++ pre) = 4 * (fc.base + d) := by
      rw [Block.total_append, hbase, hpre, Nat.mul_add]
    have hword := sendAll_word AIChip.mem3 h (before ++ pre) post (rowBlock v) htotal
      (i := i) (by simp only [rowBlock]; omega)
    rw [List.append_assoc, ← hblocks] at hword
    rw [floatsAt, hname, Ptr.add_add, ← Nat.cast_add, hword]
    simp only [Word.toFloat, rowBlock]
    congr 1
    funext k
    rw [lane_add, Nat.mul_add_div (by decide), Nat.div_eq_of_lt k.isLt, Nat.add_zero]
    exact congrArg (v i) (Fin.ext (Nat.mod_eq_of_lt k.isLt))
  constructor
  · intro i hi j hj
    have hk : 1024 * i + j < (gridBlock a.fcW).size := by
      simp only [gridBlock]
      omega
    have hread := readByte_sendAll AIChip.mem3 h 0 before
      (rowBlock a.bnB :: rowBlock a.bnW :: rowBlock a.bnVar :: rowBlock a.bnMean :: after)
      (gridBlock a.fcW) hk
    have hplace : place (.fcWeight fc) = AIChip.mem3.add (fc.base : Nat) := by
      simp [place, AIChip.mem3, Ptr.add]
    rw [gridAt, int8At, hplace, readByte_add, ← hbase]
    rw [Nat.zero_add] at hread
    have hbyte : (gridBlock a.fcW).byte (1024 * i + j) = (a.fcW i j).toUInt8 := by
      simp only [gridBlock, Nat.mul_add_div (show 0 < 1024 by decide), Nat.div_eq_of_lt hj,
        Nat.add_zero, Nat.mul_add_mod, Nat.mod_eq_of_lt hj]
    rw [hbyte] at hread
    have hcell := congrArg UInt8.toInt8 hread
    exact hcell
  · exact hfloat _ a.bnB [gridBlock a.fcW]
      (rowBlock a.bnW :: rowBlock a.bnVar :: rowBlock a.bnMean :: after) 262144
      (by simp [place, AIChip.mem3, Ptr.add]) (by simp [gridBlock]) rfl
  · exact hfloat _ a.bnW [gridBlock a.fcW, rowBlock a.bnB]
      (rowBlock a.bnVar :: rowBlock a.bnMean :: after) 263168
      (by simp [place, AIChip.mem3, Ptr.add]) (by simp [gridBlock, rowBlock]) rfl
  · exact hfloat _ a.bnVar [gridBlock a.fcW, rowBlock a.bnB, rowBlock a.bnW]
      (rowBlock a.bnMean :: after) 264192
      (by simp [place, AIChip.mem3, Ptr.add]) (by simp [gridBlock, rowBlock]) rfl
  · exact hfloat _ a.bnMean [gridBlock a.fcW, rowBlock a.bnB, rowBlock a.bnW, rowBlock a.bnVar]
      after 265216
      (by simp [place, AIChip.mem3, Ptr.add]) (by simp [gridBlock, rowBlock]) rfl

theorem payload_holds_separate (h : Heap MemName F) (files : ModelFiles) (fc : FcName) :
    Holds (sendAll AIChip.mem3 h 0 (payload false files)) fc (separateArrays files fc) := by
  have hblocks := LayerArrays.total_blocks
  cases fc with
  | fc1 =>
      exact holds_of_blocks h .fc1 _ [] ((separateArrays files .fc2).blocks ++
        (separateArrays files .fc3).blocks) rfl
  | fc2 =>
      exact holds_of_blocks h .fc2 _ (separateArrays files .fc1).blocks
        (separateArrays files .fc3).blocks (hblocks _)
  | fc3 =>
      have hlast := holds_of_blocks h .fc3 (separateArrays files .fc3)
        ((separateArrays files .fc1).blocks ++ (separateArrays files .fc2).blocks) []
        (by rw [Block.total_append, hblocks, hblocks]; rfl)
      rwa [List.append_nil] at hlast

theorem payload_holds_merged (h : Heap MemName F) (files : ModelFiles) :
    Holds (sendAll AIChip.mem3 h 0 (payload true files)) .fc1 (mergedArrays files) := by
  have hone := holds_of_blocks h .fc1 (mergedArrays files) [] [] rfl
  rwa [List.append_nil] at hone

/-- A layer as its files give it. -/
def LayerFile.layer (fc : FcName) (file : LayerFile) : Layer F where
  weight i j := weightSign (file.weight (i * fc.cols + j))
  mean i := FloatModel.ofBytes (file.bnMean i)
  var i := FloatModel.ofBytes (file.bnVar i)
  scale i := FloatModel.ofBytes (file.bnWeight i)
  bias i := FloatModel.ofBytes (file.bnBias i)

def ModelFiles.classifier (files : ModelFiles) : Classifier F where
  fc1 := (files .fc1).layer .fc1
  fc2 := (files .fc2).layer .fc2
  fc3 := (files .fc3).layer .fc3

theorem FcName.fits (fc : FcName) : fc.rowBias + fc.rows ≤ 1024 ∧ fc.colBias + fc.cols ≤ 1024 := by
  cases fc <;> decide

section Loaded

variable {h : Heap MemName F} {fc fc' : FcName} {arrays : LayerArrays} {file : LayerFile}

theorem Holds.placed (hh : Holds h fc' arrays)
    (hosts : arrays.Hosts fc.rowBias fc.colBias fc file) (a : RramArray F) :
    (Core.loadedArray h fc' a).Placed fc.rowBias fc.rows fc.colBias fc.cols := by
  apply RramArray.loadWeight_placed _ _ _ _ _ _ fc.fits.1 fc.fits.2
  intro i hi j hj hout
  have hfit := fc.fits.1
  rw [hh.weight _ (by omega) j hj]
  exact hosts.zero i hi j hout

/-- Whatever the noise, the batch normalisation of a loaded array is that of the files. -/
theorem Holds.params (hh : Holds h fc' arrays)
    (hosts : arrays.Hosts fc.rowBias fc.colBias fc file) (a : RramArray F) {i : Nat}
    (hi : i < fc.rows) :
    let l := (Core.loadedArray h fc' a).layer fc.rowBias fc.colBias
    let l' : Layer F := file.layer fc
    l.mean i = l'.mean i ∧ l.var i = l'.var i ∧ l.scale i = l'.scale i ∧ l.bias i = l'.bias i := by
  have hfit := fc.fits.1
  have hrow : fc.rowBias + i < 1024 := by omega
  obtain ⟨hm, hv, hw, hb⟩ := RramArray.loadWeight_params (gridAt h (place (.fcWeight fc')))
    (floatsAt h (place (.bnMean fc'))) (floatsAt h (place (.bnVar fc')))
    (floatsAt h (place (.bnWeight fc'))) (floatsAt h (place (.bnBias fc'))) a hrow
  exact ⟨(hm.trans (hh.bnMean _ hrow)).trans (congrArg _ (hosts.bnMean i hi)),
    (hv.trans (hh.bnVar _ hrow)).trans (congrArg _ (hosts.bnVar i hi)),
    (hw.trans (hh.bnW _ hrow)).trans (congrArg _ (hosts.bnW i hi)),
    (hb.trans (hh.bnB _ hrow)).trans (congrArg _ (hosts.bnB i hi))⟩

/-- With every sample one a loaded array computes the layer of the files. -/
theorem Holds.layer_agree (hh : Holds h fc' arrays)
    (hosts : arrays.Hosts fc.rowBias fc.colBias fc file) {a : RramArray F} (ha : a.Noiseless) :
    ((Core.loadedArray h fc' a).layer fc.rowBias fc.colBias).Agree (file.layer fc) fc.rows
      fc.cols := by
  have hparams := fun i (hi : i < fc.rows) => hh.params hosts a hi
  have hfit := fc.fits
  apply Layer.Agree.mk
  · intro i hi j hj
    have hsign := RramArray.loadWeight_sign (gridAt h (place (.fcWeight fc')))
      (floatsAt h (place (.bnMean fc'))) (floatsAt h (place (.bnVar fc')))
      (floatsAt h (place (.bnWeight fc'))) (floatsAt h (place (.bnBias fc'))) a ha
      (show fc.rowBias + i < 1024 by omega) (show fc.colBias + j < 1024 by omega)
    rw [hh.weight _ (by omega) _ (by omega), hosts.weight i hi j hj] at hsign
    exact hsign
  · exact fun i hi => (hparams i hi).1
  · exact fun i hi => (hparams i hi).2.1
  · exact fun i hi => (hparams i hi).2.2.1
  · exact fun i hi => (hparams i hi).2.2.2

end Loaded

end ModernArch.BinNet
