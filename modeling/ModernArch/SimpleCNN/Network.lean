import ModernArch.SimpleCNN.Conv
import ModernArch.SimpleCNN.Dense
import ModernArch.SimpleCNN.Staging

/-!
# The network as functions on tensors

What the ten stages are for, with no memory in sight. Every stage depends on its inputs only
through the indices it reads, so that a view which holds a tensor as far as its shape reaches
may stand for it.
-/

namespace ModernArch.SimpleCNN
open Framework Vdev

set_option linter.unusedSectionVars false

variable {F : Type} [Field F] [FloatModel F] [LinearOrder F]

private theorem sum_congr {l : List Int} {f g : Int → F} (h : ∀ i ∈ l, f i = g i) :
    (l.map f).sum = (l.map g).sum := by
  rw [List.map_congr_left h]

theorem convValue_congr {input input' weight weight' bias bias' : Tensor F}
    {inChannelNum filterSize stride outX outY outChannel : Int}
    (hi : ∀ wX ∈ steps 0 filterSize 1, ∀ wY ∈ steps 0 filterSize 1,
      ∀ c ∈ steps 0 inChannelNum 1, input (outX * stride + wX) (outY * stride + wY) c 0 =
        input' (outX * stride + wX) (outY * stride + wY) c 0)
    (hw : ∀ wX ∈ steps 0 filterSize 1, ∀ wY ∈ steps 0 filterSize 1,
      ∀ c ∈ steps 0 inChannelNum 1, weight wX wY c outChannel = weight' wX wY c outChannel)
    (hb : bias outChannel 0 0 0 = bias' outChannel 0 0 0) :
    convValue input weight bias inChannelNum filterSize stride outX outY outChannel =
      convValue input' weight' bias' inChannelNum filterSize stride outX outY outChannel := by
  unfold convValue convSum
  rw [hb]
  congr 2
  apply sum_congr
  intro wX hX
  apply sum_congr
  intro wY hY
  apply sum_congr
  intro c hc
  rw [hi wX hX wY hY c hc, hw wX hX wY hY c hc]

private theorem foldl_congr {α : Type} {l : List Int} {f g : α → Int → α}
    (h : ∀ i ∈ l, ∀ a, f a i = g a i) (a : α) : l.foldl f a = l.foldl g a := by
  induction l generalizing a with
  | nil => rfl
  | cons i l ih =>
      simp only [List.foldl_cons, h i List.mem_cons_self a]
      exact ih (fun j hj => h j (List.mem_cons_of_mem i hj)) _

theorem poolValue_congr {input input' : Tensor F} {filterSize stride outX outY z : Int}
    (h : ∀ inX ∈ steps (outX * stride) (outX * stride + filterSize) 1,
      ∀ inY ∈ steps (outY * stride) (outY * stride + filterSize) 1,
        input inX inY z 0 = input' inX inY z 0) :
    poolValue input filterSize stride outX outY z =
      poolValue input' filterSize stride outX outY z := by
  apply foldl_congr
  intro inX hX a
  apply foldl_congr
  intro inY hY b
  rw [h inX hX inY hY]

theorem fcValue_congr {input input' : Int → F} {weight weight' bias bias' : Tensor F}
    {inDataLength outIndex : Int} (hi : ∀ i ∈ steps 0 inDataLength 1, input i = input' i)
    (hw : ∀ i ∈ steps 0 inDataLength 1, weight i outIndex 0 0 = weight' i outIndex 0 0)
    (hb : bias outIndex 0 0 0 = bias' outIndex 0 0 0) :
    fcValue input weight bias inDataLength outIndex =
      fcValue input' weight' bias' inDataLength outIndex := by
  unfold fcValue fcLogit fcSum
  rw [hb]
  congr 2
  apply sum_congr
  intro i hmem
  rw [hi i hmem, hw i hmem]

theorem padValue_congr {input input' : Tensor F} {padLength xLen yLen zLen wLen x y z w : Int}
    (h : PadIndex padLength xLen yLen zLen wLen x y z w →
      input (x - padLength) (y - padLength) z w = input' (x - padLength) (y - padLength) z w) :
    padValue input padLength xLen yLen zLen wLen x y z w =
      padValue input' padLength xLen yLen zLen wLen x y z w := by
  unfold padValue
  split
  · rename_i hidx
    exact h hidx
  · rfl

section Stages

/-- The order in which a dense layer reads a tensor of `yLen * zLen` floats a row. -/
def flatten (t : Tensor F) (yLen zLen : Int) : Int → F :=
  fun i => t (i / (yLen * zLen)) (i / zLen % yLen) (i % zLen) 0

theorem flatten_one (t : Tensor F) : flatten t 1 1 = fun i => t i 0 0 0 := by
  funext i
  simp [flatten]

/-- The tensor a stage leaves, from the tensor it finds and the named weights. -/
def layer (weights : MemName → Tensor F) (counter : UInt8) (t : Tensor F) : Tensor F :=
  match counter with
  | 2 => padValue t 2 28 28 1 1
  | 3 => fun x y z _ => convValue t (weights .conv2dKernel) (weights .conv2dBias) 1 5 1 x y z
  | 4 => fun x y z _ => poolValue t 2 2 x y z
  | 5 => padValue t 2 14 14 32 1
  | 6 => fun x y z _ => convValue t (weights .conv2d1Kernel) (weights .conv2d1Bias) 32 5 1 x y z
  | 7 => fun x y z _ => poolValue t 2 2 x y z
  | 8 => fun x _ _ _ =>
      fcValue (flatten t 7 64) (weights .denseKernel) (weights .denseBias) 3136 x
  | 9 => fun x _ _ _ =>
      fcValue (fun i => t i 0 0 0) (weights .dense1Kernel) (weights .dense1Bias) 512 x
  | _ => t

/-- The tensor after counters `2` to `counter`. -/
def network (weights : MemName → Tensor F) (image : Nat → UInt8) : Nat → Tensor F
  | 0 => pixelValue image
  | 1 => pixelValue image
  | k + 1 => layer weights (UInt8.ofNat (k + 1)) (network weights image k)

/-- The output of the first dense layer. -/
def hidden (weights : MemName → Tensor F) (image : Nat → UInt8) (i : Int) : F :=
  network weights image 8 i 0 0 0

/-- `W2ᵀ h + b2`. -/
def logit (weights : MemName → Tensor F) (image : Nat → UInt8) (o : Int) : F :=
  ∑ i ∈ Finset.range 512, hidden weights image i * weights .dense1Kernel i o 0 0 +
    weights .dense1Bias o 0 0 0

/-- The class the chip reports. -/
def predict (weights : MemName → Tensor F) (image : Nat → UInt8) : Int :=
  maxElement (fun o => network weights image 9 o 0 0 0) 10

private theorem sum_steps (n : Nat) (f : Int → F) :
    ((steps 0 n 1).map f).sum = ∑ i ∈ Finset.range n, f i := by
  have hlen : ((n : Int) - 0 + 1 - 1) / 1 = n := by omega
  unfold steps
  rw [hlen, Int.toNat_natCast, List.map_map, ← List.sum_toFinset _ List.nodup_range,
    List.toFinset_range]
  simp

theorem network_nine (weights : MemName → Tensor F) (image : Nat → UInt8) (o : Int) :
    network weights image 9 o 0 0 0 = max (logit weights image o) 0 := by
  change max (((steps 0 (512 : Nat) 1).map _).sum + _) 0 = _
  rw [sum_steps]
  rfl

end Stages

end ModernArch.SimpleCNN
