import ModernArch.Framework.Word

/-!
# Named memories of an accelerator

`Memory` is a shaped view of a float buffer and `MemHub` the table of views by name. A view
made by `addMemory` owns the buffer that carries its name; `addSharedMemory` points into one
that exists already.
-/

namespace ModernArch.Vdev
open Framework

abbrev Tensor (F : Type) := Int → Int → Int → Int → F

structure Memory (N : Type) where
  data : Ptr N
  xLen : Int := 1
  yLen : Int := 1
  zLen : Int := 1
  wLen : Int := 1
deriving DecidableEq

namespace Memory

variable {N : Type} (m : Memory N)

def wzLen : Int := m.wLen * m.zLen

def wzyLen : Int := m.wzLen * m.yLen

def wzyxLen : Int := m.wzyLen * m.xLen

def index (xIndex yIndex zIndex wIndex : Int) : Int :=
  wIndex + zIndex * m.wLen + yIndex * m.wzLen + xIndex * m.wzyLen

/-- The pointer `getPtr` returns. -/
def addr (xIndex yIndex zIndex wIndex : Int) : Ptr N :=
  m.data.add (m.index xIndex yIndex zIndex wIndex)

def getMemSizeByFloat : Int := m.wzyxLen

/-- The bytes of the view. -/
def byteLen : Int := m.wzyxLen * 4

/-- The product is a `size_t` and is returned as an `int`. -/
def getMemSizeByByte : Int := m.byteLen.bmod (2 ^ 32)

/-- The assertion in `getPtr`. -/
def Asserts (xIndex yIndex zIndex wIndex : Int) : Prop :=
  m.index xIndex yIndex zIndex wIndex < m.wzyxLen

/-- Every index inside its own length. -/
def InShape (xIndex yIndex zIndex wIndex : Int) : Prop :=
  (0 ≤ xIndex ∧ xIndex < m.xLen) ∧ (0 ≤ yIndex ∧ yIndex < m.yLen) ∧
    (0 ≤ zIndex ∧ zIndex < m.zLen) ∧ (0 ≤ wIndex ∧ wIndex < m.wLen)

instance (x y z w : Int) : Decidable (m.InShape x y z w) := by
  unfold InShape; infer_instance

/-- The float at an index of the view. -/
def value {F : Type} [Zero F] [FloatModel F] (h : Heap N F) : Tensor F :=
  fun xIndex yIndex zIndex wIndex => (h (m.addr xIndex yIndex zIndex wIndex)).toFloat

/-- The view holds a tensor, as far as its shape reaches. -/
def Holds {F : Type} [Zero F] [FloatModel F] (h : Heap N F) (t : Tensor F) : Prop :=
  ∀ x y z w, m.InShape x y z w → m.value h x y z w = t x y z w

def HasShape (xLen yLen zLen wLen : Int) : Prop :=
  m.xLen = xLen ∧ m.yLen = yLen ∧ m.zLen = zLen ∧ m.wLen = wLen

/-- The cells of the view. -/
def region : Set (Ptr N) :=
  {p | p.buf = m.data.buf ∧ m.data.off ≤ p.off ∧ p.off < m.data.off + m.wzyxLen}

end Memory

/-- One digit of a mixed-radix number. -/
theorem radix_bounds {q n r b : Int} (hq : 0 ≤ q ∧ q < n) (hr : 0 ≤ r ∧ r < b) :
    0 ≤ r + q * b ∧ r + q * b < b * n := by
  have hb : 0 < b := by omega
  have hlow : 0 ≤ q * b := mul_nonneg hq.1 hb.le
  have hstep : (q + 1) * b ≤ n * b := mul_le_mul_of_nonneg_right (by omega) hb.le
  rw [add_mul, one_mul] at hstep
  rw [mul_comm b n]
  omega

private theorem radix_inj {q q' r r' b : Int} (hr : 0 ≤ r ∧ r < b) (hr' : 0 ≤ r' ∧ r' < b)
    (h : r + q * b = r' + q' * b) : r = r' ∧ q = q' := by
  have hmod : r = r' := by
    have hm := congrArg (· % b) h
    simpa [Int.add_mul_emod_self_right, Int.emod_eq_of_lt hr.1 hr.2,
      Int.emod_eq_of_lt hr'.1 hr'.2] using hm
  refine ⟨hmod, ?_⟩
  have hb : b ≠ 0 := by omega
  rw [hmod] at h
  exact mul_right_cancel₀ hb (add_left_cancel h)

namespace Memory

variable {N : Type} {m : Memory N}

theorem HasShape.inShape_iff {a b c d x y z w : Int} (h : m.HasShape a b c d) :
    m.InShape x y z w ↔
      (0 ≤ x ∧ x < a) ∧ (0 ≤ y ∧ y < b) ∧ (0 ≤ z ∧ z < c) ∧ (0 ≤ w ∧ w < d) := by
  obtain ⟨rfl, rfl, rfl, rfl⟩ := h
  rfl

/-- The `int` is the number of bytes below `2 ^ 31`. -/
theorem getMemSizeByByte_eq (h0 : 0 ≤ m.byteLen) (h : m.byteLen < 2 ^ 31) :
    m.getMemSizeByByte = m.byteLen := by
  unfold getMemSizeByByte
  apply Int.bmod_eq_of_le <;> omega

theorem HasShape.wzyxLen_eq {a b c d : Int} (h : m.HasShape a b c d) :
    m.wzyxLen = d * c * b * a := by
  obtain ⟨rfl, rfl, rfl, rfl⟩ := h
  rfl

private theorem index_digits {x y z w : Int} (h : m.InShape x y z w) :
    (0 ≤ w + z * m.wLen ∧ w + z * m.wLen < m.wzLen) ∧
      (0 ≤ w + z * m.wLen + y * m.wzLen ∧ w + z * m.wLen + y * m.wzLen < m.wzyLen) := by
  obtain ⟨_, hy, hz, hw⟩ := h
  have h₁ := radix_bounds hz hw
  exact ⟨h₁, radix_bounds hy h₁⟩

theorem index_bounds {x y z w : Int} (h : m.InShape x y z w) :
    0 ≤ m.index x y z w ∧ m.index x y z w < m.wzyxLen :=
  radix_bounds h.1 (index_digits h).2

/-- Staying in the shape is stronger than the assertion. -/
theorem InShape.asserts {x y z w : Int} (h : m.InShape x y z w) : m.Asserts x y z w :=
  (index_bounds h).2

theorem addr_mem_region {x y z w : Int} (h : m.InShape x y z w) :
    m.addr x y z w ∈ m.region := by
  have hb := index_bounds h
  refine ⟨rfl, ?_⟩
  simp only [addr, Ptr.add_off]
  omega

theorem addr_inj {x y z w x' y' z' w' : Int} (h : m.InShape x y z w)
    (h' : m.InShape x' y' z' w') (he : m.addr x y z w = m.addr x' y' z' w') :
    x = x' ∧ y = y' ∧ z = z' ∧ w = w' := by
  have hindex := Ptr.add_inj.mp he
  obtain ⟨hzyw, hx⟩ := radix_inj (index_digits h).2 (index_digits h').2 hindex
  obtain ⟨hzw, hy⟩ := radix_inj (index_digits h).1 (index_digits h').1 hzyw
  obtain ⟨hw, hz⟩ := radix_inj h.2.2.2 h'.2.2.2 hzw
  exact ⟨hx, hy, hz, hw⟩

end Memory

/-- `std::unordered_map` from names to views. -/
structure MemHub (N : Type) where
  memories : N → Option (Memory N)

namespace MemHub

variable {N : Type} [DecidableEq N] (hub : MemHub N)

/-- `unordered_map::emplace` keeps the entry of a name that is present. -/
def emplace (memName : N) (m : Memory N) : MemHub N :=
  match hub.memories memName with
  | some _ => hub
  | none => ⟨Function.update hub.memories memName (some m)⟩

def addMemory (memName : N) (xLen : Int) (yLen zLen wLen : Int := 1) : MemHub N :=
  hub.emplace memName ⟨⟨memName, 0⟩, xLen, yLen, zLen, wLen⟩

def addSharedMemory (memName : N) (data : Ptr N) (xLen : Int) (yLen zLen wLen : Int := 1) :
    MemHub N :=
  hub.emplace memName ⟨data, xLen, yLen, zLen, wLen⟩

/-- `unordered_map::at`, which throws for an absent name. -/
def getMemory (memName : N) : Option (Memory N) := hub.memories memName

def empty : MemHub N := ⟨fun _ => none⟩

omit [DecidableEq N] in
@[simp] theorem getMemory_empty (k : N) : (empty : MemHub N).getMemory k = none := rfl

theorem getMemory_emplace (memName k : N) (m : Memory N) :
    (hub.emplace memName m).getMemory k =
      if k = memName then some ((hub.getMemory memName).getD m) else hub.getMemory k := by
  unfold emplace getMemory
  cases h : hub.memories memName with
  | some m' =>
      by_cases hk : k = memName
      · simp [hk, h]
      · simp [hk]
  | none => simp [Function.update_apply]

theorem emplace_of_present {memName : N} {m m' : Memory N}
    (h : hub.getMemory memName = some m') : hub.emplace memName m = hub := by
  unfold getMemory at h
  simp [emplace, h]

end MemHub

end ModernArch.Vdev
