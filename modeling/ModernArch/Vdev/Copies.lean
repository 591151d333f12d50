import ModernArch.Vdev.Device
import ModernArch.Vdev.Memory

/-!
# What an access copies

`memcpy` takes the size of the packet and the offset in the window as they come. A window is
larger than the buffer behind it, so the bytes copied may lie outside.
-/

namespace ModernArch.Vdev
open Framework

inductive Region where
  | pmem
  | counter
  | data (d : DataMem)
deriving DecidableEq

/-- Bytes `off` to `off + len` of a region. -/
structure Span where
  region : Region
  off : Nat
  len : Nat
deriving DecidableEq

/-- The bytes of the device that an access copies. -/
def copies (pkt : Packet) : Option Span :=
  if pkt.isRead then
    if pkt.offset = 0 then some ⟨.pmem, 0, 1⟩
    else if pkt.offset = 1 then some ⟨.counter, 0, 1⟩
    else some ⟨.data (window pkt.offset).1, (window pkt.offset).2, pkt.size⟩
  else if pkt.isWrite then
    if pkt.offset = 0 then none
    else if pkt.offset = 1 then some ⟨.counter, 0, 1⟩
    else some ⟨.data (window pkt.offset).1, (window pkt.offset).2, pkt.size⟩
  else none

section Regions

variable {C : Type} (ops : ChipOps C)

def Region.byte (dev : VirtualDevice C) : Region → Nat → UInt8
  | .pmem, _ => dev.pmem
  | .counter, _ => dev.aichip.counter
  | .data d, k => ops.readMem d dev.aichip.core k

/-- Bytes stored to a region; no packet stores to the status register. -/
def Region.store (src : Nat → UInt8) (s : Span) (dev : VirtualDevice C) : VirtualDevice C :=
  match s.region with
  | .pmem => dev
  | .counter => { dev with aichip.counter := src 0 }
  | .data d => { dev with aichip.core := ops.writeMem d s.off s.len src dev.aichip.core }

/-- A read takes the bytes of its span and nothing else, and a write stores to them and to nothing
else; an access without a span leaves packet and device, or starts the chip. -/
def CopiesSpan (pkt : Packet) (dev : VirtualDevice C) (cpu : BaseCPU) : Prop :=
  match copies pkt with
  | some s =>
    if pkt.isRead then
      ∃ data, access ops pkt dev cpu = .ok ⟨data, dev, cpu⟩ ∧
        (∀ k < s.len, data k = s.region.byte ops dev (s.off + k)) ∧
        ∀ k, s.len ≤ k → data k = pkt.data k
    else access ops pkt dev cpu = .ok ⟨pkt.data, Region.store ops pkt.data s dev, cpu⟩
  | none => access ops pkt dev cpu = .ok ⟨pkt.data, dev, cpu⟩ ∨
      access ops pkt dev cpu = (start ops dev cpu).map fun r => ⟨pkt.data, r.1, r.2⟩

private theorem access_read {pkt : Packet} {s : Span} (hread : pkt.isRead = true)
    (hs : copies pkt = some s) (dev : VirtualDevice C) (cpu : BaseCPU) :
    ∃ data, access ops pkt dev cpu = .ok ⟨data, dev, cpu⟩ ∧
      (∀ k < s.len, data k = s.region.byte ops dev (s.off + k)) ∧
      ∀ k, s.len ≤ k → data k = pkt.data k := by
  have hregister (b : UInt8) : (∀ k < 1, Function.update pkt.data 0 b k = b) ∧
      ∀ k, 1 ≤ k → Function.update pkt.data 0 b k = pkt.data k := by
    constructor
    · intro k hk
      rw [Nat.lt_one_iff.mp hk, Function.update_self]
    · intro k hk
      rw [Function.update_of_ne (by omega)]
  unfold copies at hs
  unfold access
  simp only [hread, if_true] at hs ⊢
  by_cases h₀ : pkt.offset = 0
  · simp only [h₀, if_true] at hs ⊢
    cases hs
    exact ⟨_, rfl, hregister dev.pmem⟩
  · by_cases h₁ : pkt.offset = 1
    · simp only [h₁, if_true] at hs ⊢
      cases hs
      exact ⟨_, rfl, hregister dev.aichip.counter⟩
    · simp only [h₀, h₁, if_false] at hs ⊢
      cases hs
      refine ⟨_, rfl, ?_, ?_⟩
      · intro k hk
        exact if_pos hk
      · intro k hk
        exact if_neg (Nat.not_lt.mpr hk)

private theorem access_write {pkt : Packet} {s : Span} (hread : pkt.isRead = false)
    (hs : copies pkt = some s) (dev : VirtualDevice C) (cpu : BaseCPU) :
    access ops pkt dev cpu = .ok ⟨pkt.data, Region.store ops pkt.data s dev, cpu⟩ := by
  unfold copies at hs
  unfold access
  cases hwrite : pkt.isWrite with
  | false => simp [hread, hwrite] at hs
  | true =>
      by_cases h₀ : pkt.offset = 0
      · simp [hread, hwrite, h₀] at hs
      · by_cases h₁ : pkt.offset = 1
        · simp only [hread, hwrite, h₁, if_true] at hs ⊢
          cases hs
          rfl
        · simp only [hread, hwrite, h₀, h₁, if_true, if_false] at hs ⊢
          cases hs
          rfl

private theorem access_none {pkt : Packet} (hs : copies pkt = none) (dev : VirtualDevice C)
    (cpu : BaseCPU) : access ops pkt dev cpu = .ok ⟨pkt.data, dev, cpu⟩ ∨
      access ops pkt dev cpu = (start ops dev cpu).map fun r => ⟨pkt.data, r.1, r.2⟩ := by
  unfold copies at hs
  unfold access
  cases hread : pkt.isRead with
  | true =>
      simp only [hread, if_true] at hs
      split_ifs at hs
  | false =>
      cases hwrite : pkt.isWrite with
      | false => simp
      | true =>
          by_cases h₀ : pkt.offset = 0
          · by_cases hset : pkt.data 0 &&& vdevSet = 0
            · simp [h₀, hset]
            · by_cases hwork : dev.pmem &&& vdevWork = 0
              · simp [h₀, hset, hwork]
              · simp [h₀, hset, hwork]
          · simp only [hread, hwrite, h₀, if_true, if_false] at hs
            split_ifs at hs

theorem access_copies (pkt : Packet) (dev : VirtualDevice C) (cpu : BaseCPU) :
    CopiesSpan ops pkt dev cpu := by
  unfold CopiesSpan
  cases hs : copies pkt with
  | none => exact access_none ops hs dev cpu
  | some s =>
      dsimp only
      split_ifs with hread
      · exact access_read ops hread hs dev cpu
      · exact access_write ops (Bool.eq_false_iff.mpr hread) hs dev cpu

end Regions

/-- The bytes behind a region, with `n d` bytes behind a data memory. -/
def Region.size (n : DataMem → Nat) : Region → Nat
  | .pmem | .counter => 1
  | .data d => n d

/-- Every byte copied is behind its region. -/
def Inside (n : DataMem → Nat) (pkt : Packet) : Prop :=
  ∀ s, copies pkt = some s → ∀ k < s.len, s.off + k < s.region.size n

/-- The offset of the first byte of a data memory. -/
def windowStart : DataMem → Nat
  | .mem1 => 2
  | .mem2 => 1024 * 1024 + 2
  | .mem3 => 1024 * 1024 * 2 + 2

/-- A register, no byte at all, or a range of offsets with a buffer behind it. -/
def Backed (n : DataMem → Nat) (pkt : Packet) : Prop :=
  pkt.offset < 2 ∨ pkt.size = 0 ∨ (pkt.isRead = false ∧ pkt.isWrite = false) ∨
    ∃ d, windowStart d ≤ pkt.offset ∧ pkt.offset + pkt.size ≤ windowStart d + n d

private theorem copies_window {pkt : Packet} (h₂ : 2 ≤ pkt.offset) :
    copies pkt = if pkt.isRead || pkt.isWrite then
      some ⟨.data (window pkt.offset).1, (window pkt.offset).2, pkt.size⟩ else none := by
  have h₀ : pkt.offset ≠ 0 := by omega
  have h₁ : pkt.offset ≠ 1 := by omega
  cases hread : pkt.isRead <;> cases hwrite : pkt.isWrite <;> simp [copies, hread, hwrite, h₀, h₁]

private theorem copies_register {pkt : Packet} {s : Span} (h₂ : pkt.offset < 2)
    (hs : copies pkt = some s) : s = ⟨.pmem, 0, 1⟩ ∨ s = ⟨.counter, 0, 1⟩ := by
  unfold copies at hs
  split_ifs at hs <;> first | omega | (cases hs; simp)

/-- The window of an offset is the one it starts in. -/
theorem window_start {off : Nat} (h₂ : 2 ≤ off) :
    windowStart (window off).1 + (window off).2 = off := by
  unfold window
  split_ifs <;> simp only [windowStart] <;> omega

private theorem window_of_start {n : DataMem → Nat} (hn : ∀ d, d ≠ .mem3 → n d ≤ 1024 * 1024)
    {off : Nat} {d : DataMem} (hlow : windowStart d ≤ off) (hhigh : off < windowStart d + n d) :
    (window off).1 = d := by
  have h₁ := hn .mem1 (by decide)
  have h₂ := hn .mem2 (by decide)
  unfold window
  cases d <;> simp only [windowStart] at hlow hhigh <;> split_ifs <;> first | rfl | omega

theorem inside_iff {n : DataMem → Nat} (hn : ∀ d, d ≠ .mem3 → n d ≤ 1024 * 1024) (pkt : Packet) :
    Inside n pkt ↔ Backed n pkt := by
  by_cases h₂ : pkt.offset < 2
  · constructor
    · intro _
      exact Or.inl h₂
    · intro _ s hs k hk
      rcases copies_register h₂ hs with rfl | rfl
      · simpa [Region.size] using hk
      · simpa [Region.size] using hk
  · have hle : 2 ≤ pkt.offset := Nat.not_lt.mp h₂
    have hstart := window_start hle
    rw [Inside, copies_window hle]
    cases hop : pkt.isRead || pkt.isWrite with
    | false =>
        have hnone : pkt.isRead = false ∧ pkt.isWrite = false := Bool.or_eq_false_iff.mp hop
        simp [Backed, hnone]
    | true =>
        have hsome : ¬ (pkt.isRead = false ∧ pkt.isWrite = false) := by
          intro h
          rw [h.1, h.2] at hop
          cases hop
        constructor
        · intro h
          by_cases hsize : pkt.size = 0
          · exact Or.inr (Or.inl hsize)
          · have hlast := h _ rfl (pkt.size - 1) (by simp; omega)
            simp only [Region.size] at hlast
            refine Or.inr (Or.inr (Or.inr ⟨(window pkt.offset).1, ?_, ?_⟩)) <;> omega
        · intro h s hs k hk
          cases hs
          rcases h with h | h | h | ⟨d, hlow, hhigh⟩
          · exact absurd h h₂
          · simp [h] at hk
          · exact absurd h hsome
          · simp only at hk
            have hd : (window pkt.offset).1 = d := window_of_start hn hlow (by omega)
            simp only [Region.size]
            rw [hd] at hstart ⊢
            omega

end ModernArch.Vdev
