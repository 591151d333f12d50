import ModernArch.Framework.Binary32
import ModernArch.SimpleCNN.AIChip
import ModernArch.Vdev.Bytewise

/-! # The device of the CNN chip -/

namespace ModernArch.SimpleCNN
open Framework Vdev

variable {F : Type} [Field F] [FloatModel F] [LinearOrder F]

def lawfulOps (u : Simd F) : LawfulOps (Core F) where
  toChipOps := AIChip.ops u
  write_nil _ _ _ _ := rfl
  write_split d off n m src c := by
    simp only [AIChip.ops, memcpy_split]
  write_congr d off n src src' c h := by
    simp only [AIChip.ops, memcpy_congr h]

/-- A packet of one byte, or of bytes of one data window, is the sequence of its bytes. -/
theorem access_eq_bytes (u : Simd F) (pkt : Packet) (h : pkt.size = 1 ∨ pkt.InWindow)
    (dev : VirtualDevice (Core F)) (cpu : BaseCPU) :
    (accessBytes (AIChip.ops u) pkt dev cpu pkt.size).map (Reply.seen pkt.size) =
      (access (AIChip.ops u) pkt dev cpu).map (Reply.seen pkt.size) :=
  access_bytes (lawfulOps u) h dev cpu

/-- Eight bytes read from the windows, cut at every byte. -/
theorem access_eq_bytes_word :
    let pkt : Packet := ⟨true, false, 2, 8, fun _ => 0⟩
    let dev : VirtualDevice (Core ℚ) := { aichip := AIChip.new 1 fun _ => .float 0 }
    (accessBytes (AIChip.ops denseSimd) pkt dev {} 8).map (Reply.seen 8) =
      (access (AIChip.ops denseSimd) pkt dev {}).map (Reply.seen 8) := by
  refine access_eq_bytes denseSimd ⟨true, false, 2, 8, fun _ => 0⟩ (Or.inr ⟨le_rfl, ?_⟩) _ _
  intro k hk
  have hk₈ : k < 8 := hk
  simp only [window]
  rw [if_pos (by omega), if_pos (by omega)]

/-- A read of both registers leaves the second byte of the packet as it was. -/
theorem access_ne_bytes :
    let pkt : Packet := ⟨true, false, 0, 2, fun _ => 7⟩
    let dev : VirtualDevice (Core ℚ) := { aichip := AIChip.new 1 fun _ => .float 0 }
    (accessBytes (AIChip.ops denseSimd) pkt dev {} 2).map (Reply.seen 2) ≠
      (access (AIChip.ops denseSimd) pkt dev {}).map (Reply.seen 2) := by
  intro pkt dev h
  have hbytes := congrArg (Except.map fun r => r.2) h
  revert hbytes
  simp [accessBytes, access, pkt, dev, Packet.bytePacket, Except.map, Reply.seen, AIChip.new,
    List.range_succ, bind, Except.bind, pure, Except.pure]

end ModernArch.SimpleCNN
