import ModernArch.Vdev.Device

/-!
# Accesses to the data windows

A packet that stays in one data window copies to or from one memory. Such packets may be cut
into smaller ones, down to single bytes.
-/

namespace ModernArch.Vdev
open Framework

/-- Copies to a data memory may be cut, and take the bytes they copy only. -/
structure LawfulOps (C : Type) extends ChipOps C where
  write_nil : ∀ d off src c, writeMem d off 0 src c = c
  write_split : ∀ d off n m src c, writeMem d off (n + m) src c =
    writeMem d (off + n) m (fun k => src (n + k)) (writeMem d off n src c)
  write_congr : ∀ d off n src src' c, (∀ k < n, src k = src' k) →
    writeMem d off n src c = writeMem d off n src' c

variable {C : Type}

/-- All bytes of the packet are in the data window of the first. -/
def Packet.InWindow (pkt : Packet) : Prop :=
  2 ≤ pkt.offset ∧ ∀ k < pkt.size, (window (pkt.offset + k)).1 = (window pkt.offset).1

theorem window_add {off k : Nat} (h₂ : 2 ≤ off) (h : (window (off + k)).1 = (window off).1) :
    window (off + k) = ((window off).1, (window off).2 + k) := by
  refine Prod.ext h ?_
  revert h
  unfold window
  split_ifs <;> simp <;> omega

/-- The device after the first `n` bytes of a packet. -/
def copied (ops : ChipOps C) (pkt : Packet) (dev : VirtualDevice C) (n : Nat) : VirtualDevice C :=
  if !pkt.isRead && pkt.isWrite then { dev with
    aichip.core := ops.writeMem (window pkt.offset).1 (window pkt.offset).2 n pkt.data
      dev.aichip.core }
  else dev

/-- Byte `k` of the reply. -/
def copiedByte (ops : ChipOps C) (pkt : Packet) (dev : VirtualDevice C) (k : Nat) : UInt8 :=
  if pkt.isRead then
    ops.readMem (window pkt.offset).1 dev.aichip.core ((window pkt.offset).2 + k)
  else pkt.data k

theorem access_window (ops : ChipOps C) (pkt : Packet) (dev : VirtualDevice C) (cpu : BaseCPU)
    (h₂ : 2 ≤ pkt.offset) :
    ∃ data, access ops pkt dev cpu = .ok ⟨data, copied ops pkt dev pkt.size, cpu⟩ ∧
      ∀ k < pkt.size, data k = copiedByte ops pkt dev k := by
  have h₀ : pkt.offset ≠ 0 := by omega
  have h₁ : pkt.offset ≠ 1 := by omega
  unfold access copied copiedByte
  cases hread : pkt.isRead with
  | true =>
      refine ⟨fun k => if k < pkt.size then
        ops.readMem (window pkt.offset).1 dev.aichip.core ((window pkt.offset).2 + k)
        else pkt.data k, by simp [h₀, h₁], ?_⟩
      intro k hk
      simp [hk]
  | false =>
      cases hwrite : pkt.isWrite <;> exact ⟨pkt.data, by simp [h₀, h₁], fun k _ => by simp⟩

/-- Byte `k` of a packet as a packet. -/
def Packet.bytePacket (pkt : Packet) (k : Nat) : Packet :=
  { pkt with offset := pkt.offset + k, size := 1, data := fun _ => pkt.data k }

/-- The first `n` bytes of a packet, one access each. -/
def accessBytes (ops : ChipOps C) (pkt : Packet) (dev : VirtualDevice C) (cpu : BaseCPU) :
    Nat → Except Fault (Reply C)
  | 0 => .ok ⟨pkt.data, dev, cpu⟩
  | n + 1 => do
      let r ← accessBytes ops pkt dev cpu n
      let s ← access ops (pkt.bytePacket n) r.dev r.cpu
      return ⟨Function.update r.data n (s.data 0), s.dev, s.cpu⟩

private theorem accessBytes_snoc {ops : ChipOps C} {pkt : Packet} {dev : VirtualDevice C}
    {cpu : BaseCPU} {n : Nat} {r s : Reply C} (hr : accessBytes ops pkt dev cpu n = .ok r)
    (hs : access ops (pkt.bytePacket n) r.dev r.cpu = .ok s) :
    accessBytes ops pkt dev cpu (n + 1) =
      .ok ⟨Function.update r.data n (s.data 0), s.dev, s.cpu⟩ := by
  rw [accessBytes, hr]
  change ((access ops (pkt.bytePacket n) r.dev r.cpu).bind _) = _
  rw [hs]
  rfl

private theorem copied_succ (ops : LawfulOps C) {pkt : Packet} (hw : pkt.InWindow) {n : Nat}
    (hn : n < pkt.size) (dev : VirtualDevice C) :
    copied ops.toChipOps (pkt.bytePacket n) (copied ops.toChipOps pkt dev n) 1 =
      copied ops.toChipOps pkt dev (n + 1) ∧
    copiedByte ops.toChipOps (pkt.bytePacket n) (copied ops.toChipOps pkt dev n) 0 =
      copiedByte ops.toChipOps pkt dev n := by
  have hwin := window_add hw.1 (hw.2 n hn)
  cases hread : pkt.isRead with
  | true => simp [copied, copiedByte, Packet.bytePacket, hread, hwin]
  | false =>
      cases hwrite : pkt.isWrite with
      | false => simp [copied, copiedByte, Packet.bytePacket, hread, hwrite]
      | true =>
          have hcongr (mem : DataMem) (off : Nat) (c : C) :
              ops.writeMem mem off 1 (fun _ => pkt.data n) c =
                ops.writeMem mem off 1 (fun k => pkt.data (n + k)) c := by
            apply ops.write_congr
            intro k hk
            rw [Nat.lt_one_iff.mp hk, Nat.add_zero]
          simp [copied, copiedByte, Packet.bytePacket, hread, hwrite, hwin, ops.write_split, hcongr]

private theorem accessBytes_window (ops : LawfulOps C) {pkt : Packet} (hw : pkt.InWindow)
    (dev : VirtualDevice C) (cpu : BaseCPU) (n : Nat) (hn : n ≤ pkt.size) :
    ∃ data, accessBytes ops.toChipOps pkt dev cpu n =
        .ok ⟨data, copied ops.toChipOps pkt dev n, cpu⟩ ∧
      ∀ k < n, data k = copiedByte ops.toChipOps pkt dev k := by
  induction n with
  | zero =>
      refine ⟨pkt.data, ?_, fun k hk => absurd hk (Nat.not_lt_zero k)⟩
      simp [accessBytes, copied, ops.write_nil]
  | succ n ih =>
      obtain ⟨data, hrun, hdata⟩ := ih (by omega)
      have h₂ : 2 ≤ (pkt.bytePacket n).offset := hw.1.trans (Nat.le_add_right _ _)
      obtain ⟨byte, hbyte, hfirst⟩ := access_window ops.toChipOps (pkt.bytePacket n)
        (copied ops.toChipOps pkt dev n) cpu h₂
      obtain ⟨hdev, hread⟩ := copied_succ ops hw (show n < pkt.size by omega) dev
      refine ⟨Function.update data n (byte 0), ?_, ?_⟩
      · rw [accessBytes_snoc hrun hbyte]
        simp only [← hdev]
        rfl
      · intro k hk
        by_cases hkn : k = n
        · subst hkn
          rw [Function.update_self, hfirst 0 Nat.one_pos, hread]
        · rw [Function.update_of_ne hkn, hdata k (by omega)]

/-- The device and the bytes of a reply. -/
def Reply.seen (n : Nat) (r : Reply C) : VirtualDevice C × List UInt8 :=
  (r.dev, (List.range n).map r.data)

/-- A register sees the first byte of a packet only. -/
theorem access_register (ops : ChipOps C) {pkt : Packet} (hlow : pkt.offset < 2)
    (dev : VirtualDevice C) (cpu : BaseCPU) :
    (accessBytes ops pkt dev cpu 1).map (Reply.seen 1) =
      (access ops pkt dev cpu).map (Reply.seen 1) := by
  have hbyte : (access ops (pkt.bytePacket 0) dev cpu).map (Reply.seen 1) =
      (access ops pkt dev cpu).map (Reply.seen 1) := by
    rcases (show pkt.offset = 0 ∨ pkt.offset = 1 by omega) with hoff | hoff
    · cases hread : pkt.isRead with
      | true => simp [access, Packet.bytePacket, hoff, hread, Except.map, Reply.seen]
      | false =>
          cases hwrite : pkt.isWrite with
          | false => simp [access, Packet.bytePacket, hoff, hread, hwrite, Except.map, Reply.seen]
          | true =>
              by_cases hset : pkt.data 0 &&& vdevSet = 0
              · simp [access, Packet.bytePacket, hoff, hread, hwrite, hset, Except.map, Reply.seen]
              · by_cases hwork : dev.pmem &&& vdevWork = 0
                · cases hstart : start ops dev cpu <;>
                    simp [access, Packet.bytePacket, hoff, hread, hwrite, hset, hwork, hstart,
                      Except.map, Reply.seen]
                · simp [access, Packet.bytePacket, hoff, hread, hwrite, hset, hwork, Except.map,
                    Reply.seen]
    · cases hread : pkt.isRead <;> cases hwrite : pkt.isWrite <;>
        simp [access, Packet.bytePacket, hoff, hread, hwrite, Except.map, Reply.seen]
  rw [← hbyte]
  change ((access ops (pkt.bytePacket 0) dev cpu).bind _).map _ = _
  cases access ops (pkt.bytePacket 0) dev cpu with
  | error f => rfl
  | ok s => simp [Except.bind, Except.map, Reply.seen, pure, Except.pure]

/-- Inside one data window a packet does what its bytes do one after another. -/
theorem access_bytes (ops : LawfulOps C) {pkt : Packet} (h : pkt.size = 1 ∨ pkt.InWindow)
    (dev : VirtualDevice C) (cpu : BaseCPU) :
    (accessBytes ops.toChipOps pkt dev cpu pkt.size).map (Reply.seen pkt.size) =
      (access ops.toChipOps pkt dev cpu).map (Reply.seen pkt.size) := by
  by_cases hlow : pkt.size = 1 ∧ pkt.offset < 2
  · rw [hlow.1]
    exact access_register ops.toChipOps hlow.2 dev cpu
  · have hw : pkt.InWindow := by
      rcases h with hone | hw
      · refine ⟨by omega, ?_⟩
        intro k hk
        rw [show k = 0 by omega, Nat.add_zero]
      · exact hw
    obtain ⟨data, hrun, hdata⟩ := accessBytes_window ops hw dev cpu pkt.size le_rfl
    obtain ⟨data', hrun', hdata'⟩ := access_window ops.toChipOps pkt dev cpu hw.1
    have hsame : (List.range pkt.size).map data = (List.range pkt.size).map data' := by
      apply List.map_congr_left
      intro k hk
      rw [List.mem_range] at hk
      rw [hdata k hk, hdata' k hk]
    rw [hrun, hrun']
    simp only [Except.map, Reply.seen, hsame]

end ModernArch.Vdev
