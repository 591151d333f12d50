import ModernArch.Vdev.Bytewise
import ModernArch.Vdev.Handshake

/-!
# The driver as a sequential program

Between calls the chip is as if every call had been one step. A run of calls can always be
completed when the chip does not throw.
-/

namespace ModernArch.Vdev.Driver
open Framework

variable {C : Type}

/-- A call as one step of the chip. -/
def Call.apply (ops : ChipOps C) : Call → AIChip C → Option (AIChip C)
  | .periInit counter, chip => ((AIChip.runCounter ops counter).run chip).map Prod.snd
  | .periWrite offset src len, chip => some { chip with
      core := ops.writeMem (window offset).1 (window offset).2 len src chip.core }
  | .periRead _ _, chip | .periIsFinished, chip => some chip

def applyAll (ops : ChipOps C) (cs : List Call) (chip : AIChip C) : Option (AIChip C) :=
  cs.foldlM (fun chip c => c.apply ops chip) chip

/-- What is written stays in the data window of its first byte. -/
def Call.InWindow : Call → Prop
  | .periWrite offset _ len =>
      2 ≤ offset ∧ ∀ k < len, (window (offset + k)).1 = (window offset).1
  | _ => True

theorem Call.InWindow.not_starts {c : Call} (h : c.InWindow) : ¬ c.Starts := by
  cases c with
  | periWrite offset src len => exact fun hstarts => absurd hstarts.1 (by have := h.1; omega)
  | _ => exact id

/-- The chip in the middle of a call that met it as `chip`. -/
def Pc.Meets (ops : ChipOps C) (chip now : AIChip C) : Pc → Prop
  | .storeInit counter => now = { chip with counter }
  | .poll (.periInit counter) => (Call.periInit counter).apply ops chip = some now
  | .copy (.periWrite offset src len) n =>
      n ≤ len ∧ (Call.periWrite offset src n).apply ops chip = some now
  | .done c _ => c.apply ops chip = some now
  | _ => now = chip

section Accesses

variable {ops : LawfulOps C} {chip : AIChip C} {dev : VirtualDevice C} {cpu : BaseCPU}

private theorem start_aichip {ops : ChipOps C} {r : VirtualDevice C × BaseCPU}
    (h : Vdev.start ops dev cpu = .ok r) :
    ∃ t, (AIChip.run ops).run dev.aichip = some (t, r.1.aichip) := by
  unfold Vdev.start at h
  cases hrun : (AIChip.run ops).run dev.aichip with
  | none => simp [hrun] at h
  | some p =>
      cases hs : dev.scheduled with
      | true => simp [hrun, hs] at h
      | false =>
          simp only [hrun, hs] at h
          obtain rfl := Except.ok.inj h
          exact ⟨p.1, rfl⟩

private theorem read_dev {ops : ChipOps C} {pkt : Packet} {r : Reply C} (hread : pkt.isRead = true)
    (h : access ops pkt dev cpu = .ok r) : r.dev = dev := by
  simp only [access, hread, if_true] at h
  split_ifs at h <;> exact (Except.ok.inj h) ▸ rfl

private theorem read_ok (ops : ChipOps C) (pkt : Packet) (hread : pkt.isRead = true)
    (dev : VirtualDevice C) (cpu : BaseCPU) : ∃ r, access ops pkt dev cpu = .ok r := by
  simp only [access, hread, if_true]
  split_ifs <;> exact ⟨_, rfl⟩

theorem Issues.meets {pc : Pc} {pkt : Packet} {next : UInt8 → Pc} (hissue : Issues pc pkt next)
    (hcall : ∀ c ∈ pc.call, c.InWindow) (hmeets : pc.Meets ops.toChipOps chip dev.aichip)
    (hoff : ∀ counter, pc = .storeInit counter → dev.pmem &&& vdevWork = 0) {r : Reply C}
    (hreply : access ops.toChipOps pkt dev cpu = .ok r) :
    (next (r.data 0)).Meets ops.toChipOps chip r.dev.aichip := by
  cases hissue with
  | storeCounter counter =>
      obtain rfl := Except.ok.inj hreply
      obtain rfl : dev.aichip = chip := hmeets
      rfl
  | storeInit counter =>
      rw [access_request storeInit_requests, if_pos (hoff counter rfl)] at hreply
      cases hstart : Vdev.start ops.toChipOps dev cpu with
      | error f =>
          rw [hstart] at hreply
          cases hreply
      | ok p =>
          rw [hstart] at hreply
          obtain rfl := Except.ok.inj hreply
          obtain ⟨t, hrun⟩ := start_aichip hstart
          have hchip : dev.aichip = { chip with counter } := hmeets
          rw [hchip] at hrun
          change ((AIChip.run ops.toChipOps).run { chip with counter }).map Prod.snd = _
          rw [hrun]
          rfl
  | poll c data =>
      obtain ⟨data', rfl, -⟩ := access_status hreply
      dsimp only
      split_ifs
      · cases c with
        | periInit counter => exact hmeets
        | periWrite offset src len =>
            obtain rfl : dev.aichip = chip := hmeets
            exact ⟨Nat.zero_le _, by simp [Call.apply, ops.write_nil]⟩
        | periRead offset len => exact hmeets
        | periIsFinished => exact hmeets
      · exact hmeets
  | @copyOut offset src len n size hsize hfit =>
      obtain ⟨hlow, hwin⟩ := hcall _ rfl
      obtain ⟨data, haccess, -⟩ := access_window ops.toChipOps
        ⟨false, true, offset + n, size, fun k => src (n + k)⟩ dev cpu (by simp; omega)
      obtain rfl := Except.ok.inj (haccess.symm.trans hreply)
      have hchip := Option.some.inj hmeets.2
      refine ⟨hfit, ?_⟩
      simp [Call.apply, copied, window_add hlow (hwin n (by omega)), ops.write_split, ← hchip]
  | copyIn data hsize hfit =>
      obtain hdev := read_dev rfl hreply
      rw [hdev]
      exact hmeets
  | loadFinish data =>
      obtain ⟨data', rfl, -⟩ := access_status hreply
      obtain rfl : dev.aichip = chip := hmeets
      rfl

end Accesses

section Runs

variable {ops : LawfulOps C} {chip : AIChip C} {ls : List (Label C)}

theorem applyAll_snoc (ops : ChipOps C) (cs : List Call) (c : Call) (chip : AIChip C) :
    applyAll ops (cs ++ [c]) chip = (applyAll ops cs chip).bind (c.apply ops) := by
  simp [applyAll]

theorem entry_meets {ops : ChipOps C} (c : Call) : (Pc.entry c).Meets ops chip chip := by
  cases c <;> rfl

theorem Returns.meets {ops : ChipOps C} {pc : Pc} {c : Call} {result : Bool} {now : AIChip C}
    (h : Returns pc c result) (hmeets : pc.Meets ops chip now) : c.apply ops chip = some now := by
  cases h with
  | done => exact hmeets
  | write => exact hmeets.2
  | read => exact congrArg some (Eq.symm hmeets)

/-- Between calls the chip is what the calls one after another make of it. -/
theorem run_meets {m : Machine C} (h : Run (Step ops.toChipOps) (boot chip) ls m)
    (hcalls : ∀ c ∈ calls ls, c.InWindow) :
    ∃ now, applyAll ops.toChipOps (rets ls) chip = some now ∧
      m.pc.Meets ops.toChipOps now m.dev.aichip := by
  induction h with
  | nil => exact ⟨chip, rfl, rfl⟩
  | @snoc ls l t u hrun hstep ih =>
      rw [calls_snoc] at hcalls
      have hbefore (c : Call) (hc : c ∈ calls ls) : c.InWindow :=
        hcalls c (List.mem_append_left _ hc)
      have hinv := run_inv hrun fun c hc => (hbefore c hc).not_starts
      obtain ⟨now, hnow, hmeets⟩ := ih hbefore
      cases hstep with
      | call c dev cpu =>
          obtain rfl : dev.aichip = now := hmeets
          exact ⟨dev.aichip, by simpa [rets_snoc, Label.returned] using hnow, entry_meets c⟩
      | @access pc pkt next dev cpu r hissue hreply =>
          refine ⟨now, by simpa [rets_snoc, Label.returned] using hnow, ?_⟩
          refine hissue.meets ?_ hmeets ?_ hreply
          · intro c hc
            apply hbefore
            rw [calls_eq hrun]
            exact List.mem_append_right _ (Option.mem_toList.mpr hc)
          · rintro counter rfl
            exact InStep.idle hinv.device (hinv.off fun _ heq => by cases heq)
      | @interrupt pc dev cpu r hon hok =>
          obtain ⟨hend, -⟩ := hinv.device.interrupt hon (InStep.registered hinv.device)
          obtain rfl := Except.ok.inj (hend.symm.trans hok)
          exact ⟨now, by simpa [rets_snoc, Label.returned] using hnow, hmeets⟩
      | @ret pc c result dev cpu hret =>
          refine ⟨dev.aichip, ?_, rfl⟩
          rw [rets_snoc]
          change applyAll _ (rets ls ++ [c]) chip = _
          rw [applyAll_snoc, hnow]
          exact hret.meets hmeets

/-- When every call has returned, the calls made are the calls done. -/
theorem run_idle {dev : VirtualDevice C} {cpu : BaseCPU}
    (h : Run (Step ops.toChipOps) (boot chip) ls ⟨.idle, dev, cpu⟩)
    (hcalls : ∀ c ∈ calls ls, c.InWindow) :
    applyAll ops.toChipOps (calls ls) chip = some dev.aichip := by
  obtain ⟨now, hnow, hmeets⟩ := run_meets h hcalls
  have hcall := calls_eq h
  simp only [idle_call, Option.toList_none, List.append_nil] at hcall
  rw [hcall, hnow]
  exact congrArg some (Eq.symm hmeets)

end Runs

/-- The drivers write the weights from here. -/
theorem window_weights (k : Nat) : window (2 + 1024 * 1024 * 2 + k) = (.mem3, k) := by
  rw [window, if_neg (by omega), if_neg (by omega)]
  exact congrArg (Prod.mk DataMem.mem3) (by omega)

/-- Writes from the start of a data window fill its memory. -/
theorem applyAll_writeCalls (ops : ChipOps C) {base : Nat} {d : DataMem}
    (hwin : ∀ k, window (base + k) = (d, k)) (off : Nat) (bs : List Block) (chip : AIChip C) :
    applyAll ops (writeCalls (base + off) bs) chip =
      some { chip with core := ops.writeAll d off bs chip.core } := by
  induction bs generalizing off chip with
  | nil => rfl
  | cons b bs ih =>
      rw [writeCalls, Nat.add_assoc]
      change applyAll ops (writeCalls (base + (off + b.size)) bs) _ = _
      rw [ih, hwin off]
      rfl

theorem writeCalls_inWindow {base : Nat} {d : DataMem} (hbase : 2 ≤ base)
    (hwin : ∀ k, window (base + k) = (d, k)) (off : Nat) (bs : List Block) :
    ∀ c ∈ writeCalls (base + off) bs, c.InWindow := by
  induction bs generalizing off with
  | nil => simp [writeCalls]
  | cons b bs ih =>
      intro c hc
      rw [writeCalls, Nat.add_assoc] at hc
      rcases List.mem_cons.mp hc with rfl | hc
      · refine ⟨Nat.le_add_right_of_le hbase, fun k _ => ?_⟩
        rw [Nat.add_assoc, hwin, hwin]
      · exact ih (off + b.size) c hc

section Completion

variable {ops : ChipOps C} {chip : AIChip C} {ls : List (Label C)} {dev : VirtualDevice C}
  {cpu : BaseCPU}

theorem poll_ready {i : Nat} {last : Option Bool} (c : Call) (hdev : InStep cpu i dev last)
    (hoff : dev.scheduled = false) :
    ∃ l : Label C, l.called = none ∧ Step ops ⟨.poll c, dev, cpu⟩ l ⟨Pc.ready c, dev, cpu⟩ := by
  have hbyte : dev.pmem &&& vdevReady ≠ 0 := by
    rw [hdev.pmem, hoff]
    cases last.getD true <;> decide
  have hstep := Step.access (Issues.poll c fun _ => 0)
    (show access ops (loadByte 0 fun _ => 0) dev cpu =
      .ok ⟨Function.update (fun _ => 0) 0 dev.pmem, dev, cpu⟩ from rfl)
  simp only [Function.update_self, if_pos hbyte] at hstep
  exact ⟨_, rfl, hstep⟩

private theorem complete_init (hdev : InStep cpu 0 dev (lastFinished ls))
    (hoff : dev.scheduled = false)
    (h : Run (Step ops) (boot chip) ls ⟨.idle, dev, cpu⟩) {counter : UInt8} {now : AIChip C}
    (happly : (Call.periInit counter).apply ops dev.aichip = some now) :
    ∃ ls' dev' cpu', Run (Step ops) (boot chip) ls' ⟨.idle, dev', cpu'⟩ ∧
      calls ls' = calls ls ++ [.periInit counter] := by
  let dev₁ : VirtualDevice C := { dev with aichip := { dev.aichip with counter } }
  have hdev₁ : InStep cpu 0 dev₁ (lastFinished ls) := InStep.of_core hdev counter dev.aichip.core
  have hidle := InStep.idle hdev₁ hoff
  have hcall := h.snoc (Step.call (.periInit counter) dev cpu)
  have hstored := hcall.snoc (Step.access (Issues.storeCounter counter)
    (show access ops (storeByte 1 counter) dev cpu = .ok ⟨fun _ => counter, dev₁, cpu⟩ from rfl))
  have hrun : ((AIChip.run ops).run dev₁.aichip).isSome := by
    obtain ⟨r, hr, -⟩ := Option.map_eq_some_iff.mp happly
    exact Option.isSome_iff_exists.mpr ⟨r, hr⟩
  rcases hdev₁.start ops hidle (InStep.registered hdev₁) with hfault | ⟨aichip, hok, hdev₂⟩
  · obtain ⟨r, hr⟩ := Option.isSome_iff_exists.mp hrun
    have hs : dev₁.scheduled = false := hoff
    simp [Vdev.start, hr, hs] at hfault
  · have haccess : access ops (storeByte 0 vdevInit) dev₁ cpu =
        .ok ⟨fun _ => vdevInit, ⟨dev₁.id, aichip, .active, true, vdevWork⟩,
          cpu.virtualDeviceStart 0⟩ := by
      rw [access_request storeInit_requests, if_pos hidle, hok]
      rfl
    have hstarted := hstored.snoc (Step.access (Issues.storeInit counter) haccess)
    obtain ⟨hend, hdev₃⟩ := hdev₂.interrupt rfl (InStep.registered hdev₂)
    have hended := hstarted.snoc (Step.interrupt rfl hend)
    obtain ⟨l, hl, hpoll⟩ := @poll_ready _ ops _ _ _ _ (.periInit counter) hdev₃ rfl
    have hpolled := hended.snoc hpoll
    have hreturned := hpolled.snoc (Step.ret _ _ (.done (.periInit counter) false))
    refine ⟨_, _, _, hreturned, ?_⟩
    simp only [calls_snoc, called_call, called_access, called_interrupt, called_ret, hl, Option.toList_some,
      Option.toList_none, List.append_nil]

private theorem complete_call (h : Run (Step ops) (boot chip) ls ⟨.idle, dev, cpu⟩)
    (hcalls : ∀ c ∈ calls ls, ¬ c.Starts) {c : Call} (hc : c.InWindow) {now : AIChip C}
    (happly : c.apply ops dev.aichip = some now) :
    ∃ ls' dev' cpu', Run (Step ops) (boot chip) ls' ⟨.idle, dev', cpu'⟩ ∧
      calls ls' = calls ls ++ [c] := by
  have hinv := run_inv h hcalls
  have hdev : InStep cpu 0 dev (lastFinished ls) := hinv.device
  have hoff : dev.scheduled = false := hinv.off fun _ heq => by cases heq
  have hcall := h.snoc (Step.call c dev cpu)
  obtain ⟨l, hl, hpoll⟩ := @poll_ready _ ops _ _ _ _ c hdev hoff
  cases c with
  | periInit counter => exact complete_init hdev hoff h happly
  | periIsFinished =>
      have hloaded := hcall.snoc (Step.access (Issues.loadFinish fun _ => 0)
        (show access ops (loadByte 0 fun _ => 0) dev cpu =
          .ok ⟨Function.update (fun _ => 0) 0 dev.pmem, dev, cpu⟩ from rfl))
      have hreturned := hloaded.snoc (Step.ret _ _ (.done .periIsFinished _))
      refine ⟨_, _, _, hreturned, ?_⟩
      simp only [calls_snoc, called_call, called_access, called_ret, Option.toList_some,
        Option.toList_none, List.append_nil]
  | periWrite offset src len =>
      have hpolled := hcall.snoc hpoll
      rcases Nat.eq_zero_or_pos len with rfl | hlen
      · have hreturned := hpolled.snoc (Step.ret _ _ (.write offset src 0))
        refine ⟨_, _, _, hreturned, ?_⟩
        simp only [calls_snoc, called_call, called_ret, hl, Option.toList_some,
          Option.toList_none, List.append_nil]
      · obtain ⟨data, haccess, -⟩ := access_window ops
          ⟨false, true, offset + 0, len, fun k => src (0 + k)⟩ dev cpu hc.1
        have hcopied := hpolled.snoc (Step.access (Issues.copyOut hlen (Nat.zero_add len).le) haccess)
        rw [Nat.zero_add] at hcopied
        have hreturned := hcopied.snoc (Step.ret _ _ (.write offset src len))
        refine ⟨_, _, _, hreturned, ?_⟩
        simp only [calls_snoc, called_call, called_access, called_ret, hl, Option.toList_some,
          Option.toList_none, List.append_nil]
  | periRead offset len =>
      have hpolled := hcall.snoc hpoll
      rcases Nat.eq_zero_or_pos len with rfl | hlen
      · have hreturned := hpolled.snoc (Step.ret _ _ (.read offset 0))
        refine ⟨_, _, _, hreturned, ?_⟩
        simp only [calls_snoc, called_call, called_ret, hl, Option.toList_some,
          Option.toList_none, List.append_nil]
      · obtain ⟨r, hr⟩ := read_ok ops ⟨true, false, offset + 0, len, fun _ => 0⟩ rfl dev cpu
        have hcopied := hpolled.snoc (Step.access (Issues.copyIn _ hlen (Nat.zero_add len).le) hr)
        rw [Nat.zero_add] at hcopied
        have hreturned := hcopied.snoc (Step.ret _ _ (.read offset len))
        refine ⟨_, _, _, hreturned, ?_⟩
        simp only [calls_snoc, called_call, called_access, called_ret, hl, Option.toList_some,
          Option.toList_none, List.append_nil]

/-- Calls that the chip can do in order have a run. -/
theorem exists_run (ops : LawfulOps C) {cs : List Call} (hcs : ∀ c ∈ cs, c.InWindow)
    {now : AIChip C} (happly : applyAll ops.toChipOps cs chip = some now) :
    ∃ ls dev cpu, Run (Step ops.toChipOps) (boot chip) ls ⟨.idle, dev, cpu⟩ ∧ calls ls = cs ∧
      dev.aichip = now := by
  induction cs using List.reverseRecOn generalizing now with
  | nil => exact ⟨[], _, _, .nil, rfl, Option.some.inj happly⟩
  | append_singleton cs c ih =>
      rw [applyAll_snoc] at happly
      obtain ⟨before, hbefore, hlast⟩ := Option.bind_eq_some_iff.mp happly
      have hwithin : ∀ c ∈ cs, c.InWindow := fun c hc => hcs c (List.mem_append_left _ hc)
      obtain ⟨ls, dev, cpu, hrun, rfl, rfl⟩ := ih hwithin hbefore
      obtain ⟨ls', dev', cpu', hrun', hcalls⟩ := complete_call hrun
        (fun c hc => (hwithin c hc).not_starts) (hcs c (by simp)) hlast
      refine ⟨ls', dev', cpu', hrun', hcalls, ?_⟩
      have hend := run_idle hrun' (hcalls ▸ hcs)
      rw [hcalls, applyAll_snoc, hbefore] at hend
      exact Option.some.inj (hend.symm.trans hlast)

end Completion

end ModernArch.Vdev.Driver
