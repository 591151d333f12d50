import ModernArch.Vdev.Driver

/-!
# The handshake

As long as the driver starts the device through `periInit` only, the device works only while
`periInit` waits for it.
-/

namespace ModernArch.Vdev.Driver
open Framework

variable {C : Type} {ops : ChipOps C}

private theorem filterMap_snoc {α β : Type} (f : α → Option β) (l : List α) (a : α) :
    (l ++ [a]).filterMap f = l.filterMap f ++ (f a).toList := by
  cases h : f a <;> simp [h]

section Logs

variable (ls : List (Label C)) (l : Label C)

theorem calls_snoc : calls (ls ++ [l]) = calls ls ++ l.called.toList := filterMap_snoc _ _ _

theorem rets_snoc : rets (ls ++ [l]) = rets ls ++ l.returned.toList := filterMap_snoc _ _ _

private theorem runs_snoc : runs (ls ++ [l]) = runs ls ++ l.ran.toList := filterMap_snoc _ _ _

private theorem interrupts_snoc : interrupts (ls ++ [l]) = interrupts ls + l.isInterrupt.toNat := by
  cases h : l.isInterrupt <;> simp [interrupts, h]

theorem lastFinished_snoc : lastFinished (ls ++ [l]) = l.finished.or (lastFinished ls) := by
  rw [lastFinished, filterMap_snoc]
  cases l.finished <;> simp [lastFinished]

private theorem inits_append (cs : List Call) (c : Option Call) :
    inits (cs ++ c.toList) = inits cs ++ (c.bind Call.counter).toList := by
  cases c with
  | none => simp
  | some c => exact filterMap_snoc _ _ _

end Logs

@[simp] theorem idle_call : Pc.idle.call = none := rfl

private theorem entry_call (c : Call) : (Pc.entry c).call = some c := by
  cases c <;> rfl

private theorem ready_call (c : Call) : (Pc.ready c).call = some c := by
  cases c <;> rfl

theorem Issues.call {pc : Pc} {pkt : Packet} {next : UInt8 → Pc} (h : Issues pc pkt next)
    (b : UInt8) : (next b).call = pc.call := by
  cases h with
  | poll c data =>
      dsimp only
      split_ifs
      · exact ready_call c
      · rfl
  | _ => rfl

theorem Returns.call {pc : Pc} {c : Call} {result : Bool} (h : Returns pc c result) :
    pc.call = some c := by
  cases h <;> rfl

theorem calls_eq {chip : AIChip C} {ls : List (Label C)} {m : Machine C}
    (h : Run (Step ops) (boot chip) ls m) : calls ls = rets ls ++ m.pc.call.toList := by
  apply h.inv (fun ls m => calls ls = rets ls ++ m.pc.call.toList) rfl
  intro ls m l m' hinv hstep
  rw [calls_snoc, rets_snoc, hinv]
  cases hstep with
  | call c dev cpu => simp [entry_call, Label.called, Label.returned]
  | access hissue hreply => simp [hissue.call, Label.called, Label.returned]
  | interrupt hscheduled hok => simp [Label.called, Label.returned]
  | ret dev cpu hret => simp [hret.call, Label.called, Label.returned]

/-- The packet carries the start bit. -/
def Packet.requests (pkt : Packet) : Prop :=
  pkt.isRead = false ∧ pkt.isWrite = true ∧ pkt.offset = 0 ∧ pkt.data 0 &&& vdevSet ≠ 0

theorem accepts_iff {pkt : Packet} {dev : VirtualDevice C} :
    accepts pkt dev = true ↔ Packet.requests pkt ∧ dev.pmem &&& vdevWork = 0 := by
  simp [accepts, Packet.requests, and_assoc]

theorem discarded_iff {pkt : Packet} {dev : VirtualDevice C} {r : Reply C} :
    (Label.access pkt dev r).discarded = true ↔
      Packet.requests pkt ∧ dev.pmem &&& vdevWork ≠ 0 := by
  simp [Label.discarded, Packet.requests, VirtualDevice.has, and_assoc]

/-- A request is accepted by a device that rests, and discarded by one that works. -/
theorem access_request {pkt : Packet} (hreq : Packet.requests pkt) (dev : VirtualDevice C)
    (cpu : BaseCPU) :
    access ops pkt dev cpu =
      if dev.pmem &&& vdevWork = 0 then
        (Vdev.start ops dev cpu).map fun r => ⟨pkt.data, r.1, r.2⟩
      else .ok ⟨pkt.data, dev, cpu⟩ := by
  obtain ⟨hread, hwrite, hoff, hset⟩ := hreq
  by_cases hwork : dev.pmem &&& vdevWork = 0 <;>
    simp [access, hread, hwrite, hoff, hset, hwork]

theorem storeInit_requests : Packet.requests (storeByte 0 vdevInit) :=
  ⟨rfl, rfl, rfl, by decide⟩

/-- Only `periInit` requests a run. -/
theorem Issues.requests {pc : Pc} {pkt : Packet} {next : UInt8 → Pc} (h : Issues pc pkt next)
    (hcall : ∀ c ∈ pc.call, ¬ c.Starts) (hreq : Packet.requests pkt) :
    ∃ counter, pc = .storeInit counter ∧ ∀ b, next b = .poll (.periInit counter) := by
  obtain ⟨hread, -, hoff, hset⟩ := hreq
  cases h with
  | storeCounter counter => exact absurd hoff Nat.one_ne_zero
  | storeInit counter => exact ⟨counter, rfl, fun _ => rfl⟩
  | poll c data => cases hread
  | copyOut hsize hfit =>
      dsimp only at hoff hset
      obtain ⟨rfl, rfl⟩ := Nat.add_eq_zero_iff.mp hoff
      exact absurd ⟨rfl, by omega, hset⟩ (hcall _ rfl)
  | copyIn data hsize hfit => cases hread
  | loadFinish data => cases hread

/-- A load of the status register returns it and changes nothing. -/
theorem access_status {data : Nat → UInt8} {dev : VirtualDevice C} {cpu : BaseCPU} {r : Reply C}
    (hreply : access ops (loadByte 0 data) dev cpu = .ok r) :
    ∃ data', r = ⟨data', dev, cpu⟩ ∧ data' 0 = dev.pmem := by
  obtain rfl := Except.ok.inj hreply
  exact ⟨_, rfl, Function.update_self _ _ _⟩

/-! ## The invariant -/

/-- The counter of a `periInit` that has not stored its request yet. -/
def Pc.pending : Pc → List UInt8
  | .storeCounter counter | .storeInit counter => [counter]
  | _ => []

structure HandshakeInv (ls : List (Label C)) (m : Machine C) : Prop where
  device : InStep m.cpu 0 m.dev (lastFinished ls)
  counter : ∀ counter, m.pc = .storeInit counter → m.dev.aichip.counter = counter
  working : m.dev.scheduled = true → ∃ counter, m.pc = .poll (.periInit counter)
  interrupted : (runs ls).length = interrupts ls + m.dev.scheduled.toNat
  requested : runs ls ++ m.pc.pending = inits (calls ls)
  answer : ∀ b, m.pc = .done .periIsFinished b → b = (lastFinished ls).getD true
  safe : ∀ l ∈ ls, l.discarded = false ∧ l.races = false

theorem InStep.registered {cpu : BaseCPU} {i : Nat} {dev : VirtualDevice C} {last : Option Bool}
    (h : InStep cpu i dev last) : i < cpu.statusVdev.length :=
  (List.getElem?_eq_some_iff.mp h.status).1

theorem InStep.of_core {cpu : BaseCPU} {i : Nat} {dev : VirtualDevice C} {last : Option Bool}
    (h : InStep cpu i dev last) (counter : UInt8) (core : C) :
    InStep cpu i { dev with aichip := { dev.aichip with counter, core } } last :=
  ⟨h.id, h.status, h.pmem, h.state, h.finished⟩

theorem InStep.idle {cpu : BaseCPU} {i : Nat} {dev : VirtualDevice C} {last : Option Bool}
    (h : InStep cpu i dev last) (hoff : dev.scheduled = false) : dev.pmem &&& vdevWork = 0 := by
  by_contra hwork
  rw [h.working_iff.mp hwork] at hoff
  cases hoff

theorem boot_inv (chip : AIChip C) : HandshakeInv [] (boot chip) where
  device := ⟨rfl, rfl, rfl, by simp [boot], by simp [boot]⟩
  counter _ h := by cases h
  working h := by cases h
  interrupted := rfl
  requested := rfl
  answer _ h := by cases h
  safe _ h := by cases h

section Steps

variable {ls : List (Label C)} {pc : Pc} {dev : VirtualDevice C} {cpu : BaseCPU}

private theorem safe_snoc {l : Label C} (h : ∀ l ∈ ls, l.discarded = false ∧ l.races = false)
    (hl : l.discarded = false ∧ l.races = false) :
    ∀ l' ∈ ls ++ [l], l'.discarded = false ∧ l'.races = false := by
  intro l' hmem
  rcases List.mem_append.mp hmem with hmem | hmem
  · exact h l' hmem
  · rwa [List.mem_singleton.mp hmem]

/-- Only a driver that waits for its own run can meet a working device. -/
theorem HandshakeInv.off (h : HandshakeInv ls ⟨pc, dev, cpu⟩)
    (hpc : ∀ counter, pc ≠ .poll (.periInit counter)) : dev.scheduled = false := by
  cases hs : dev.scheduled with
  | false => rfl
  | true =>
      obtain ⟨counter, heq⟩ := h.working hs
      exact absurd heq (hpc counter)

theorem HandshakeInv.call (h : HandshakeInv ls ⟨.idle, dev, cpu⟩) (c : Call) :
    HandshakeInv (ls ++ [.call c]) ⟨Pc.entry c, dev, cpu⟩ := by
  have hoff : dev.scheduled = false := h.off fun _ heq => by cases heq
  have hruns := h.requested
  simp only [Pc.pending, List.append_nil] at hruns
  refine ⟨?_, ?_, ?_, ?_, ?_, ?_, ?_⟩
  · simpa [lastFinished_snoc, Label.finished] using h.device
  · intro counter heq
    cases c <;> cases heq
  · intro hs
    rw [hoff] at hs
    cases hs
  · simpa [runs_snoc, interrupts_snoc, Label.ran, Label.isInterrupt] using h.interrupted
  · rw [runs_snoc, calls_snoc, inits_append, hruns]
    cases c <;> simp [Label.ran, Label.called, Pc.entry, Pc.pending, Call.counter]
  · intro b heq
    cases c <;> cases heq
  · exact safe_snoc h.safe ⟨rfl, rfl⟩

theorem HandshakeInv.interrupt (h : HandshakeInv ls ⟨pc, dev, cpu⟩)
    {r : VirtualDevice C × BaseCPU} (hon : dev.scheduled = true)
    (hok : triggerInterrupt dev cpu = .ok r) :
    HandshakeInv (ls ++ [.interrupt]) ⟨pc, r.1, r.2⟩ := by
  obtain ⟨hend, hdevice⟩ := h.device.interrupt hon (InStep.registered h.device)
  obtain rfl := Except.ok.inj (hend.symm.trans hok)
  have hinterrupted := h.interrupted
  refine ⟨?_, h.counter, ?_, ?_, ?_, ?_, ?_⟩
  · simpa [lastFinished_snoc, Label.finished] using hdevice
  · intro hs
    cases hs
  · simp only [hon, Bool.toNat_true] at hinterrupted
    simp [runs_snoc, interrupts_snoc, Label.ran, Label.isInterrupt, hinterrupted]
  · simpa [runs_snoc, calls_snoc, Label.ran, Label.called] using h.requested
  · simpa [lastFinished_snoc, Label.finished] using h.answer
  · exact safe_snoc h.safe ⟨rfl, rfl⟩

theorem HandshakeInv.ret (h : HandshakeInv ls ⟨pc, dev, cpu⟩) {c : Call} {result : Bool}
    (hret : Returns pc c result) : HandshakeInv (ls ++ [.ret c result]) ⟨.idle, dev, cpu⟩ := by
  have hoff : dev.scheduled = false := h.off fun _ heq => by subst heq; cases hret
  have hruns : runs ls = inits (calls ls) := by
    have hrequested := h.requested
    cases hret <;> simpa [Pc.pending] using hrequested
  refine ⟨?_, ?_, ?_, ?_, ?_, ?_, ?_⟩
  · simpa [lastFinished_snoc, Label.finished] using h.device
  · intro counter heq
    cases heq
  · intro hs
    rw [hoff] at hs
    cases hs
  · simpa [runs_snoc, interrupts_snoc, Label.ran, Label.isInterrupt] using h.interrupted
  · simp [runs_snoc, calls_snoc, Label.ran, Label.called, Pc.pending, hruns]
  · intro b heq
    cases heq
  · exact safe_snoc h.safe ⟨rfl, rfl⟩

/-- The store of `VDEV_INIT` starts the chip with the counter of the call. -/
theorem HandshakeInv.start {counter : UInt8} (h : HandshakeInv ls ⟨.storeInit counter, dev, cpu⟩)
    {r : Reply C} (hreply : access ops (storeByte 0 vdevInit) dev cpu = .ok r) :
    HandshakeInv (ls ++ [.access (storeByte 0 vdevInit) dev r])
      ⟨.poll (.periInit counter), r.dev, r.cpu⟩ := by
  have hoff : dev.scheduled = false := h.off fun _ heq => by cases heq
  have hidle := InStep.idle h.device hoff
  have hacc : accepts (storeByte 0 vdevInit) dev = true :=
    accepts_iff.mpr ⟨storeInit_requests, hidle⟩
  have haccess : access ops (storeByte 0 vdevInit) dev cpu =
      (Vdev.start ops dev cpu).map fun r => ⟨(storeByte 0 vdevInit).data, r.1, r.2⟩ := by
    rw [access_request storeInit_requests, if_pos hidle]
  rcases h.device.start ops hidle (InStep.registered h.device) with hfault | ⟨aichip, hok, hnew⟩
  · rw [haccess, hfault] at hreply
    cases hreply
  · rw [haccess, hok] at hreply
    obtain rfl := Except.ok.inj hreply
    have hcounter : dev.aichip.counter = counter := h.counter counter rfl
    have hrequested := h.requested
    have hinterrupted := h.interrupted
    simp only [hoff, Bool.toNat_false, Nat.add_zero] at hinterrupted
    refine ⟨?_, ?_, fun _ => ⟨counter, rfl⟩, ?_, ?_, ?_, ?_⟩
    · simpa [lastFinished_snoc, Label.finished, hacc] using hnew
    · intro _ heq
      cases heq
    · simp [runs_snoc, interrupts_snoc, Label.ran, Label.isInterrupt, hacc, hinterrupted]
    · simpa [runs_snoc, calls_snoc, Label.ran, Label.called, hacc, hcounter, Pc.pending]
        using hrequested
    · intro _ heq
      cases heq
    · refine safe_snoc h.safe ⟨?_, rfl⟩
      simp [Label.discarded, VirtualDevice.has, hidle]

/-- An access that starts nothing. -/
theorem HandshakeInv.quiet (h : HandshakeInv ls ⟨pc, dev, cpu⟩) {pc' : Pc} {pkt : Packet}
    {data : Nat → UInt8} {counter : UInt8} {core : C} (hreq : ¬ Packet.requests pkt)
    (hcounter : ∀ k, pc' = .storeInit k → counter = k)
    (hworking : dev.scheduled = true → pkt.offset < 2 ∧ ∃ k, pc' = .poll (.periInit k))
    (hpending : pc'.pending = pc.pending)
    (hanswer : ∀ b, pc' = .done .periIsFinished b → b = (lastFinished ls).getD true) :
    let dev' := { dev with aichip := { dev.aichip with counter, core } }
    HandshakeInv (ls ++ [.access pkt dev ⟨data, dev', cpu⟩]) ⟨pc', dev', cpu⟩ := by
  intro dev'
  have hacc : accepts pkt dev = false := by
    rw [← Bool.not_eq_true, accepts_iff]
    exact fun hboth => hreq hboth.1
  refine ⟨?_, hcounter, fun hs => (hworking hs).2, ?_, ?_, ?_, ?_⟩
  · simpa [lastFinished_snoc, Label.finished, hacc] using InStep.of_core h.device counter core
  · simpa [runs_snoc, interrupts_snoc, Label.ran, Label.isInterrupt, hacc] using h.interrupted
  · simpa [runs_snoc, calls_snoc, Label.ran, Label.called, hacc, hpending] using h.requested
  · simpa [lastFinished_snoc, Label.finished, hacc] using hanswer
  · refine safe_snoc h.safe ⟨?_, ?_⟩
    · rw [← Bool.not_eq_true, discarded_iff]
      exact fun hboth => hreq hboth.1
    · cases hs : dev.scheduled with
      | true => simp [Label.races, Nat.not_le.mpr (hworking hs).1]
      | false => simp [Label.races, VirtualDevice.has, InStep.idle h.device hs]

/-- A poll returns the status, and a working device is not ready. -/
theorem HandshakeInv.poll {c : Call} (h : HandshakeInv ls ⟨.poll c, dev, cpu⟩)
    {data : Nat → UInt8} {r : Reply C} (hreply : access ops (loadByte 0 data) dev cpu = .ok r) :
    HandshakeInv (ls ++ [.access (loadByte 0 data) dev r])
      ⟨if r.data 0 &&& vdevReady ≠ 0 then Pc.ready c else .poll c, r.dev, r.cpu⟩ := by
  obtain ⟨data', rfl, hbyte⟩ := access_status hreply
  refine h.quiet (by simp [Packet.requests, loadByte]) ?_ ?_ ?_ ?_
  · intro k heq
    split_ifs at heq
    cases c <;> cases heq
  · intro hs
    obtain ⟨k, heq⟩ := h.working hs
    have hpmem : dev.pmem = vdevWork := by
      rw [h.device.pmem, hs]
      rfl
    have hwait : ¬ data' 0 &&& vdevReady ≠ 0 := by
      rw [hbyte, hpmem]
      decide
    exact ⟨Nat.zero_lt_two, k, (if_neg hwait).trans heq⟩
  · split_ifs
    · cases c <;> rfl
    · rfl
  · intro b heq
    split_ifs at heq
    cases c <;> cases heq

theorem HandshakeInv.access (h : HandshakeInv ls ⟨pc, dev, cpu⟩)
    (hcall : ∀ c ∈ pc.call, ¬ c.Starts) {pkt : Packet} {next : UInt8 → Pc}
    (hissue : Issues pc pkt next) {r : Reply C} (hreply : access ops pkt dev cpu = .ok r) :
    HandshakeInv (ls ++ [.access pkt dev r]) ⟨next (r.data 0), r.dev, r.cpu⟩ := by
  have hquiet (hreq : ¬ Packet.requests pkt) : ∃ data counter core, r =
      ⟨data, { dev with aichip := { dev.aichip with counter, core } }, cpu⟩ := by
    rcases access_cases ops pkt dev cpu with ⟨hacc, -⟩ | ⟨-, data, counter, core, haccess⟩
    · exact absurd (accepts_iff.mp hacc).1 hreq
    · exact ⟨data, counter, core, Except.ok.inj (hreply.symm.trans haccess)⟩
  have hcopy {c : Call} {n n' : Nat} (hpc : pc = .copy c n) (hreq : ¬ Packet.requests pkt) :
      HandshakeInv (ls ++ [.access pkt dev r]) ⟨.copy c n', r.dev, r.cpu⟩ := by
    have hoff : dev.scheduled = false := h.off fun _ heq => by rw [hpc] at heq; cases heq
    obtain ⟨data, counter, core, rfl⟩ := hquiet hreq
    refine h.quiet hreq ?_ ?_ ?_ ?_
    · intro k heq
      cases heq
    · intro hs
      rw [hoff] at hs
      cases hs
    · rw [hpc]
      rfl
    · intro b heq
      cases heq
  cases hissue with
  | storeCounter counter =>
      have hoff : dev.scheduled = false := h.off fun _ heq => by cases heq
      obtain rfl := Except.ok.inj hreply
      refine h.quiet (by simp [Packet.requests, storeByte]) ?_ ?_ rfl ?_
      · intro k heq
        cases heq
        rfl
      · intro hs
        rw [hoff] at hs
        cases hs
      · intro b heq
        cases heq
  | storeInit counter => exact h.start hreply
  | poll c data => exact h.poll hreply
  | copyOut hsize hfit =>
      refine hcopy rfl fun hreq => ?_
      obtain ⟨counter, hpc, -⟩ := (Issues.copyOut hsize hfit).requests hcall hreq
      cases hpc
  | copyIn data hsize hfit => exact hcopy rfl fun hreq => absurd hreq.1 (by simp)
  | loadFinish data =>
      have hoff : dev.scheduled = false := h.off fun _ heq => by cases heq
      have hpmem := h.device.pmem
      obtain ⟨data', rfl, hbyte⟩ := access_status hreply
      refine h.quiet (by simp [Packet.requests, loadByte]) ?_ ?_ rfl ?_
      · intro k heq
        cases heq
      · intro hs
        rw [hoff] at hs
        cases hs
      · intro b heq
        simp only [hoff] at hpmem
        injection heq with hcall hb
        simp only [← hb, hbyte, hpmem]
        cases (lastFinished ls).getD true <;> decide

end Steps

section Runs

variable {chip : AIChip C} {ls : List (Label C)} {m : Machine C}

theorem run_inv (h : Run (Step ops) (boot chip) ls m) (hcalls : ∀ c ∈ calls ls, ¬ c.Starts) :
    HandshakeInv ls m := by
  induction h with
  | nil => exact boot_inv chip
  | snoc hrun hstep ih =>
      rw [calls_snoc] at hcalls
      have hinv := ih fun c hc => hcalls c (List.mem_append_left _ hc)
      cases hstep with
      | call c dev cpu => exact hinv.call c
      | access hissue hreply =>
          refine hinv.access (fun c hc => hcalls c (List.mem_append_left _ ?_)) hissue hreply
          rw [calls_eq hrun]
          exact List.mem_append_right _ (Option.mem_toList.mpr hc)
      | interrupt hon hok => exact hinv.interrupt hon hok
      | ret dev cpu hret => exact hinv.ret hret

/-- What a log ends with when a call returns. -/
theorem returned (h : Run (Step ops) (boot chip) ls m) (hcalls : ∀ c ∈ calls ls, ¬ c.Starts)
    {es : List (Label C)} {c : Call} {result : Bool} (hret : es ++ [.ret c result] <+: ls) :
    calls es = rets es ++ [c] ∧ runs es = inits (calls es) ∧
      interrupts es = (runs es).length ∧
      (c = .periIsFinished → result = (lastFinished es).getD true) := by
  obtain ⟨u, hprefix⟩ := h.of_prefix hret
  obtain ⟨t, hrun, hstep⟩ := hprefix.last
  have hsub : calls es ⊆ calls ls := by
    have hes : es <+: ls := (List.prefix_append es _).trans hret
    exact (hes.sublist.filterMap _).subset
  have hinv := run_inv hrun fun c hc => hcalls c (hsub hc)
  have hcall := calls_eq hrun
  have hrequested := hinv.requested
  have hinterrupted := hinv.interrupted
  cases hstep with
  | ret dev cpu hreturns =>
      rename_i pc
      have hoff : dev.scheduled = false := hinv.off fun _ heq => by subst heq; cases hreturns
      have hpending : pc.pending = [] := by cases hreturns <;> rfl
      refine ⟨?_, ?_, ?_, ?_⟩
      · rw [hcall, hreturns.call]
        rfl
      · simpa [hpending] using hrequested
      · simpa [hoff] using hinterrupted.symm
      · rintro rfl
        cases hreturns with
        | done => exact hinv.answer _ rfl

/-- Where the counter decides whether a run finishes, the flags follow the counters. -/
theorem finished_eq {finishes : UInt8 → Bool}
    (hops : ∀ chip t chip', (AIChip.run ops).run chip = some (t, chip') →
      chip'.finished = finishes chip.counter)
    (h : Run (Step ops) (boot chip) ls m) :
    lastFinished ls = (runs ls).getLast?.map finishes := by
  rw [lastFinished, ← List.getLast?_map]
  congr 1
  apply h.inv (fun ls _ => ls.filterMap Label.finished = (runs ls).map finishes) rfl
  intro es t l u hinv hstep
  rw [filterMap_snoc, runs_snoc, List.map_append, hinv]
  congr 1
  cases hstep with
  | @access pc pkt next dev cpu r hissue hreply =>
      rcases access_cases ops pkt dev cpu with ⟨hacc, haccess⟩ | ⟨hacc, -⟩
      · rw [haccess, Vdev.start] at hreply
        cases hrun : (AIChip.run ops).run dev.aichip with
        | none => simp [hrun, Except.map] at hreply
        | some p =>
            have hflag := hops dev.aichip p.1 p.2 hrun
            cases hs : dev.scheduled with
            | true => simp [hrun, hs, Except.map] at hreply
            | false =>
                simp only [hrun, hs, Except.map] at hreply
                obtain rfl := Except.ok.inj hreply
                simp [Label.finished, Label.ran, hacc, hflag]
      · simp [Label.finished, Label.ran, hacc]
  | _ => rfl

end Runs

end ModernArch.Vdev.Driver
