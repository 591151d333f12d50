import ModernArch.Vdev.Device

/-!
# Devices on one CPU

Any number of devices register on a CPU and then receive packets and interrupts in any order.
Status register, execution state, event and the CPU's flag of a device stay in step.
-/

namespace ModernArch.Vdev
open Framework

variable {C : Type}

structure System (C : Type) where
  cpu : BaseCPU := {}
  devices : List (VirtualDevice C) := []

namespace System

/-- `VirtualDevice::init` of a new device. -/
def register (s : System C) (chip : AIChip C) : System C :=
  let (id, cpu) := s.cpu.registerVDev 1
  { cpu, devices := s.devices ++ [{ id, aichip := chip, executionState := .poweroff }] }

def boot (chips : List (AIChip C)) : System C := chips.foldl register {}

end System

inductive Event where
  | packet (i : Nat) (pkt : Packet)
  | interrupt (i : Nat)

/-- A step, and for a packet that starts device `i` the flag its run leaves. -/
structure Label where
  event : Event
  started : Option (Nat × Bool) := none

section Steps

variable (ops : ChipOps C)

/-- What an event makes of a system; nothing when it cannot happen. -/
def System.react (s : System C) : Event → Option (Except Fault (System C × Option (Nat × Bool)))
  | .packet i pkt => s.devices[i]?.map fun dev => (access ops pkt dev s.cpu).map fun r =>
      (⟨r.cpu, s.devices.set i r.dev⟩,
        if accepts pkt dev then some (i, r.dev.aichip.finished) else none)
  | .interrupt i => (s.devices[i]?.filter fun dev => dev.scheduled).map fun dev =>
      (triggerInterrupt dev s.cpu).map fun r => (⟨r.2, s.devices.set i r.1⟩, none)

def System.Step (s : System C) (l : Label) (s' : System C) : Prop :=
  s.react ops l.event = some (.ok (s', l.started))

end Steps

/-- Whether the last run of device `i` finished a computation. -/
def lastRun (i : Nat) (ls : List Label) : Option Bool :=
  ls.foldl (fun last l => match l.started with
    | some (j, finished) => if j = i then some finished else last
    | none => last) none

private theorem lastRun_snoc (i : Nat) (ls : List Label) (l : Label) :
    lastRun i (ls ++ [l]) = match l.started with
      | some (j, finished) => if j = i then some finished else lastRun i ls
      | none => lastRun i ls := by
  rw [lastRun, List.foldl_append]
  rfl

/-- The status register of a device. -/
def statusOf (working finish : Bool) : UInt8 :=
  if working then vdevWork else if finish then vdevReady ||| vdevFinish else vdevReady

/-- One device: the event tells whether it works. -/
structure InStep (cpu : BaseCPU) (i : Nat) (dev : VirtualDevice C) (last : Option Bool) : Prop where
  id : dev.id = i
  status : cpu.statusVdev[i]? = some dev.scheduled
  pmem : dev.pmem = statusOf dev.scheduled (last.getD true)
  state : dev.executionState = .active ↔ dev.scheduled = true
  finished : dev.scheduled = true → last = some dev.aichip.finished

structure Inv (s : System C) (ls : List Label) : Prop where
  lat : s.cpu.latVdev.length = s.devices.length
  status : s.cpu.statusVdev.length = s.devices.length
  device : ∀ i dev, s.devices[i]? = some dev → InStep s.cpu i dev (lastRun i ls)

private theorem register_inv {s : System C} (h : Inv s []) (chip : AIChip C) :
    Inv (s.register chip) [] := by
  have hlen := h.status
  refine ⟨by simp [System.register, BaseCPU.registerVDev, h.lat],
    by simp [System.register, BaseCPU.registerVDev, h.status], ?_⟩
  intro i dev hdev
  simp only [System.register, BaseCPU.registerVDev] at hdev ⊢
  rcases lt_trichotomy i s.devices.length with hi | hi | hi
  · rw [List.getElem?_append_left hi] at hdev
    have hold := h.device i dev hdev
    refine ⟨hold.id, ?_, hold.pmem, hold.state, hold.finished⟩
    rw [List.getElem?_append_left (hlen ▸ hi)]
    exact hold.status
  · subst hi
    rw [List.getElem?_append_right le_rfl, Nat.sub_self] at hdev
    obtain rfl := Option.some.inj hdev
    refine ⟨h.lat, ?_, rfl, by simp, by simp⟩
    rw [List.getElem?_append_right hlen.le, hlen, Nat.sub_self]
    rfl
  · rw [List.getElem?_eq_none (by simp; omega)] at hdev
    cases hdev

theorem boot_inv (chips : List (AIChip C)) : Inv (System.boot chips) [] := by
  have hfold (s : System C) (h : Inv s []) : Inv (chips.foldl System.register s) [] := by
    induction chips generalizing s with
    | nil => exact h
    | cons chip chips ih => exact ih _ (register_inv h chip)
  exact hfold {} ⟨rfl, rfl, fun i dev hdev => by simp at hdev⟩

theorem Inv.set {s : System C} {ls : List Label} (h : Inv s ls) {i : Nat}
    {dev dev' : VirtualDevice C} (hdev : s.devices[i]? = some dev) (cpu : BaseCPU)
    (hlat : cpu.latVdev = s.cpu.latVdev) (hlen : cpu.statusVdev.length = s.cpu.statusVdev.length)
    (hother : ∀ j, j ≠ i → cpu.statusVdev[j]? = s.cpu.statusVdev[j]?) (l : Label)
    (hlast : ∀ j, j ≠ i → lastRun j (ls ++ [l]) = lastRun j ls)
    (hnew : InStep cpu i dev' (lastRun i (ls ++ [l]))) :
    Inv ⟨cpu, s.devices.set i dev'⟩ (ls ++ [l]) := by
  refine ⟨by simp [hlat, h.lat], by simp [hlen, h.status], ?_⟩
  intro j d hj
  by_cases heq : j = i
  · subst heq
    have hlt : j < s.devices.length := (List.getElem?_eq_some_iff.mp hdev).1
    rw [List.getElem?_set_self hlt] at hj
    obtain rfl := Option.some.inj hj
    exact hnew
  · rw [List.getElem?_set_ne (Ne.symm heq)] at hj
    have hold := h.device j d hj
    rw [hlast j heq]
    exact ⟨hold.id, (hother j heq).trans hold.status, hold.pmem, hold.state, hold.finished⟩

section Flags

variable {cpu : BaseCPU} {i : Nat} {dev : VirtualDevice C} {last : Option Bool}

theorem InStep.working_iff (h : InStep cpu i dev last) :
    dev.pmem &&& vdevWork ≠ 0 ↔ dev.scheduled = true := by
  rw [h.pmem]
  cases dev.scheduled <;> cases last.getD true <;> decide

/-- A device in step that starts stays in step, and does not find its event scheduled. -/
theorem InStep.start (ops : ChipOps C) (h : InStep cpu i dev last)
    (hidle : dev.pmem &&& vdevWork = 0) (hi : i < cpu.statusVdev.length) :
    start ops dev cpu = .error .chip ∨ ∃ aichip,
      let dev' : VirtualDevice C := ⟨dev.id, aichip, .active, true, vdevWork⟩
      start ops dev cpu = .ok (dev', cpu.virtualDeviceStart i) ∧
        InStep (cpu.virtualDeviceStart i) i dev' (some aichip.finished) := by
  have hoff : dev.scheduled = false := by
    cases hs : dev.scheduled with
    | false => rfl
    | true => exact absurd hidle (h.working_iff.mpr hs)
  have hpmem : ((dev.pmem ||| vdevWork) &&& ~~~vdevReady) &&& ~~~vdevFinish = vdevWork := by
    rw [h.pmem, hoff]
    cases last.getD true <;> decide
  cases hrun : (AIChip.run ops).run dev.aichip with
  | none =>
      left
      simp [Vdev.start, hrun]
  | some r =>
      right
      refine ⟨r.2, ?_, h.id, ?_, rfl, by simp, fun _ => rfl⟩
      · simp [Vdev.start, hrun, hoff, hpmem, h.id]
      · simp [BaseCPU.virtualDeviceStart, hi]

theorem InStep.interrupt (h : InStep cpu i dev last) (hon : dev.scheduled = true)
    (hi : i < cpu.statusVdev.length) :
    let dev' : VirtualDevice C :=
      ⟨dev.id, dev.aichip, .idle, false, statusOf false dev.aichip.finished⟩
    triggerInterrupt dev cpu = .ok (dev', cpu.virtualDeviceEnd i) ∧
      InStep (cpu.virtualDeviceEnd i) i dev' last := by
  have hpmem : dev.pmem = vdevWork := by
    rw [h.pmem, hon]
    rfl
  have hlast := h.finished hon
  constructor
  · have hne : vdevWork &&& vdevWork ≠ 0 := by decide
    have hend : (if dev.aichip.finished then (vdevWork ||| vdevReady) &&& ~~~vdevWork ||| vdevFinish
        else (vdevWork ||| vdevReady) &&& ~~~vdevWork) = statusOf false dev.aichip.finished := by
      cases dev.aichip.finished <;> decide
    simp only [triggerInterrupt, hpmem, hne, if_false, hend, h.id]
  · refine ⟨h.id, ?_, ?_, by simp, by simp⟩
    · simp [BaseCPU.virtualDeviceEnd, hi]
    · rw [hlast]
      rfl

end Flags

/-- An event keeps the invariant, or a chip threw. -/
theorem react_inv (ops : ChipOps C) {s : System C} {ls : List Label} (h : Inv s ls) (e : Event)
    {r : Except Fault (System C × Option (Nat × Bool))} (hr : s.react ops e = some r) :
    r = .error .chip ∨ ∃ s' started, r = .ok (s', started) ∧ Inv s' (ls ++ [⟨e, started⟩]) := by
  cases e with
  | packet i pkt =>
      obtain ⟨dev, hdev, rfl⟩ := Option.map_eq_some_iff.mp hr
      have hold := h.device i dev hdev
      have hlt : i < s.cpu.statusVdev.length :=
        h.status ▸ (List.getElem?_eq_some_iff.mp hdev).1
      rcases access_cases ops pkt dev s.cpu with ⟨hacc, haccess⟩ | ⟨hacc, data, counter, core, haccess⟩
      · have hidle : dev.pmem &&& vdevWork = 0 := by
          simp only [accepts, Bool.and_eq_true, beq_iff_eq] at hacc
          exact hacc.2
        rcases hold.start ops hidle hlt with hfault | ⟨aichip, hok, hnew⟩
        · left
          rw [haccess, hfault]
          rfl
        · right
          refine ⟨_, some (i, aichip.finished), by rw [haccess, hok, hacc]; rfl, ?_⟩
          apply h.set hdev (s.cpu.virtualDeviceStart i) rfl
            (by simp [BaseCPU.virtualDeviceStart])
          · intro j hj
            simp [BaseCPU.virtualDeviceStart, Ne.symm hj]
          · intro j hj
            rw [lastRun_snoc]
            simp [Ne.symm hj]
          · rw [lastRun_snoc]
            simpa using hnew
      · right
        refine ⟨_, none, by rw [haccess, hacc]; rfl, ?_⟩
        apply h.set hdev s.cpu rfl rfl (fun _ _ => rfl)
        · intro j _
          rw [lastRun_snoc]
        · rw [lastRun_snoc]
          exact ⟨hold.id, hold.status, hold.pmem, hold.state, hold.finished⟩
  | interrupt i =>
      obtain ⟨dev, hfilter, rfl⟩ := Option.map_eq_some_iff.mp hr
      obtain ⟨hdev, hon⟩ := Option.filter_eq_some_iff.mp hfilter
      have hold := h.device i dev hdev
      have hlt : i < s.cpu.statusVdev.length :=
        h.status ▸ (List.getElem?_eq_some_iff.mp hdev).1
      obtain ⟨hok, hnew⟩ := hold.interrupt hon hlt
      right
      refine ⟨_, none, by rw [hok]; rfl, ?_⟩
      apply h.set hdev (s.cpu.virtualDeviceEnd i) rfl (by simp [BaseCPU.virtualDeviceEnd])
      · intro j hj
        simp [BaseCPU.virtualDeviceEnd, Ne.symm hj]
      · intro j _
        rw [lastRun_snoc]
      · rw [lastRun_snoc]
        exact hnew

theorem run_inv (ops : ChipOps C) {chips : List (AIChip C)} {ls : List Label} {s : System C}
    (h : Run (System.Step ops) (System.boot chips) ls s) : Inv s ls := by
  apply h.inv (fun ls s => Inv s ls) (boot_inv chips)
  intro ls s l s' hinv hstep
  rcases react_inv ops hinv l.event hstep with hfault | ⟨t, started, hok, hnext⟩
  · cases hfault
  · injection hok with hok
    injection hok with hs hstarted
    subst hs hstarted
    exact hnext

def VirtualDevice.has (dev : VirtualDevice C) (flag : UInt8) : Bool := dev.pmem &&& flag != 0

/-- What the flags of device `dev` say after the labels `ls`. -/
structure FlagsOk (cpu : BaseCPU) (ls : List Label) (dev : VirtualDevice C) : Prop where
  workOrReady : dev.has vdevWork = !dev.has vdevReady
  notSet : dev.has vdevSet = false
  finishReady : dev.has vdevFinish = true → dev.has vdevReady = true
  scheduled : dev.scheduled = dev.has vdevWork
  active : dev.executionState = .active ↔ dev.has vdevWork = true
  finish : dev.has vdevFinish = true ↔
    dev.has vdevWork = false ∧ (lastRun dev.id ls = none ∨ lastRun dev.id ls = some true)
  status : cpu.statusVdev[dev.id]? = some (dev.has vdevWork)

private theorem InStep.flagsOk {cpu : BaseCPU} {i : Nat} {dev : VirtualDevice C} {ls : List Label}
    (h : InStep cpu i dev (lastRun i ls)) : FlagsOk cpu ls dev := by
  have hid := h.id
  have hwork : dev.has vdevWork = dev.scheduled := by
    rw [VirtualDevice.has, h.pmem]
    cases dev.scheduled <;> cases (lastRun i ls).getD true <;> decide
  have hfinish : dev.has vdevFinish = (!dev.scheduled && (lastRun i ls).getD true) := by
    rw [VirtualDevice.has, h.pmem]
    cases dev.scheduled <;> cases (lastRun i ls).getD true <;> decide
  have hready : dev.has vdevReady = !dev.scheduled := by
    rw [VirtualDevice.has, h.pmem]
    cases dev.scheduled <;> cases (lastRun i ls).getD true <;> decide
  have hset : dev.has vdevSet = false := by
    rw [VirtualDevice.has, h.pmem]
    cases dev.scheduled <;> cases (lastRun i ls).getD true <;> decide
  constructor
  · rw [hwork, hready, Bool.not_not]
  · exact hset
  · rw [hfinish, hready]
    simp +contextual
  · rw [hwork]
  · rw [hwork]
    exact h.state
  · rw [hfinish, hwork, hid]
    cases hl : lastRun i ls with
    | none => simp
    | some finished => cases finished <;> simp
  · rw [hid, hwork]
    exact h.status

/-- The latencies of the devices that work. -/
def workingLat (s : System C) : List UInt64 :=
  (s.devices.filter fun dev => dev.has vdevWork).map fun dev => s.cpu.latVdev.getD dev.id 0

private theorem totalLat_add (lat : List UInt64) (devices : List (VirtualDevice C))
    (latOf : VirtualDevice C → UInt64) (hlen : lat.length = devices.length)
    (hlat : ∀ (i : Nat) dev, devices[i]? = some dev → lat[i]? = some (latOf dev))
    (total : UInt64) :
    (lat.zip (devices.map fun dev => dev.has vdevWork)).foldl
        (fun total p => if p.2 then total + p.1 else total) total =
      total + ((devices.filter fun dev => dev.has vdevWork).map latOf).sum := by
  induction devices generalizing lat total with
  | nil => simp
  | cons dev devices ih =>
      cases lat with
      | nil => simp at hlen
      | cons l lat =>
          have hhead := Option.some.inj (hlat 0 dev rfl)
          have htail := ih lat (Nat.succ.inj hlen) fun i d hd => hlat (i + 1) d hd
          cases hw : dev.has vdevWork with
          | false => simpa [hw] using htail total
          | true =>
              have hrest := htail (total + l)
              simp only [List.map_cons, List.zip_cons_cons, List.foldl_cons, hw, if_true,
                List.filter_cons_of_pos, List.sum_cons] at hrest ⊢
              rw [hrest, hhead, add_assoc]

private theorem Inv.totalLat {s : System C} {ls : List Label} (h : Inv s ls) :
    s.cpu.getTotalLat = (workingLat s).sum := by
  have hstatus : s.cpu.statusVdev = s.devices.map fun dev => dev.has vdevWork := by
    apply List.ext_getElem?
    intro i
    rw [List.getElem?_map]
    cases hdev : s.devices[i]? with
    | none =>
        rw [Option.map_none, List.getElem?_eq_none_iff]
        exact h.status.le.trans (List.getElem?_eq_none_iff.mp hdev)
    | some dev =>
        have hold := h.device i dev hdev
        rw [← hold.id]
        exact hold.flagsOk.status
  have hlat (i : Nat) (dev : VirtualDevice C) (hdev : s.devices[i]? = some dev) :
      s.cpu.latVdev[i]? = some (s.cpu.latVdev.getD dev.id 0) := by
    have hlt : i < s.cpu.latVdev.length := h.lat ▸ (List.getElem?_eq_some_iff.mp hdev).1
    rw [(h.device i dev hdev).id, List.getD_eq_getElem _ _ hlt, List.getElem?_eq_getElem hlt]
  have hsum := totalLat_add s.cpu.latVdev s.devices _ h.lat hlat 0
  rw [BaseCPU.getTotalLat, hstatus, hsum, zero_add]
  rfl

theorem Inv.nodup {s : System C} {ls : List Label} (h : Inv s ls) :
    (s.devices.map VirtualDevice.id).Nodup := by
  rw [List.nodup_iff_injective_get]
  intro a b hab
  have hid (k : Fin (s.devices.map VirtualDevice.id).length) :
      (s.devices.map VirtualDevice.id).get k = k := by
    have hk : (k : Nat) < s.devices.length := by simpa using k.isLt
    rw [List.get_eq_getElem, List.getElem_map]
    exact (h.device k _ (List.getElem?_eq_getElem hk)).id
  rw [hid, hid] at hab
  exact Fin.ext hab

/-- In every run the flags of every device are in step with its event, its state and its last
run, the CPU knows the working devices, and the next event raises no assertion. -/
theorem status_invariant (ops : ChipOps C) (chips : List (AIChip C)) {ls : List Label}
    {s : System C} (h : Run (System.Step ops) (System.boot chips) ls s) :
    (∀ dev ∈ s.devices, FlagsOk s.cpu ls dev) ∧
    (s.devices.map VirtualDevice.id).Nodup ∧
    s.cpu.getTotalLat = (workingLat s).sum ∧
    ∀ e, s.react ops e ≠ some (.error .schedule) ∧ s.react ops e ≠ some (.error .interrupt) := by
  have hinv := run_inv ops h
  refine ⟨?_, hinv.nodup, hinv.totalLat, ?_⟩
  · intro dev hdev
    obtain ⟨i, hi⟩ := List.mem_iff_getElem?.mp hdev
    exact (hinv.device i dev hi).flagsOk
  · intro e
    have hno (f : Fault) (hf : f ≠ .chip) : s.react ops e ≠ some (.error f) := by
      intro hr
      rcases react_inv ops hinv e hr with hfault | ⟨_, _, hok, _⟩
      · exact hf (Except.error.inj hfault)
      · cases hok
    exact ⟨hno .schedule (by decide), hno .interrupt (by decide)⟩

/-- A chip whose stages finish at once. -/
def instantOps : ChipOps Unit where
  stage _ := pure (1, true)
  readMem _ _ _ := 0
  writeMem _ _ _ _ _ := ()

def bootPair : System Unit := System.boot [{ core := () }, { core := () }]

/-- The second of two devices is started. -/
theorem status_invariant_started : ∃ s : System Unit,
    s.cpu.statusVdev = [false, true] ∧ s.cpu.getTotalLat = (workingLat s).sum := by
  let request : Label := ⟨.packet 1 ⟨false, true, 0, 1, fun _ => 1⟩, some (1, true)⟩
  have hstep : ∃ s, System.Step instantOps bootPair request s ∧
      s.cpu.statusVdev = [false, true] := ⟨_, rfl, rfl⟩
  obtain ⟨s, hs, hstatus⟩ := hstep
  exact ⟨s, hstatus, (status_invariant instantOps _ (.snoc .nil hs)).2.2.1⟩

end ModernArch.Vdev
