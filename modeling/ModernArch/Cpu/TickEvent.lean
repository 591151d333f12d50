import ModernArch.Cpu.DataAccess
import ModernArch.Vdev.Delay
import ModernArch.Vdev.Status

/-!
# The tick event and device interrupts

Ticks, suspensions, activations and the interrupts of the devices all move the tick event of
the CPU. An interrupt reschedules it, which asserts that it is scheduled and does not come before
the present. Ticks have 64 bits and wrap.
-/

namespace ModernArch.Cpu
open Framework Vdev

inductive ThreadStatus where
  | active | suspended | halted
deriving DecidableEq, Repr

inductive Status where
  | idle | running
deriving DecidableEq, Repr

/-- The tick event of a CPU with its context. `clockTick` is `ClockedObject::tick`. -/
structure Ticker where
  curTick : Tick := 0
  thread : ThreadStatus := .halted
  status : Status := .idle
  scheduled : Bool := false
  when_ : Tick := 0
  clockTick : Tick := 0
  inInterrupt : Bool := false
deriving DecidableEq

def divCeil (a b : Tick) : Tick := (a + b - 1) / b

/-- The rounding in `virtualDeviceDelay`. -/
def roundUp (clockPeriod tick : Tick) : Tick :=
  if tick % clockPeriod ≠ 0 then tick + (clockPeriod - tick % clockPeriod) else tick

namespace Ticker

variable (clockPeriod : Tick) (t : Ticker)

def schedule (when_ : Tick) : Except Abort Ticker :=
  if t.curTick ≤ when_ ∧ t.scheduled = false then .ok { t with scheduled := true, when_ }
  else .error .assertion

def deschedule : Except Abort Ticker :=
  if t.scheduled then .ok { t with scheduled := false } else .error .assertion

def reschedule (when_ : Tick) : Except Abort Ticker :=
  if t.curTick ≤ when_ ∧ t.scheduled = true then .ok { t with when_ } else .error .assertion

/-- `ClockedObject::update`: the clock moves to the next edge. -/
def update : Ticker :=
  { t with
    clockTick :=
      if t.curTick ≤ t.clockTick then t.clockTick
      else
        let clockTick := t.clockTick + clockPeriod
        if t.curTick ≤ clockTick then clockTick
        else clockTick + divCeil (t.curTick - clockTick) clockPeriod * clockPeriod }

def activateContext : Except Abort Ticker := do
  if t.status ≠ .idle ∨ t.scheduled then throw .assertion
  let t := t.update clockPeriod
  let t ← t.schedule t.clockTick
  return { t with status := .running }

def suspendContext : Except Abort Ticker := do
  if t.status = .idle then return t
  let t ← if t.scheduled then t.deschedule else pure t
  return { t with status := .idle }

/-- The end of `tick`. -/
def finishTick (latency : Tick) : Except Abort Ticker :=
  let latency := if latency < clockPeriod then clockPeriod else latency
  if t.status ≠ .idle then t.schedule (t.curTick + latency) else .ok t

def virtualDeviceDelay (tick : Tick) : Except Abort Ticker :=
  t.reschedule (t.when_ + roundUp clockPeriod tick)

def virtualDeviceInterrupt (tick : Tick) : Except Abort Ticker :=
  { t with inInterrupt := true }.virtualDeviceDelay clockPeriod tick

end Ticker

/-- A clock domain has no period of 0. -/
structure Config where
  clockPeriod : Tick
  delaySet : Nat → Tick
  delayCpuInterrupt : Nat → Tick
  clocked : clockPeriod ≠ 0

/-- `due` has the times of the interrupt events. -/
structure Node (C : Type) where
  ticker : Ticker := {}
  sys : System C := {}
  due : List Tick := []

/-- What happens next: the tick event with the packets and the end of its instruction, an
interrupt event, or a step from outside at a time of its own. -/
inductive Happening where
  | tick (packets : List (Nat × Packet)) (suspends : Bool) (latency : Tick)
  | interrupt (i : Nat)
  | packet (now : Tick) (i : Nat) (pkt : Packet)
  | suspend (now : Tick)
  | halt (now : Tick)
  | activate (now : Tick)

namespace Node

variable {C : Type} (ops : ChipOps C) (cfg : Config) (n : Node C)

/-- No event is before this time. -/
def Quiet (now : Tick) : Prop :=
  n.ticker.curTick ≤ now ∧ (n.ticker.scheduled = true → now ≤ n.ticker.when_) ∧
    ∀ i < n.sys.devices.length,
      (n.sys.devices[i]?.any fun dev => dev.scheduled) = true → now ≤ n.due.getD i 0

instance (now : Tick) : Decidable (n.Quiet now) := by
  unfold Quiet; infer_instance

def at_ (now : Tick) : Option (Node C) :=
  if n.Quiet now then some { n with ticker.curTick := now } else none

/-- A packet to device `i`; a start schedules the interrupt event of the device. -/
def access (i : Nat) (pkt : Packet) : Except Abort (Node C) :=
  match n.sys.react ops (.packet i pkt) with
  | none => .ok n
  | some (.error f) => .error (.device f)
  | some (.ok (sys, none)) => .ok { n with sys }
  | some (.ok (sys, some _)) =>
      let ticks := (n.sys.devices[i]?.bind fun dev =>
        ((AIChip.runInt ops (.ofNat 64 dev.aichip.tickPerCycle)).run dev.aichip).map
          Prod.fst).getD 0
      let when_ := interruptTick n.ticker.curTick (cfg.delaySet i) ticks
      if n.ticker.curTick ≤ when_ then .ok { n with sys, due := n.due.set i when_ }
      else .error .assertion

def withTicker (r : Except Abort Ticker) : Except Abort (Node C) :=
  r.map fun ticker => { n with ticker }

/-- `suspend` and `halt` of the thread. -/
def stop (thread : ThreadStatus) : Except Abort (Node C) :=
  n.withTicker { n.ticker with thread }.suspendContext

def tick (packets : List (Nat × Packet)) (suspends : Bool) (latency : Tick) :
    Except Abort (Node C) := do
  let n := { n with ticker.scheduled := false, ticker.inInterrupt := false }
  let n ← packets.foldlM (fun n p => n.access ops cfg p.1 p.2) n
  let n ← if suspends then n.stop .suspended else pure n
  n.withTicker (n.ticker.finishTick cfg.clockPeriod latency)

/-- `triggerInterrupt` with its call of the CPU. -/
def interrupt (i : Nat) : Except Abort (Node C) :=
  match n.sys.react ops (.interrupt i) with
  | none => .ok n
  | some (.error f) => .error (.device f)
  | some (.ok (sys, _)) =>
      { n with sys }.withTicker
        (n.ticker.virtualDeviceInterrupt cfg.clockPeriod (cfg.delayCpuInterrupt i))

/-- What a happening makes of the node; nothing when it cannot be next. A thread that is
already in the state asked for returns at once, which is no step. -/
def react : Happening → Option (Except Abort (Node C))
  | .tick packets suspends latency =>
      if n.ticker.scheduled then
        (n.at_ n.ticker.when_).map fun n => n.tick ops cfg packets suspends latency
      else none
  | .interrupt i =>
      if (n.sys.devices[i]?.any fun dev => dev.scheduled) = true then
        (n.at_ (n.due.getD i 0)).map fun n => n.interrupt ops cfg i
      else none
  | .packet now i pkt => (n.at_ now).map fun n => n.access ops cfg i pkt
  | .suspend now =>
      if n.ticker.thread = .suspended then none
      else (n.at_ now).map fun n => n.stop .suspended
  | .halt now =>
      if n.ticker.thread = .halted then none else (n.at_ now).map fun n => n.stop .halted
  | .activate now =>
      if n.ticker.thread = .active then none
      else (n.at_ now).map fun n =>
        n.withTicker ({ n.ticker with thread := .active }.activateContext cfg.clockPeriod)

end Node

/-- A step, and the time of the tick event after it. -/
structure Mark where
  happening : Happening
  next : Tick

def Node.Step {C : Type} (ops : ChipOps C) (cfg : Config) (n : Node C) (l : Mark) (n' : Node C) :
    Prop :=
  n.react ops cfg l.happening = some (.ok n') ∧ l.next = n'.ticker.when_

def Node.boot {C : Type} (chips : List (AIChip C)) : Node C where
  sys := System.boot chips
  due := chips.map fun _ => 0

/-- A delay as a number, rounded up to a clock period. -/
def rounded (clockPeriod tick : Tick) : Nat :=
  (tick.toNat + clockPeriod.toNat - 1) / clockPeriod.toNat * clockPeriod.toNat

/-- The time at which the last tick or activation put the next tick. -/
def base (ls : List Mark) : Tick :=
  ls.foldl (fun time l => match l.happening with
    | .tick _ _ _ | .activate _ => l.next
    | _ => time) 0

/-- The delays of the interrupts since the last tick. -/
def owed (cfg : Config) (ls : List Mark) : Nat :=
  ls.foldl (fun total l => match l.happening with
    | .tick _ _ _ => 0
    | .interrupt i => total + rounded cfg.clockPeriod (cfg.delayCpuInterrupt i)
    | _ => total) 0

/-- Those of them that came before the last activation since that tick. -/
def dropped (cfg : Config) (ls : List Mark) : Nat :=
  (ls.foldl (fun (r : Nat × Nat) l => match l.happening with
    | .tick _ _ _ => (0, 0)
    | .interrupt i => (r.1 + rounded cfg.clockPeriod (cfg.delayCpuInterrupt i), r.2)
    | .activate _ => (r.1, r.1)
    | _ => r) (0, 0)).2

private theorem base_snoc (ls : List Mark) (l : Mark) :
    base (ls ++ [l]) = match l.happening with
      | .tick _ _ _ | .activate _ => l.next
      | _ => base ls := by
  simp [base]

private theorem owed_snoc (cfg : Config) (ls : List Mark) (l : Mark) :
    owed cfg (ls ++ [l]) = match l.happening with
      | .tick _ _ _ => 0
      | .interrupt i => owed cfg ls + rounded cfg.clockPeriod (cfg.delayCpuInterrupt i)
      | _ => owed cfg ls := by
  simp [owed]

private theorem dropped_snoc (cfg : Config) (ls : List Mark) (l : Mark) :
    dropped cfg (ls ++ [l]) = match l.happening with
      | .tick _ _ _ => 0
      | .activate _ => owed cfg ls
      | _ => dropped cfg ls := by
  have howed : (ls.foldl (fun (r : Nat × Nat) l => match l.happening with
      | .tick _ _ _ => (0, 0)
      | .interrupt i => (r.1 + rounded cfg.clockPeriod (cfg.delayCpuInterrupt i), r.2)
      | .activate _ => (r.1, r.1)
      | _ => r) (0, 0)).1 = owed cfg ls := by
    induction ls using List.reverseRecOn with
    | nil => rfl
    | append_singleton ls l ih =>
        rw [List.foldl_append, owed_snoc, ← ih]
        cases hl : l.happening <;> simp [hl]
  rw [dropped, List.foldl_append, ← howed]
  cases hl : l.happening <;> simp [hl, dropped]

private theorem dropped_le_owed (cfg : Config) (ls : List Mark) : dropped cfg ls ≤ owed cfg ls := by
  induction ls using List.reverseRecOn with
  | nil => exact le_rfl
  | append_singleton ls l ih =>
      rw [dropped_snoc, owed_snoc]
      cases l.happening with
      | tick packets suspends latency => exact le_rfl
      | interrupt i => exact ih.trans (Nat.le_add_right _ _)
      | packet now i pkt => exact ih
      | suspend now => exact ih
      | halt now => exact ih
      | activate now => exact le_rfl

private theorem rounded_nat {n c : Nat} (hc : 0 < c) :
    (if n % c ≠ 0 then n + (c - n % c) else n) = (n + c - 1) / c * c := by
  have hdiv := Nat.div_add_mod n c
  have hlt := Nat.mod_lt n hc
  split_ifs with hmod
  · have hq : (n + c - 1) / c = n / c + 1 := by
      apply Nat.div_eq_of_lt_le
      · rw [Nat.add_mul, Nat.mul_comm]
        omega
      · rw [Nat.add_mul, Nat.add_mul, Nat.mul_comm (n / c)]
        omega
    rw [hq, Nat.add_mul, Nat.mul_comm (n / c)]
    omega
  · have hq : (n + c - 1) / c = n / c := by
      apply Nat.div_eq_of_lt_le
      · rw [Nat.mul_comm]
        omega
      · rw [Nat.add_mul, Nat.mul_comm]
        omega
    rw [hq, Nat.mul_comm]
    omega

private theorem toNat_roundUp {clockPeriod : Tick} (hc : clockPeriod ≠ 0) (tick : Tick) :
    (roundUp clockPeriod tick).toNat = rounded clockPeriod tick % 2 ^ 64 := by
  have hpos : 0 < clockPeriod.toNat := by
    rw [Nat.pos_iff_ne_zero]
    exact fun h => hc (BitVec.eq_of_toNat_eq h)
  have hmod : tick % clockPeriod ≠ 0 ↔ tick.toNat % clockPeriod.toNat ≠ 0 := by
    rw [Ne, ← BitVec.toNat_inj, BitVec.toNat_umod]
    rfl
  have hlt := Nat.mod_lt tick.toNat hpos
  have hperiod := clockPeriod.isLt
  rw [rounded, ← rounded_nat hpos, roundUp]
  by_cases h : tick.toNat % clockPeriod.toNat ≠ 0
  · rw [if_pos (hmod.mpr h), if_pos h, BitVec.toNat_add, BitVec.toNat_sub, BitVec.toNat_umod]
    omega
  · rw [if_neg (mt hmod.mp h), if_neg h, Nat.mod_eq_of_lt tick.isLt]

namespace Ticker

variable {clockPeriod when_ : Tick} {t t' : Ticker}

private theorem schedule_ok (h : t.schedule when_ = .ok t') :
    t.curTick ≤ when_ ∧ t' = { t with scheduled := true, when_ } := by
  unfold schedule at h
  split_ifs at h with hw
  cases h
  exact ⟨hw.1, rfl⟩

private theorem activateContext_ok (h : t.activateContext clockPeriod = .ok t') :
    t'.curTick ≤ t'.when_ ∧ t'.scheduled = true ∧ t'.status = .running ∧
      t'.thread = t.thread ∧ t'.curTick = t.curTick := by
  unfold activateContext at h
  split_ifs at h with hassert
  · cases h
  · obtain ⟨t₁, hsched, h⟩ := bind_ok h
    obtain ⟨hle, rfl⟩ := schedule_ok hsched
    cases h
    exact ⟨hle, rfl, rfl, rfl, rfl⟩

private theorem suspendContext_ok (hs : t.scheduled = true → t.status = .running)
    (h : t.suspendContext = .ok t') :
    t'.scheduled = false ∧ t'.status = .idle ∧ t'.thread = t.thread ∧ t'.curTick = t.curTick := by
  unfold suspendContext deschedule at h
  cases hstatus : t.status with
  | idle =>
      have hoff : t.scheduled = false := by
        cases hsched : t.scheduled with
        | false => rfl
        | true => exact absurd (hstatus.symm.trans (hs hsched)) (by decide)
      simp only [hstatus, if_true] at h
      cases h
      exact ⟨hoff, hstatus, rfl, rfl⟩
  | running =>
      cases hsched : t.scheduled with
      | false =>
          simp only [hstatus, hsched] at h
          cases h
          exact ⟨hsched, rfl, rfl, rfl⟩
      | true =>
          simp only [hstatus, hsched] at h
          cases h
          exact ⟨rfl, rfl, rfl, rfl⟩

private theorem finishTick_ok {latency : Tick} (hoff : t.scheduled = false)
    (h : t.finishTick clockPeriod latency = .ok t') :
    (t'.scheduled = true ↔ t'.status = .running) ∧ (t'.scheduled = true → t'.curTick ≤ t'.when_) ∧
      t'.status = t.status ∧ t'.thread = t.thread ∧ t'.curTick = t.curTick := by
  unfold finishTick at h
  cases hstatus : t.status with
  | idle =>
      simp only [hstatus, ne_eq, not_true_eq_false, if_false] at h
      cases h
      simp [hoff, hstatus]
  | running =>
      simp only [hstatus, ne_eq, reduceCtorEq, not_false_eq_true, if_true] at h
      obtain ⟨hle, rfl⟩ := schedule_ok h
      simp [hstatus, hle]

/-- What an interrupt does: the assertions are those of `reschedule`. -/
theorem virtualDeviceInterrupt_eq (tick : Tick) :
    t.virtualDeviceInterrupt clockPeriod tick =
      if t.curTick ≤ t.when_ + roundUp clockPeriod tick ∧ t.scheduled = true then
        .ok { t with inInterrupt := true, when_ := t.when_ + roundUp clockPeriod tick }
      else .error .assertion := rfl

end Ticker

namespace Node

variable {C : Type} {ops : ChipOps C} {cfg : Config} {n n' : Node C}

def SysInv (n : Node C) : Prop := ∃ vls, Vdev.Inv n.sys vls

private theorem at_ok {now : Tick} (h : n.at_ now = some n') :
    n.Quiet now ∧ n' = { n with ticker.curTick := now } := by
  unfold at_ at h
  split_ifs at h with hq
  exact ⟨hq, (Option.some.inj h).symm⟩

private theorem withTicker_ok {r : Except Abort Ticker} (h : n.withTicker r = .ok n') :
    ∃ ticker, r = .ok ticker ∧ n' = { n with ticker } := by
  cases r with
  | error e => cases h
  | ok ticker =>
      cases h
      exact ⟨ticker, rfl, rfl⟩

private theorem access_ok {i : Nat} {pkt : Packet} (hs : n.SysInv)
    (h : n.access ops cfg i pkt = .ok n') : n'.ticker = n.ticker ∧ n'.SysInv := by
  unfold access at h
  cases hreact : n.sys.react ops (.packet i pkt) with
  | none =>
      rw [hreact] at h
      cases h
      exact ⟨rfl, hs⟩
  | some r =>
      obtain ⟨vls, hinv⟩ := hs
      rcases react_inv ops hinv (.packet i pkt) hreact with rfl | ⟨sys, started, rfl, hnext⟩
      · rw [hreact] at h
        cases h
      · rw [hreact] at h
        cases started with
        | none =>
            cases h
            exact ⟨rfl, _, hnext⟩
        | some r =>
            simp only at h
            split_ifs at h
            cases h
            exact ⟨rfl, _, hnext⟩

private theorem accesses_ok {packets : List (Nat × Packet)} (hs : n.SysInv)
    (h : packets.foldlM (fun n p => n.access ops cfg p.1 p.2) n = .ok n') :
    n'.ticker = n.ticker ∧ n'.SysInv := by
  induction packets generalizing n with
  | nil =>
      cases h
      exact ⟨rfl, hs⟩
  | cons p packets ih =>
      rw [List.foldlM_cons] at h
      obtain ⟨n₁, hhead, htail⟩ := bind_ok h
      obtain ⟨hticker, hs₁⟩ := access_ok hs hhead
      obtain ⟨hrest, hs'⟩ := ih hs₁ htail
      exact ⟨hrest.trans hticker, hs'⟩

/-- The time an interrupt moves the tick event to. -/
def postponed (cfg : Config) (n : Node C) (i : Nat) : Tick :=
  n.ticker.when_ + roundUp cfg.clockPeriod (cfg.delayCpuInterrupt i)

private theorem toNat_postponed (cfg : Config) (n : Node C) (i : Nat) : (postponed cfg n i).toNat =
    (n.ticker.when_.toNat + rounded cfg.clockPeriod (cfg.delayCpuInterrupt i)) % 2 ^ 64 := by
  rw [postponed, BitVec.toNat_add, toNat_roundUp cfg.clocked, Nat.add_mod_mod]

variable (ops cfg) in
/-- The device part of an interrupt raises no assertion. -/
theorem interrupt_eq {i : Nat} (hs : n.SysInv)
    (hon : (n.sys.devices[i]?.any fun dev => dev.scheduled) = true) :
    ∃ sys, (∃ vls, Vdev.Inv sys vls) ∧ n.interrupt ops cfg i =
      if n.ticker.curTick ≤ postponed cfg n i ∧ n.ticker.scheduled = true then .ok { n with
        sys
        ticker.inInterrupt := true
        ticker.when_ := postponed cfg n i }
      else .error .assertion := by
  obtain ⟨vls, hinv⟩ := hs
  cases hdev : n.sys.devices[i]? with
  | none => simp [hdev] at hon
  | some dev =>
      have hwork : dev.scheduled = true := by simpa [hdev] using hon
      have hi : i < n.sys.cpu.statusVdev.length :=
        hinv.status ▸ (List.getElem?_eq_some_iff.mp hdev).1
      obtain ⟨hok, -⟩ := (hinv.device i dev hdev).interrupt hwork hi
      let sys : System C := ⟨n.sys.cpu.virtualDeviceEnd i,
        n.sys.devices.set i ⟨dev.id, dev.aichip, .idle, false, statusOf false dev.aichip.finished⟩⟩
      have hreact : n.sys.react ops (.interrupt i) = some (.ok (sys, none)) := by
        simp only [System.react, hdev, Option.filter_some, hwork, if_true, Option.map_some, hok]
        rfl
      rcases react_inv ops hinv (.interrupt i) hreact with hfault | ⟨sys', started, hsys, hnext⟩
      · cases hfault
      · cases hsys
        refine ⟨sys, ⟨_, hnext⟩, ?_⟩
        simp only [interrupt, hreact, Ticker.virtualDeviceInterrupt_eq]
        by_cases hassert : n.ticker.curTick ≤ n.ticker.when_ +
            roundUp cfg.clockPeriod (cfg.delayCpuInterrupt i) ∧ n.ticker.scheduled = true
        · rw [if_pos hassert]
          exact (if_pos hassert).symm
        · rw [if_neg hassert]
          exact (if_neg hassert).symm

/-! ## The invariant -/

/-- The CPU runs exactly while its tick event is scheduled, and that event is where the last
tick or activation put it, moved by the delays of the interrupts since, up to `2 ^ 64`. -/
structure Inv (cfg : Config) (n : Node C) (ls : List Mark) : Prop where
  sys : n.SysInv
  scheduled : n.ticker.scheduled = true ↔ n.ticker.status = .running
  thread : n.ticker.status = .running ↔ n.ticker.thread = .active
  time : n.ticker.scheduled = true → n.ticker.curTick ≤ n.ticker.when_
  sum : n.ticker.scheduled = true →
    (n.ticker.when_.toNat + dropped cfg ls) % 2 ^ 64 = ((base ls).toNat + owed cfg ls) % 2 ^ 64

theorem boot_inv (chips : List (AIChip C)) : Inv cfg (boot chips) [] := by
  constructor
  · exact ⟨[], Vdev.boot_inv chips⟩
  · simp [boot]
  · simp [boot]
  · intro h
    cases h
  · intro h
    cases h

private theorem Inv.at_ {ls : List Mark} {now : Tick} (h : Inv cfg n ls)
    (hat : n.at_ now = some n') : Inv cfg n' ls := by
  obtain ⟨hquiet, rfl⟩ := at_ok hat
  exact ⟨h.sys, h.scheduled, h.thread, hquiet.2.1, h.sum⟩

/-- Neither a packet nor a stop is in the sums. -/
theorem Inv.sum_of {ls : List Mark} {l : Mark} (h : Inv cfg n ls)
    (hbase : base (ls ++ [l]) = base ls) (howed : owed cfg (ls ++ [l]) = owed cfg ls)
    (hdropped : dropped cfg (ls ++ [l]) = dropped cfg ls) :
    n.ticker.scheduled = true → (n.ticker.when_.toNat + dropped cfg (ls ++ [l])) % 2 ^ 64 =
      ((base (ls ++ [l])).toNat + owed cfg (ls ++ [l])) % 2 ^ 64 := by
  rw [hbase, howed, hdropped]
  exact h.sum

section Steps

variable {ls : List Mark}

theorem Inv.stop {thread : ThreadStatus} {l : Mark} (h : Inv cfg n ls) (hthread : thread ≠ .active)
    (hstop : n.stop thread = .ok n') : Inv cfg n' (ls ++ [l]) := by
  obtain ⟨ticker, hr, rfl⟩ := withTicker_ok hstop
  obtain ⟨hoff, hidle, hsame, -⟩ := Ticker.suspendContext_ok
    (t := { n.ticker with thread }) h.scheduled.mp hr
  constructor
  · exact h.sys
  · simp [hoff, hidle]
  · simp [hidle, hsame, hthread]
  · simp [hoff]
  · simp [hoff]

theorem Inv.packet {i : Nat} {pkt : Packet} {l : Mark} {now : Tick} (h : Inv cfg n ls)
    (hl : l.happening = .packet now i pkt) (haccess : n.access ops cfg i pkt = .ok n') :
    Inv cfg n' (ls ++ [l]) := by
  obtain ⟨hticker, hsys⟩ := access_ok h.sys haccess
  constructor
  · exact hsys
  · rw [hticker]
    exact h.scheduled
  · rw [hticker]
    exact h.thread
  · rw [hticker]
    exact h.time
  · rw [hticker]
    apply h.sum_of
    · simp [base_snoc, hl]
    · simp [owed_snoc, hl]
    · simp [dropped_snoc, hl]

theorem Inv.tick {packets : List (Nat × Packet)} {suspends : Bool} {latency : Tick} {l : Mark}
    (h : Inv cfg n ls) (hl : l.happening = .tick packets suspends latency)
    (hnext : l.next = n'.ticker.when_)
    (htick : n.tick ops cfg packets suspends latency = .ok n') : Inv cfg n' (ls ++ [l]) := by
  obtain ⟨n₁, haccess, hrest⟩ := bind_ok htick
  obtain ⟨hticker, hsys⟩ := accesses_ok (n := { n with
    ticker.scheduled := false, ticker.inInterrupt := false }) h.sys haccess
  obtain ⟨n₂, hfinish, hsys₂, hoff, hthread⟩ : ∃ n₂ : Node C,
      n₂.withTicker (n₂.ticker.finishTick cfg.clockPeriod latency) = .ok n' ∧ n₂.SysInv ∧
        n₂.ticker.scheduled = false ∧
        (n₂.ticker.status = .running ↔ n₂.ticker.thread = .active) := by
    cases suspends with
    | false =>
        refine ⟨n₁, hrest, hsys, by rw [hticker], ?_⟩
        rw [hticker]
        exact h.thread
    | true =>
        obtain ⟨n₂, hstop, hfinish⟩ := bind_ok hrest
        obtain ⟨ticker, hr, rfl⟩ := withTicker_ok hstop
        obtain ⟨hoff, hidle, hthread, -⟩ := Ticker.suspendContext_ok
          (t := { n₁.ticker with thread := .suspended }) (by rw [hticker]; simp) hr
        exact ⟨_, hfinish, hsys, hoff, by simp [hidle, hthread]⟩
  obtain ⟨ticker, hr, rfl⟩ := withTicker_ok hfinish
  obtain ⟨hsched, htime, hstatus, hsame, -⟩ := Ticker.finishTick_ok hoff hr
  constructor
  · exact hsys₂
  · exact hsched
  · rw [hstatus, hsame]
    exact hthread
  · exact htime
  · intro _
    simp [base_snoc, owed_snoc, dropped_snoc, hl, hnext]

private theorem Inv.activate {now : Tick} {l : Mark} (h : Inv cfg n ls)
    (hl : l.happening = .activate now) (hnext : l.next = n'.ticker.when_)
    (hactivate : n.withTicker ({ n.ticker with thread := .active }.activateContext
      cfg.clockPeriod) = .ok n') : Inv cfg n' (ls ++ [l]) := by
  obtain ⟨ticker, hr, rfl⟩ := withTicker_ok hactivate
  obtain ⟨htime, hsched, hrunning, hthread, -⟩ := Ticker.activateContext_ok hr
  constructor
  · exact h.sys
  · simp [hsched, hrunning]
  · simp [hrunning, hthread]
  · intro _
    exact htime
  · intro _
    simp [base_snoc, owed_snoc, dropped_snoc, hl, hnext]

theorem Inv.interrupt {i : Nat} {l : Mark} (h : Inv cfg n ls) (hl : l.happening = .interrupt i)
    (hon : (n.sys.devices[i]?.any fun dev => dev.scheduled) = true)
    (hinterrupt : n.interrupt ops cfg i = .ok n') : Inv cfg n' (ls ++ [l]) := by
  obtain ⟨sys, hsys, heq⟩ := interrupt_eq ops cfg h.sys hon
  rw [heq] at hinterrupt
  split_ifs at hinterrupt with hassert
  cases hinterrupt
  have hsum := h.sum hassert.2
  constructor
  · exact hsys
  · exact h.scheduled
  · exact h.thread
  · intro _
    exact hassert.1
  · intro _
    simp only [base_snoc, owed_snoc, dropped_snoc, hl]
    rw [toNat_postponed]
    omega

private theorem step_inv {l : Mark} (h : Inv cfg n ls) (hstep : n.Step ops cfg l n') :
    Inv cfg n' (ls ++ [l]) := by
  obtain ⟨hreact, hnext⟩ := hstep
  cases hl : l.happening with
  | tick packets suspends latency =>
      simp only [hl, react] at hreact
      split_ifs at hreact
      obtain ⟨n₁, hat, htick⟩ := Option.map_eq_some_iff.mp hreact
      exact (h.at_ hat).tick hl hnext htick
  | interrupt i =>
      simp only [hl, react] at hreact
      split_ifs at hreact with hon
      obtain ⟨n₁, hat, hinterrupt⟩ := Option.map_eq_some_iff.mp hreact
      obtain ⟨-, rfl⟩ := at_ok hat
      exact (h.at_ hat).interrupt hl hon hinterrupt
  | packet now i pkt =>
      simp only [hl, react] at hreact
      obtain ⟨n₁, hat, haccess⟩ := Option.map_eq_some_iff.mp hreact
      exact (h.at_ hat).packet hl haccess
  | suspend now =>
      simp only [hl, react] at hreact
      split_ifs at hreact
      obtain ⟨n₁, hat, hstop⟩ := Option.map_eq_some_iff.mp hreact
      exact (h.at_ hat).stop (by decide) hstop
  | halt now =>
      simp only [hl, react] at hreact
      split_ifs at hreact
      obtain ⟨n₁, hat, hstop⟩ := Option.map_eq_some_iff.mp hreact
      exact (h.at_ hat).stop (by decide) hstop
  | activate now =>
      simp only [hl, react] at hreact
      split_ifs at hreact
      obtain ⟨n₁, hat, hactivate⟩ := Option.map_eq_some_iff.mp hreact
      exact (h.at_ hat).activate hl hnext hactivate

end Steps

theorem run_inv {chips : List (AIChip C)} {ls : List Mark}
    (h : Run (Node.Step ops cfg) (boot chips) ls n) : Inv cfg n ls :=
  h.inv (fun ls n => Inv cfg n ls) (boot_inv chips) fun _ _ _ _ hinv hstep =>
    step_inv hinv hstep

/-- The interrupt is legal, and the tick event is later by the delay rounded up. -/
def Delivers (cfg : Config) (n : Node C) (i : Nat) (r : Except Abort (Node C)) : Prop :=
  ∃ n', r = .ok n' ∧ n'.ticker.when_.toNat =
    n.ticker.when_.toNat + rounded cfg.clockPeriod (cfg.delayCpuInterrupt i)

section Interrupts

variable {ls : List Mark} {i : Nat} (h : Inv cfg n ls)
  (hon : (n.sys.devices[i]?.any fun dev => dev.scheduled) = true)

include h hon

private theorem Inv.legal_iff : (∃ n', n.interrupt ops cfg i = .ok n') ↔
    n.ticker.status = .running ∧ n.ticker.curTick ≤ postponed cfg n i := by
  obtain ⟨sys, -, heq⟩ := interrupt_eq ops cfg h.sys hon
  rw [heq, ← h.scheduled]
  split_ifs with hassert
  · exact iff_of_true ⟨_, rfl⟩ hassert.symm
  · exact iff_of_false (by simp) fun hlegal => hassert hlegal.symm

private theorem Inv.delivers_iff : Delivers cfg n i (n.interrupt ops cfg i) ↔
    n.ticker.status = .running ∧
      n.ticker.when_.toNat + rounded cfg.clockPeriod (cfg.delayCpuInterrupt i) < 2 ^ 64 := by
  obtain ⟨sys, -, heq⟩ := interrupt_eq ops cfg h.sys hon
  have hmoved := toNat_postponed cfg n i
  have hlt := (postponed cfg n i).isLt
  rw [heq, ← h.scheduled]
  constructor
  · rintro ⟨n', hok, htime⟩
    split_ifs at hok with hassert
    cases hok
    simp only at htime
    exact ⟨hassert.2, by omega⟩
  · rintro ⟨hsched, hfit⟩
    rw [Nat.mod_eq_of_lt hfit] at hmoved
    have hle := BitVec.le_def.mp (h.time hsched)
    have hassert : n.ticker.curTick ≤ postponed cfg n i := BitVec.le_def.mpr (by omega)
    exact ⟨_, if_pos ⟨hassert, hsched⟩, hmoved⟩

end Interrupts

/-- In every run an interrupt that comes next is legal exactly when the CPU runs and the tick
event does not wrap before the present, and it is legal and exact when the CPU runs and the sum
fits a tick. The next tick is later by the delays of the interrupts since the last one exactly
when none of them came before an activation and the sum fits. -/
theorem interrupt_delivery (ops : ChipOps C) (cfg : Config) (chips : List (AIChip C))
    {ls : List Mark} (h : Run (Node.Step ops cfg) (boot chips) ls n) :
    (∀ i r, n.react ops cfg (.interrupt i) = some r →
      ((∃ n', r = .ok n') ↔
        n.ticker.status = .running ∧ n.due.getD i 0 ≤ postponed cfg n i) ∧
      (Delivers cfg n i r ↔ n.ticker.status = .running ∧
        n.ticker.when_.toNat + rounded cfg.clockPeriod (cfg.delayCpuInterrupt i) < 2 ^ 64)) ∧
    (n.ticker.scheduled = true →
      (n.ticker.when_.toNat = (base ls).toNat + owed cfg ls ↔
        dropped cfg ls = 0 ∧ (base ls).toNat + owed cfg ls < 2 ^ 64)) := by
  have hinv := run_inv h
  constructor
  · intro i r hreact
    simp only [react] at hreact
    split_ifs at hreact with hon
    obtain ⟨n₁, hat, rfl⟩ := Option.map_eq_some_iff.mp hreact
    obtain ⟨-, rfl⟩ := at_ok hat
    have hinv₁ := hinv.at_ hat
    exact ⟨hinv₁.legal_iff hon, hinv₁.delivers_iff hon⟩
  · intro hsched
    have hsum := hinv.sum hsched
    have hle := dropped_le_owed cfg ls
    have hlt := n.ticker.when_.isLt
    omega

def lateConfig : Config := ⟨333, fun _ => 1000, fun _ => 1000, by decide⟩

/-- A chip whose only cycle takes 1000 ticks. -/
def lateBoot : Node Unit := boot [{ tickPerCycle := 1000, core := () }]

/-- The tick at 333 starts the device, which is due at 2333. -/
def startTick (latency : Tick) : Happening :=
  .tick [(0, ⟨false, true, 0, 1, fun _ => vdevSet⟩)] false latency

/-- The interrupt moves the next tick by its delay, rounded up to a clock period. -/
theorem interrupt_delivery_moved : ∃ n, Run (Node.Step instantOps lateConfig) lateBoot
    [⟨.activate 0, 0⟩, ⟨.tick [] false 0, 333⟩, ⟨startTick 3000, 3333⟩, ⟨.interrupt 0, 4665⟩] n ∧
    n.ticker.when_.toNat = 3333 + 1332 := by
  have hrun : ∃ n, Run (Node.Step instantOps lateConfig) lateBoot
      [⟨.activate 0, 0⟩, ⟨.tick [] false 0, 333⟩, ⟨startTick 3000, 3333⟩, ⟨.interrupt 0, 4665⟩] n ∧
      n.ticker.scheduled = true :=
    ⟨_, .snoc (.snoc (.snoc (.snoc .nil ⟨rfl, rfl⟩) ⟨rfl, rfl⟩) ⟨rfl, rfl⟩) ⟨rfl, rfl⟩, rfl⟩
  obtain ⟨n, hrun, hsched⟩ := hrun
  exact ⟨n, hrun, ((interrupt_delivery instantOps lateConfig _ hrun).2 hsched).mpr
    ⟨rfl, by decide⟩⟩

/-- A context suspended before the interrupt makes it fail. -/
theorem interrupt_suspended : ∃ n, Run (Node.Step instantOps lateConfig) lateBoot
    [⟨.activate 0, 0⟩, ⟨.tick [] false 0, 333⟩, ⟨startTick 0, 666⟩, ⟨.suspend 333, 666⟩] n ∧
    n.due = [2333] ∧
    n.react instantOps lateConfig (.interrupt 0) = some (.error .assertion) :=
  ⟨_, .snoc (.snoc (.snoc (.snoc .nil ⟨rfl, rfl⟩) ⟨rfl, rfl⟩) ⟨rfl, rfl⟩) ⟨rfl, rfl⟩, rfl, rfl⟩

/-- A delay that takes the tick event past `2 ^ 64` fails too, with the context running. -/
def wrapConfig : Config := { lateConfig with delayCpuInterrupt := fun _ => 18446744000000000000 }

example : ∃ n, Run (Node.Step instantOps wrapConfig) lateBoot
    [⟨.activate 0, 0⟩, ⟨.tick [] false 1000000000000, 1000000000000⟩,
      ⟨startTick 5000, 1000000005000⟩] n ∧ n.ticker.status = .running ∧
    n.react instantOps wrapConfig (.interrupt 0) = some (.error .assertion) :=
  ⟨_, .snoc (.snoc (.snoc .nil ⟨rfl, rfl⟩) ⟨rfl, rfl⟩) ⟨rfl, rfl⟩, rfl, rfl⟩

end Node

end ModernArch.Cpu
