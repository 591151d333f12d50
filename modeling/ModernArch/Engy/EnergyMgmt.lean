import ModernArch.Framework.Transition
import Mathlib

/-!
# Energy messages

`EnergyMgmt` queues messages and lets an event broadcast the first of them to the slave ports.
A slave may broadcast again while it handles a message.
-/

namespace ModernArch.Engy
open Framework

variable {S V : Type}

structure EnergyMsg (V : Type) where
  type : Int
  val : V
deriving DecidableEq

/-- The message queue, its event, and the slaves of the master port. `accepted` and `delivered`
record the calls of `broadcastMsgAsEvent` and of `handleMsg`. -/
structure EnergyMgmt (S V : Type) where
  slaveList : List S := []
  msgTogo : List (EnergyMsg V) := []
  eventScheduled : Bool := false
  accepted : List (EnergyMsg V) := []
  delivered : List (S × EnergyMsg V) := []

/-- What would stop a run: a failing assertion, or a read through nothing. -/
inductive Failure where
  | scheduledTwice | emptyQueue | nullMgmt
deriving DecidableEq

abbrev MgmtM (S V : Type) := StateT (EnergyMgmt S V) (Except Failure)

/-- What a slave does with a message: the messages it broadcasts and the value it returns. -/
structure Response (V : Type) where
  calls : List (EnergyMsg V)
  result : Int

namespace EnergyMgmt

def bindSlave (m : EnergyMgmt S V) (slave : S) : EnergyMgmt S V :=
  { m with slaveList := m.slaveList ++ [slave] }

/-- `schedule(event_msg, curTick())` asserts that the event is not scheduled. -/
def scheduleEvent : MgmtM S V Unit := do
  if (← get).eventScheduled then
    throw .scheduledTwice
  modify fun m => { m with eventScheduled := true }

def broadcastMsgAsEvent (msg : EnergyMsg V) : MgmtM S V Int := do
  modify fun m => { m with msgTogo := m.msgTogo ++ [msg], accepted := m.accepted ++ [msg] }
  if (← get).msgTogo.length = 1 then
    scheduleEvent
  return 1

def callAll (msgs : List (EnergyMsg V)) : MgmtM S V Unit :=
  forM msgs fun msg => do let _ ← broadcastMsgAsEvent msg

def handleMsg (response : Response V) (slave : S) (msg : EnergyMsg V) : MgmtM S V Int := do
  modify fun m => { m with delivered := m.delivered ++ [(slave, msg)] }
  callAll response.calls
  return response.result

/-- The loop of `MasterEnergyPort::broadcastMsg` over the slaves and what they do. -/
def broadcastTo (msg : EnergyMsg V) (rlt : Int) (slaves : List (S × Response V)) :
    MgmtM S V Int :=
  slaves.foldlM (fun rlt s => do
    if (← handleMsg s.2 s.1 msg) = 0 then return 0 else return rlt) rlt

/-- `MasterEnergyPort::broadcastMsg`, where the slave at place `i` does `respond i`. -/
def portBroadcastMsg (respond : Nat → Response V) (msg : EnergyMsg V) : MgmtM S V Int := do
  let slaves := (← get).slaveList
  let rlt := if slaves.length = 0 then 0 else 1
  broadcastTo msg rlt (slaves.mapIdx fun i slave => (slave, respond i))

def broadcastMsg (respond : Nat → Response V) : MgmtM S V Unit := do
  match (← get).msgTogo with
  | [] => throw .emptyQueue
  | msg :: _ =>
    let _ ← portBroadcastMsg respond msg
    modify fun m => { m with msgTogo := m.msgTogo.tail }
    if (← get).msgTogo ≠ [] then
      scheduleEvent

/-- The event queue takes the event off before it runs it. -/
def runEvent (respond : Nat → Response V) : MgmtM S V Unit := do
  modify fun m => { m with eventScheduled := false }
  broadcastMsg respond

theorem run_bind_ok {σ ε α β : Type} {c : StateT σ (Except ε) α} {f : α → StateT σ (Except ε) β}
    {s s' : σ} {a : α} (h : c.run s = .ok (a, s')) : (c >>= f).run s = (f a).run s' := by
  rw [StateT.run_bind, h]
  rfl

/-- Messages accepted while the queue keeps its head. -/
def queued (m : EnergyMgmt S V) (msgs : List (EnergyMsg V)) : EnergyMgmt S V :=
  { m with msgTogo := m.msgTogo ++ msgs, accepted := m.accepted ++ msgs }

def handled (m : EnergyMgmt S V) (ds : List (S × EnergyMsg V)) : EnergyMgmt S V :=
  { m with delivered := m.delivered ++ ds }

@[simp] theorem queued_nil (m : EnergyMgmt S V) : m.queued [] = m := by
  simp [queued]

@[simp] theorem queued_queued (m : EnergyMgmt S V) (l l' : List (EnergyMsg V)) :
    (m.queued l).queued l' = m.queued (l ++ l') := by
  simp [queued, List.append_assoc]

@[simp] theorem queued_msgTogo (m : EnergyMgmt S V) (l : List (EnergyMsg V)) :
    (m.queued l).msgTogo = m.msgTogo ++ l := rfl

@[simp] theorem handled_msgTogo (m : EnergyMgmt S V) (ds : List (S × EnergyMsg V)) :
    (m.handled ds).msgTogo = m.msgTogo := rfl

@[simp] theorem handled_nil (m : EnergyMgmt S V) : m.handled [] = m := by
  simp [handled]

@[simp] theorem queued_handled (m : EnergyMgmt S V) (l l' : List (EnergyMsg V))
    (ds ds' : List (S × EnergyMsg V)) :
    (((m.handled ds).queued l).handled ds').queued l' =
      (m.handled (ds ++ ds')).queued (l ++ l') := by
  simp [queued, handled, List.append_assoc]

/-- Behind a message the new one waits, and no event is scheduled for it. -/
theorem broadcastMsgAsEvent_behind {m : EnergyMgmt S V} (h : m.msgTogo ≠ []) (msg : EnergyMsg V) :
    (broadcastMsgAsEvent msg).run m = .ok (1, m.queued [msg]) := by
  have hlen : m.msgTogo.length ≠ 0 := fun h₀ => h (List.length_eq_zero_iff.mp h₀)
  simp [broadcastMsgAsEvent, queued, hlen]
  rfl

private theorem broadcastMsgAsEvent_first {m : EnergyMgmt S V} (h : m.msgTogo = [])
    (hs : m.eventScheduled = false) (msg : EnergyMsg V) :
    (broadcastMsgAsEvent msg).run m = .ok (1, { m.queued [msg] with eventScheduled := true }) := by
  simp [broadcastMsgAsEvent, scheduleEvent, queued, h, hs]
  rfl

/-- As long as the event stands for the messages that wait, one more is accepted. -/
theorem broadcastMsgAsEvent_run {m : EnergyMgmt S V}
    (h : m.eventScheduled = true ↔ m.msgTogo ≠ []) (msg : EnergyMsg V) :
    (broadcastMsgAsEvent msg).run m = .ok (1, { m.queued [msg] with eventScheduled := true }) := by
  by_cases hne : m.msgTogo = []
  · have hs : m.eventScheduled = false := by simpa [hne] using h
    exact broadcastMsgAsEvent_first hne hs msg
  · have hkeep : { m.queued [msg] with eventScheduled := true } = m.queued [msg] := by
      rw [← h.mpr hne]
      rfl
    rw [hkeep]
    exact broadcastMsgAsEvent_behind hne msg

private theorem callAll_behind {m : EnergyMgmt S V} (h : m.msgTogo ≠ [])
    (msgs : List (EnergyMsg V)) : (callAll msgs).run m = .ok ((), m.queued msgs) := by
  induction msgs generalizing m with
  | nil =>
      rw [queued_nil]
      rfl
  | cons msg msgs ih =>
      have hrest : (m.queued [msg]).msgTogo ≠ [] := by simp
      have hhead : (do let _ ← broadcastMsgAsEvent msg : MgmtM S V Unit).run m =
          .ok ((), m.queued [msg]) := run_bind_ok (broadcastMsgAsEvent_behind h msg)
      rw [callAll, List.forM_cons, run_bind_ok hhead]
      exact (ih hrest).trans (by rw [queued_queued]; rfl)

private theorem handleMsg_behind {m : EnergyMgmt S V} (h : m.msgTogo ≠ []) (response : Response V)
    (slave : S) (msg : EnergyMsg V) : (handleMsg response slave msg).run m =
      .ok (response.result, (m.handled [(slave, msg)]).queued response.calls) := by
  have hlog : (modify fun m : EnergyMgmt S V =>
      { m with delivered := m.delivered ++ [(slave, msg)] } : MgmtM S V Unit).run m =
        .ok ((), m.handled [(slave, msg)]) := rfl
  have hcalls := callAll_behind (m := m.handled [(slave, msg)]) h response.calls
  rw [handleMsg, run_bind_ok hlog, run_bind_ok hcalls]
  rfl

/-- The loop over the slaves delivers to each of them in order, whatever they return, and keeps
the messages they broadcast behind the head. -/
theorem broadcastTo_behind {m : EnergyMgmt S V} (h : m.msgTogo ≠ []) (msg : EnergyMsg V)
    (rlt : Int) (slaves : List (S × Response V)) :
    ∃ rlt', (broadcastTo msg rlt slaves).run m =
      .ok (rlt', (m.handled (slaves.map fun s => (s.1, msg))).queued
        (slaves.flatMap fun s => s.2.calls)) := by
  induction slaves generalizing m rlt with
  | nil =>
      refine ⟨rlt, ?_⟩
      rw [List.map_nil, List.flatMap_nil, handled_nil, queued_nil]
      rfl
  | cons s slaves ih =>
      let m' := (m.handled [(s.1, msg)]).queued s.2.calls
      have hm' : m'.msgTogo ≠ [] := by simp [m', h]
      have hhead : ∃ r, (do
          if (← handleMsg s.2 s.1 msg) = 0 then return 0 else return rlt : MgmtM S V Int).run m =
            .ok (r, m') := by
        rw [run_bind_ok (handleMsg_behind h s.2 s.1 msg)]
        by_cases hr : s.2.result = 0
        · exact ⟨0, by rw [if_pos hr]; rfl⟩
        · exact ⟨rlt, by rw [if_neg hr]; rfl⟩
      obtain ⟨r, hr⟩ := hhead
      obtain ⟨rlt', hrest⟩ := ih hm' r
      refine ⟨rlt', ?_⟩
      rw [broadcastTo, List.foldlM_cons, run_bind_ok hr]
      refine hrest.trans ?_
      rw [queued_handled]
      rfl

private theorem portBroadcastMsg_behind {m : EnergyMgmt S V} (h : m.msgTogo ≠ [])
    (respond : Nat → Response V) (msg : EnergyMsg V) :
    ∃ rlt calls, (portBroadcastMsg respond msg).run m =
      .ok (rlt, (m.handled (m.slaveList.map fun s => (s, msg))).queued calls) := by
  obtain ⟨rlt, hrun⟩ := broadcastTo_behind h msg (if m.slaveList.length = 0 then 0 else 1)
    (m.slaveList.mapIdx fun i slave => (slave, respond i))
  have hslaves : (m.slaveList.mapIdx fun i slave => (slave, respond i)).map
      (fun s => (s.1, msg)) = m.slaveList.map fun s => (s, msg) := by
    apply List.ext_getElem?
    intro i
    simp [Function.comp_def]
  rw [hslaves] at hrun
  exact ⟨rlt, _, hrun⟩

/-- The queue after its event: the head is gone, what the slaves broadcast is at the end. -/
def afterEvent (m : EnergyMgmt S V) (msg : EnergyMsg V) (rest calls : List (EnergyMsg V)) :
    EnergyMgmt S V :=
  { m with
    msgTogo := rest ++ calls
    eventScheduled := !(rest ++ calls).isEmpty
    accepted := m.accepted ++ calls
    delivered := m.delivered ++ m.slaveList.map fun s => (s, msg) }

private theorem runEvent_run {m : EnergyMgmt S V} {msg : EnergyMsg V} {rest : List (EnergyMsg V)}
    (h : m.msgTogo = msg :: rest) (respond : Nat → Response V) :
    ∃ calls, (runEvent respond).run m = .ok ((), m.afterEvent msg rest calls) := by
  let m₀ : EnergyMgmt S V := { m with eventScheduled := false }
  have hne : m₀.msgTogo ≠ [] := by simp [m₀, h]
  obtain ⟨rlt, calls, hport⟩ := portBroadcastMsg_behind hne respond msg
  refine ⟨calls, ?_⟩
  have hoff : (modify fun m : EnergyMgmt S V => { m with eventScheduled := false } :
      MgmtM S V Unit).run m = .ok ((), m₀) := rfl
  have hget : (get : MgmtM S V (EnergyMgmt S V)).run m₀ = .ok (m₀, m₀) := rfl
  have hhead : m₀.msgTogo = msg :: rest := h
  rw [runEvent, run_bind_ok hoff, broadcastMsg, run_bind_ok hget]
  simp only [hhead]
  rw [run_bind_ok hport]
  cases hrest : rest ++ calls with
  | nil => simp [queued, handled, m₀, h, hrest, afterEvent]; rfl
  | cons msg' rest' =>
      simp [queued, handled, m₀, h, hrest, afterEvent, scheduleEvent]; rfl

inductive Action (V : Type) where
  | broadcastMsgAsEvent (msg : EnergyMsg V)
  | runEvent (respond : Nat → Response V)

namespace Action

def exec : Action V → MgmtM S V Unit
  | broadcastMsgAsEvent msg => do let _ ← EnergyMgmt.broadcastMsgAsEvent msg
  | runEvent respond => EnergyMgmt.runEvent respond

/-- Anyone may broadcast; the event queue only runs events that are scheduled. -/
def Enabled (m : EnergyMgmt S V) : Action V → Prop
  | broadcastMsgAsEvent _ => True
  | runEvent _ => m.eventScheduled = true

def events : Action V → Nat
  | broadcastMsgAsEvent _ => 0
  | runEvent _ => 1

end Action

def Step (m : EnergyMgmt S V) (a : Action V) (m' : EnergyMgmt S V) : Prop :=
  a.Enabled m ∧ a.exec.run m = .ok ((), m')

/-- After `k` events the first `k` messages have gone to every slave in order, the others wait,
and the event is scheduled for them. -/
structure Served (slaves : List S) (k : Nat) (m : EnergyMgmt S V) : Prop where
  slaveList : m.slaveList = slaves
  counted : k ≤ m.accepted.length
  waiting : m.msgTogo = m.accepted.drop k
  delivered : m.delivered =
    (m.accepted.take k).flatMap fun msg => slaves.map fun s => (s, msg)
  event : m.eventScheduled = true ↔ m.msgTogo ≠ []

theorem Served.queued {slaves : List S} {k : Nat} {m : EnergyMgmt S V} (h : Served slaves k m)
    (msg : EnergyMsg V) :
    Served slaves k { m.queued [msg] with eventScheduled := true } := by
  constructor
  · exact h.slaveList
  · exact Nat.le_trans h.counted (by simp [EnergyMgmt.queued])
  · change m.msgTogo ++ [msg] = (m.accepted ++ [msg]).drop k
    rw [List.drop_append_of_le_length h.counted, h.waiting]
  · change m.delivered = ((m.accepted ++ [msg]).take k).flatMap _
    rw [List.take_append_of_le_length h.counted, h.delivered]
  · simp

private theorem Served.afterEvent {slaves : List S} {k : Nat} {m : EnergyMgmt S V}
    (h : Served slaves k m) {msg : EnergyMsg V} {rest : List (EnergyMsg V)}
    (hq : m.msgTogo = msg :: rest) (calls : List (EnergyMsg V)) :
    Served slaves (k + 1) (m.afterEvent msg rest calls) := by
  have hdrop : m.accepted.drop k = msg :: rest := h.waiting.symm.trans hq
  have hlen : k + 1 ≤ m.accepted.length := by
    by_contra hlt
    rw [List.drop_eq_nil_of_le (by omega)] at hdrop
    cases hdrop
  have hrest : m.accepted.drop (k + 1) = rest := by
    rw [← List.tail_drop, hdrop, List.tail_cons]
  have hdone : m.accepted.take (k + 1) = m.accepted.take k ++ [msg] := by
    have hget : m.accepted[k]? = some msg := by
      rw [← List.head?_drop, hdrop, List.head?_cons]
    rw [List.take_add_one, hget, Option.toList_some]
  constructor
  · exact h.slaveList
  · exact Nat.le_trans hlen (by simp [EnergyMgmt.afterEvent])
  · change rest ++ calls = (m.accepted ++ calls).drop (k + 1)
    rw [List.drop_append_of_le_length hlen, hrest]
  · change m.delivered ++ _ = ((m.accepted ++ calls).take (k + 1)).flatMap _
    rw [List.take_append_of_le_length hlen, hdone, List.flatMap_append, ← h.delivered,
      h.slaveList, List.flatMap_singleton]
  · simp [EnergyMgmt.afterEvent]

/-- No action that can happen fails, and each keeps the queue served. -/
theorem Served.step {slaves : List S} {k : Nat} {m : EnergyMgmt S V} (h : Served slaves k m)
    (a : Action V) (ha : a.Enabled m) :
    ∃ m', a.exec.run m = .ok ((), m') ∧ Served slaves (k + a.events) m' := by
  cases a with
  | broadcastMsgAsEvent msg =>
      exact ⟨_, run_bind_ok (broadcastMsgAsEvent_run h.event msg), h.queued msg⟩
  | runEvent respond =>
      obtain ⟨msg, rest, hq⟩ := List.exists_cons_of_ne_nil (h.event.mp ha)
      obtain ⟨calls, hrun⟩ := runEvent_run hq respond
      exact ⟨_, hrun, h.afterEvent hq calls⟩

/-- The event count of a run. -/
def events (as : List (Action V)) : Nat := (as.map Action.events).sum

/-- A master port with its slaves bound in order, and an empty queue. -/
def start (slaves : List S) : EnergyMgmt S V := slaves.foldl bindSlave {}

theorem start_eq (slaves : List S) : (start slaves : EnergyMgmt S V) = { slaveList := slaves } := by
  have hbind (m : EnergyMgmt S V) (l : List S) :
      l.foldl bindSlave m = { m with slaveList := m.slaveList ++ l } := by
    induction l generalizing m with
    | nil => simp
    | cons s l ih => simp [ih, bindSlave, List.append_assoc]
  rw [start, hbind, List.nil_append]

theorem start_served (slaves : List S) : Served slaves 0 (start slaves : EnergyMgmt S V) := by
  rw [start_eq]
  constructor <;> simp

private theorem run_served {slaves : List S} {as : List (Action V)} {m : EnergyMgmt S V}
    (h : Run Step (start slaves) as m) : Served slaves (events as) m := by
  apply h.inv (fun as m => Served slaves (events as) m) (start_served slaves)
  intro as m a m' hm hstep
  obtain ⟨m'', hrun, hserved⟩ := hm.step a hstep.1
  have heq : m'' = m' := (Prod.ext_iff.mp (Except.ok.inj (hrun.symm.trans hstep.2))).2
  have hsum : events (as ++ [a]) = events as + a.events := by simp [events]
  rw [hsum, ← heq]
  exact hserved

/-- The first slave answers message one with message two and returns zero. -/
def answering : Nat → Response Nat
  | 0 => ⟨[⟨2, 0⟩], 0⟩
  | _ => ⟨[], 1⟩

end EnergyMgmt

end ModernArch.Engy
