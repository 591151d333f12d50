import Mathlib.Data.List.Find
import ModernArch.Framework.Transition
import ModernArch.Sim.Agenda

/-!
# The order of processing

Over every run of the queue the events are processed as the agenda wants them, and within one
tick those of a lower priority number come first.
-/

namespace ModernArch.Sim
open Framework EventQueue

private theorem Agenda.next_spec {a : Agenda} {event : Nat} (h : a.next = some event) :
    event ∈ a.order ∧ ∀ x ∈ a.order, a.due event ≤ a.due x :=
  ⟨List.mem_of_find?_eq_some h, by simpa using List.find?_some h⟩

namespace Represents

variable {a : Agenda} {q : EventQueue} {event : Nat}

theorem next (h : Represents a q) (hhead : q.head = some event) : a.next = some event := by
  have hlinked := h.linked
  rw [hhead] at hlinked
  obtain ⟨hmem, hleast, hfind⟩ := hlinked.head_eq
  rw [← hfind]
  apply List.find?_congr
  intro e he
  rw [decide_eq_decide]
  constructor
  · intro hall
    apply le_antisymm
    · rw [h.due, h.due]
      exact hall event hmem
    · exact hleast e he
  · intro heq x hx
    rw [← h.due, ← h.due, heq]
    exact hleast x hx

/-- The head is popped as `remove` would do it. -/
theorem pop_eq (q : EventQueue) (event fuel : Nat) :
    ∃ mem' head', (q.mem.setScheduled event false).remove fuel (some event) event =
      some (mem', head') ∧ q.pop event = { q with mem := mem', head := head' } := by
  rw [Memory.remove]
  dsimp only
  rw [if_pos rfl, Memory.removeItem, EventQueue.pop, if_pos rfl]
  cases (q.mem.setScheduled event false event).nextInBin with
  | none => exact ⟨_, _, rfl, rfl⟩
  | some n => exact ⟨_, _, rfl, rfl⟩

theorem pop (h : Represents a q) (hhead : q.head = some event) :
    Represents (a.take event) (q.pop event) := by
  have hlinked := h.linked
  rw [hhead] at hlinked
  have hmem := hlinked.head_eq.1
  have hoff : Linked (q.mem.setScheduled event false) (some event) a.order :=
    hlinked.congr_flags _ fun _ => ⟨rfl, rfl, rfl⟩
  obtain ⟨mem', head', hremove, hlinked', hdata⟩ := hoff.remove h.nodup hmem h.lt_count
  obtain ⟨mem₂, head₂, hremove₂, hpop⟩ := pop_eq q event q.instanceCounter
  rw [hremove] at hremove₂
  cases hremove₂
  have hself : (mem' event).data = { (q.mem event).data with scheduled := false } := by
    rw [hdata, Memory.setScheduled, Memory.set_self]
    rfl
  rw [hpop]
  apply h.take _ _ _ _ _ hlinked'
  · intro x hx
    rw [hdata, Memory.setScheduled, Memory.set_of_ne _ hx]
  · have hkey := congrArg Event.key hself
    exact hkey
  · exact congrArg Event.scheduled hself
  · exact (congrArg Event.squashed hself).trans (h.calm event)
  · intro _
    exact h.lt_count event hmem

private theorem when_eq (h : Represents a q) (e : Nat) : (q.mem e).when_ = a.tick e :=
  congrArg (fun k => (ofLex k).1) (h.due e)

theorem serviceOne (h : Represents a q) (process : List Call) :
    Follows (a.serviceOne process) (q.serviceOne process) := by
  cases hhead : q.head with
  | none =>
      rw [EventQueue.serviceOne, hhead]
      rfl
  | some event =>
      have hnext := h.next hhead
      have hpop := h.pop hhead
      have hwhen : ((q.pop event).mem event).when_ = a.tick event := hpop.when_eq event
      have hlater : ∀ e ∈ (a.take event).order, a.tick event ≤ ((q.pop event).mem e).when_ := by
        intro e he
        rw [hpop.when_eq]
        exact Prod.Lex.monotone_fst _ _ ((a.next_spec hnext).2 e (List.mem_of_mem_erase he))
      have hcalls := Follows.calls (hpop.advance event hlater) process
      rw [EventQueue.serviceOne, hhead, Agenda.serviceOne, hnext]
      dsimp only
      rw [hpop.calm, hwhen, if_neg Bool.false_ne_true]
      cases hq : process.foldlM EventQueue.call { q.pop event with
          curTick := a.tick event
          processed := (event, a.tick event) :: (q.pop event).processed } with
      | error f =>
          rw [hq] at hcalls
          exact hcalls
      | ok q' =>
          rw [hq] at hcalls
          dsimp only [bind, Except.bind]
          split_ifs with hexit hdelete
          · exact hcalls
          · apply Represents.delete hcalls
            exact hcalls.not_scheduled.mp hdelete.2
          · exact hcalls

end Represents

inductive Action where
  | call (c : Call)
  | serviceOne (process : List Call)

def Action.exec (q : EventQueue) : Action → Except Failure EventQueue
  | .call c => q.call c
  | .serviceOne process => q.serviceOne process

def Agenda.exec (a : Agenda) : Action → Agenda
  | .call c => a.call c
  | .serviceOne process => a.serviceOne process

/-- The calls of an action, with those of its handler. -/
def Action.calls : Action → List Call
  | .call c => [c]
  | .serviceOne process => process

def Step (q : EventQueue) (act : Action) (q' : EventQueue) : Prop := act.exec q = .ok q'

/-- The agenda after some actions on an empty queue. -/
def agendaOf (acts : List Action) : Agenda := acts.foldl Agenda.exec {}

namespace Represents

variable {a : Agenda} {q q' : EventQueue}

theorem exec (h : Represents a q) (act : Action) : Follows (a.exec act) (act.exec q) := by
  cases act with
  | call c => exact Follows.call h c
  | serviceOne process => exact h.serviceOne process

theorem step (h : Represents a q) (act : Action) (hstep : Step q act q') :
    Represents (a.exec act) q' := by
  have hfollows := h.exec act
  rw [hstep] at hfollows
  exact hfollows

theorem run (h : Represents a q) {acts : List Action} (hrun : Run Step q acts q') :
    Represents (acts.foldl Agenda.exec a) q' := by
  apply Run.inv (fun acts q' => Represents (acts.foldl Agenda.exec a) q') h _ hrun
  intro acts t act u ht hstep
  rw [List.foldl_append]
  exact ht.step _ hstep

end Represents

/-- The event a call takes out or puts in. -/
def EventQueue.Call.event : Call → Option Nat
  | .construct _ _ _ => none
  | .schedule event _ => some event
  | .deschedule event => some event
  | .reschedule event _ _ => some event

/-- No call of the actions, nor of their handlers, is about the event. -/
def Untouched (event : Nat) (acts : List Action) : Prop :=
  ∀ act ∈ acts, ∀ c ∈ act.calls, c.event ≠ some event

/-- In a log with the latest first, `(b, when_)` has `(a, when_)` before it. -/
def Before (log : List (Nat × Nat)) (a b when_ : Nat) : Prop :=
  ∀ after earlier, log = after ++ (b, when_) :: earlier → (a, when_) ∈ earlier

private theorem Before.of_not_mem {log : List (Nat × Nat)} {a b when_ : Nat}
    (h : (b, when_) ∉ log) : Before log a b when_ := by
  rintro after earlier rfl
  simp at h

theorem Before.cons {log : List (Nat × Nat)} {a b when_ : Nat} (h : Before log a b when_)
    {p : Nat × Nat} (hp : p = (b, when_) → (a, when_) ∈ log) : Before (p :: log) a b when_ := by
  intro after earlier heq
  cases after with
  | nil =>
      obtain ⟨rfl, rfl⟩ := List.cons.inj heq
      exact hp rfl
  | cons p' after =>
      obtain ⟨rfl, rfl⟩ := List.cons.inj heq
      exact h after earlier rfl

namespace Agenda

variable {a : Agenda} {e : Nat}

private theorem call_processed (c : Call) : (a.call c).processed = a.processed := by
  cases c <;> rfl

private theorem calls_processed (process : List Call) :
    (process.foldl call a).processed = a.processed := by
  induction process generalizing a with
  | nil => rfl
  | cons c process ih =>
      rw [List.foldl_cons, ih]
      exact call_processed c

private theorem call_curTick (c : Call) : (a.call c).curTick = a.curTick := by
  cases c <;> rfl

private theorem calls_curTick (process : List Call) :
    (process.foldl call a).curTick = a.curTick := by
  induction process generalizing a with
  | nil => rfl
  | cons c process ih =>
      rw [List.foldl_cons, ih]
      exact call_curTick c

private theorem setWhen_due_of_ne {event : Nat} (h : e ≠ event) (when_ : Nat) :
    (a.setWhen event when_).due e = a.due e := Function.update_of_ne h _ _

private theorem setWhen_priority (event when_ : Nat) :
    (ofLex ((a.setWhen event when_).due e)).2 = (ofLex (a.due e)).2 := by
  by_cases h : e = event
  · subst h
    simp [setWhen]
  · rw [setWhen_due_of_ne h]

/-- An event that was constructed keeps its priority. -/
structure Known (a : Agenda) (e : Nat) (priority : Int) : Prop where
  lt : e < a.count
  priority : (ofLex (a.due e)).2 = priority

theorem Known.call {priority : Int} (h : a.Known e priority) (c : Call) :
    (a.call c).Known e priority := by
  cases c with
  | construct priority' autoDelete isExitEvent =>
      refine ⟨h.lt.trans (Nat.lt_succ_self _), ?_⟩
      simp only [Agenda.call, Function.update_of_ne h.lt.ne]
      exact h.priority
  | schedule event when_ => exact ⟨h.lt, (setWhen_priority event when_).trans h.priority⟩
  | deschedule event => exact ⟨h.lt, h.priority⟩
  | reschedule event when_ always =>
      exact ⟨h.lt, (setWhen_priority event when_).trans h.priority⟩

theorem Known.calls {priority : Int} (h : a.Known e priority) (process : List Call) :
    (process.foldl Agenda.call a).Known e priority := by
  induction process generalizing a with
  | nil => exact h
  | cons c process ih => exact ih (h.call c)

theorem Known.exec {priority : Int} (h : a.Known e priority) (act : Action) :
    (a.exec act).Known e priority := by
  cases act with
  | call c => exact h.call c
  | serviceOne process =>
      rw [Agenda.exec, Agenda.serviceOne]
      cases a.next with
      | none => exact h
      | some event =>
          apply Known.calls
          exact ⟨h.lt, h.priority⟩

/-- An event waits with its key. -/
structure Waits (a : Agenda) (e : Nat) (key : Key) : Prop where
  lt : e < a.count
  mem : e ∈ a.order
  due : a.due e = key

theorem Waits.take {key : Key} (h : a.Waits e key) {event : Nat} (hne : e ≠ event) :
    (a.take event).Waits e key := ⟨h.lt, (List.mem_erase_of_ne hne).mpr h.mem, h.due⟩

theorem Waits.put {key : Key} (h : a.Waits e key) {event : Nat} (hne : e ≠ event) (when_ : Nat) :
    ((a.setWhen event when_).put event).Waits e key :=
  ⟨h.lt, List.mem_cons_of_mem _ h.mem, (setWhen_due_of_ne hne when_).trans h.due⟩

theorem Waits.call {key : Key} (h : a.Waits e key) {c : Call} (hc : c.event ≠ some e) :
    (a.call c).Waits e key := by
  cases c with
  | construct priority autoDelete isExitEvent =>
      refine ⟨h.lt.trans (Nat.lt_succ_self _), h.mem, ?_⟩
      simp only [Agenda.call, Function.update_of_ne h.lt.ne]
      exact h.due
  | schedule event when_ => exact h.put (fun he => hc (congrArg some he.symm)) when_
  | deschedule event => exact h.take fun he => hc (congrArg some he.symm)
  | reschedule event when_ always =>
      have hne : e ≠ event := fun he => hc (congrArg some he.symm)
      exact (h.take hne).put hne when_

theorem Waits.calls {key : Key} (h : a.Waits e key) {process : List Call}
    (hp : ∀ c ∈ process, c.event ≠ some e) : (process.foldl Agenda.call a).Waits e key := by
  induction process generalizing a with
  | nil => exact h
  | cons c process ih =>
      exact ih (h.call (hp c List.mem_cons_self)) fun c' hc' => hp c' (List.mem_cons_of_mem c hc')

theorem Waits.serviceOne {key : Key} (h : a.Waits e key) {event : Nat} {process : List Call}
    (hnext : a.next = some event) (hne : e ≠ event) (hp : ∀ c ∈ process, c.event ≠ some e) :
    (a.serviceOne process).Waits e key := by
  rw [Agenda.serviceOne, hnext]
  apply Waits.calls _ hp
  have htake := h.take hne
  exact ⟨htake.lt, htake.mem, htake.due⟩

private theorem serviceOne_processed {event : Nat} (hnext : a.next = some event)
    (process : List Call) :
    (a.serviceOne process).processed = (event, a.tick event) :: a.processed := by
  rw [Agenda.serviceOne, hnext]
  exact calls_processed process

private theorem serviceOne_curTick {event : Nat} (hnext : a.next = some event)
    (process : List Call) : (a.serviceOne process).curTick = a.tick event := by
  rw [Agenda.serviceOne, hnext]
  exact calls_curTick process

end Agenda

private theorem serviceOne_next {a : Agenda} {q q' : EventQueue} {process : List Call}
    (h : Represents a q) (hq : q.serviceOne process = .ok q') :
    ∃ event, a.next = some event := by
  cases hhead : q.head with
  | none =>
      rw [EventQueue.serviceOne, hhead] at hq
      cases hq
  | some event => exact ⟨event, h.next hhead⟩

/-- What a waiting event and one of a greater priority number have seen so far. -/
structure Ordered (a : Agenda) (log : List (Nat × Nat)) (x b : Nat) (key : Key) : Prop where
  before : Before log x b (ofLex key).1
  served : (x, (ofLex key).1) ∈ log ∨ a.Waits x key ∧ (b, (ofLex key).1) ∉ log

theorem Ordered.call {a : Agenda} {log : List (Nat × Nat)} {x b : Nat} {key : Key}
    (h : Ordered a log x b key) {c : Call} (hc : c.event ≠ some x) :
    Ordered (a.call c) log x b key := by
  refine ⟨h.before, ?_⟩
  rcases h.served with hx | ⟨hwaits, hb⟩
  · exact Or.inl hx
  · exact Or.inr ⟨hwaits.call hc, hb⟩

theorem Ordered.serviceOne {a : Agenda} {log : List (Nat × Nat)} {x b event : Nat} {key : Key}
    {priority : Int} (h : Ordered a log x b key) (hb : a.Known b priority)
    (hlt : (ofLex key).2 < priority) (hnext : a.next = some event) {process : List Call}
    (hp : ∀ c ∈ process, c.event ≠ some x) :
    Ordered (a.serviceOne process) ((event, a.tick event) :: log) x b key := by
  rcases h.served with hx | ⟨hwaits, hblog⟩
  · exact ⟨h.before.cons fun _ => hx, Or.inl (List.mem_cons_of_mem _ hx)⟩
  · by_cases he : x = event
    · subst he
      have htick : a.tick x = (ofLex key).1 := by rw [Agenda.tick, hwaits.due]
      refine ⟨h.before.cons ?_, Or.inl ?_⟩
      · intro heq
        obtain ⟨rfl, -⟩ := Prod.mk.inj heq
        have hprio := hb.priority
        rw [hwaits.due] at hprio
        exact absurd hprio hlt.ne
      · rw [htick]
        exact List.mem_cons_self
    · have hne : (event, a.tick event) ≠ (b, (ofLex key).1) := by
        intro heq
        obtain ⟨rfl, htick⟩ := Prod.mk.inj heq
        have hle := (Agenda.next_spec hnext).2 x hwaits.mem
        rw [hwaits.due, Prod.Lex.le_iff] at hle
        have hprio := hb.priority
        rcases hle with hle | hle
        · exact hle.ne htick
        · exact (hlt.trans_eq hprio.symm).not_ge hle.2
      refine ⟨h.before.cons fun heq => absurd heq hne, Or.inr ⟨hwaits.serviceOne hnext he hp, ?_⟩⟩
      simp only [List.mem_cons, not_or]
      exact ⟨hne.symm, hblog⟩

private theorem Represents.ordered {a : Agenda} {q q' : EventQueue} (h : Represents a q) {x b : Nat}
    {key : Key} {priority : Int} (hx : a.Waits x key) (hb : a.Known b priority)
    (hlt : (ofLex key).2 < priority) {acts : List Action} (hun : Untouched x acts)
    (hrun : Run Step q acts q') :
    ∃ log, q'.processed = log ++ q.processed ∧ Before log x b (ofLex key).1 := by
  let I (acts : List Action) (q' : EventQueue) : Prop := Untouched x acts →
    ∃ a', Represents a' q' ∧ a'.Known b priority ∧
      ∃ log, a'.processed = log ++ a.processed ∧ Ordered a' log x b key
  have hI : I acts q' := by
    apply Run.inv I _ _ hrun
    · intro _
      have hnone : (b, (ofLex key).1) ∉ ([] : List (Nat × Nat)) := List.not_mem_nil
      exact ⟨a, h, hb, [], rfl, Before.of_not_mem hnone, Or.inr ⟨hx, hnone⟩⟩
    · intro acts t act u ih hstep hun
      obtain ⟨a', ht, hb', log, hlog, hord⟩ :=
        ih fun act' hact' => hun act' (List.mem_append_left _ hact')
      have hact : ∀ c ∈ act.calls, c.event ≠ some x :=
        hun act (List.mem_append_right _ List.mem_cons_self)
      refine ⟨a'.exec act, ht.step act hstep, hb'.exec act, ?_⟩
      cases act with
      | call c =>
          refine ⟨log, (Agenda.call_processed c).trans hlog, ?_⟩
          exact hord.call (hact c List.mem_cons_self)
      | serviceOne process =>
          obtain ⟨event, hnext⟩ := serviceOne_next ht hstep
          refine ⟨(event, a'.tick event) :: log, ?_, hord.serviceOne hb' hlt hnext hact⟩
          exact (Agenda.serviceOne_processed hnext process).trans (congrArg _ hlog)
  obtain ⟨a', ht, -, log, hlog, hord⟩ := hI hun
  exact ⟨log, by rw [ht.log, h.log, hlog], hord.before⟩

theorem Represents.bins {a : Agenda} {q : EventQueue} (h : Represents a q) :
    ∃ bins, Chain q.mem q.head bins ∧ SortedBins bins ∧ (items bins).Nodup ∧
      (∀ e, e ∈ items bins ↔ (q.mem e).scheduled = true) ∧
      ∀ b ∈ bins, b.2 ≠ [] ∧ b.2 = a.order.filter fun e => (q.mem e).key = b.1 := by
  obtain ⟨bins, hbins, hchain⟩ := h.linked
  refine ⟨bins, hchain, hbins.sorted, hbins.nodup h.nodup, ?_, hbins.bin⟩
  intro e
  rw [h.scheduled]
  exact hbins.mem_iff

private theorem Represents.not_panic {a : Agenda} {q : EventQueue} (h : Represents a q)
    (act : Action) : act.exec q ≠ .error .panic := by
  intro hact
  have hfollows := h.exec act
  rw [hact] at hfollows
  cases hfollows

private theorem Represents.served {a : Agenda} {q q' : EventQueue} (h : Represents a q)
    {process : List Call} (hq : q.serviceOne process = .ok q') :
    ∃ event, a.next = some event ∧ (q.mem event).scheduled = true ∧
      (∀ e, (q.mem e).scheduled = true → (q.mem event).key ≤ (q.mem e).key) ∧
      q'.processed = (event, (q.mem event).when_) :: q.processed := by
  obtain ⟨event, hnext⟩ := serviceOne_next h hq
  obtain ⟨hmem, hleast⟩ := Agenda.next_spec hnext
  have hq' : Represents (a.serviceOne process) q' := h.step (.serviceOne process) hq
  refine ⟨event, hnext, (h.scheduled event).mpr hmem, ?_, ?_⟩
  · intro e he
    rw [h.due, h.due]
    exact hleast e ((h.scheduled e).mp he)
  · rw [hq'.log, Agenda.serviceOne_processed hnext, h.log, h.when_eq]

private theorem Represents.curTick_le {a : Agenda} {q q' : EventQueue} (h : Represents a q)
    {acts : List Action} (hrun : Run Step q acts q') : q.curTick ≤ q'.curTick := by
  have hI : Represents (acts.foldl Agenda.exec a) q' ∧ q.curTick ≤ q'.curTick := by
    apply Run.inv (fun acts q' => Represents (acts.foldl Agenda.exec a) q' ∧
      q.curTick ≤ q'.curTick) ⟨h, le_rfl⟩ _ hrun
    intro acts t act u ht hstep
    have hu := ht.1.step _ hstep
    rw [List.foldl_append]
    refine ⟨hu, ht.2.trans ?_⟩
    rw [hu.tick, ht.1.tick]
    cases act with
    | call c => exact (Agenda.call_curTick c).ge
    | serviceOne process =>
        obtain ⟨event, hnext⟩ := serviceOne_next ht.1 hstep
        have hlater := ht.1.later event (Agenda.next_spec hnext).1
        rw [ht.1.tick, ht.1.when_eq] at hlater
        exact hlater.trans_eq (Agenda.serviceOne_curTick hnext process).symm
  exact hI.2

/-- Two ticks of the CPU on one bin, whose top is taken out again, and a tick that schedules the
other one anew and puts an interrupt off. -/
def busyTick : List Action :=
  [.call (.construct Energy_Pri false false), .call (.construct CPU_Tick_Pri false false),
    .call (.construct CPU_Tick_Pri false false), .call (.construct Virtual_Interrupt false false),
    .call (.schedule 0 5), .call (.schedule 1 5), .call (.schedule 2 5), .call (.schedule 3 5),
    .call (.deschedule 2), .serviceOne [.schedule 2 5, .reschedule 3 7 false]]

end ModernArch.Sim
