import Mathlib.Data.Int.Order.Basic
import Mathlib.Data.Prod.Lex
import Mathlib.Logic.Function.Basic

/-!
# The event queue

Events lie in a memory and are linked into a list of stacks: `nextBin` leads from the top of a
stack to the top of the next, `nextInBin` goes down one stack. An event is named by the number
its constructor gives it.
-/

namespace ModernArch.Sim

abbrev Key := Nat ×ₗ Int

structure Event where
  nextBin : Option Nat := none
  nextInBin : Option Nat := none
  when_ : Nat := 0
  priority : Int := 0
  scheduled : Bool := false
  squashed : Bool := false
  autoDelete : Bool := false
  isExitEvent : Bool := false
  initialized : Bool := false
deriving DecidableEq

namespace Event

/-- Ticks first and priorities second, as the comparison operators have it. -/
def key (e : Event) : Key := toLex (e.when_, e.priority)

/-- `Event(Priority p, Flags f)`. -/
def new (priority : Int) (autoDelete isExitEvent : Bool) : Event :=
  { priority := priority, autoDelete := autoDelete, isExitEvent := isExitEvent,
    initialized := true }

end Event

def CPU_Tick_Pri : Int := 50
def Virtual_Interrupt : Int := 55
def Energy_Pri : Int := 60

abbrev Memory := Nat → Event

namespace Memory

/-- One event changes. -/
def set (mem : Memory) (event : Nat) (f : Event → Event) : Memory :=
  Function.update mem event (f (mem event))

def setNextBin (mem : Memory) (event : Nat) (p : Option Nat) : Memory :=
  mem.set event fun e => { e with nextBin := p }

def setNextInBin (mem : Memory) (event : Nat) (p : Option Nat) : Memory :=
  mem.set event fun e => { e with nextInBin := p }

def setWhen (mem : Memory) (event : Nat) (when_ : Nat) : Memory :=
  mem.set event fun e => { e with when_ := when_ }

def setScheduled (mem : Memory) (event : Nat) (b : Bool) : Memory :=
  mem.set event fun e => { e with scheduled := b }

def clearSquashed (mem : Memory) (event : Nat) : Memory :=
  mem.set event fun e => { e with squashed := false }

/-- `Event::insertBefore`, which returns its event. -/
def insertBefore (mem : Memory) (event : Nat) (curr : Option Nat) : Memory :=
  match curr with
  | none => mem.set event fun e => { e with nextBin := none, nextInBin := none }
  | some c =>
    if (mem event).key < (mem c).key then
      mem.set event fun e => { e with nextBin := some c, nextInBin := none }
    else
      mem.set event fun e => { e with nextBin := (mem c).nextBin, nextInBin := some c }

/-- `while (curr && *curr < *event) { prev = curr; curr = curr->nextBin; }`. -/
def findBin (mem : Memory) (event : Nat) : Nat → Nat → Option Nat → Option (Nat × Option Nat)
  | 0, _, _ => none
  | _ + 1, prev, none => some (prev, none)
  | fuel + 1, prev, some c =>
    if (mem c).key < (mem event).key then findBin mem event fuel c (mem c).nextBin
    else some (prev, some c)

/-- `while (event != next)`: the element of the stack above `event`. -/
def findInBin (mem : Memory) (event : Nat) : Nat → Nat → Option Nat → Option Nat
  | 0, _, _ => none
  | _ + 1, _, none => none
  | fuel + 1, curr, some n =>
    if event = n then some curr else findInBin mem event fuel n (mem n).nextInBin

/-- `EventQueue::insert`: the memory and the head after it. -/
def insert (mem : Memory) (fuel : Nat) (head : Option Nat) (event : Nat) :
    Option (Memory × Option Nat) :=
  match head with
  | none => some (mem.insertBefore event none, some event)
  | some h =>
    if (mem event).key ≤ (mem h).key then
      some (mem.insertBefore event (some h), some event)
    else do
      let (prev, curr) ← mem.findBin event fuel h (mem h).nextBin
      return ((mem.insertBefore event curr).setNextBin prev (some event), some h)

/-- `Event::removeItem`: the memory and the new top. -/
def removeItem (mem : Memory) (fuel : Nat) (event top : Nat) : Option (Memory × Option Nat) :=
  let next := (mem top).nextInBin
  if event = top then
    match next with
    | none => some (mem, (mem top).nextBin)
    | some n => some (mem.setNextBin n (mem top).nextBin, some n)
  else do
    let curr ← mem.findInBin event fuel top next
    return (mem.setNextInBin curr (mem event).nextInBin, some top)

/-- `EventQueue::remove`, which panics when the event is not found. -/
def remove (mem : Memory) (fuel : Nat) (head : Option Nat) (event : Nat) :
    Option (Memory × Option Nat) :=
  match head with
  | none => none
  | some h =>
    if (mem h).key = (mem event).key then mem.removeItem fuel event h
    else do
      let (prev, curr) ← mem.findBin event fuel h (mem h).nextBin
      match curr with
      | none => none
      | some c =>
        if (mem c).key ≠ (mem event).key then none
        else do
          let (mem, top) ← mem.removeItem fuel event c
          return (mem.setNextBin prev top, some h)

end Memory

/-- The queue, the memory of its events, and the calls of `process` with their ticks, latest
first. No list of events is longer than `instanceCounter`, which bounds the loops. -/
structure EventQueue where
  head : Option Nat := none
  curTick : Nat := 0
  mem : Memory := fun _ => {}
  instanceCounter : Nat := 0
  processed : List (Nat × Nat) := []

/-- Calls that break an assertion, and a queue that panics or does not return. -/
inductive Failure where
  | assertion | panic
deriving DecidableEq

def assert (p : Prop) [Decidable p] : Except Failure Unit :=
  if p then .ok () else .error .assertion

/-- What a loop or a panic leaves. -/
def orPanic {α : Type} : Option α → Except Failure α
  | some a => .ok a
  | none => .error .panic

namespace EventQueue

/-- A new event takes the next number. -/
def construct (q : EventQueue) (priority : Int) (autoDelete isExitEvent : Bool) : EventQueue :=
  { q with
    mem := q.mem.set q.instanceCounter fun _ => Event.new priority autoDelete isExitEvent
    instanceCounter := q.instanceCounter + 1 }

/-- `delete event`; its destructor clears the flags. -/
def delete (q : EventQueue) (event : Nat) : EventQueue :=
  { q with
    mem := q.mem.set event fun e =>
      { e with
        scheduled := false
        squashed := false
        autoDelete := false
        isExitEvent := false
        initialized := false } }

/-- `EventQueue::schedule` for a synchronous event. -/
def schedule (q : EventQueue) (event when_ : Nat) : Except Failure EventQueue := do
  assert (q.curTick ≤ when_)
  assert ((q.mem event).scheduled = false)
  assert ((q.mem event).initialized = true)
  let (mem, head) ← orPanic ((q.mem.setWhen event when_).insert q.instanceCounter q.head event)
  return { q with mem := mem.setScheduled event true, head := head }

def deschedule (q : EventQueue) (event : Nat) : Except Failure EventQueue := do
  assert ((q.mem event).scheduled = true)
  assert ((q.mem event).initialized = true)
  let (mem, head) ← orPanic (q.mem.remove q.instanceCounter q.head event)
  let q := { q with mem := (mem.clearSquashed event).setScheduled event false, head := head }
  return if (q.mem event).autoDelete then q.delete event else q

def reschedule (q : EventQueue) (event when_ : Nat) (always : Bool) :
    Except Failure EventQueue := do
  assert (q.curTick ≤ when_)
  assert (always = true ∨ (q.mem event).scheduled = true)
  assert ((q.mem event).initialized = true)
  let (mem, head) ← if (q.mem event).scheduled then
    orPanic (q.mem.remove q.instanceCounter q.head event) else .ok (q.mem, q.head)
  let (mem, head) ← orPanic ((mem.setWhen event when_).insert q.instanceCounter head event)
  return { q with mem := (mem.clearSquashed event).setScheduled event true, head := head }

inductive Call where
  | construct (priority : Int) (autoDelete isExitEvent : Bool)
  | schedule (event when_ : Nat)
  | deschedule (event : Nat)
  | reschedule (event when_ : Nat) (always : Bool)

def call (q : EventQueue) : Call → Except Failure EventQueue
  | .construct priority autoDelete isExitEvent => .ok (q.construct priority autoDelete isExitEvent)
  | .schedule event when_ => q.schedule event when_
  | .deschedule event => q.deschedule event
  | .reschedule event when_ always => q.reschedule event when_ always

/-- The head is popped, and a stale pointer of the event below it refreshed. -/
def pop (q : EventQueue) (event : Nat) : EventQueue :=
  let mem := q.mem.setScheduled event false
  match (mem event).nextInBin with
  | some n => { q with mem := mem.setNextBin n (mem event).nextBin, head := some n }
  | none => { q with mem := mem, head := (mem event).nextBin }

/-- `EventQueue::serviceOne`, when the process method of the event makes some calls. -/
def serviceOne (q : EventQueue) (process : List Call) : Except Failure EventQueue := do
  match q.head with
  | none => .error .assertion
  | some event =>
    let q := q.pop event
    let e := q.mem event
    if e.squashed then
      let q := { q with mem := q.mem.clearSquashed event }
      return if e.autoDelete then q.delete event else q
    else
      let q := { q with curTick := e.when_, processed := (event, e.when_) :: q.processed }
      let q ← process.foldlM call q
      return if e.isExitEvent then q
        else if (q.mem event).autoDelete ∧ (q.mem event).scheduled = false then q.delete event
        else q

end EventQueue

end ModernArch.Sim
