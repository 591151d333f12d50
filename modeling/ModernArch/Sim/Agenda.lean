import Mathlib.Data.List.Perm.Subperm
import ModernArch.Sim.EventList

/-!
# The queue as an agenda

The list of stacks is a queue by key: events leave it in the order of their keys, and the latest
insertion first among equal keys.
-/

namespace ModernArch.Sim
open Framework EventQueue

variable {mem mem' : Memory} {event : Nat}

/-- The events of `order`, the latest insertion first, and when they are due. -/
structure Agenda where
  curTick : Nat := 0
  order : List Nat := []
  due : Nat → Key := fun _ => toLex (0, 0)
  count : Nat := 0
  processed : List (Nat × Nat) := []

namespace Agenda

def setWhen (a : Agenda) (event when_ : Nat) : Agenda :=
  { a with due := Function.update a.due event (toLex (when_, (ofLex (a.due event)).2)) }

def put (a : Agenda) (event : Nat) : Agenda := { a with order := event :: a.order }

def take (a : Agenda) (event : Nat) : Agenda := { a with order := a.order.erase event }

def call (a : Agenda) : Call → Agenda
  | .construct priority _ _ =>
    { a with
      due := Function.update a.due a.count (toLex (0, priority))
      count := a.count + 1 }
  | .schedule event when_ => (a.setWhen event when_).put event
  | .deschedule event => a.take event
  | .reschedule event when_ _ => ((a.take event).setWhen event when_).put event

/-- The latest of the events of least key. -/
def next (a : Agenda) : Option Nat :=
  a.order.find? fun e => ∀ x ∈ a.order, a.due e ≤ a.due x

def tick (a : Agenda) (event : Nat) : Nat := (ofLex (a.due event)).1

def serviceOne (a : Agenda) (process : List Call) : Agenda :=
  match a.next with
  | none => a
  | some event =>
    process.foldl call { a.take event with
      curTick := a.tick event
      processed := (event, a.tick event) :: a.processed }

end Agenda

/-- The links of the memory hold `order` as a queue by key. -/
def Linked (mem : Memory) (head : Option Nat) (order : List Nat) : Prop :=
  ∃ bins, Binned (fun e => (mem e).key) order bins ∧ Chain mem head bins

private theorem length_le_items {bins : List (Key × List Nat)} (h : ∀ b ∈ bins, b.2 ≠ []) :
    bins.length ≤ (items bins).length := by
  induction bins with
  | nil => simp
  | cons b bs ih =>
      have hb : 0 < b.2.length := List.length_pos_of_ne_nil (h b List.mem_cons_self)
      have hbs := ih fun c hc => h c (List.mem_cons_of_mem b hc)
      simp only [items, List.flatMap_cons, List.length_append, List.length_cons] at hbs ⊢
      omega

namespace Linked

variable {head : Option Nat} {order : List Nat}

theorem empty (mem : Memory) : Linked mem none [] := ⟨[], Binned.nil _, .nil⟩

theorem congr (h : Linked mem head order)
    (hl : ∀ x ∈ order, (mem' x).nextBin = (mem x).nextBin ∧
      (mem' x).nextInBin = (mem x).nextInBin ∧ (mem' x).key = (mem x).key) :
    Linked mem' head order := by
  obtain ⟨bins, hbins, hchain⟩ := h
  exact ⟨bins, hbins.congr fun x hx => (hl x hx).2.2,
    hchain.congr fun x hx => hl x (hbins.mem_iff.mp hx)⟩

private theorem congr_set (h : Linked mem head order) (f : Event → Event) (hnew : event ∉ order) :
    Linked (mem.set event f) head order := by
  apply h.congr
  intro x hx
  have hne : x ≠ event := fun he => hnew (he ▸ hx)
  rw [Memory.set_of_ne f hne]
  exact ⟨rfl, rfl, rfl⟩

theorem congr_flags (h : Linked mem head order) (f : Event → Event)
    (hf : ∀ e, (f e).nextBin = e.nextBin ∧ (f e).nextInBin = e.nextInBin ∧ (f e).key = e.key) :
    Linked (mem.set event f) head order := by
  apply h.congr
  intro x _
  by_cases hx : x = event
  · subst hx
    rw [Memory.set_self]
    exact hf _
  · rw [Memory.set_of_ne f hx]
    exact ⟨rfl, rfl, rfl⟩

private theorem items_le {bins : List (Key × List Nat)}
    (hb : Binned (fun e => (mem e).key) order bins)
    (hn : order.Nodup) {fuel : Nat} (hlt : ∀ e ∈ order, e < fuel) :
    (items bins).length ≤ fuel := by
  have hsub : items bins ⊆ List.range fuel := by
    intro x hx
    exact List.mem_range.mpr (hlt x (hb.mem_iff.mp hx))
  have hle := (List.subperm_of_subset (hb.nodup hn) hsub).length_le
  rwa [List.length_range] at hle

theorem insert (h : Linked mem head order) (hn : order.Nodup) (hnew : event ∉ order) {fuel : Nat}
    (hlt : ∀ e ∈ order, e < fuel) :
    ∃ mem' head', mem.insert fuel head event = some (mem', head') ∧
      Linked mem' head' (event :: order) ∧ ∀ x, (mem' x).data = (mem x).data := by
  obtain ⟨bins, hbins, hchain⟩ := h
  have hnd : (event :: items bins).Nodup :=
    List.nodup_cons.mpr ⟨fun he => hnew (hbins.mem_iff.mp he), hbins.nodup hn⟩
  have hfuel := (length_le_items fun b hb => (hbins.bin b hb).1).trans (items_le hbins hn hlt)
  obtain ⟨mem', head', hinsert, hchain', hdata⟩ := insert_spec hchain hnd hfuel
  refine ⟨mem', head', hinsert, ⟨_, ?_, hchain'⟩, hdata⟩
  exact (hbins.push event).congr fun x _ => Event.key_of_data (hdata x)

theorem remove (h : Linked mem head order) (hn : order.Nodup) (he : event ∈ order) {fuel : Nat}
    (hlt : ∀ e ∈ order, e < fuel) :
    ∃ mem' head', mem.remove fuel head event = some (mem', head') ∧
      Linked mem' head' (order.erase event) ∧ ∀ x, (mem' x).data = (mem x).data := by
  obtain ⟨bins, hbins, hchain⟩ := h
  have hitems := items_le hbins hn hlt
  have hfuel := (length_le_items fun b hb => (hbins.bin b hb).1).trans hitems
  obtain ⟨mem', head', hremove, hchain', hdata⟩ :=
    remove_spec hchain hbins.sorted (hbins.nodup hn) (hbins.mem_iff.mpr he) hfuel hitems
  refine ⟨mem', head', hremove, ⟨_, ?_, hchain'⟩, hdata⟩
  exact (hbins.drop hn event).congr fun x _ => Event.key_of_data (hdata x)

/-- The head is the latest event of least key. -/
theorem head_eq (h : Linked mem (some event) order) :
    event ∈ order ∧ (∀ x ∈ order, (mem event).key ≤ (mem x).key) ∧
      order.find? (fun e => (mem e).key = (mem event).key) = some event := by
  obtain ⟨bins, hbins, hchain⟩ := h
  cases hchain with
  | cons _ _ _ => exact hbins.top

end Linked

structure Represents (a : Agenda) (q : EventQueue) : Prop where
  tick : q.curTick = a.curTick
  log : q.processed = a.processed
  count : q.instanceCounter = a.count
  due : ∀ e, (q.mem e).key = a.due e
  nodup : a.order.Nodup
  scheduled : ∀ e, (q.mem e).scheduled = true ↔ e ∈ a.order
  known : ∀ e, (q.mem e).initialized = true → e < q.instanceCounter
  ready : ∀ e ∈ a.order, (q.mem e).initialized = true
  later : ∀ e ∈ a.order, q.curTick ≤ (q.mem e).when_
  calm : ∀ e, (q.mem e).squashed = false
  linked : Linked q.mem q.head a.order

private theorem Event.scheduled_of_data {e e' : Event} (h : e.data = e'.data) :
    e.scheduled = e'.scheduled := by
  have hs : e.data.scheduled = e'.data.scheduled := congrArg Event.scheduled h
  exact hs

private theorem Event.squashed_of_data {e e' : Event} (h : e.data = e'.data) :
    e.squashed = e'.squashed := by
  have hs : e.data.squashed = e'.data.squashed := congrArg Event.squashed h
  exact hs

private theorem Event.initialized_of_data {e e' : Event} (h : e.data = e'.data) :
    e.initialized = e'.initialized := by
  have hi : e.data.initialized = e'.data.initialized := congrArg Event.initialized h
  exact hi

private theorem clearSquashed_eq (h : (mem event).squashed = false) :
    mem.clearSquashed event = mem := by
  have he : { mem event with squashed := false } = mem event := by
    rw [← h]
  rw [Memory.clearSquashed, Memory.set, he, Function.update_eq_self]

private theorem Agenda.take_of_not_mem {a : Agenda} (h : event ∉ a.order) : a.take event = a := by
  rw [Agenda.take, List.erase_of_not_mem h]

namespace Represents

variable {a : Agenda} {q : EventQueue}

theorem empty : Represents {} {} := by
  constructor <;> simp [Event.key, Linked.empty]

theorem not_scheduled (h : Represents a q) : (q.mem event).scheduled = false ↔ event ∉ a.order := by
  rw [← h.scheduled, Bool.not_eq_true]

theorem lt_count (h : Represents a q) (e : Nat) (he : e ∈ a.order) : e < q.instanceCounter :=
  h.known e (h.ready e he)

theorem construct (h : Represents a q) (priority : Int) (autoDelete isExitEvent : Bool) :
    Represents (a.call (.construct priority autoDelete isExitEvent))
      (q.construct priority autoDelete isExitEvent) := by
  have hnew : q.instanceCounter ∉ a.order := fun he => (h.lt_count _ he).false
  have hself : (q.construct priority autoDelete isExitEvent).mem q.instanceCounter =
      Event.new priority autoDelete isExitEvent := by
    simp only [EventQueue.construct, Memory.set_self]
  have hne (x : Nat) (hx : x ≠ q.instanceCounter) :
      (q.construct priority autoDelete isExitEvent).mem x = q.mem x := by
    simp only [EventQueue.construct, Memory.set_of_ne _ hx]
  constructor
  · exact h.tick
  · exact h.log
  · exact congrArg (· + 1) h.count
  · intro e
    by_cases he : e = q.instanceCounter
    · subst he
      rw [hself]
      simp [Agenda.call, h.count, Event.key, Event.new]
    · rw [hne e he]
      rw [h.count] at he
      simp [Agenda.call, he, h.due]
  · exact h.nodup
  · intro e
    by_cases he : e = q.instanceCounter
    · subst he
      rw [hself]
      simpa [Event.new, Agenda.call] using hnew
    · rw [hne e he]
      exact h.scheduled e
  · intro e he
    by_cases hx : e = q.instanceCounter
    · exact hx.trans_lt (Nat.lt_succ_self _)
    · rw [hne e hx] at he
      exact (h.known e he).trans (Nat.lt_succ_self _)
  · intro e he
    rw [hne e (h.lt_count e he).ne]
    exact h.ready e he
  · intro e he
    rw [hne e (h.lt_count e he).ne]
    exact h.later e he
  · intro e
    by_cases he : e = q.instanceCounter
    · subst he
      rw [hself]
      rfl
    · rw [hne e he]
      exact h.calm e
  · exact h.linked.congr_set _ hnew

/-- An event outside the queue is put in, with a new time. -/
theorem put (h : Represents a q) {mem₁ : Memory} {head₁ : Option Nat} {when_ : Nat}
    (hdata : ∀ x, (mem₁ x).data = (q.mem x).data) (hlinked : Linked mem₁ head₁ (a.order.erase event))
    (htick : q.curTick ≤ when_) (hinit : (q.mem event).initialized = true) :
    ∃ mem' head',
      (mem₁.setWhen event when_).insert q.instanceCounter head₁ event = some (mem', head') ∧
      (mem' event).squashed = false ∧
      Represents (((a.take event).setWhen event when_).put event)
        { q with mem := mem'.setScheduled event true, head := head' } := by
  have hnew : event ∉ a.order.erase event := fun he => (h.nodup.mem_erase_iff.mp he).1 rfl
  have hnd := h.nodup.erase event
  have hlt (e : Nat) (he : e ∈ a.order.erase event) : e < q.instanceCounter :=
    h.lt_count e (List.mem_of_mem_erase he)
  obtain ⟨mem', head', hinsert, hlinked', hdata'⟩ :=
    (hlinked.congr_set (fun e => { e with when_ := when_ }) hnew).insert hnd hnew hlt
  have hother (x : Nat) (hx : x ≠ event) : (mem'.setScheduled event true x).data =
      (q.mem x).data := by
    rw [Memory.setScheduled, Memory.set_of_ne _ hx, hdata', Memory.set_of_ne _ hx, hdata]
  have hold : (mem' event).data = { (q.mem event).data with when_ := when_ } := by
    rw [hdata', Memory.set_self, ← hdata]
    rfl
  have hself : (mem'.setScheduled event true event).data =
      { (q.mem event).data with when_ := when_, scheduled := true } := by
    have hset : (mem'.setScheduled event true event).data =
        { (mem' event).data with scheduled := true } := by
      rw [Memory.setScheduled, Memory.set_self]
      rfl
    rw [hset, hold]
  have hcalm : (mem' event).squashed = false := (congrArg Event.squashed hold).trans (h.calm event)
  refine ⟨mem', head', hinsert, hcalm, ?_⟩
  constructor
  · exact h.tick
  · exact h.log
  · exact h.count
  · intro e
    by_cases he : e = event
    · subst he
      have hkey := congrArg Event.key hself
      have hdue := congrArg (fun k => (ofLex k).2) (h.due e)
      simp only [Agenda.put, Agenda.setWhen, Agenda.take, Function.update_self]
      rw [← hdue]
      exact hkey
    · simp only [Agenda.put, Agenda.setWhen, Agenda.take, Function.update_of_ne he]
      rw [← h.due]
      exact Event.key_of_data (hother e he)
  · exact List.nodup_cons.mpr ⟨hnew, hnd⟩
  · intro e
    by_cases he : e = event
    · subst he
      have hs : (mem'.setScheduled e true e).scheduled = true := congrArg Event.scheduled hself
      simp [hs, Agenda.put]
    · have hs : (mem'.setScheduled event true e).scheduled = (q.mem e).scheduled :=
        Event.scheduled_of_data (hother e he)
      simp [hs, h.scheduled, Agenda.put, Agenda.setWhen, Agenda.take, he,
        List.mem_erase_of_ne he]
  · intro e hi
    by_cases he : e = event
    · subst he
      exact h.known e hinit
    · have hs : (mem'.setScheduled event true e).initialized = (q.mem e).initialized :=
        Event.initialized_of_data (hother e he)
      exact h.known e (hs.symm.trans hi)
  · intro e he
    rcases List.mem_cons.mp he with rfl | he
    · exact (congrArg Event.initialized hself).trans hinit
    · have hne : e ≠ event := fun hx => hnew (hx ▸ he)
      exact (congrArg Event.initialized (hother e hne)).trans (h.ready e (List.mem_of_mem_erase he))
  · intro e he
    rcases List.mem_cons.mp he with rfl | he
    · exact htick.trans_eq (congrArg Event.when_ hself).symm
    · have hne : e ≠ event := fun hx => hnew (hx ▸ he)
      exact (h.later e (List.mem_of_mem_erase he)).trans_eq
        (congrArg Event.when_ (hother e hne)).symm
  · intro e
    by_cases he : e = event
    · subst he
      exact (congrArg Event.squashed hself).trans (h.calm e)
    · exact (congrArg Event.squashed (hother e he)).trans (h.calm e)
  · exact hlinked'.congr_flags _ fun _ => ⟨rfl, rfl, rfl⟩

/-- An event is taken out, and only its flags change otherwise. -/
theorem take (h : Represents a q) {mem' : Memory} {head' : Option Nat}
    (hother : ∀ x, x ≠ event → (mem' x).data = (q.mem x).data)
    (hkey : (mem' event).key = (q.mem event).key) (hoff : (mem' event).scheduled = false)
    (hcalm : (mem' event).squashed = false)
    (hinit : (mem' event).initialized = true → event < q.instanceCounter)
    (hlinked : Linked mem' head' (a.order.erase event)) :
    Represents (a.take event) { q with mem := mem', head := head' } := by
  have hnew : event ∉ a.order.erase event := fun he => (h.nodup.mem_erase_iff.mp he).1 rfl
  have hne (e : Nat) (he : e ∈ a.order.erase event) : e ≠ event := fun hx => hnew (hx ▸ he)
  constructor
  · exact h.tick
  · exact h.log
  · exact h.count
  · intro e
    by_cases he : e = event
    · subst he
      exact hkey.trans (h.due e)
    · exact (Event.key_of_data (hother e he)).trans (h.due e)
  · exact h.nodup.erase event
  · intro e
    by_cases he : e = event
    · subst he
      simpa [hoff, Agenda.take] using hnew
    · have hs : (mem' e).scheduled = (q.mem e).scheduled := Event.scheduled_of_data (hother e he)
      simp [hs, h.scheduled, Agenda.take, List.mem_erase_of_ne he]
  · intro e hi
    by_cases he : e = event
    · subst he
      exact hinit hi
    · exact h.known e ((congrArg Event.initialized (hother e he)).symm.trans hi)
  · intro e he
    exact (congrArg Event.initialized (hother e (hne e he))).trans
      (h.ready e (List.mem_of_mem_erase he))
  · intro e he
    exact (h.later e (List.mem_of_mem_erase he)).trans_eq
      (congrArg Event.when_ (hother e (hne e he))).symm
  · intro e
    by_cases he : e = event
    · subst he
      exact hcalm
    · exact (congrArg Event.squashed (hother e he)).trans (h.calm e)
  · exact hlinked

theorem delete (h : Represents a q) (hnew : event ∉ a.order) : Represents a (q.delete event) := by
  have herase : a.order.erase event = a.order := List.erase_of_not_mem hnew
  rw [← Agenda.take_of_not_mem hnew]
  apply h.take
  · intro x hx
    rw [Memory.set_of_ne _ hx]
  · rw [Memory.set_self]
    rfl
  · rw [Memory.set_self]
  · rw [Memory.set_self]
  · rw [Memory.set_self]
    simp
  · rw [herase]
    exact h.linked.congr_set _ hnew

/-- Time moves to an event that nothing in the queue precedes. -/
theorem advance (h : Represents a q) (event : Nat) {tick : Nat}
    (hlater : ∀ e ∈ a.order, tick ≤ (q.mem e).when_) :
    Represents { a with curTick := tick, processed := (event, tick) :: a.processed }
      { q with curTick := tick, processed := (event, tick) :: q.processed } := by
  constructor
  · rfl
  · rw [h.log]
  · exact h.count
  · exact h.due
  · exact h.nodup
  · exact h.scheduled
  · exact h.known
  · exact h.ready
  · exact hlater
  · exact h.calm
  · exact h.linked

end Represents

/-- A result that the agenda `a` represents, unless an assertion failed. -/
def Follows (a : Agenda) (r : Except Failure EventQueue) : Prop :=
  match r with
  | .ok q => Represents a q
  | .error f => f = .assertion

namespace Follows

variable {a : Agenda} {q : EventQueue}

private theorem of_assert {p : Prop} [Decidable p] {f : Unit → Except Failure EventQueue}
    (h : p → Follows a (f ())) : Follows a (assert p >>= f) := by
  by_cases hp : p
  · simpa [assert, hp, bind, Except.bind] using h hp
  · simp [assert, hp, bind, Except.bind, Follows]

theorem schedule (h : Represents a q) (event when_ : Nat) :
    Follows (a.call (.schedule event when_)) (q.schedule event when_) := by
  apply of_assert
  intro htick
  apply of_assert
  intro hoff
  apply of_assert
  intro hinit
  have hnew : event ∉ a.order := h.not_scheduled.mp hoff
  have hlinked : Linked q.mem q.head (a.order.erase event) := by
    rw [List.erase_of_not_mem hnew]
    exact h.linked
  obtain ⟨mem', head', hinsert, -, hput⟩ := h.put (fun _ => rfl) hlinked htick hinit
  rw [Agenda.take_of_not_mem hnew] at hput
  rw [hinsert]
  exact hput

theorem deschedule (h : Represents a q) (event : Nat) :
    Follows (a.call (.deschedule event)) (q.deschedule event) := by
  apply of_assert
  intro hon
  apply of_assert
  intro hinit
  have hmem : event ∈ a.order := (h.scheduled event).mp hon
  obtain ⟨mem', head', hremove, hlinked, hdata⟩ := h.linked.remove h.nodup hmem h.lt_count
  have hcalm : (mem' event).squashed = false :=
    (Event.squashed_of_data (hdata event)).trans (h.calm event)
  have htake : Represents (a.take event)
      { q with mem := mem'.setScheduled event false, head := head' } := by
    apply h.take
    · intro x hx
      rw [Memory.setScheduled, Memory.set_of_ne _ hx, hdata]
    · have hkey := Event.key_of_data (hdata event)
      rw [Memory.setScheduled, Memory.set_self]
      exact hkey
    · rw [Memory.setScheduled, Memory.set_self]
    · rw [Memory.setScheduled, Memory.set_self]
      exact hcalm
    · intro _
      exact h.known event hinit
    · exact hlinked.congr_flags _ fun _ => ⟨rfl, rfl, rfl⟩
  rw [hremove]
  dsimp only [orPanic, bind, Except.bind]
  rw [clearSquashed_eq hcalm]
  split_ifs
  · apply htake.delete
    exact fun he => (h.nodup.mem_erase_iff.mp he).1 rfl
  · exact htake

theorem reschedule (h : Represents a q) (event when_ : Nat) (always : Bool) :
    Follows (a.call (.reschedule event when_ always)) (q.reschedule event when_ always) := by
  apply of_assert
  intro htick
  apply of_assert
  intro _
  apply of_assert
  intro hinit
  by_cases hon : (q.mem event).scheduled = true
  · have hmem : event ∈ a.order := (h.scheduled event).mp hon
    obtain ⟨mem₁, head₁, hremove, hlinked, hdata⟩ := h.linked.remove h.nodup hmem h.lt_count
    obtain ⟨mem', head', hinsert, hcalm, hput⟩ := h.put hdata hlinked htick hinit
    rw [if_pos hon, hremove]
    dsimp only [orPanic, bind, Except.bind]
    rw [hinsert]
    dsimp only
    rw [clearSquashed_eq hcalm]
    exact hput
  · have hnew : event ∉ a.order := fun he => hon ((h.scheduled event).mpr he)
    have hlinked : Linked q.mem q.head (a.order.erase event) := by
      rw [List.erase_of_not_mem hnew]
      exact h.linked
    obtain ⟨mem', head', hinsert, hcalm, hput⟩ := h.put (fun _ => rfl) hlinked htick hinit
    rw [if_neg hon]
    dsimp only [orPanic, bind, Except.bind]
    rw [hinsert]
    dsimp only
    rw [clearSquashed_eq hcalm]
    exact hput

theorem call (h : Represents a q) (c : Call) : Follows (a.call c) (q.call c) := by
  cases c with
  | construct priority autoDelete isExitEvent => exact h.construct priority autoDelete isExitEvent
  | schedule event when_ => exact schedule h event when_
  | deschedule event => exact deschedule h event
  | reschedule event when_ always => exact reschedule h event when_ always

/-- The calls of a handler, one after the other. -/
theorem calls (h : Represents a q) (process : List Call) :
    Follows (process.foldl Agenda.call a) (process.foldlM EventQueue.call q) := by
  induction process generalizing a q with
  | nil => exact h
  | cons c process ih =>
      have hc := call h c
      rw [List.foldl_cons, List.foldlM_cons]
      cases hq : q.call c with
      | error f =>
          rw [hq] at hc
          exact hc
      | ok q' =>
          rw [hq] at hc
          exact ih hc

end Follows

end ModernArch.Sim
