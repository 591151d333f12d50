import ModernArch.Vdev.AIChip
import Mathlib

/-!
# The delay of a run

The chip keeps the clock period and returns its delay as an `int`; the device adds the delay to
64-bit ticks.
-/

namespace ModernArch.Vdev

abbrev Tick := BitVec 64

/-- `int tickPerCycle`, which the device sets to its clock period. -/
def tickPerCycle (clockPeriod : Tick) : BitVec 32 := clockPeriod.setWidth 32

/-- `cyclesUsed * tickPerCycle`. -/
def runTicks (clockPeriod : Tick) (cyclesUsed : Nat) : BitVec 32 :=
  BitVec.ofNat 32 cyclesUsed * tickPerCycle clockPeriod

/-- `delay_self`, the value of `run` as ticks. -/
def delaySelf (ticks : BitVec 32) : Tick := ticks.signExtend 64

/-- The time of `event_interrupt`. -/
def interruptTick (curTick delaySet : Tick) (ticks : BitVec 32) : Tick :=
  curTick + delaySet + delaySelf ticks

/-- `AIChip::run` in the arithmetic of the source. -/
def AIChip.runInt {C : Type} (ops : ChipOps C) (clockPeriod : Tick) :
    StateT (AIChip C) Option (BitVec 32) := fun chip => do
  let r ← (ops.stage chip.counter).run chip.core
  return (runTicks clockPeriod r.1.1, { chip with finished := r.1.2, core := r.2 })

/-- No step of the arithmetic loses anything, and the interrupt is not in the past. -/
structure ExactDelay (clockPeriod curTick delaySet : Tick) (cyclesUsed : Nat) (ticks : BitVec 32) :
    Prop where
  cycles : cyclesUsed < 2 ^ 31
  period : (tickPerCycle clockPeriod).toInt = clockPeriod.toNat
  product : -2 ^ 31 ≤ (cyclesUsed : Int) * (tickPerCycle clockPeriod).toInt ∧
    (cyclesUsed : Int) * (tickPerCycle clockPeriod).toInt < 2 ^ 31
  delay : (delaySelf ticks).toNat = cyclesUsed * clockPeriod.toNat
  event : (interruptTick curTick delaySet ticks).toNat =
    curTick.toNat + delaySet.toNat + cyclesUsed * clockPeriod.toNat
  future : curTick ≤ interruptTick curTick delaySet ticks

/-- The period and the product are below `2 ^ 31`, and the time of the interrupt below
`2 ^ 64`. -/
def DelayFits (clockPeriod curTick delaySet : Tick) (cycles : Nat) : Prop :=
  max cycles 1 * clockPeriod.toNat < 2 ^ 31 ∧
    curTick.toNat + delaySet.toNat + cycles * clockPeriod.toNat < 2 ^ 64

instance (clockPeriod curTick delaySet : Tick) (cycles : Nat) :
    Decidable (DelayFits clockPeriod curTick delaySet cycles) :=
  inferInstanceAs (Decidable (_ ∧ _))

variable {clockPeriod curTick delaySet : Tick} {cycles : Nat}

private theorem max_mul_lt_iff {n p b : Nat} : max n 1 * p < b ↔ n * p < b ∧ p < b := by
  rcases Nat.eq_zero_or_pos n with rfl | hn
  · simp
    omega
  · rw [max_eq_left (Nat.one_le_iff_ne_zero.mpr hn.ne')]
    have hle : p ≤ n * p := Nat.le_mul_of_pos_left p hn
    omega

private theorem toInt_tickPerCycle (h : clockPeriod.toNat < 2 ^ 31) :
    (tickPerCycle clockPeriod).toInt = clockPeriod.toNat := by
  rw [tickPerCycle, BitVec.toInt_setWidth]
  apply Int.bmod_eq_of_le <;> omega

private theorem toNat_delaySelf {ticks : BitVec 32} (h : ticks.toNat < 2 ^ 31) :
    (delaySelf ticks).toNat = ticks.toNat := by
  have hmsb : ticks.msb = false := BitVec.msb_eq_false_iff_two_mul_lt.mpr (by omega)
  rw [delaySelf, BitVec.signExtend_eq_setWidth_of_msb_false hmsb, BitVec.toNat_setWidth]
  omega

private theorem toNat_runTicks (h : cycles * clockPeriod.toNat < 2 ^ 31) (hc : cycles < 2 ^ 31)
    (hp : clockPeriod.toNat < 2 ^ 31) :
    (runTicks clockPeriod cycles).toNat = cycles * clockPeriod.toNat := by
  rw [runTicks, tickPerCycle, BitVec.toNat_mul, BitVec.toNat_ofNat, BitVec.toNat_setWidth,
    Nat.mod_eq_of_lt (hc.trans (by decide)), Nat.mod_eq_of_lt (hp.trans (by decide)),
    Nat.mod_eq_of_lt (h.trans (by decide))]

/-- For counts that fit an `int`, the delay is exact under one condition on the period and the
times. -/
theorem exactDelay_iff (hc : cycles < 2 ^ 31) :
    ExactDelay clockPeriod curTick delaySet cycles (runTicks clockPeriod cycles) ↔
      DelayFits clockPeriod curTick delaySet cycles := by
  rw [DelayFits, max_mul_lt_iff]
  constructor
  · intro h
    have hp : clockPeriod.toNat < 2 ^ 31 := by
      have hlt := (tickPerCycle clockPeriod).toInt_lt
      rw [h.period] at hlt
      exact_mod_cast hlt
    have hproduct := h.product.2
    rw [h.period] at hproduct
    have hevent := h.event
    have hlt := (interruptTick curTick delaySet (runTicks clockPeriod cycles)).isLt
    refine ⟨⟨by exact_mod_cast hproduct, hp⟩, by omega⟩
  · intro h
    obtain ⟨⟨hproduct, hp⟩, hevent⟩ := h
    have hperiod := toInt_tickPerCycle hp
    have hticks := toNat_runTicks hproduct hc hp
    have hdelay : (delaySelf (runTicks clockPeriod cycles)).toNat = cycles * clockPeriod.toNat := by
      rw [toNat_delaySelf (by omega), hticks]
    have htime : (interruptTick curTick delaySet (runTicks clockPeriod cycles)).toNat =
        curTick.toNat + delaySet.toNat + cycles * clockPeriod.toNat := by
      rw [interruptTick, BitVec.toNat_add, BitVec.toNat_add, hdelay]
      omega
    refine ⟨hc, hperiod, ?_, hdelay, htime, ?_⟩
    · rw [hperiod, ← Nat.cast_mul]
      omega
    · rw [BitVec.le_def, htime]
      omega

section Run

variable {C : Type} {ops : ChipOps C} {chip : AIChip C} {r : BitVec 32 × AIChip C}

theorem runInt_cases (h : (AIChip.runInt ops clockPeriod).run chip = some r) :
    ∃ cyclesUsed done core, (ops.stage chip.counter).run chip.core = some ((cyclesUsed, done), core) ∧
      r = (runTicks clockPeriod cyclesUsed, { chip with finished := done, core }) := by
  change ((ops.stage chip.counter).run chip.core).bind (fun r =>
    some (runTicks clockPeriod r.1.1, { chip with finished := r.1.2, core := r.2 })) = some r at h
  obtain ⟨⟨⟨cyclesUsed, done⟩, core⟩, hstage, hr⟩ := Option.bind_eq_some_iff.mp h
  exact ⟨cyclesUsed, done, core, hstage, (Option.some.inj hr).symm⟩

/-- The run that returned `ticks` has an exact delay. -/
def ExactRun (ops : ChipOps C) (clockPeriod curTick delaySet : Tick) (chip : AIChip C)
    (ticks : BitVec 32) : Prop :=
  ∃ cyclesUsed done core, (ops.stage chip.counter).run chip.core = some ((cyclesUsed, done), core) ∧
    ExactDelay clockPeriod curTick delaySet cyclesUsed ticks

/-- When a run of the chip returns, its delay is exact if and only if `cycles` cycles suit the
period and the times. -/
def ExactIff (ops : ChipOps C) (clockPeriod curTick delaySet : Tick) (chip : AIChip C)
    (cycles : Nat) : Prop :=
  ∀ r, (AIChip.runInt ops clockPeriod).run chip = some r →
    (ExactRun ops clockPeriod curTick delaySet chip r.1 ↔
      DelayFits clockPeriod curTick delaySet cycles)

theorem exactIff_of_cycles
    (hcycles : ∀ x, (ops.stage chip.counter).run chip.core = some x → x.1.1 = cycles)
    (hc : cycles < 2 ^ 31) : ExactIff ops clockPeriod curTick delaySet chip cycles := by
  intro r h
  obtain ⟨cyclesUsed, done, core, hstage, rfl⟩ := runInt_cases h
  obtain rfl : cyclesUsed = cycles := hcycles _ hstage
  rw [← exactDelay_iff hc]
  constructor
  · intro hexact
    obtain ⟨n, d, c, hstage', hexact⟩ := hexact
    rw [hstage] at hstage'
    cases hstage'
    exact hexact
  · intro hexact
    exact ⟨cyclesUsed, done, core, hstage, hexact⟩

theorem runInt_returns (h : ∃ x, (ops.stage chip.counter).run chip.core = some x)
    (clockPeriod : Tick) : ∃ r, (AIChip.runInt ops clockPeriod).run chip = some r := by
  obtain ⟨x, hx⟩ := h
  refine ⟨(runTicks clockPeriod x.1.1, { chip with finished := x.1.2, core := x.2 }), ?_⟩
  change ((ops.stage chip.counter).run chip.core).bind _ = _
  rw [hx]
  rfl

end Run

end ModernArch.Vdev
