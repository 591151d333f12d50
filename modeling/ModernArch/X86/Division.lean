import ModernArch.X86.Execution
import ModernArch.Framework.LongDivision

/-!
# Unsigned division

`Div1` and `Div2` keep the identity of long division with a quotient that is cut to 64 bits, and
each `Div2` makes the remainder or the number of bits still to come smaller.
-/

namespace ModernArch.X86
open Framework
open Sim (mask bits)

/-- `x` is the position of the most significant bit, and it is `s.1` plus that of `s.2`. -/
structure Narrowed (x w : Nat) (s : Nat × BitVec 64) : Prop where
  pos : s.2.toNat ≠ 0
  lt : s.2.toNat < 2 ^ w
  log : x = s.1 + s.2.toNat.log2

private theorem log2_div_two_pow {v w : Nat} (hle : 2 ^ w ≤ v) : v.log2 = w + (v / 2 ^ w).log2 := by
  have hpos := Nat.two_pow_pos w
  have hdiv : v / 2 ^ w ≠ 0 := Nat.ne_of_gt (Nat.div_pos hle hpos)
  rw [Nat.log2_eq_iff (by omega), Nat.add_assoc, Nat.pow_add, Nat.pow_add]
  constructor
  · calc 2 ^ w * 2 ^ (v / 2 ^ w).log2 ≤ 2 ^ w * (v / 2 ^ w) :=
          Nat.mul_le_mul_left _ (Nat.log2_self_le hdiv)
      _ ≤ v := Nat.mul_div_le _ _
  · rw [Nat.mul_comm, ← Nat.div_lt_iff_lt_mul hpos]
    exact Nat.lt_log2_self

theorem Narrowed.next {x w : Nat} {s : Nat × BitVec 64} (h : Narrowed x (2 * w) s) (hpos : 0 < w)
    (hw : w ≤ 32) : Narrowed x w (narrow (2 * w - 1) w s) := by
  have hwidth : 2 * w - 1 - w + 1 = w := by omega
  have hquot : s.2.toNat / 2 ^ w < 2 ^ w := by
    rw [Nat.div_lt_iff_lt_mul (Nat.two_pow_pos w), ← Nat.pow_add, ← Nat.two_mul]
    exact h.lt
  have hbits : (bits s.2 (2 * w - 1) w).toNat = s.2.toNat / 2 ^ w := by
    rw [toNat_bits _ (by omega), hwidth, Nat.mod_eq_of_lt hquot]
  have hshift : (s.2 >>> w).toNat = s.2.toNat / 2 ^ w := by
    rw [BitVec.toNat_ushiftRight, Nat.shiftRight_eq_div_pow]
  unfold narrow
  split_ifs with hzero
  · have hle : 2 ^ w ≤ s.2.toNat := by
      by_contra hlt
      apply hzero
      apply BitVec.eq_of_toNat_eq
      rw [hbits, Nat.div_eq_of_lt (by omega)]
      rfl
    constructor
    · rw [hshift]
      exact Nat.ne_of_gt (Nat.div_pos hle (Nat.two_pow_pos w))
    · rw [hshift]
      exact hquot
    · rw [h.log, hshift, log2_div_two_pow hle, Nat.add_assoc]
  · have hlt : s.2.toNat / 2 ^ w = 0 := by
      rw [← hbits, not_not.mp hzero]
      rfl
    exact ⟨h.pos, (Nat.div_eq_zero_iff_lt (Nat.two_pow_pos w)).mp hlt, h.log⟩

private theorem findMsbSet_eq (v : BitVec 64) : findMsbSet v = v.toNat.log2 := by
  unfold findMsbSet
  split_ifs with hzero
  · rw [hzero]
    decide
  · have hpos : v.toNat ≠ 0 := by
      intro h
      exact hzero (BitVec.eq_of_toNat_eq h)
    have hstart : Narrowed v.toNat.log2 64 (0, v) := ⟨hpos, v.isLt, (Nat.zero_add _).symm⟩
    have h32 : Narrowed _ 32 _ := hstart.next (by decide) le_rfl
    have h16 : Narrowed _ 16 _ := h32.next (by decide) (by decide)
    have h8 : Narrowed _ 8 _ := h16.next (by decide) (by decide)
    have h4 : Narrowed _ 4 _ := h8.next (by decide) (by decide)
    have h2 : Narrowed _ 2 _ := h4.next (by decide) (by decide)
    have hlast {s : Nat × BitVec 64} (h : Narrowed v.toNat.log2 1 s) : s.1 = v.toNat.log2 := by
      have hone : s.2.toNat = 1 := by
        have hne := h.pos
        have hlt := h.lt
        omega
      rw [h.log, hone]
      rfl
    exact hlast (h2.next (by decide) (by decide))

/-- `divide` subtracts the divisor times a power of two, or the divisor when it goes once. -/
theorem divide_spec (dividend divisor q : BitVec 64) (hd : divisor.toNat ≠ 0) :
    (dividend.toNat < divisor.toNat ∧ divide dividend divisor q dividend = (q, dividend)) ∨
      ∃ t r : BitVec 64, divide dividend divisor q dividend = (q + t, r) ∧ 0 < t.toNat ∧
        t.toNat * divisor.toNat ≤ dividend.toNat ∧
        r.toNat = dividend.toNat - t.toNat * divisor.toNat ∧
        (dividend.toNat < 2 * divisor.toNat → t.toNat = 1) := by
  unfold divide
  split_ifs with hle
  · right
    rw [BitVec.le_def] at hle
    obtain ⟨hlen, hstep⟩ := aligned_fits hd hle
    have hlog : 2 ^ dividend.toNat.log2 ≤ dividend.toNat := Nat.log2_self_le (by omega)
    have hmsb : dividend.toNat.log2 < 64 := (Nat.log2_lt (by omega)).mpr dividend.isLt
    rw [findMsbSet_eq, findMsbSet_eq]
    generalize hs : dividend.toNat.log2 - divisor.toNat.log2 = s at *
    have hlen64 : 2 ^ s * divisor.toNat < 2 ^ 64 :=
      hlen.trans_le (Nat.pow_le_pow_right (by decide) hmsb)
    have hshifted : (divisor <<< s).toNat = 2 ^ s * divisor.toNat := by
      rw [BitVec.toNat_shiftLeft, Nat.shiftLeft_eq, Nat.mul_comm, Nat.mod_eq_of_lt hlen64]
    have hbit : (1#64 <<< s).toNat = 2 ^ s := by
      have hone : (1#64).toNat = 1 := rfl
      rw [BitVec.toNat_shiftLeft, hone, Nat.one_shiftLeft,
        Nat.mod_eq_of_lt (Nat.pow_lt_pow_right (by decide) (by omega))]
    have honce {t : Nat} (ht : 0 < t) (hfits : t * divisor.toNat ≤ dividend.toNat)
        (hlt : dividend.toNat < 2 * divisor.toNat) : t = 1 := by
      have htwo : t < 2 := Nat.lt_of_mul_lt_mul_right (hfits.trans_lt hlt)
      omega
    have hpos := Nat.two_pow_pos s
    dsimp only
    split_ifs with hbig
    · rw [gt_iff_lt, BitVec.lt_def, hshifted] at hbig
      obtain ⟨s, rfl⟩ := Nat.exists_eq_add_of_le' (hstep hbig)
      rw [Nat.pow_succ, Nat.mul_right_comm] at hshifted
      rw [Nat.pow_succ] at hbit
      rw [Nat.pow_succ, Nat.mul_right_comm, Nat.pow_succ] at hlen
      have hhalf : (1#64 <<< (s + 1) >>> 1).toNat = 2 ^ s := by
        rw [BitVec.toNat_ushiftRight, hbit, Nat.shiftRight_one, Nat.mul_div_cancel _ (by decide)]
      have hdiv : (divisor <<< (s + 1) >>> 1).toNat = 2 ^ s * divisor.toNat := by
        rw [BitVec.toNat_ushiftRight, hshifted, Nat.shiftRight_one,
          Nat.mul_div_cancel _ (by decide)]
      have hfits : 2 ^ s * divisor.toNat ≤ dividend.toNat := by omega
      refine ⟨_, _, rfl, ?_, ?_, ?_, ?_⟩
      · rw [hhalf]
        exact Nat.two_pow_pos s
      · rw [hhalf]
        exact hfits
      · rw [BitVec.toNat_sub_of_le (by rw [BitVec.le_def, hdiv]; exact hfits), hdiv, hhalf]
      · rw [hhalf]
        exact honce (Nat.two_pow_pos s) hfits
    · rw [gt_iff_lt, BitVec.lt_def, hshifted, Nat.not_lt] at hbig
      refine ⟨_, _, rfl, ?_, ?_, ?_, ?_⟩
      · rw [hbit]
        exact hpos
      · rw [hbit]
        exact hbig
      · rw [BitVec.toNat_sub_of_le (by rw [BitVec.le_def, hshifted]; exact hbig), hshifted, hbit]
      · rw [hbit]
        exact honce hpos hbig
  · left
    rw [BitVec.le_def] at hle
    exact ⟨by omega, rfl⟩

/-- The registers hold a division of `n` by `d` with `k` bits still to come in; the quotient has
lost its upper bits. -/
def Tracks (n d k : Nat) (quotient remainder : BitVec 64) : Prop :=
  ∃ q, quotient.toNat = q % 2 ^ 64 ∧ Dividing n d k q remainder.toNat

private theorem toNat_shiftIn (r src : BitVec 64) (k : Nat) :
    ((r <<< 1) ||| bits src k k).toNat = (2 * r.toNat + (src.getLsbD k).toNat) % 2 ^ 64 := by
  have hlt : (src.getLsbD k).toNat < 2 ^ 1 := Bool.toNat_lt _
  have hdouble : 2 * r.toNat % 2 ^ 64 = 2 ^ 1 * (r.toNat % 2 ^ 63) := by omega
  rw [BitVec.toNat_or, BitVec.toNat_shiftLeft, Nat.shiftLeft_eq, toNat_bit, Nat.pow_one,
    Nat.mul_comm, hdouble, ← Nat.two_pow_add_eq_or_of_lt hlt]
  omega

private theorem toNat_double (q : BitVec 64) {n : Nat} (hq : q.toNat = n % 2 ^ 64) :
    (q <<< 1).toNat = 2 * n % 2 ^ 64 := by
  rw [BitVec.toNat_shiftLeft, Nat.shiftLeft_eq, hq]
  omega

section Division

variable {n d k : Nat} {src divisor q r : BitVec 64}

theorem Tracks.shift (h : Tracks n d (k + 1) q r) (hbit : n.testBit k = src.getLsbD k)
    (hr : r.toNat < 2 ^ 63) : Tracks n d k (q <<< 1) ((r <<< 1) ||| bits src k k) := by
  obtain ⟨m, hq, hdiv⟩ := h
  have hlt : (src.getLsbD k).toNat < 2 := Bool.toNat_lt _
  refine ⟨2 * m, toNat_double q hq, ?_⟩
  rw [toNat_shiftIn, Nat.mod_eq_of_lt (by omega), ← hbit]
  exact hdiv.shift

theorem Tracks.subtract (h : Tracks n d k q r) {t : BitVec 64} (ht : t.toNat * d ≤ r.toNat)
    {r' : BitVec 64} (hr' : r'.toNat = r.toNat - t.toNat * d) : Tracks n d k (q + t) r' := by
  obtain ⟨m, hq, hdiv⟩ := h
  refine ⟨m + t.toNat, ?_, ?_⟩
  · rw [BitVec.toNat_add, hq, Nat.mod_add_mod]
  · rw [hr']
    exact hdiv.subtract ht

/-- The remainder may have left the word, when the divisor takes it back at once. -/
theorem Tracks.shift_subtract (h : Tracks n d (k + 1) q r) (hbit : n.testBit k = src.getLsbD k)
    (hd : divisor.toNat = d) (hr : r.toNat < d) (hle : d ≤ 2 * r.toNat) :
    Tracks n d k (q <<< 1 + 1) (((r <<< 1) ||| bits src k k) - divisor) ∧
      (((r <<< 1) ||| bits src k k) - divisor).toNat < d := by
  obtain ⟨m, hq, hdiv⟩ := h
  have hlt : (src.getLsbD k).toNat < 2 := Bool.toNat_lt _
  have hdlt : d < 2 ^ 64 := hd ▸ divisor.isLt
  have hsub : (((r <<< 1) ||| bits src k k) - divisor).toNat =
      2 * r.toNat + (src.getLsbD k).toNat - d := by
    rw [BitVec.toNat_sub, toNat_shiftIn, hd]
    omega
  refine ⟨⟨2 * m + 1, ?_, ?_⟩, ?_⟩
  · have hone : (1 : BitVec 64).toNat = 1 := rfl
    rw [BitVec.toNat_add, toNat_double q hq, hone, Nat.mod_add_mod]
  · have hnext := hdiv.shift
    rw [hbit] at hnext
    have hless := hnext.subtract (t := 1) (by omega)
    rw [Nat.one_mul] at hless
    rw [hsub]
    exact hless
  · rw [hsub]
    omega

/-- What a loop that pulls bits in leaves. -/
structure Pulled (n d k : Nat) (r : BitVec 64) (cond : BitVec 64 → Bool) (p : Pull) : Prop where
  tracks : Tracks n d p.remaining p.quotient p.dividend
  le : p.remaining ≤ k
  stops : p.remaining = 0 ∨ cond p.dividend = false
  same : p.remaining = k → p.dividend = r
  pulled : p.remaining = k ∨ cond r = true
  bound : ∀ b, (∀ v, cond v = true → 2 * v.toNat + 2 ≤ b) → r.toNat < b → p.dividend.toNat < b

private theorem pullWhile_spec (cond : BitVec 64 → Bool)
    (hcond : ∀ v, cond v = true → v.toNat < 2 ^ 63)
    (hbits : ∀ i < k, n.testBit i = src.getLsbD i) (h : Tracks n d k q r) :
    Pulled n d k r cond (pullWhile cond src r q k) := by
  induction k generalizing q r with
  | zero => exact ⟨h, le_rfl, Or.inl rfl, fun _ => rfl, Or.inl rfl, fun _ _ hr => hr⟩
  | succ k ih =>
      unfold pullWhile
      split_ifs with hc
      · have hp := ih (fun i hi => hbits i (by omega))
          (h.shift (hbits k (by omega)) (hcond r hc))
        have hlt : (src.getLsbD k).toNat < 2 := Bool.toNat_lt _
        refine ⟨hp.tracks, hp.le.trans (Nat.le_succ k), hp.stops, fun heq => ?_, Or.inr hc,
          fun b hb hr => ?_⟩
        · have hle := hp.le
          omega
        · apply hp.bound b hb
          have hroom := hb r hc
          have hsmall := hcond r hc
          rw [toNat_shiftIn, Nat.mod_eq_of_lt (by omega)]
          omega
      · exact ⟨h, le_rfl, Or.inr (by simpa using hc), fun _ => rfl, Or.inl rfl, fun _ _ hr => hr⟩

/-- The division that the loop of the microcode carries on; it has ended when no bit is left. -/
structure Divides (n d : Nat) (src : BitVec 64) (p : Pull) : Prop where
  tracks : Tracks n d p.remaining p.quotient p.dividend
  bits : ∀ i < p.remaining, n.testBit i = src.getLsbD i
  high : 2 ^ 63 ≤ d → p.dividend.toNat < d
  done : p.remaining = 0 → p.dividend.toNat < d

/-- What makes the loop end. -/
def Pull.Before (p' p : Pull) : Prop :=
  p'.remaining < p.remaining ∨
    p'.remaining = p.remaining ∧ p'.dividend.toNat < p.dividend.toNat

private theorem highBitSet_iff (v : BitVec 64) : highBitSet v = true ↔ 2 ^ 63 ≤ v.toNat := by
  have hpow : 1#64 <<< 63 = BitVec.twoPow 64 63 := by decide
  have hmsb : v.getLsbD 63 = decide (2 ^ 63 ≤ v.toNat) := BitVec.msb_eq_decide v
  rw [highBitSet, hpow, BitVec.and_twoPow, hmsb]
  by_cases h : 2 ^ 63 ≤ v.toNat
  · simp only [h, decide_true, if_true, iff_true]
    decide
  · simp only [h, decide_false, Bool.false_eq_true, if_false, iff_false]
    decide

private theorem div2_spec (hd : divisor.toNat = d) (hpos : d ≠ 0) {p : Pull}
    (h : Divides n d src p) : Divides n d src (div2 src divisor p) ∧
      (p.remaining ≠ 0 → (div2 src divisor p).Before p) := by
  have hclear (v : BitVec 64) : (!highBitSet v) = true ↔ v.toNat < 2 ^ 63 := by
    rw [Bool.not_eq_true', ← Bool.not_eq_true, highBitSet_iff, Nat.not_le]
  have hsub {v : BitVec 64} (hle : d ≤ v.toNat) : (v - divisor).toNat = v.toNat - d := by
    rw [BitVec.toNat_sub_of_le (by rw [BitVec.le_def, hd]; exact hle), hd]
  unfold div2
  split_ifs with hrem hhigh
  · exact ⟨h, fun hne => absurd hrem hne⟩
  · -- The divisor fills the word, and the remainder is reduced already.
    rw [highBitSet_iff, hd] at hhigh
    have hless := h.high hhigh
    obtain ⟨htracks, hle, hstops, hsame, hpulled, -⟩ :=
      pullWhile_spec (fun v => !highBitSet v) (fun v hv => (hclear v).mp hv) h.bits h.tracks
    generalize pullWhile (fun v => !highBitSet v) src p.dividend p.quotient p.remaining = p₁ at *
    have hbits (i : Nat) (hi : i < p₁.remaining) := h.bits i (hi.trans_le hle)
    have hmoved (hne : p₁.remaining ≠ p.remaining) : p₁.remaining < p.remaining := by omega
    dsimp only
    split_ifs with hset hnext hfits
    · rw [highBitSet_iff] at hset
      rw [BitVec.lt_def, hd] at hnext
      have hdlt : d < 2 ^ 64 := hd ▸ divisor.isLt
      obtain ⟨m, hm⟩ := Nat.exists_eq_succ_of_ne_zero hnext.2
      have hpred : p₁.remaining - 1 = m := by omega
      rw [hm] at htracks
      obtain ⟨hnew, hlt⟩ := htracks.shift_subtract (hbits m (by omega)) hd hnext.1 (by omega)
      simp only [Pull.next, hpred]
      have hm' : m < p.remaining := by omega
      exact ⟨⟨hnew, fun i hi => h.bits i (hi.trans hm'), fun _ => hlt, fun _ => hlt⟩,
        fun _ => Or.inl hm'⟩
    · rw [BitVec.le_def, hd] at hfits
      have hone : (1 : BitVec 64).toNat * d ≤ p₁.dividend.toNat := by
        rw [show (1 : BitVec 64).toNat = 1 from rfl, Nat.one_mul]
        exact hfits
      have hlt : (p₁.dividend - divisor).toNat < d := by
        rw [hsub hfits]
        omega
      have hrest : (p₁.dividend - divisor).toNat =
          p₁.dividend.toNat - (1 : BitVec 64).toNat * d := by
        rw [hsub hfits, show (1 : BitVec 64).toNat = 1 from rfl, Nat.one_mul]
      have hnew := htracks.subtract hone hrest
      refine ⟨⟨hnew, hbits, fun _ => hlt, fun _ => hlt⟩, fun _ => Or.inl (hmoved fun heq => ?_)⟩
      rw [hsame heq] at hfits
      omega
    · rw [BitVec.lt_def, hd, not_and, not_not] at hnext
      rw [BitVec.le_def, hd, Nat.not_le] at hfits
      have hzero := hnext hfits
      exact ⟨⟨htracks, hbits, fun _ => hfits, fun _ => hfits⟩,
        fun hne => Or.inl (hmoved (by omega))⟩
    · have hsmall : p₁.dividend.toNat < 2 ^ 63 := by
        rw [highBitSet_iff, Nat.not_le] at hset
        exact hset
      have hzero : p₁.remaining = 0 := by
        rcases hstops with hzero | hstop
        · exact hzero
        · rw [← Bool.not_eq_true, hclear] at hstop
          exact absurd hsmall hstop
      have hlt := hsmall.trans_le hhigh
      exact ⟨⟨htracks, hbits, fun _ => hlt, fun _ => hlt⟩, fun hne => Or.inl (hmoved (by omega))⟩
  · rw [highBitSet_iff, hd, Nat.not_le] at hhigh
    have hcond (v : BitVec 64) : decide (v < divisor) = true ↔ v.toNat < d := by
      rw [decide_eq_true_eq, BitVec.lt_def, hd]
    obtain ⟨htracks, hle, hstops, hsame, hpulled, hbound⟩ :=
      pullWhile_spec (fun v => decide (v < divisor))
        (fun v hv => ((hcond v).mp hv).trans hhigh) h.bits h.tracks
    generalize pullWhile (fun v => decide (v < divisor)) src p.dividend p.quotient p.remaining = p₁
      at *
    have hbits (i : Nat) (hi : i < p₁.remaining) := h.bits i (hi.trans_le hle)
    dsimp only
    rcases divide_spec p₁.dividend divisor p₁.quotient (by omega) with
      ⟨hlt, heq⟩ | ⟨t, r, heq, ht, hfits, hr, honce⟩
    · rw [heq]
      rw [hd] at hlt
      have hzero : p₁.remaining = 0 := by
        rcases hstops with hzero | hstop
        · exact hzero
        · rw [← Bool.not_eq_true, hcond] at hstop
          exact absurd hlt hstop
      exact ⟨⟨htracks, hbits, fun _ => hlt, fun _ => hlt⟩,
        fun hne => Or.inl (by change p₁.remaining < _; omega)⟩
    · rw [heq]
      rw [hd] at hfits hr honce
      have hpos' : 0 < t.toNat * d := Nat.mul_pos ht (Nat.pos_of_ne_zero hpos)
      refine ⟨⟨htracks.subtract hfits hr, hbits, fun hle => absurd hhigh (Nat.not_lt.mpr hle),
        fun hzero => ?_⟩, fun _ => ?_⟩
      · change p₁.remaining = 0 at hzero
        have hc : p.dividend.toNat < d := by
          rcases hpulled with hkept | hc
          · omega
          · exact (hcond _).mp hc
        have hlt := hbound (2 * d) (fun v hv => by have := (hcond v).mp hv; omega) (by omega)
        have hone := honce hlt
        change r.toNat < d
        rw [hr, hone]
        omega
      · by_cases hkept : p₁.remaining = p.remaining
        · refine Or.inr ⟨hkept, ?_⟩
          change r.toNat < _
          rw [hr, ← hsame hkept]
          omega
        · exact Or.inl (by change p₁.remaining < _; omega)

end Division

/-! ## The loop of the microcode -/

section Loop

variable {env : EmulEnv} {c₀ c : Context} {src cnt n d : Nat}

/-- The registers of a division of `n` by `d` that takes its bits from `src` and counts them in
`cnt`. -/
structure InLoop (env : EmulEnv) (c₀ : Context) (src cnt n d : Nat) (c : Context) : Prop where
  divisor : (c.intReg Divisor).toNat = d
  divides : Divides n d (c.intReg src)
    ⟨c.intReg Remainder, c.intReg Quotient, operand env c cnt⟩
  regs : ∀ r, r ≠ ZeroReg → r ≠ cnt → r ≠ Remainder → r ≠ Quotient → r ≠ Divisor →
    c.intReg r = c₀.intReg r
  flags : ∀ f, f ≠ .ezf → c.ccReg f = c₀.ccReg f
  tidy : c.Tidy

/-- `src` and `cnt` are registers of their own. -/
structure LoopRegs (src cnt : Nat) : Prop where
  src_lt : src < 32
  cnt_lt : cnt < 32
  ne : src ≠ cnt
  src_ne : src ≠ ZeroReg
  cnt_ne : cnt ≠ ZeroReg

/-- What has to become smaller for the loop to end. -/
def left (env : EmulEnv) (cnt : Nat) (c : Context) : Nat :=
  operand env c cnt * 2 ^ 64 + (c.intReg Remainder).toNat

private theorem execDiv2_spec (h : env.Sized) (c₀ : Context) (op2 : BitVec 64)
    (hregs : LoopRegs src cnt) (hd : d ≠ 0) (hdivisor : (c.intReg Divisor).toNat = d)
    (hop2 : op2.toNat < 2 ^ (env.dataSize * 8))
    (hdiv : Divides n d (c.intReg src) ⟨c.intReg Remainder, c.intReg Quotient, op2.toNat⟩)
    (hframe : ∀ r, r ≠ ZeroReg → r ≠ cnt → r ≠ Remainder → r ≠ Quotient → r ≠ Divisor →
      c.intReg r = c₀.intReg r) (hflags : ∀ f, f ≠ .ezf → c.ccReg f = c₀.ccReg f)
    (htidy : c.Tidy) {ext : BitVec 64} (hext : ext = 0 ∨ ext = EZFBit) :
    ∃ c', RegOp.execDiv2 env cnt src op2 ext c = some (.ok c') ∧
      InLoop env c₀ src cnt n d c' ∧
      (op2.toNat ≠ 0 → left env cnt c' < op2.toNat * 2 ^ 64 + (c.intReg Remainder).toNat) ∧
      (op2.toNat = 0 → operand env c' cnt = 0) ∧
      (ext = EZFBit → (c'.ccReg .ezf).getLsbD 5 = decide (operand env c' cnt = 0)) := by
  obtain ⟨hsrc, hcnt, hne, hsrc₀, hcnt₀⟩ := hregs
  obtain ⟨hnext, hless⟩ := div2_spec hdivisor hd hdiv
  generalize hp : div2 (c.intReg src) (c.intReg Divisor)
    ⟨c.intReg Remainder, c.intReg Quotient, op2.toNat⟩ = p at *
  have hnonzero : ¬ c.intReg Divisor = 0 := by
    intro hzero
    rw [hzero] at hdivisor
    exact hd hdivisor.symm
  have hle : p.remaining ≤ op2.toNat := by
    by_cases hop : op2.toNat = 0
    · have hsame : p = ⟨c.intReg Remainder, c.intReg Quotient, op2.toNat⟩ := by
        rw [← hp, div2, if_pos hop]
      rw [hsame]
    · rcases hless hop with hlt | ⟨heq, -⟩
      · exact hlt.le
      · exact heq.le
  let c' := (((c.setInt cnt (written env.dataSize (c.intReg cnt)
    (BitVec.ofNat 64 p.remaining))).setInt Remainder p.dividend).setInt Quotient
      p.quotient).divFlags ext p.remaining
  have hexec : RegOp.execDiv2 env cnt src op2 ext c = some (.ok c') := by
    simp only [RegOp.execDiv2, hnonzero, if_false, srcReg_eq h c (hsrc.trans (by decide)),
      setDest_eq h c (hcnt.trans (by decide)), hp]
    rfl
  have hint (r : Nat) : c'.intReg r = if r = Quotient then p.quotient
      else if r = Remainder then p.dividend
      else if r = cnt then written env.dataSize (c.intReg cnt) (BitVec.ofNat 64 p.remaining)
      else c.intReg r := by
    simp only [c', Context.divFlags, Context.intReg_setPred]
    rw [Context.intReg_setInt _ (by decide), Context.intReg_setInt _ (by decide),
      Context.intReg_setInt _ (hcnt.trans (by decide))]
  have hlow : Quotient = 34 ∧ Remainder = 35 ∧ Divisor = 36 := by decide
  obtain ⟨hq, hr, hdv⟩ := hlow
  have hop : operand env c' cnt = p.remaining := by
    have hpow : 2 ^ (env.dataSize * 8) ≤ 2 ^ 64 := Nat.pow_le_pow_right (by decide) h.width.2
    rw [operand, hint, if_neg (by omega), if_neg (by omega), if_pos rfl, toNat_written h,
      BitVec.toNat_ofNat, Nat.mod_eq_of_lt (a := p.remaining) (by omega),
      Nat.mod_eq_of_lt (by omega)]
  have hrem : c'.intReg Remainder = p.dividend := by
    rw [hint, if_neg (by omega), if_pos rfl]
  have hcc (f : CCReg) (hf : f ≠ .ezf) : c'.ccReg f = c.ccReg f := by
    simp only [c', Context.divFlags, Context.setPred]
    by_cases hown : ext &&& EZFBit = 0
    · rw [if_pos hown]
      rfl
    · rw [if_neg hown, Context.ccReg_setCC, if_neg hf]
      rfl
  refine ⟨c', hexec, ⟨?_, ?_, ?_, ?_, ?_⟩, ?_, ?_, ?_⟩
  · rw [hint, if_neg (by omega), if_neg (by omega), if_neg (by omega)]
    exact hdivisor
  · have hkept : c'.intReg src = c.intReg src := by
      rw [hint, if_neg (by omega), if_neg (by omega), if_neg hne]
    have hquot : c'.intReg Quotient = p.quotient := by
      rw [hint, if_pos rfl]
    rw [hkept, hrem, hquot, hop]
    exact hnext
  · intro r hr₀ hrc hrr hrq hrd
    rw [hint, if_neg hrq, if_neg hrr, if_neg hrc]
    exact hframe r hr₀ hrc hrr hrq hrd
  · intro f hf
    rw [hcc f hf]
    exact hflags f hf
  · intro f
    by_cases hf : f = .ezf
    · subst hf
      simp only [c', Context.divFlags, Context.setPred]
      rcases hext with rfl | rfl
      · exact htidy .ezf
      · rw [if_neg (by decide), Context.ccReg_setCC, if_pos rfl]
        split_ifs <;> decide
    · rw [hcc f hf]
      exact htidy f
  · intro hne₀
    rw [left, hop, hrem]
    have hrlt := p.dividend.isLt
    rcases hless hne₀ with hlt | ⟨heq, hlt⟩
    · change p.remaining < op2.toNat at hlt
      omega
    · change p.remaining = op2.toNat at heq
      change p.dividend.toNat < (c.intReg Remainder).toNat at hlt
      omega
  · intro hzero
    omega
  · rintro rfl
    rw [hop]
    simp only [c', Context.divFlags, Context.setPred]
    rw [if_neg (by decide), Context.ccReg_setCC, if_pos rfl]
    split_ifs with hzero
    · simp only [hzero, decide_true]
      decide
    · simp only [hzero, decide_false]
      decide

/-- Clearing the zero register leaves the loop as it is. -/
theorem InLoop.cleared (hregs : LoopRegs src cnt) (hc : InLoop env c₀ src cnt n d c) :
    InLoop env c₀ src cnt n d (c.setInt ZeroReg 0) ∧
      operand env (c.setInt ZeroReg 0) cnt = operand env c cnt ∧
      left env cnt (c.setInt ZeroReg 0) = left env cnt c := by
  have hkept {r : Nat} (hr : r ≠ ZeroReg) : (c.setInt ZeroReg 0).intReg r = c.intReg r := by
    rw [Context.intReg_setInt _ (by decide), if_neg hr]
  have hcnt : operand env (c.setInt ZeroReg 0) cnt = operand env c cnt := by
    rw [operand, hkept hregs.cnt_ne]
    rfl
  have hrem : (c.setInt ZeroReg 0).intReg Remainder = c.intReg Remainder := hkept (by decide)
  refine ⟨⟨?_, ?_, ?_, hc.flags, hc.tidy⟩, hcnt, ?_⟩
  · rw [hkept (by decide)]
    exact hc.divisor
  · rw [hkept hregs.src_ne, hrem, hkept (by decide : Quotient ≠ ZeroReg), hcnt]
    exact hc.divides
  · intro r hr
    rw [hkept hr]
    exact hc.regs r hr
  · rw [left, hcnt, hrem]
    rfl

private theorem step_div2 (h : env.Sized) (hregs : LoopRegs src cnt) (hd : d ≠ 0) {ops : List RegOp}
    {upc : Nat} {ext : BitVec 64} (hext : ext = 0 ∨ ext = EZFBit)
    (hop : ops[upc]? = some (.div2 cnt src cnt ext)) (hc : InLoop env c₀ src cnt n d c) :
    ∃ c', step env ops upc c = some (.ok (upc + 1, c')) ∧ InLoop env c₀ src cnt n d c' ∧
      (operand env c cnt ≠ 0 → left env cnt c' < left env cnt c) ∧
      (operand env c cnt = 0 → operand env c' cnt = 0) ∧
      (ext = EZFBit → (c'.ccReg .ezf).getLsbD 5 = decide (operand env c' cnt = 0)) := by
  obtain ⟨hc₁, hcnt, hleft⟩ := hc.cleared hregs
  have hread : ((fieldOf env.dataSize).get ((c.setInt ZeroReg 0).intReg cnt)).toNat =
      operand env c cnt := by
    rw [toNat_pick h, ← hcnt]
    rfl
  obtain ⟨c', hexec, hloop, hless, hzero, hezf⟩ := execDiv2_spec h c₀
    ((fieldOf env.dataSize).get ((c.setInt ZeroReg 0).intReg cnt)) hregs hd hc₁.divisor
    (by rw [hread]; exact operand_lt env c cnt)
    (by rw [hread, ← hcnt]; exact hc₁.divides) hc₁.regs hc₁.flags hc₁.tidy hext
  rw [hread] at hless hzero
  refine ⟨c', ?_, hloop, ?_, hzero, hezf⟩
  · rw [step, hop]
    simp only [Option.bind_eq_bind, Option.bind_some, RegOp.exec,
      psrc_eq h _ (hregs.cnt_lt.trans (by decide)), hexec]
    rfl
  · rw [← hleft, left.eq_def env cnt (c.setInt ZeroReg 0), hcnt]
    exact hless

/-- The loop ends, and then no bit of the dividend is left. -/
theorem loop_reaches (h : env.Sized) (hregs : LoopRegs src cnt) (hd : d ≠ 0) {ops : List RegOp}
    (top : Nat) (h₀ : ops[top]? = some (.div2 cnt src cnt 0))
    (h₁ : ops[top + 1]? = some (.div2 cnt src cnt 0))
    (h₂ : ops[top + 2]? = some (.div2 cnt src cnt 0))
    (h₃ : ops[top + 3]? = some (.div2 cnt src cnt EZFBit))
    (h₄ : ops[top + 4]? = some (.br top .NotEZF)) (hc : InLoop env c₀ src cnt n d c) :
    ∃ c', Reaches env ops (top, c) (top + 5, c') ∧ InLoop env c₀ src cnt n d c' ∧
      operand env c' cnt = 0 := by
  induction hm : left env cnt c using Nat.strong_induction_on generalizing c with
  | h m ih =>
      obtain ⟨c₁, hs₁, hc₁, hl₁, hz₁, -⟩ := step_div2 h hregs hd (Or.inl rfl) h₀ hc
      obtain ⟨c₂, hs₂, hc₂, hl₂, hz₂, -⟩ := step_div2 h hregs hd (Or.inl rfl) h₁ hc₁
      obtain ⟨c₃, hs₃, hc₃, hl₃, hz₃, -⟩ := step_div2 h hregs hd (Or.inl rfl) h₂ hc₂
      obtain ⟨c₄, hs₄, hc₄, hl₄, hz₄, hezf⟩ := step_div2 h hregs hd (Or.inr rfl) h₃ hc₃
      obtain ⟨hc₅, hcnt, hleft⟩ := hc₄.cleared hregs
      have hturn : Reaches env ops (top, c) (top + 4, c₄) :=
        .tail (.tail (.tail (.single hs₁) hs₂) hs₃) hs₄
      have hcond : checkCondition (c₄.setInt ZeroReg 0).flags .NotEZF =
          !decide (operand env c₄ cnt = 0) := by
        rw [checkCondition, hc₅.tidy.ezf, Context.ccReg_setInt, hezf rfl]
      have hbr : step env ops (top + 4) c₄ = some (.ok
          (if operand env c₄ cnt = 0 then top + 5 else top, c₄.setInt ZeroReg 0)) := by
        rw [step, h₄]
        simp only [Option.bind_eq_bind, Option.bind_some, RegOp.exec, hcond]
        by_cases hzero : operand env c₄ cnt = 0 <;> simp [hzero]
      by_cases hzero : operand env c₄ cnt = 0
      · rw [if_pos hzero] at hbr
        exact ⟨_, hturn.tail hbr, hc₅, hcnt.trans hzero⟩
      · rw [if_neg hzero] at hbr
        have hlt : left env cnt (c₄.setInt ZeroReg 0) < m := by
          have hne₃ : operand env c₃ cnt ≠ 0 := fun hz => hzero (hz₄ hz)
          have hne₂ : operand env c₂ cnt ≠ 0 := fun hz => hne₃ (hz₃ hz)
          have hne₁ : operand env c₁ cnt ≠ 0 := fun hz => hne₂ (hz₂ hz)
          have hne₀ : operand env c cnt ≠ 0 := fun hz => hne₁ (hz₁ hz)
          have hlt₁ := hl₁ hne₀
          have hlt₂ := hl₂ hne₁
          have hlt₃ := hl₃ hne₂
          have hlt₄ := hl₄ hne₃
          omega
        obtain ⟨c', hrest, hdone⟩ := ih _ hlt hc₅ rfl
        exact ⟨c', (hturn.tail hbr).trans hrest, hdone⟩

/-- What the microcode from `div1` to the end of the loop leaves for `divq` and `divr`. -/
structure Divided (c₀ : Context) (cnt n d : Nat) (c : Context) : Prop where
  quotient : (c.intReg Quotient).toNat = n / d % 2 ^ 64
  remainder : (c.intReg Remainder).toNat = n % d
  regs : ∀ r, r ≠ ZeroReg → r ≠ cnt → r ≠ Remainder → r ≠ Quotient → r ≠ Divisor →
    c.intReg r = c₀.intReg r
  flags : ∀ f, f ≠ .ezf → c.ccReg f = c₀.ccReg f
  tidy : c.Tidy

private theorem InLoop.ends (hc : InLoop env c₀ src cnt n d c) (hzero : operand env c cnt = 0) :
    Divided c₀ cnt n d c := by
  obtain ⟨q, hq, hdiv⟩ := hc.divides.tracks
  change Framework.Dividing n d (operand env c cnt) q _ at hdiv
  rw [hzero] at hdiv
  obtain ⟨rfl, hr⟩ := hdiv.finish (hc.divides.done hzero)
  exact ⟨hq, hr, hc.regs, hc.flags, hc.tidy⟩

theorem Divided.kept {r : Nat} (h : Divided c₀ cnt n d c) (hr : r < numIntRegs)
    (hcnt : numIntRegs ≤ cnt) : c.intReg r = c₀.intReg r := by
  have hhigh : numIntRegs = 16 ∧ ZeroReg = 16 ∧ Remainder = 35 ∧ Quotient = 34 ∧ Divisor = 36 := by
    decide
  exact h.regs r (by omega) (by omega) (by omega) (by omega) (by omega)

/-- The two halves of a dividend. -/
def dividend (env : EmulEnv) (c : Context) (hi lo : Nat) : Nat :=
  operand env c hi * 2 ^ (env.dataSize * 8) + operand env c lo

private theorem testBit_dividend (c : Context) (hi lo : Nat) {i : Nat}
    (hlt : i < env.dataSize * 8) : (dividend env c hi lo).testBit i = (c.intReg lo).getLsbD i := by
  have hmod : dividend env c hi lo % 2 ^ (env.dataSize * 8) =
      (c.intReg lo).toNat % 2 ^ (env.dataSize * 8) := by
    rw [dividend, Nat.mul_comm, Nat.mul_add_mod, operand, Nat.mod_mod]
  have hbit := congrArg (Nat.testBit · i) hmod
  simp only [Nat.testBit_mod_two_pow, hlt, decide_true, Bool.true_and] at hbit
  exact hbit

/-- The first microop gives the state in which all the bits of the lower half are still to come. -/
theorem execDiv1_spec (h : env.Sized) {hi dv : Nat} (hhi : hi < 32) (hdv : dv < 32) (c : Context)
    (lo : Nat) :
    (operand env c dv = 0 → RegOp.execDiv1 env hi dv c = some (.error .DivideError)) ∧
      (operand env c dv ≠ 0 → ∃ q r dvs : BitVec 64,
        RegOp.execDiv1 env hi dv c =
          some (.ok (((c.setInt Remainder r).setInt Quotient q).setInt Divisor dvs)) ∧
        dvs.toNat = operand env c dv ∧
        Divides (dividend env c hi lo) (operand env c dv) (c.intReg lo)
          ⟨r, q, env.dataSize * 8⟩) := by
  have hhigh : ((fieldOf env.dataSize).get (c.intReg hi)).toNat = operand env c hi :=
    toNat_pick h _
  have hdvs : ((fieldOf env.dataSize).get (c.intReg dv)).toNat = operand env c dv :=
    toNat_pick h _
  have hexec : RegOp.execDiv1 env hi dv c = if (fieldOf env.dataSize).get (c.intReg dv) = 0 then
      some (.error .DivideError)
    else some (.ok (((c.setInt Remainder (divide ((fieldOf env.dataSize).get (c.intReg hi))
      ((fieldOf env.dataSize).get (c.intReg dv)) 0
      ((fieldOf env.dataSize).get (c.intReg hi))).2).setInt Quotient
        (divide ((fieldOf env.dataSize).get (c.intReg hi))
      ((fieldOf env.dataSize).get (c.intReg dv)) 0
      ((fieldOf env.dataSize).get (c.intReg hi))).1).setInt Divisor
        ((fieldOf env.dataSize).get (c.intReg dv)))) := by
    simp only [RegOp.execDiv1, psrc_eq h c (hhi.trans (by decide)),
      psrc_eq h c (hdv.trans (by decide)), Option.bind_eq_bind, Option.bind_some]
    rfl
  rw [hexec]
  generalize (fieldOf env.dataSize).get (c.intReg hi) = psrc1 at *
  generalize (fieldOf env.dataSize).get (c.intReg dv) = psrc2 at *
  have hwidth := h.width
  constructor
  · intro hzero
    have hzero' : psrc2 = 0 := by
      apply BitVec.eq_of_toNat_eq
      rw [hdvs, hzero]
      rfl
    rw [if_pos hzero']
  · intro hne
    have hne' : ¬ psrc2 = 0 := by
      intro hzero
      rw [hzero] at hdvs
      exact hne hdvs.symm
    refine ⟨_, _, _, if_neg hne', hdvs, ?_⟩
    have hstart : Tracks (dividend env c hi lo) (operand env c dv) (env.dataSize * 8) 0 psrc1 := by
      refine ⟨0, rfl, ?_⟩
      have hdiv : dividend env c hi lo / 2 ^ (env.dataSize * 8) = psrc1.toNat := by
        rw [hhigh, dividend, Nat.mul_comm, Nat.mul_add_div (Nat.two_pow_pos _),
          Nat.div_eq_of_lt (operand_lt env c lo), Nat.add_zero]
      rw [← hdiv]
      exact Framework.Dividing.start _ _ _
    have hbits (i : Nat) (hlt : i < env.dataSize * 8) := testBit_dividend c hi lo hlt
    have hdone {p : Pull} (hp : p.remaining = env.dataSize * 8) :
        p.remaining = 0 → p.dividend.toNat < operand env c dv := by
      intro hzero
      omega
    rw [← hdvs] at *
    rcases divide_spec psrc1 _ 0 hne with ⟨hlt, heq⟩ | ⟨t, r, heq, -, hfits, hr, honce⟩
    · rw [heq]
      exact ⟨hstart, hbits, fun _ => hlt, hdone rfl⟩
    · rw [heq]
      refine ⟨hstart.subtract hfits hr, hbits, fun hle => ?_, hdone rfl⟩
      have hlt := psrc1.isLt
      have hone := honce (by omega)
      change r.toNat < _
      rw [hr, hone]
      omega

end Loop

/-- The microops from `div1` to the branch, which stand at `upc` and divide the registers `hi` and
`src` by `dv`. -/
def divLoop (env : EmulEnv) (upc hi dv src cnt : Nat) : List RegOp :=
  [.div1 hi dv,
    .div2i cnt src (BitVec.ofNat 8 (env.dataSize * 8)) 0,
    .div2 cnt src cnt 0,
    .div2 cnt src cnt 0,
    .div2 cnt src cnt 0,
    .div2 cnt src cnt 0,
    .div2 cnt src cnt EZFBit,
    .br (upc + 3) .NotEZF]

def DIV_R (env : EmulEnv) : List RegOp :=
  divLoop env 0 INTREG_RDX env.reg INTREG_RAX (INTREG_MICRO 1) ++
    [.divq INTREG_RAX, .divr INTREG_RDX]

section Loop

variable {env : EmulEnv} {c : Context} {src cnt hi dv upc : Nat} {ops : List RegOp}

theorem operand_cleared {r : Nat} (hr : r ≠ ZeroReg) :
    operand env (c.setInt ZeroReg 0) r = operand env c r := by
  rw [operand, Context.intReg_setInt _ (by decide), if_neg hr]
  rfl

theorem divLoop_reaches (h : env.Sized) (hregs : LoopRegs src cnt) (hhi : hi < 32)
    (hhi₀ : hi ≠ ZeroReg) (hdv : dv < 32) (hdv₀ : dv ≠ ZeroReg)
    (hp : Piece ops upc (divLoop env upc hi dv src cnt)) (htidy : c.Tidy) :
    (operand env c dv = 0 → step env ops upc c = some (.error .DivideError)) ∧
      (operand env c dv ≠ 0 → ∃ c', Reaches env ops (upc, c) (upc + 8, c') ∧
        Divided c cnt (dividend env c hi src) (operand env c dv) c') := by
  have hdiv1 : ops[upc]? = some (.div1 hi dv) := hp.get (i := 0) rfl
  obtain ⟨hfault, hok⟩ := execDiv1_spec h hhi hdv (c.setInt ZeroReg 0) src
  have hdividend : dividend env (c.setInt ZeroReg 0) hi src = dividend env c hi src := by
    rw [dividend, operand_cleared hhi₀, operand_cleared hregs.src_ne]
    rfl
  have hsrc : (c.setInt ZeroReg 0).intReg src = c.intReg src := by
    rw [Context.intReg_setInt _ (by decide), if_neg hregs.src_ne]
  rw [operand_cleared hdv₀] at hfault hok
  constructor
  · intro hzero
    rw [step, hdiv1]
    simp only [Option.bind_eq_bind, Option.bind_some, RegOp.exec, hfault hzero]
    rfl
  · intro hne
    obtain ⟨q, r, dvs, hexec, hdvs, hdivides⟩ := hok hne
    rw [hdividend, hsrc] at hdivides
    let c₁ := (((c.setInt ZeroReg 0).setInt Remainder r).setInt Quotient q).setInt Divisor dvs
    have hs₁ : step env ops upc c = some (.ok (upc + 1, c₁)) := by
      rw [step, hdiv1]
      simp only [Option.bind_eq_bind, Option.bind_some, RegOp.exec, hexec]
      rfl
    have hint (s : Nat) : (c₁.setInt ZeroReg 0).intReg s = if s = ZeroReg then 0
        else if s = Divisor then dvs else if s = Quotient then q
        else if s = Remainder then r else c.intReg s := by
      rw [Context.intReg_setInt _ (by decide), Context.intReg_setInt _ (by decide),
        Context.intReg_setInt _ (by decide), Context.intReg_setInt _ (by decide),
        Context.intReg_setInt _ (by decide)]
      split_ifs <;> rfl
    have himm : ((BitVec.ofNat 8 (env.dataSize * 8)).setWidth 64).toNat = env.dataSize * 8 := by
      rcases h with h | h | h <;> rw [h] <;> rfl
    have hpow : env.dataSize * 8 < 2 ^ (env.dataSize * 8) := Nat.lt_two_pow_self
    have hlow : Quotient = 34 ∧ Remainder = 35 ∧ Divisor = 36 := by decide
    obtain ⟨hq₀, hr₀, hd₀⟩ := hlow
    have hsrc_lt := hregs.src_lt
    obtain ⟨c₂, hexec₂, hc₂, -⟩ := execDiv2_spec (c := c₁.setInt ZeroReg 0)
      (d := operand env c dv) (n := dividend env c hi src) h c
      ((BitVec.ofNat 8 (env.dataSize * 8)).setWidth 64) hregs hne
      (by rw [hint, if_neg (by decide), if_pos rfl]; exact hdvs) (by rw [himm]; exact hpow)
      (by
        rw [himm, hint src, if_neg hregs.src_ne, if_neg (by omega), if_neg (by omega),
          if_neg (by omega), hint Remainder, if_neg (by decide), if_neg (by decide),
          if_neg (by decide), if_pos rfl, hint Quotient, if_neg (by decide), if_neg (by decide),
          if_pos rfl]
        exact hdivides)
      (by
        intro s hs₀ _ hsr hsq hsd
        rw [hint, if_neg hs₀, if_neg hsd, if_neg hsq, if_neg hsr])
      (fun _ _ => rfl) htidy (Or.inl rfl)
    have hs₂ : step env ops (upc + 1) c₁ = some (.ok (upc + 2, c₂)) := by
      rw [step, hp.get (i := 1) rfl]
      change (RegOp.div2i cnt src (BitVec.ofNat 8 (env.dataSize * 8)) 0).exec env _ _ = _
      simp only [RegOp.exec, Option.bind_eq_bind, hexec₂]
      rfl
    obtain ⟨c₃, hs₃, hc₃, -⟩ := step_div2 h hregs hne (Or.inl rfl) (hp.get (i := 2) rfl) hc₂
    obtain ⟨c₄, hrun, hc₄, hzero⟩ := loop_reaches h hregs hne (upc + 3)
      (hp.get (i := 3) rfl) (hp.get (i := 4) rfl) (hp.get (i := 5) rfl)
      (hp.get (i := 6) rfl) (hp.get (i := 7) rfl) hc₃
    have hstart : Reaches env ops (upc, c) (upc + 3, c₃) :=
      .tail (.tail (.single hs₁) hs₂) hs₃
    exact ⟨c₄, hstart.trans hrun, hc₄.ends hzero⟩

theorem step_divq (h : env.Sized) {upc dest : Nat} (hdest : dest < 64)
    (hop : ops[upc]? = some (.divq dest)) (c : Context) :
    step env ops upc c = some (.ok (upc + 1, (c.setInt ZeroReg 0).setInt dest
      (written env.dataSize ((c.setInt ZeroReg 0).intReg dest) (c.intReg Quotient)))) := by
  have hq : (c.setInt ZeroReg 0).intReg Quotient = c.intReg Quotient := by
    rw [Context.intReg_setInt _ (by decide), if_neg (by decide)]
  rw [step, hop]
  simp only [Option.bind_eq_bind, Option.bind_some, RegOp.exec, setDest_eq h _ hdest, hq]
  rfl

theorem step_divr (h : env.Sized) {upc dest : Nat} (hdest : dest < 64)
    (hop : ops[upc]? = some (.divr dest)) (c : Context) :
    step env ops upc c = some (.ok (upc + 1, (c.setInt ZeroReg 0).setInt dest
      (written env.dataSize ((c.setInt ZeroReg 0).intReg dest) (c.intReg Remainder)))) := by
  have hr : (c.setInt ZeroReg 0).intReg Remainder = c.intReg Remainder := by
    rw [Context.intReg_setInt _ (by decide), if_neg (by decide)]
  rw [step, hop]
  simp only [Option.bind_eq_bind, Option.bind_some, RegOp.exec, setDest_eq h _ hdest, hr]
  rfl

end Loop

/-- What a division leaves: its quotient and its remainder, cut to the operand, in `rax` and `rdx`,
and no other register of the architecture changed but the microcode's own two flags. -/
structure DivisionResult (env : EmulEnv) (c c' : Context) (quotient remainder : Int) : Prop where
  rax : c'.intReg INTREG_RAX =
    written env.dataSize (c.intReg INTREG_RAX) (BitVec.ofInt 64 quotient)
  rdx : c'.intReg INTREG_RDX =
    written env.dataSize (c.intReg INTREG_RDX) (BitVec.ofInt 64 remainder)
  regs : ∀ r < numIntRegs, r ≠ INTREG_RAX → r ≠ INTREG_RDX → c'.intReg r = c.intReg r
  flags : ∀ f, f ≠ .ecf → f ≠ .ezf → c'.ccReg f = c.ccReg f
  tidy : c'.Tidy

/-- The same for a natural number below `2 ^ 64` and one that has lost its upper bits. -/
theorem eq_ofInt {v : BitVec 64} {m : Nat} (hv : v.toNat = m % 2 ^ 64) :
    v = BitVec.ofInt 64 (m : Int) := by
  rw [BitVec.ofInt_natCast]
  apply BitVec.eq_of_toNat_eq
  rw [hv, BitVec.toNat_ofNat]

private theorem DIV_R_loop (env : EmulEnv) :
    Piece (DIV_R env) 0 (divLoop env 0 INTREG_RDX env.reg INTREG_RAX (INTREG_MICRO 1)) :=
  ⟨[], [.divq INTREG_RAX, .divr INTREG_RDX], rfl, rfl⟩

private theorem div_loopRegs : LoopRegs INTREG_RAX (INTREG_MICRO 1) := by
  constructor <;> decide

private theorem div_reaches {env : EmulEnv} (h : env.Sized) {c : Context} (htidy : c.Tidy)
    (hne : operand env c env.reg ≠ 0) :
    ∃ c', Reaches env (DIV_R env) (0, c) (10, c') ∧ DivisionResult env c c'
      ((dividend env c INTREG_RDX INTREG_RAX / operand env c env.reg : Nat) : Int)
      ((dividend env c INTREG_RDX INTREG_RAX % operand env c env.reg : Nat) : Int) := by
  have hreg : (env.reg : Nat) < 16 := env.reg.isLt
  obtain ⟨c₁, hrun, hc₁⟩ := (divLoop_reaches h div_loopRegs (by decide) (by decide) (by omega)
    (Nat.ne_of_lt hreg) (DIV_R_loop env) htidy).2 hne
  have hkept {r : Nat} (hr : r < numIntRegs) : c₁.intReg r = c.intReg r :=
    hc₁.kept hr (by decide)
  have hquot : c₁.intReg Quotient = BitVec.ofInt 64 _ := eq_ofInt hc₁.quotient
  have hrem : c₁.intReg Remainder = BitVec.ofInt 64 _ :=
    eq_ofInt (hc₁.remainder.trans
      (Nat.mod_eq_of_lt (hc₁.remainder ▸ (c₁.intReg Remainder).isLt)).symm)
  have hclear {c : Context} {r : Nat} (hr : r ≠ ZeroReg) :
      (c.setInt ZeroReg 0).intReg r = c.intReg r := by
    rw [Context.intReg_setInt _ (by decide), if_neg hr]
  have hs₁ := step_divq h (by decide) (show (DIV_R env)[8]? = some _ from rfl) c₁
  rw [hclear (by decide : INTREG_RAX ≠ ZeroReg), hkept (by decide : INTREG_RAX < numIntRegs),
    hquot] at hs₁
  generalize hc₂ : (c₁.setInt ZeroReg 0).setInt INTREG_RAX _ = c₂ at hs₁
  have hint₂ {r : Nat} (hr : r ≠ INTREG_RAX) (hr₀ : r ≠ ZeroReg) :
      c₂.intReg r = c₁.intReg r := by
    rw [← hc₂, Context.intReg_setInt _ (by decide), if_neg hr, hclear hr₀]
  have hs₂ := step_divr h (by decide) (show (DIV_R env)[9]? = some _ from rfl) c₂
  rw [hclear (by decide : INTREG_RDX ≠ ZeroReg), hint₂ (by decide) (by decide),
    hkept (by decide : INTREG_RDX < numIntRegs), hint₂ (by decide) (by decide), hrem] at hs₂
  refine ⟨_, (hrun.tail hs₁).tail hs₂, ?_, ?_, ?_, ?_, ?_⟩
  · rw [Context.intReg_setInt _ (by decide), if_neg (by decide), hclear (by decide), ← hc₂,
      Context.intReg_setInt _ (by decide), if_pos rfl]
  · rw [Context.intReg_setInt _ (by decide), if_pos rfl]
  · intro r hr hrax hrdx
    have hr₀ : r ≠ ZeroReg := Nat.ne_of_lt hr
    rw [Context.intReg_setInt _ (by decide), if_neg hrdx, hclear hr₀, hint₂ hrax hr₀, hkept hr]
  · intro f _ hf
    rw [← hc₂]
    exact hc₁.flags f hf
  · rw [← hc₂]
    exact hc₁.tidy

/-- `DIV`, whatever the operands: a fault when the divisor is nought, and otherwise the quotient
and the remainder of the double-width dividend. A quotient that does not fit is cut, where the
architecture has a fault. -/
theorem div_divides {env : EmulEnv} (h : env.Sized) (c : Context) (htidy : c.Tidy) :
    (operand env c env.reg = 0 →
      ∃ n, ∀ m ≥ n, execute env (DIV_R env) m 0 c = some (.error .DivideError)) ∧
    (operand env c env.reg ≠ 0 → ∃ c',
      (∃ n, ∀ m ≥ n, execute env (DIV_R env) m 0 c = some (.ok c')) ∧
        DivisionResult env c c'
          ((dividend env c INTREG_RDX INTREG_RAX / operand env c env.reg : Nat) : Int)
          ((dividend env c INTREG_RDX INTREG_RAX % operand env c env.reg : Nat) : Int)) := by
  have hreg : (env.reg : Nat) < 16 := env.reg.isLt
  constructor
  · intro hzero
    have hfault := (divLoop_reaches h div_loopRegs (by decide) (by decide) (by omega)
      (Nat.ne_of_lt hreg) (DIV_R_loop env) htidy).1 hzero
    exact execute_of_fault (s := (0, c)) .refl hfault
  · intro hne
    obtain ⟨c', hrun, hresult⟩ := div_reaches h htidy hne
    exact ⟨c', execute_of_reaches hrun, hresult⟩

/-- Five times `2 ^ 64` and one, by three: the quotient does not fit and is cut. -/
theorem div_divides_cut :
    let env : EmulEnv := { reg := 1, regm := 0, dataSize := 8 }
    let c : Context := ⟨fun r => if r = 1 then 3 else if r = 2 then 5 else 1, fun _ => 0⟩
    ∃ n c', execute env (DIV_R env) n 0 c = some (.ok c') ∧
      c'.intReg INTREG_RAX = 0xaaaaaaaaaaaaaaab ∧ c'.intReg INTREG_RDX = 0 := by
  intro env c
  have htidy : c.Tidy := fun f => by cases f <;> decide
  have hsized : env.Sized := Or.inr (Or.inr rfl)
  obtain ⟨c', ⟨n, hn⟩, hresult⟩ := (div_divides hsized c htidy).2 (by decide)
  refine ⟨n, c', hn n le_rfl, ?_, ?_⟩
  · rw [hresult.rax]
    decide
  · rw [hresult.rdx]
    decide

end ModernArch.X86
