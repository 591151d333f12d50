import ModernArch.Engy.Replay
import ModernArch.Framework.Settling
import Mathlib.Order.Nat

/-!
# Levels under a constant energy

One energy, fed again and again: the frequency machine comes to rest, and the voltage machine is
at the level of the energy. Energies are compared as floats are, where some are incomparable.
-/

namespace ModernArch.Engy
open Framework EnergyMgmt
set_option linter.unusedSectionVars false

variable {σ E S V : Type} [Zero V]

/-- The machine is attached, and the event is scheduled when messages wait. -/
structure World.Ready (w : World σ S V) : Prop where
  mgmt : w.mgmt = true
  event : w.energyMgmt.eventScheduled = true ↔ w.energyMgmt.msgTogo ≠ []

theorem World.Ready.announced {w : World σ S V} (h : w.Ready) (s : σ) (msg : EnergyMsg V) :
    (w.announced s msg).Ready :=
  ⟨h.mgmt, by simp [World.announced]⟩

/-- The world after an action that does not fail. -/
def World.after (c : SMM σ S V Unit) (w : World σ S V) : World σ S V :=
  match c.run w with
  | .ok (_, w') => w'
  | .error _ => w

private theorem World.after_of_run {c : SMM σ S V Unit} {w w' : World σ S V}
    (h : c.run w = .ok ((), w')) : w.after c = w' := by
  simp [World.after, h]

/-- A quiet action changes nothing; any other moves to a state with `P` and tells of it. -/
structure Step (P : σ → Bool → Prop) (c : SMM σ S V Unit) (w w' : World σ S V) : Prop where
  run : c.run w = .ok ((), w')
  ready : w'.Ready
  moved : w' = w ∨ P w'.state w'.poweronDirtyPatch ∧ ∃ msg, w'.sent = w.sent ++ [msg]

theorem Moves.step {receive : σ → EnergyMsg V → Option σ} {P : σ → Bool → Prop}
    {w : World σ S V} {c : SMM σ S V Unit} (h : Moves receive P w c) (hw : w.Ready) :
    Step P c w (w.after c) := by
  rcases h with hquiet | ⟨s, type, b, -, -, hb, hrun⟩
  · rw [World.after_of_run hquiet]
    exact ⟨hquiet, hw, Or.inl rfl⟩
  · let w₁ : World σ S V := { w with poweronDirtyPatch := b }
    have hw₁ : w₁.Ready := ⟨hw.mgmt, hw.event⟩
    have hmove := hrun.trans (become_run hw₁.mgmt hw₁.event s type)
    rw [World.after_of_run hmove]
    exact ⟨hmove, hw₁.announced s _, Or.inr ⟨hb, _, rfl⟩⟩

namespace DFS_LRY

/-- Opposite edges do not overlap. -/
structure Params.Ordered [LE E] (p : Params E) : Prop where
  freq21 : p.thres2to1 ≤ p.thres1to2
  freq32 : p.thres3to2 ≤ p.thres2to3
  freq43 : p.thres4to3 ≤ p.thres3to4
  freq54 : p.thres5to4 ≤ p.thres4to5
  retention : p.thres1toRetention ≤ p.thresRetentionTo1
  off : p.thresRetentionToOff ≤ p.thresOffTo1

variable [Preorder E] [DecidableLT E]

/-- A bound on the moves that are left in a state. -/
def rank (p : Params E) (e : E) : State → Nat
  | .stateInit => 6
  | .statePoweroff => if e > p.thresOffTo1 then 5 else 0
  | .stateRetention =>
      if e > p.thresRetentionTo1 then 5 else if e < p.thresRetentionToOff then 1 else 0
  | .stateFreq1 => if e > p.thres1to2 then 4 else if e < p.thres1toRetention then 2 else 0
  | .stateFreq2 => if e < p.thres2to1 then 3 else if e > p.thres2to3 then 3 else 0
  | .stateFreq3 => if e < p.thres3to2 then 4 else if e > p.thres3to4 then 2 else 0
  | .stateFreq4 => if e < p.thres4to3 then 5 else if e > p.thres4to5 then 1 else 0
  | .stateFreq5 => if e < p.thres5to4 then 6 else 0

theorem rank_le (p : Params E) (e : E) (s : State) : rank p e s ≤ 6 := by
  cases s <;> grind [rank]

/-- Every move is to a state of lower rank. -/
theorem update_moves {p : Params E} (hp : p.Ordered) (e : E) {w : World State S V}
    (hs : w.state ≠ .stateInit) :
    Moves receive (fun s _ => s ≠ .stateInit ∧ rank p e s < rank p e w.state) w (update p e) := by
  have h21 : e < p.thres2to1 → ¬ p.thres1to2 < e := fun h h' =>
    lt_irrefl e ((h.trans_le hp.freq21).trans h')
  have h32 : e < p.thres3to2 → ¬ p.thres2to3 < e := fun h h' =>
    lt_irrefl e ((h.trans_le hp.freq32).trans h')
  have h43 : e < p.thres4to3 → ¬ p.thres3to4 < e := fun h h' =>
    lt_irrefl e ((h.trans_le hp.freq43).trans h')
  have h54 : e < p.thres5to4 → ¬ p.thres4to5 < e := fun h h' =>
    lt_irrefl e ((h.trans_le hp.freq54).trans h')
  have hret : e < p.thres1toRetention → ¬ p.thresRetentionTo1 < e := fun h h' =>
    lt_irrefl e ((h.trans_le hp.retention).trans h')
  have hoff : e < p.thresRetentionToOff → ¬ p.thresOffTo1 < e := fun h h' =>
    lt_irrefl e ((h.trans_le hp.off).trans h')
  have hedge {type : MsgType} {source target : State} (hsource : w.state = source)
      (he : edge type = some (source, target)) (hne : target ≠ source)
      (hrank : target ≠ .stateInit ∧ rank p e target < rank p e source) :
      Moves receive (fun s _ => s ≠ .stateInit ∧ rank p e s < rank p e w.state) w
        (become target type.toInt) := by
    subst hsource
    exact Moves.of_become hne (receive_edge he) hrank
  apply Moves.of_get
  apply Moves.of_ite fun h => absurd h hs
  apply Moves.of_ite fun h => hedge h.1 rfl (by decide) (by grind [rank])
  apply Moves.of_ite fun h => hedge h.1 rfl (by decide) (by grind [rank])
  apply Moves.of_ite fun h => hedge h.1 rfl (by decide) (by grind [rank])
  apply Moves.of_ite fun h => hedge h.1 rfl (by decide) (by grind [rank])
  apply Moves.of_ite fun h => hedge h.1 rfl (by decide) (by grind [rank])
  apply Moves.of_ite fun h => hedge h.1 rfl (by decide) (by grind [rank])
  apply Moves.of_ite fun h => hedge h.1 rfl (by decide) (by grind [rank])
  apply Moves.of_ite fun h => hedge h.1 rfl (by decide) (by grind [rank])
  apply Moves.of_ite fun h => hedge h.1 rfl (by decide) (by grind [rank])
  apply Moves.of_ite fun h => hedge h.1 rfl (by decide) (by grind [rank])
  apply Moves.of_ite
  · intro h
    refine Or.inr ⟨.stateFreq1, MsgType.poweron.toInt, true, ?_, ?_, ⟨by decide, ?_⟩, rfl⟩
    · simp [h.1]
    · rw [h.1]
      exact receive_edge rfl
    · rw [h.1]
      grind [rank]
  apply Moves.of_ite
  · intro h
    refine Or.inr ⟨.statePoweroff, MsgType.poweroff.toInt, false, ?_, rfl, ⟨by decide, ?_⟩, rfl⟩
    · simp [h.1]
    · rw [h.1]
      grind [rank]
  exact Moves.of_pure w

/-- Between one update and the next the machine stays attached and out of its first state. -/
theorem update_lowers {p : Params E} (hp : p.Ordered) (e : E) :
    Lowers (fun w : World State S V => w.Ready ∧ w.state ≠ .stateInit)
      (World.after (update p e)) fun w => rank p e w.state := by
  constructor
  · rintro w ⟨hw, hs⟩
    have hstep := (update_moves hp e hs).step hw
    refine ⟨hstep.ready, ?_⟩
    rcases hstep.moved with heq | ⟨hmoved, -⟩
    · rwa [heq]
    · exact hmoved.1
  · rintro w ⟨hw, hs⟩
    rcases ((update_moves hp e hs).step hw).moved with heq | ⟨hmoved, -⟩
    · exact Or.inl heq
    · exact Or.inr hmoved.2

/-- Under a constant energy the updates never fail, never lead back to a state that was left, and
after at most six of them, each with its message, change nothing any more. -/
theorem settles {p : Params E} (hp : p.Ordered) (e : E) {w : World State S V} (hw : w.Ready)
    (hs : w.state ≠ .stateInit) :
    ∃ ws : Nat → World State S V, ws 0 = w ∧
      (∀ n, (update p e).run (ws n) = .ok ((), ws (n + 1))) ∧
      (∀ i j k, i ≤ j → j ≤ k → (ws k).state = (ws i).state → (ws j).state = (ws i).state) ∧
      ∃ n ≤ 6, (∀ k < n, ∃ msg, (ws (k + 1)).sent = (ws k).sent ++ [msg]) ∧
        ∀ k, n ≤ k → ws k = ws n := by
  have hlow := update_lowers (S := S) (V := V) hp e
  let ws (n : Nat) : World State S V := (World.after (update p e))^[n] w
  have hstep (n : Nat) := by
    have hn := hlow.iterate ⟨hw, hs⟩ n
    exact (update_moves hp e hn.2).step hn.1
  have hsucc (n : Nat) : ws (n + 1) = (ws n).after (update p e) :=
    Function.iterate_succ_apply' _ n w
  refine ⟨ws, rfl, ?_, ?_, ?_⟩
  · intro n
    rw [hsucc]
    exact (hstep n).run
  · intro i j k hij hjk heq
    exact congrArg World.state (hlow.no_return ⟨hw, hs⟩ hij hjk (congrArg (rank p e) heq))
  · obtain ⟨n, hn, hmove, hrest⟩ := hlow.rests ⟨hw, hs⟩
    refine ⟨n, Nat.le_trans hn (rank_le p e w.state), ?_, hrest⟩
    intro k hk
    rw [hsucc]
    rcases (hstep k).moved with heq | ⟨-, hmsg⟩
    · have hlt := hmove k hk
      rw [Function.iterate_succ_apply', heq] at hlt
      exact absurd hlt (Nat.lt_irrefl _)
    · exact hmsg

/-- Thresholds in steps of ten with a gap of one, and no energy at the highest level. -/
theorem settles_empty :
    let p : Params Nat := ⟨40, 30, 20, 10, 5, 2, 7, 6, 11, 21, 31, 41⟩
    let w : World State Unit Nat :=
      { state := .stateFreq5, mgmt := true, energyMgmt := EnergyMgmt.start [] }
    ∃ ws : Nat → World State Unit Nat, ws 0 = w ∧
      (∀ n, (update p 0).run (ws n) = .ok ((), ws (n + 1))) ∧ ∃ n ≤ 6, ∀ k, n ≤ k → ws k = ws n := by
  intro p w
  have hp : p.Ordered := by constructor <;> decide
  obtain ⟨ws, h0, hrun, -, n, hn, -, hrest⟩ :=
    settles hp 0 (w := w) ⟨rfl, by simp [w, EnergyMgmt.start]⟩ (by decide)
  exact ⟨ws, h0, hrun, n, hn, hrest⟩

end DFS_LRY

namespace DVFSSM

structure Params.Ordered [LT E] (p : Params E) : Prop where
  lowMid : p.thresOffLow < p.thresLowMid
  midHigh : p.thresLowMid < p.thresMidHigh

def Params.thresholds (p : Params E) : List E := [p.thresOffLow, p.thresLowMid, p.thresMidHigh]

/-- The values of the enumeration. -/
def State.value : State → Nat
  | stateInit => 0
  | stateOff => 1
  | stateLvlLow => 2
  | stateLvlMiddle => 3
  | stateLvlHigh => 4

variable [Preorder E] [DecidableLT E]

/-- The level that the guards give to an energy. -/
def level (p : Params E) (e : E) : Option State :=
  if e < p.thresOffLow then some .stateOff
  else if e > p.thresOffLow ∧ e < p.thresLowMid then some .stateLvlLow
  else if e > p.thresLowMid ∧ e < p.thresMidHigh then some .stateLvlMiddle
  else if e > p.thresMidHigh then some .stateLvlHigh
  else none

private theorem level_off {p : Params E} {e : E} (h : e < p.thresOffLow) :
    level p e = some .stateOff := by
  simp [level, h]

private theorem level_low {p : Params E} {e : E} (h : p.thresOffLow < e) (h' : e < p.thresLowMid) :
    level p e = some .stateLvlLow := by
  simp [level, h, h', lt_asymm h]

private theorem level_middle {p : Params E} (hp : p.Ordered) {e : E} (h : p.thresLowMid < e)
    (h' : e < p.thresMidHigh) : level p e = some .stateLvlMiddle := by
  simp [level, h, h', lt_asymm h, lt_asymm (hp.lowMid.trans h)]

private theorem level_high {p : Params E} (hp : p.Ordered) {e : E} (h : p.thresMidHigh < e) :
    level p e = some .stateLvlHigh := by
  have hmid := hp.midHigh.trans h
  simp [level, h, lt_asymm h, lt_asymm hmid, lt_asymm (hp.lowMid.trans hmid)]

private theorem level_isSome_iff {p : Params E} (hp : p.Ordered) {e : E} :
    (∃ s, level p e = some s) ↔ ∀ t ∈ p.thresholds, e < t ∨ t < e := by
  simp only [Params.thresholds, List.forall_mem_cons, List.not_mem_nil, false_imp_iff,
    implies_true, and_true]
  constructor
  · rintro ⟨s, hs⟩
    simp only [level] at hs
    split_ifs at hs with hoff hlow hmid hhigh
    · have hlow := hoff.trans hp.lowMid
      exact ⟨Or.inl hoff, Or.inl hlow, Or.inl (hlow.trans hp.midHigh)⟩
    · exact ⟨Or.inr hlow.1, Or.inl hlow.2, Or.inl (hlow.2.trans hp.midHigh)⟩
    · exact ⟨Or.inr (hp.lowMid.trans hmid.1), Or.inr hmid.1, Or.inl hmid.2⟩
    · have hmid := hp.midHigh.trans hhigh
      exact ⟨Or.inr (hp.lowMid.trans hmid), Or.inr hmid, Or.inr hhigh⟩
  · rintro ⟨hoff | hoff, hmid, hhigh⟩
    · exact ⟨_, level_off hoff⟩
    · rcases hmid with hmid | hmid
      · exact ⟨_, level_low hoff hmid⟩
      · rcases hhigh with hhigh | hhigh
        · exact ⟨_, level_middle hp hmid hhigh⟩
        · exact ⟨_, level_high hp hhigh⟩

private theorem level_mono {p : Params E} (hp : p.Ordered) {e e' : E} (hle : e ≤ e') {s s' : State}
    (h : level p e = some s) (h' : level p e' = some s') : s.value ≤ s'.value := by
  simp only [level] at h
  split_ifs at h with hoff hlow hmid hhigh
  · cases h
    simp only [level] at h'
    split_ifs at h' <;> cases h' <;> decide
  · cases h
    have habove := hlow.1.trans_le hle
    simp only [level, if_neg (lt_asymm habove)] at h'
    split_ifs at h' <;> cases h' <;> decide
  · cases h
    have habove := hmid.1.trans_le hle
    simp only [level, if_neg (lt_asymm (hp.lowMid.trans habove)), lt_asymm habove, and_false,
      if_false] at h'
    split_ifs at h' <;> cases h' <;> decide
  · cases h
    rw [level_high hp (hhigh.trans_le hle)] at h'
    cases h'
    decide

private theorem update_ends {p : Params E} (hp : p.Ordered) (e : E) {w : World State S V}
    (hw : w.Ready) (hs : w.state ≠ .stateInit) :
    ∃ w', (update p e).run w = .ok ((), w') ∧ w'.state = (level p e).getD w.state := by
  have hmove (s : State) (type : Int) (hl : level p e = some s) :
      ∃ w', (become s type : SMM State S V Unit).run w = .ok ((), w') ∧
        w'.state = (level p e).getD w.state := by
    refine ⟨_, become_run hw.mgmt hw.event s type, ?_⟩
    rw [hl]
    rfl
  change ∃ w', (if w.state = .stateInit then setState .stateOff
    else if w.state ≠ .stateOff ∧ e < p.thresOffLow then become .stateOff MsgType.poweroff.toInt
    else if w.state ≠ .stateLvlLow ∧ e > p.thresOffLow ∧ e < p.thresLowMid then
      become .stateLvlLow MsgType.dvfsLow.toInt
    else if w.state ≠ .stateLvlMiddle ∧ e > p.thresLowMid ∧ e < p.thresMidHigh then
      become .stateLvlMiddle MsgType.dvfsMiddle.toInt
    else if w.state ≠ .stateLvlHigh ∧ e > p.thresMidHigh then
      become .stateLvlHigh MsgType.dvfsHigh.toInt
    else pure () : SMM State S V Unit).run w = .ok ((), w') ∧ _
  rw [if_neg hs]
  split_ifs with hoff hlow hmid hhigh
  · exact hmove _ _ (level_off hoff.2)
  · exact hmove _ _ (level_low hlow.2.1 hlow.2.2)
  · exact hmove _ _ (level_middle hp hmid.2.1 hmid.2.2)
  · exact hmove _ _ (level_high hp hhigh.2)
  · refine ⟨w, rfl, ?_⟩
    simp only [level]
    split_ifs with h₁ h₂ h₃ h₄
    · exact not_not.mp fun hne => hoff ⟨hne, h₁⟩
    · exact not_not.mp fun hne => hlow ⟨hne, h₂⟩
    · exact not_not.mp fun hne => hmid ⟨hne, h₃⟩
    · exact not_not.mp fun hne => hhigh ⟨hne, h₄⟩
    · rfl

/-- An update with this energy ends in `s`, from every state but the first. -/
def EndsIn (S V : Type) [Zero V] (p : Params E) (e : E) (s : State) : Prop :=
  ∀ w : World State S V, w.Ready → w.state ≠ .stateInit →
    ∃ w', (update p e).run w = .ok ((), w') ∧ w'.state = s

/-- A machine that is attached and has sent nothing. -/
def World.attached (S V : Type) (s : State) : World State S V :=
  { state := s, mgmt := true, energyMgmt := EnergyMgmt.start [] }

private theorem World.attached_ready (s : State) : (World.attached S V s).Ready :=
  ⟨rfl, by simp [attached, EnergyMgmt.start]⟩

private theorem endsIn_iff {p : Params E} (hp : p.Ordered) {e : E} {s : State} :
    EndsIn S V p e s ↔ level p e = some s := by
  constructor
  · intro h
    have hfrom (s₀ : State) (h₀ : s₀ ≠ .stateInit) : (level p e).getD s₀ = s := by
      obtain ⟨w, hrun, hs⟩ := h _ (World.attached_ready s₀) h₀
      obtain ⟨w', hrun', hs'⟩ := update_ends hp e (World.attached_ready (S := S) (V := V) s₀) h₀
      cases hrun.symm.trans hrun'
      exact hs'.symm.trans hs
    cases hl : level p e with
    | none =>
        have hoff := hfrom .stateOff (by decide)
        have hhigh := hfrom .stateLvlHigh (by decide)
        rw [hl] at hoff hhigh
        cases hoff.trans hhigh.symm
    | some s' =>
        have hoff := hfrom .stateOff (by decide)
        rw [hl] at hoff
        exact congrArg some hoff
  · intro h w hw hs
    obtain ⟨w', hrun, hs'⟩ := update_ends hp e hw hs
    rw [h] at hs'
    exact ⟨w', hrun, hs'⟩

/-- One update forgets where it started exactly when the energy is strictly on one side of every
threshold. The state it then ends in is the lowest one below the first threshold, and rises with
the energy. -/
theorem level_of_energy {p : Params E} (hp : p.Ordered) :
    (∀ e, (∃ s, EndsIn S V p e s) ↔ ∀ t ∈ p.thresholds, e < t ∨ t < e) ∧
      (∀ e, e < p.thresOffLow → EndsIn S V p e .stateOff) ∧
      ∀ e e' s s', e ≤ e' → EndsIn S V p e s → EndsIn S V p e' s' → s.value ≤ s'.value := by
  refine ⟨?_, ?_, ?_⟩
  · intro e
    simp only [endsIn_iff hp]
    exact level_isSome_iff hp
  · intro e he
    exact (endsIn_iff hp).mpr (level_off he)
  · intro e e' s s' hle hs hs'
    exact level_mono hp hle ((endsIn_iff hp).mp hs) ((endsIn_iff hp).mp hs')

theorem level_of_energy_execute :
    EndsIn Unit Nat (⟨10000, 20000, 30000⟩ : Params Nat) 9999 .stateOff :=
  (level_of_energy ⟨by decide, by decide⟩).2.1 9999 (by decide)

/-- An energy equal to a threshold leaves two machines with different histories apart. -/
theorem level_keeps_history :
    let p : Params Nat := ⟨10000, 20000, 30000⟩
    p.Ordered ∧ ∃ w₁ w₂ : World State Unit Nat,
      (session (machine p) [15000]).run (World.start .stateInit [()]) = .ok ((), w₁) ∧
      (session (machine p) [35000]).run (World.start .stateInit [()]) = .ok ((), w₂) ∧
      (update p 20000).run w₁ = .ok ((), w₁) ∧ w₁.state = .stateLvlLow ∧
      (update p 20000).run w₂ = .ok ((), w₂) ∧ w₂.state = .stateLvlHigh :=
  ⟨⟨by decide, by decide⟩, _, _, rfl, rfl, rfl, rfl, rfl, rfl⟩

end DVFSSM

end ModernArch.Engy
