import ModernArch.Engy.StateMachines

/-!
# Messages determine the state

A receiver that starts powered off and follows the messages of a machine holds the state of the
machine after every update.
-/

namespace ModernArch.Engy
open EnergyMgmt
set_option linter.unusedSectionVars false

variable {σ E S V : Type} [Zero V]

/-- After `EnergyMgmt::init` and its own `init` a machine is fed energies. -/
def session [OfNat E 100] (sm : BaseEnergySM σ E S V) (energies : List E) : SMM σ S V Unit := do
  mgmtInit sm
  sm.init
  forM energies sm.update

/-- Messages that were sent, oldest first. -/
def World.sent (w : World σ S V) : List (EnergyMsg V) := w.energyMgmt.accepted

def World.start (state : σ) (slaves : List S) : World σ S V :=
  { state := state, energyMgmt := EnergyMgmt.start slaves }

section Machines

variable {receive : σ → EnergyMsg V → Option σ} {off : σ} {P : σ → Bool → Prop}

/-- The receiver that has replayed every message holds the state. -/
structure Synced (receive : σ → EnergyMsg V → Option σ) (off : σ) (w : World σ S V) : Prop where
  mgmt : w.mgmt = true
  event : w.energyMgmt.eventScheduled = true ↔ w.energyMgmt.msgTogo ≠ []
  replayed : w.sent.foldlM receive off = some w.state

/-- The world after a state change is announced. -/
def World.announced (w : World σ S V) (s : σ) (msg : EnergyMsg V) : World σ S V :=
  { w with
    state := s
    energyMgmt := { w.energyMgmt.queued [msg] with eventScheduled := true } }

theorem become_run {w : World σ S V} (hm : w.mgmt = true)
    (he : w.energyMgmt.eventScheduled = true ↔ w.energyMgmt.msgTogo ≠ []) (s : σ) (type : Int) :
    (become s type).run w = .ok ((), w.announced s ⟨type, 0⟩) := by
  have hset : (setState s : SMM σ S V Unit).run w = .ok ((), { w with state := s }) := rfl
  rw [become, run_bind_ok hset]
  change (smBroadcastMsg type : SMM σ S V Unit) { w with state := s } = _
  simp only [smBroadcastMsg]
  rw [if_pos hm, broadcastMsgAsEvent_run he]
  rfl

theorem Synced.announced {w : World σ S V} (h : Synced receive off w) {s : σ}
    {msg : EnergyMsg V} (hs : receive w.state msg = some s) :
    Synced receive off (w.announced s msg) := by
  constructor
  · exact h.mgmt
  · simp [World.announced]
  · change (w.sent ++ [msg]).foldlM receive off = some s
    simp [List.foldlM_append, h.replayed, hs]

/-- An update keeps quiet and changes nothing, or it moves along a message. -/
def Moves (receive : σ → EnergyMsg V → Option σ) (P : σ → Bool → Prop) (w : World σ S V)
    (c : SMM σ S V Unit) : Prop :=
  c.run w = .ok ((), w) ∨ ∃ s type b, s ≠ w.state ∧ receive w.state ⟨type, 0⟩ = some s ∧
    P s b ∧ c.run w = (become s type).run { w with poweronDirtyPatch := b }

theorem Moves.of_get {w : World σ S V} {f : World σ S V → SMM σ S V Unit}
    (h : Moves receive P w (f w)) : Moves receive P w (get >>= f) := h

theorem Moves.of_ite {w : World σ S V} {c : Prop} [Decidable c] {a b : SMM σ S V Unit}
    (ha : c → Moves receive P w a) (hb : Moves receive P w b) :
    Moves receive P w (if c then a else b) := by
  split
  · rename_i hc
    exact ha hc
  · exact hb

theorem Moves.of_pure (w : World σ S V) : Moves receive P w (pure ()) := Or.inl rfl

theorem Moves.of_become {w : World σ S V} {s : σ} {type : Int} (hne : s ≠ w.state)
    (hs : receive w.state ⟨type, 0⟩ = some s) (hP : P s w.poweronDirtyPatch) :
    Moves receive P w (become s type) :=
  Or.inr ⟨s, type, w.poweronDirtyPatch, hne, hs, hP, rfl⟩

/-- What the three machines have in common; `P` relates the state and the global variable. -/
structure Mirrored [OfNat E 100] (sm : BaseEnergySM σ E S V)
    (receive : σ → EnergyMsg V → Option σ) (first off : σ) (P : σ → Bool → Prop) : Prop where
  start : ∀ w, w.state = first → ∃ s, (sm.update 100).run w = .ok ((), { w with state := s })
  init : ∃ type, sm.init = become off type ∧ ∀ s, receive s ⟨type, 0⟩ = some off
  off : P off false
  update : ∀ w e, P w.state w.poweronDirtyPatch → Moves receive P w (sm.update e)

/-- One update of a machine that is in step with its receiver. -/
structure Updated (w w' : World σ S V) : Prop where
  quiet : w'.state = w.state → w'.sent = w.sent
  told : w'.state ≠ w.state → ∃ msg, w'.sent = w.sent ++ [msg]

theorem Moves.run {w : World σ S V} {c : SMM σ S V Unit} (h : Moves receive P w c)
    (hw : Synced receive off w) (hP : P w.state w.poweronDirtyPatch) :
    ∃ w', c.run w = .ok ((), w') ∧ Synced receive off w' ∧ P w'.state w'.poweronDirtyPatch ∧
      Updated w w' := by
  rcases h with hquiet | ⟨s, type, b, hne, hs, hb, hrun⟩
  · exact ⟨w, hquiet, hw, hP, fun _ => rfl, fun hne => absurd rfl hne⟩
  · let w₁ : World σ S V := { w with poweronDirtyPatch := b }
    have hw₁ : Synced receive off w₁ := ⟨hw.mgmt, hw.event, hw.replayed⟩
    refine ⟨w₁.announced s ⟨type, 0⟩, hrun.trans (become_run hw₁.mgmt hw₁.event s type),
      hw₁.announced hs, hb, ?_, ?_⟩
    · intro heq
      exact absurd heq hne
    · intro _
      exact ⟨_, rfl⟩

variable [OfNat E 100]

private theorem Mirrored.updates {sm : BaseEnergySM σ E S V} {first : σ}
    (h : Mirrored sm receive first off P) (energies : List E) {w : World σ S V}
    (hw : Synced receive off w) (hP : P w.state w.poweronDirtyPatch) :
    ∃ w', (forM energies sm.update : SMM σ S V Unit).run w = .ok ((), w') ∧
      Synced receive off w' ∧ P w'.state w'.poweronDirtyPatch := by
  induction energies generalizing w with
  | nil => exact ⟨w, rfl, hw, hP⟩
  | cons e energies ih =>
      obtain ⟨w₁, hrun, hw₁, hP₁, -⟩ := (h.update w e hP).run hw hP
      obtain ⟨w', hrest, hw', hP'⟩ := ih hw₁ hP₁
      refine ⟨w', ?_, hw', hP'⟩
      rw [List.forM_cons, run_bind_ok hrun]
      exact hrest

theorem Mirrored.session {sm : BaseEnergySM σ E S V} {first : σ}
    (h : Mirrored sm receive first off P) (slaves : List S) (energies : List E) :
    ∃ w, (session sm energies).run (World.start first slaves) = .ok ((), w) ∧
      Synced receive off w ∧ P w.state w.poweronDirtyPatch := by
  let w₀ : World σ S V := { World.start first slaves with mgmt := true }
  obtain ⟨s, hs⟩ := h.start w₀ rfl
  obtain ⟨type, hinit, hoff⟩ := h.init
  let w₁ : World σ S V := { w₀ with state := s }
  have hserved := start_served slaves (V := V)
  have hpre : (mgmtInit sm).run (World.start first slaves) = .ok ((), w₁) := hs
  have hinit' : sm.init.run w₁ = .ok ((), w₁.announced off ⟨type, 0⟩) := by
    rw [hinit]
    exact become_run rfl hserved.event off type
  have hw : Synced receive off (w₁.announced off ⟨type, 0⟩) := by
    constructor
    · rfl
    · simp [World.announced]
    · have hsent : (w₁.announced off ⟨type, 0⟩).sent = [⟨type, 0⟩] := by
        change (EnergyMgmt.start slaves).accepted ++ _ = _
        rw [start_eq, List.nil_append]
      rw [hsent, List.foldlM_cons, hoff]
      rfl
  obtain ⟨w', hrun, hw', hP'⟩ := h.updates energies hw h.off
  refine ⟨w', ?_, hw', hP'⟩
  rw [Engy.session, run_bind_ok hpre, run_bind_ok hinit']
  exact hrun

end Machines

section Instances

variable [OfNat E 100] [LT E] [DecidableLT E]

private theorem TwoThresSM.mirrored (p : TwoThresSM.Params E) :
    Mirrored (TwoThresSM.machine p : BaseEnergySM TwoThresSM.State E S V) TwoThresSM.receive
      .stateInit .statePoweroff fun s _ => s ≠ .stateInit := by
  constructor
  · intro w hw
    refine ⟨.statePoweron, ?_⟩
    simp [machine, update, hw, setState]
    rfl
  · exact ⟨_, rfl, fun s => rfl⟩
  · decide
  · intro w e hP
    apply Moves.of_get
    apply Moves.of_ite (fun h => absurd h hP)
    apply Moves.of_ite fun h => by apply Moves.of_become <;> simp [h.1, receive]
    apply Moves.of_ite fun h => by apply Moves.of_become <;> simp [h.1, receive, MsgType.toInt]
    exact Moves.of_pure w

private theorem DVFSSM.mirrored (p : DVFSSM.Params E) :
    Mirrored (DVFSSM.machine p : BaseEnergySM DVFSSM.State E S V) DVFSSM.receive
      .stateInit .stateOff fun s _ => s ≠ .stateInit := by
  constructor
  · intro w hw
    refine ⟨.stateOff, ?_⟩
    simp [machine, update, hw, setState]
    rfl
  · exact ⟨_, rfl, fun s => rfl⟩
  · decide
  · intro w e hP
    apply Moves.of_get
    apply Moves.of_ite (fun h => absurd h hP)
    apply Moves.of_ite fun h => Moves.of_become h.1.symm rfl (by decide)
    apply Moves.of_ite fun h => Moves.of_become h.1.symm rfl (by decide)
    apply Moves.of_ite fun h => Moves.of_become h.1.symm rfl (by decide)
    apply Moves.of_ite fun h => Moves.of_become h.1.symm rfl (by decide)
    exact Moves.of_pure w

/-- The global variable tells whether the machine is powered off. -/
def DFS_LRY.Patched (s : DFS_LRY.State) (b : Bool) : Prop :=
  s ≠ .stateInit ∧ (b = true ↔ s ≠ .statePoweroff)

theorem DFS_LRY.receive_edge {type : DFS_LRY.MsgType} {source target : DFS_LRY.State}
    (h : DFS_LRY.edge type = some (source, target)) :
    DFS_LRY.receive source (⟨type.toInt, 0⟩ : EnergyMsg V) = some target := by
  cases type <;> simp [edge] at h <;> obtain ⟨rfl, rfl⟩ := h <;> rfl

/-- Between two levels that are powered on the global variable stays set. -/
theorem DFS_LRY.moves_edge {w : World DFS_LRY.State S V} {type : DFS_LRY.MsgType}
    {source target : DFS_LRY.State} (hP : Patched w.state w.poweronDirtyPatch)
    (hs : w.state = source) (he : edge type = some (source, target))
    (hsource : source ≠ .statePoweroff)
    (htarget : target ≠ source ∧ target ≠ .stateInit ∧ target ≠ .statePoweroff) :
    Moves receive Patched w (become target type.toInt) := by
  subst hs
  apply Moves.of_become htarget.1 (receive_edge he)
  exact ⟨htarget.2.1, iff_of_true (hP.2.mpr hsource) htarget.2.2⟩

private theorem DFS_LRY.mirrored (p : DFS_LRY.Params E) :
    Mirrored (DFS_LRY.machine p : BaseEnergySM DFS_LRY.State E S V) DFS_LRY.receive
      .stateInit .statePoweroff DFS_LRY.Patched := by
  constructor
  · intro w hw
    refine ⟨.statePoweroff, ?_⟩
    simp [machine, update, hw, setState]
    rfl
  · exact ⟨_, rfl, fun s => rfl⟩
  · simp [Patched]
  · intro w e hP
    have hedge {type : MsgType} {source target : State} (hs : w.state = source)
        (he : edge type = some (source, target)) (hsource : source ≠ .statePoweroff)
        (htarget : target ≠ source ∧ target ≠ .stateInit ∧ target ≠ .statePoweroff) :
        Moves receive Patched w (become target type.toInt) :=
      moves_edge hP hs he hsource htarget
    apply Moves.of_get
    apply Moves.of_ite (fun h => absurd h hP.1)
    apply Moves.of_ite fun h => hedge h.1 rfl (by decide) (by decide)
    apply Moves.of_ite fun h => hedge h.1 rfl (by decide) (by decide)
    apply Moves.of_ite fun h => hedge h.1 rfl (by decide) (by decide)
    apply Moves.of_ite fun h => hedge h.1 rfl (by decide) (by decide)
    apply Moves.of_ite fun h => hedge h.1 rfl (by decide) (by decide)
    apply Moves.of_ite fun h => hedge h.1 rfl (by decide) (by decide)
    apply Moves.of_ite fun h => hedge h.1 rfl (by decide) (by decide)
    apply Moves.of_ite fun h => hedge h.1 rfl (by decide) (by decide)
    apply Moves.of_ite fun h => hedge h.1 rfl (by decide) (by decide)
    apply Moves.of_ite fun h => hedge h.1 rfl (by decide) (by decide)
    apply Moves.of_ite
    · intro h
      refine Or.inr ⟨.stateFreq1, MsgType.poweron.toInt, true, ?_, ?_, by simp [Patched], rfl⟩
      · simp [h.1]
      · rw [h.1]
        exact receive_edge rfl
    apply Moves.of_ite
    · intro h
      refine Or.inr ⟨.statePoweroff, MsgType.poweroff.toInt, false, ?_, rfl, by simp [Patched], rfl⟩
      simp [h.1]
    exact Moves.of_pure w

/-- After any energies the machine has run without failing, the receiver that started in `off`
and replayed its messages holds its state, `Q` holds, and the next update tells of a change and
of nothing else. -/
def Determines (sm : BaseEnergySM σ E S V) (receive : σ → EnergyMsg V → Option σ) (first off : σ)
    (Q : World σ S V → Prop) : Prop :=
  ∀ (slaves : List S) (energies : List E), ∃ w,
    (session sm energies).run (World.start first slaves) = .ok ((), w) ∧
      w.sent.foldlM receive off = some w.state ∧ Q w ∧
      ∀ e, ∃ w', (sm.update e).run w = .ok ((), w') ∧ Updated w w'

private theorem Mirrored.determines {sm : BaseEnergySM σ E S V}
    {receive : σ → EnergyMsg V → Option σ}
    {first off : σ} {P : σ → Bool → Prop} (h : Mirrored sm receive first off P) :
    Determines sm receive first off fun w => P w.state w.poweronDirtyPatch := by
  intro slaves energies
  obtain ⟨w, hrun, hw, hP⟩ := h.session slaves energies
  refine ⟨w, hrun, hw.replayed, hP, ?_⟩
  intro e
  obtain ⟨w', hstep, -, -, hupdated⟩ := (h.update w e hP).run hw hP
  exact ⟨w', hstep, hupdated⟩

end Instances

end ModernArch.Engy
