import ModernArch.Engy.EnergyMgmt

/-!
# Energy state machines

The two-threshold machine, the voltage machine and the frequency machine move between power
levels by thresholds on the energy, and tell the rest of the system by messages. Energies are
only compared, so they are of any type with a decidable `<`.
-/

namespace ModernArch.Engy

variable {σ E S V : Type}

/-- A machine, its pointer to the energy management, and the global variable of `DFS_LRY.cc`. -/
structure World (σ S V : Type) where
  state : σ
  mgmt : Bool := false
  energyMgmt : EnergyMgmt S V
  poweronDirtyPatch : Bool := false

abbrev SMM (σ S V : Type) := StateT (World σ S V) (Except Failure)

structure BaseEnergySM (σ E S V : Type) where
  init : SMM σ S V Unit
  update : E → SMM σ S V Unit

section Base

/-- `mgmt->broadcastMsgAsEvent(msg)` for a message of value zero. -/
def smBroadcastMsg [Zero V] (type : Int) : SMM σ S V Unit := fun w => do
  if w.mgmt then
    let r ← (EnergyMgmt.broadcastMsgAsEvent ⟨type, 0⟩).run w.energyMgmt
    return ((), { w with energyMgmt := r.2 })
  else
    throw .nullMgmt

def setState (s : σ) : SMM σ S V Unit := modify fun w => { w with state := s }

/-- A state change and the message that announces it. -/
def become [Zero V] (s : σ) (type : Int) : SMM σ S V Unit := do
  setState s
  smBroadcastMsg type

/-- `EnergyMgmt::init` sets the pointer of its state machine and updates it once. -/
def mgmtInit [OfNat E 100] (sm : BaseEnergySM σ E S V) : SMM σ S V Unit := do
  modify fun w => { w with mgmt := true }
  sm.update 100

end Base

namespace TwoThresSM

inductive State where
  | stateInit | statePoweroff | statePoweron
deriving DecidableEq

inductive MsgType where
  | consumeEnergy | poweroff | poweron
deriving DecidableEq

def MsgType.toInt : MsgType → Int
  | consumeEnergy => 0
  | poweroff => 1
  | poweron => 2

structure Params (E : Type) where
  thresHigh : E
  thresLow : E

variable [LT E] [DecidableLT E] [Zero V]

def init : SMM State S V Unit := become .statePoweroff MsgType.poweroff.toInt

def update (p : Params E) (energy : E) : SMM State S V Unit := do
  let state := (← get).state
  if state = .stateInit then
    setState .statePoweron
  else if state = .statePoweron ∧ energy < p.thresLow then
    become .statePoweroff MsgType.poweroff.toInt
  else if state = .statePoweroff ∧ energy > p.thresHigh then
    become .statePoweron MsgType.poweron.toInt

def machine (p : Params E) : BaseEnergySM State E S V := ⟨init, update p⟩

/-- What a receiver in a state makes of a message. -/
def receive (state : State) (msg : EnergyMsg V) : Option State :=
  if msg.type = MsgType.poweroff.toInt then some .statePoweroff
  else if msg.type = MsgType.poweron.toInt ∧ state = .statePoweroff then some .statePoweron
  else none

end TwoThresSM

namespace DVFSSM

inductive State where
  | stateInit | stateOff | stateLvlLow | stateLvlMiddle | stateLvlHigh
deriving DecidableEq

inductive MsgType where
  | consumeEnergy | poweroff | dvfsLow | dvfsMiddle | dvfsHigh
deriving DecidableEq

def MsgType.toInt : MsgType → Int
  | consumeEnergy => 0
  | poweroff => 1
  | dvfsLow => 2
  | dvfsMiddle => 3
  | dvfsHigh => 4

structure Params (E : Type) where
  thresOffLow : E
  thresLowMid : E
  thresMidHigh : E

variable [LT E] [DecidableLT E] [Zero V]

def init : SMM State S V Unit := become .stateOff MsgType.poweroff.toInt

def update (p : Params E) (energy : E) : SMM State S V Unit := do
  let state := (← get).state
  if state = .stateInit then
    setState .stateOff
  else if state ≠ .stateOff ∧ energy < p.thresOffLow then
    become .stateOff MsgType.poweroff.toInt
  else if state ≠ .stateLvlLow ∧ energy > p.thresOffLow ∧ energy < p.thresLowMid then
    become .stateLvlLow MsgType.dvfsLow.toInt
  else if state ≠ .stateLvlMiddle ∧ energy > p.thresLowMid ∧ energy < p.thresMidHigh then
    become .stateLvlMiddle MsgType.dvfsMiddle.toInt
  else if state ≠ .stateLvlHigh ∧ energy > p.thresMidHigh then
    become .stateLvlHigh MsgType.dvfsHigh.toInt

def machine (p : Params E) : BaseEnergySM State E S V := ⟨init, update p⟩

/-- Every message names the level it leads to. -/
def receive (_state : State) (msg : EnergyMsg V) : Option State :=
  if msg.type = MsgType.poweroff.toInt then some .stateOff
  else if msg.type = MsgType.dvfsLow.toInt then some .stateLvlLow
  else if msg.type = MsgType.dvfsMiddle.toInt then some .stateLvlMiddle
  else if msg.type = MsgType.dvfsHigh.toInt then some .stateLvlHigh
  else none

end DVFSSM

namespace DFS_LRY

inductive State where
  | stateInit | statePoweroff | stateRetention
  | stateFreq1 | stateFreq2 | stateFreq3 | stateFreq4 | stateFreq5
deriving DecidableEq

inductive MsgType where
  | consumeEnergy | poweroff | poweron
  | freq1to2 | freq2to3 | freq3to4 | freq4to5
  | freq5to4 | freq4to3 | freq3to2 | freq2to1
  | retentionBeg | retentionEnd
deriving DecidableEq

def MsgType.toInt : MsgType → Int
  | consumeEnergy => 0
  | poweroff => 1
  | poweron => 2
  | freq1to2 => 3
  | freq2to3 => 4
  | freq3to4 => 5
  | freq4to5 => 6
  | freq5to4 => 7
  | freq4to3 => 8
  | freq3to2 => 9
  | freq2to1 => 10
  | retentionBeg => 11
  | retentionEnd => 12

structure Params (E : Type) where
  thres5to4 : E
  thres4to3 : E
  thres3to2 : E
  thres2to1 : E
  thres1toRetention : E
  thresRetentionToOff : E
  thresOffTo1 : E
  thresRetentionTo1 : E
  thres1to2 : E
  thres2to3 : E
  thres3to4 : E
  thres4to5 : E

variable [LT E] [DecidableLT E] [Zero V]

def setPatch (b : Bool) : SMM State S V Unit := modify fun w => { w with poweronDirtyPatch := b }

def init : SMM State S V Unit := become .statePoweroff MsgType.poweroff.toInt

def update (p : Params E) (energy : E) : SMM State S V Unit := do
  let state := (← get).state
  if state = .stateInit then
    setState .statePoweroff
  else if state = .stateFreq5 ∧ energy < p.thres5to4 then
    become .stateFreq4 MsgType.freq5to4.toInt
  else if state = .stateFreq4 ∧ energy < p.thres4to3 then
    become .stateFreq3 MsgType.freq4to3.toInt
  else if state = .stateFreq3 ∧ energy < p.thres3to2 then
    become .stateFreq2 MsgType.freq3to2.toInt
  else if state = .stateFreq2 ∧ energy < p.thres2to1 then
    become .stateFreq1 MsgType.freq2to1.toInt
  else if state = .stateFreq4 ∧ energy > p.thres4to5 then
    become .stateFreq5 MsgType.freq4to5.toInt
  else if state = .stateFreq3 ∧ energy > p.thres3to4 then
    become .stateFreq4 MsgType.freq3to4.toInt
  else if state = .stateFreq2 ∧ energy > p.thres2to3 then
    become .stateFreq3 MsgType.freq2to3.toInt
  else if state = .stateFreq1 ∧ energy > p.thres1to2 then
    become .stateFreq2 MsgType.freq1to2.toInt
  else if state = .stateFreq1 ∧ energy < p.thres1toRetention then
    become .stateRetention MsgType.retentionBeg.toInt
  else if state = .stateRetention ∧ energy > p.thresRetentionTo1 then
    become .stateFreq1 MsgType.retentionEnd.toInt
  else if state = .statePoweroff ∧ energy > p.thresOffTo1 then
    setPatch true
    become .stateFreq1 MsgType.poweron.toInt
  else if state = .stateRetention ∧ energy < p.thresRetentionToOff then
    setPatch false
    become .statePoweroff MsgType.poweroff.toInt

def machine (p : Params E) : BaseEnergySM State E S V := ⟨init, update p⟩

/-- The level a message is legal in, and the level it leads to. -/
def edge : MsgType → Option (State × State)
  | .consumeEnergy | .poweroff => none
  | .poweron => some (.statePoweroff, .stateFreq1)
  | .freq1to2 => some (.stateFreq1, .stateFreq2)
  | .freq2to3 => some (.stateFreq2, .stateFreq3)
  | .freq3to4 => some (.stateFreq3, .stateFreq4)
  | .freq4to5 => some (.stateFreq4, .stateFreq5)
  | .freq5to4 => some (.stateFreq5, .stateFreq4)
  | .freq4to3 => some (.stateFreq4, .stateFreq3)
  | .freq3to2 => some (.stateFreq3, .stateFreq2)
  | .freq2to1 => some (.stateFreq2, .stateFreq1)
  | .retentionBeg => some (.stateFreq1, .stateRetention)
  | .retentionEnd => some (.stateRetention, .stateFreq1)

def msgTypes : List MsgType :=
  [.consumeEnergy, .poweroff, .poweron, .freq1to2, .freq2to3, .freq3to4, .freq4to5, .freq5to4,
    .freq4to3, .freq3to2, .freq2to1, .retentionBeg, .retentionEnd]

/-- What a receiver in a state makes of a message: power off at any time, else along an edge. -/
def receive (state : State) (msg : EnergyMsg V) : Option State :=
  if msg.type = MsgType.poweroff.toInt then some .statePoweroff
  else do
    let type ← msgTypes.find? fun t => t.toInt = msg.type
    let (source, target) ← edge type
    if state = source then some target else none

end DFS_LRY

end ModernArch.Engy
