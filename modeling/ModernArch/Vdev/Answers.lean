import ModernArch.Vdev.Sequential

/-!
# What the calls return

The values that the driver returns are those of a sequential program, however its copies are cut
into packets and wherever the interrupts fall.
-/

namespace ModernArch.Vdev.Driver
open Framework

variable {C : Type}

/-- The bytes that `periRead` copied, or the value of `periIsFinished`. -/
inductive Answer where
  | unit
  | bytes (data : List UInt8)
  | finished (b : Bool)
deriving DecidableEq

/-- The bytes that were read, one call after another. -/
def readBytes (as : List Answer) : List UInt8 :=
  as.flatMap fun
    | .bytes data => data
    | _ => []

theorem readBytes_append (as bs : List Answer) :
    readBytes (as ++ bs) = readBytes as ++ readBytes bs := List.flatMap_append

@[simp] theorem readBytes_units (n : Nat) : readBytes (List.replicate n .unit) = [] := by
  induction n with
  | zero => rfl
  | succ n ih => exact ih

/-- The chip between calls, and the flag that the status register shows. -/
structure Rest (C : Type) where
  chip : AIChip C
  flag : Bool := true

/-- What a copy of `len` bytes from the chip gives. -/
def fetch (ops : ChipOps C) (chip : AIChip C) (offset len : Nat) : List UInt8 :=
  (List.range len).map fun k => ops.readMem (window offset).1 chip.core ((window offset).2 + k)

def Call.answer (ops : ChipOps C) (s : Rest C) : Call → Answer
  | .periRead offset len => .bytes (fetch ops s.chip offset len)
  | .periIsFinished => .finished s.flag
  | _ => .unit

/-- The flag after a call that leaves `chip`. -/
def Call.flag (chip : AIChip C) (flag : Bool) : Call → Bool
  | .periInit _ => chip.finished
  | _ => flag

def Call.exec (ops : ChipOps C) (c : Call) : StateT (Rest C) Option Answer := fun s => do
  let chip ← c.apply ops s.chip
  return (c.answer ops s, ⟨chip, c.flag chip s.flag⟩)

def execAll (ops : ChipOps C) (cs : List Call) : StateT (Rest C) Option (List Answer) :=
  cs.mapM (Call.exec ops)

section Program

variable {ops : ChipOps C}

private theorem exec_of_apply {c : Call} {s : Rest C} {chip : AIChip C}
    (h : c.apply ops s.chip = some chip) :
    (c.exec ops).run s = some (c.answer ops s, ⟨chip, c.flag chip s.flag⟩) := by
  change (c.apply ops s.chip).bind _ = _
  rw [h]
  rfl

theorem execAll_append {cs ds : List Call} {s t : Rest C} {as : List Answer}
    (h : (execAll ops cs).run s = some (as, t)) :
    (execAll ops (cs ++ ds)).run s =
      ((execAll ops ds).run t).map fun r => (as ++ r.1, r.2) := by
  have hrun : (execAll ops (cs ++ ds)).run s = ((execAll ops cs).run s).bind fun r =>
      ((execAll ops ds).run r.2).bind fun r' => some (r.1 ++ r'.1, r'.2) := by
    rw [execAll, List.mapM_append]
    rfl
  rw [hrun, h, Option.bind_some]
  cases (execAll ops ds).run t <;> rfl

theorem execAll_single {c : Call} {s : Rest C} {chip : AIChip C}
    (h : c.apply ops s.chip = some chip) :
    (execAll ops [c]).run s = some ([c.answer ops s], ⟨chip, c.flag chip s.flag⟩) := by
  have hrun : (execAll ops [c]).run s = ((c.exec ops).run s).bind fun r => some ([r.1], r.2) := by
    rw [execAll, List.mapM_cons]
    rfl
  rw [hrun, exec_of_apply h]
  rfl

theorem execAll_snoc {cs : List Call} {c : Call} {s t : Rest C} {as : List Answer}
    {chip : AIChip C} (h : (execAll ops cs).run s = some (as, t))
    (hc : c.apply ops t.chip = some chip) :
    (execAll ops (cs ++ [c])).run s =
      some (as ++ [c.answer ops t], ⟨chip, c.flag chip t.flag⟩) := by
  rw [execAll_append h, execAll_single hc]
  rfl

/-- A program that has done a part of its calls has got a part of its answers. -/
theorem execAll_initial {cs ds : List Call} {s t u : Rest C} {as bs : List Answer}
    (hcs : (execAll ops cs).run s = some (as, t)) (hds : (execAll ops ds).run s = some (bs, u))
    (hp : cs <+: ds) : as <+: bs := by
  obtain ⟨rest, rfl⟩ := hp
  rw [execAll_append hcs] at hds
  obtain ⟨r, -, hr⟩ := Option.map_eq_some_iff.mp hds
  cases hr
  exact List.prefix_append as r.1

/-- The caller gets nothing from the call. -/
def Call.Quiet : Call → Prop
  | .periInit _ | .periWrite _ _ _ => True
  | _ => False

theorem writeCalls_quiet (off : Nat) (bs : List Block) : ∀ c ∈ writeCalls off bs, c.Quiet := by
  induction bs generalizing off with
  | nil => simp [writeCalls]
  | cons b bs ih =>
      intro c hc
      rcases List.mem_cons.mp hc with rfl | hc
      · trivial
      · exact ih (off + b.size) c hc

theorem execAll_quiet {cs : List Call} (hcs : ∀ c ∈ cs, c.Quiet) {s : Rest C} {chip : AIChip C}
    (h : applyAll ops cs s.chip = some chip) : ∃ flag, (execAll ops cs).run s =
      some (List.replicate cs.length .unit, ⟨chip, flag⟩) := by
  induction cs using List.reverseRecOn generalizing chip with
  | nil =>
      cases h
      exact ⟨s.flag, rfl⟩
  | append_singleton cs c ih =>
      rw [applyAll_snoc] at h
      obtain ⟨before, hbefore, hc⟩ := Option.bind_eq_some_iff.mp h
      obtain ⟨flag, hexec⟩ := ih (fun c hc => hcs c (List.mem_append_left _ hc)) hbefore
      have hanswer : c.answer ops ⟨before, flag⟩ = .unit := by
        have hquiet := hcs c (by simp)
        cases c with
        | periInit counter => rfl
        | periWrite offset src len => rfl
        | periRead offset len => exact hquiet.elim
        | periIsFinished => exact hquiet.elim
      refine ⟨c.flag chip flag, ?_⟩
      rw [execAll_snoc hexec hc, hanswer, List.length_append, List.replicate_append_replicate.symm]
      rfl

/-- Counters that are run one after another. -/
theorem execAll_counters {ι : Type} (f : ι → UInt8) {js : List ι} {s : Rest C} {ts : List Nat}
    {chip : AIChip C}
    (h : (js.mapM fun j => AIChip.runCounter ops (f j)).run s.chip = some (ts, chip)) :
    ∃ flag, (execAll ops (js.map fun j => .periInit (f j))).run s =
        some (List.replicate js.length .unit, ⟨chip, flag⟩) ∧
      (js ≠ [] → flag = chip.finished) := by
  induction js generalizing s ts with
  | nil =>
      cases h
      exact ⟨s.flag, rfl, fun hne => absurd rfl hne⟩
  | cons j js ih =>
      rw [List.mapM_cons, StateT.run_bind, Option.bind_eq_bind, Option.bind_eq_some_iff] at h
      obtain ⟨⟨t, chip₁⟩, hfirst, h⟩ := h
      rw [StateT.run_bind, Option.bind_eq_bind, Option.bind_eq_some_iff] at h
      obtain ⟨⟨ts', chip₂⟩, hrest, h⟩ := h
      cases h
      obtain ⟨flag, hexec, hflag⟩ := ih (s := ⟨chip₁, chip₁.finished⟩) hrest
      have happly : (Call.periInit (f j)).apply ops s.chip = some chip₁ := by
        rw [Call.apply, hfirst]
        rfl
      refine ⟨flag, ?_, fun _ => ?_⟩
      · have hcalls : ((j :: js).map fun j => Call.periInit (f j)) =
            [.periInit (f j)] ++ js.map fun j => .periInit (f j) := rfl
        rw [hcalls, execAll_append (execAll_single happly)]
        change ((execAll ops _).run ⟨chip₁, chip₁.finished⟩).map _ = _
        rw [hexec]
        rfl
      · cases js with
        | nil =>
            cases hexec
            cases hrest
            rfl
        | cons i js => exact hflag (List.cons_ne_nil i js)

theorem execAll_chip {cs : List Call} {s t : Rest C} {as : List Answer}
    (h : (execAll ops cs).run s = some (as, t)) : applyAll ops cs s.chip = some t.chip := by
  induction cs generalizing s as with
  | nil =>
      cases h
      rfl
  | cons c cs ih =>
      have hrun : (execAll ops (c :: cs)).run s = ((c.exec ops).run s).bind fun r =>
          ((execAll ops cs).run r.2).bind fun r' => some (r.1 :: r'.1, r'.2) := by
        rw [execAll, List.mapM_cons]
        rfl
      rw [hrun] at h
      obtain ⟨r, hr, h⟩ := Option.bind_eq_some_iff.mp h
      obtain ⟨r', hr', h⟩ := Option.bind_eq_some_iff.mp h
      obtain ⟨chip, hchip, hr⟩ := Option.bind_eq_some_iff.mp hr
      cases h
      cases hr
      rw [applyAll, List.foldlM_cons, hchip]
      exact ih hr'

end Program

/-- The values returned so far, and what the copy of the call has taken. -/
structure Heard where
  answers : List Answer := []
  taken : List UInt8 := []

def Heard.hear (h : Heard) : Label C → Heard
  | .call _ => { h with taken := [] }
  | .access pkt _ r =>
    if pkt.isRead = true ∧ 2 ≤ pkt.offset then
      { h with taken := h.taken ++ (List.range pkt.size).map r.data }
    else h
  | .interrupt => h
  | .ret (.periRead _ _) _ => { h with answers := h.answers ++ [.bytes h.taken] }
  | .ret .periIsFinished b => { h with answers := h.answers ++ [.finished b] }
  | .ret _ _ => { h with answers := h.answers ++ [.unit] }

def heard (ls : List (Label C)) : Heard := ls.foldl Heard.hear {}

private theorem heard_snoc (ls : List (Label C)) (l : Label C) :
    heard (ls ++ [l]) = (heard ls).hear l := by
  rw [heard, List.foldl_append]
  rfl

/-- The answers in a log. -/
def answers (ls : List (Label C)) : List Answer := (heard ls).answers

/-- What is read comes from one data window. -/
def Call.ReadsWindow : Call → Prop
  | .periRead offset len => 2 ≤ offset ∧ ∀ k < len, (window (offset + k)).1 = (window offset).1
  | _ => True

theorem Call.Quiet.readsWindow {c : Call} (h : c.Quiet) : c.ReadsWindow := by
  cases c with
  | periRead offset len => exact h.elim
  | _ => trivial

/-- A call that met the chip as `s` and sees it as `now`, after the bytes `taken` and with `last`
the flag of the last run. -/
def Pc.Holds (ops : ChipOps C) (s : Rest C) (now : AIChip C) (taken : List UInt8)
    (last : Option Bool) : Pc → Prop
  | .poll (.periInit _) | .done (.periInit _) _ => last = some now.finished
  | .poll (.periRead _ _) => taken = [] ∧ last.getD true = s.flag
  | .copy (.periRead offset len) n =>
    n ≤ len ∧ taken = fetch ops s.chip offset n ∧ last.getD true = s.flag
  | .done .periIsFinished b => b = s.flag ∧ last.getD true = s.flag
  | .done (.periRead _ _) _ => False
  | _ => last.getD true = s.flag

private theorem fetch_add (ops : ChipOps C) (chip : AIChip C) {offset n m : Nat} (h₂ : 2 ≤ offset)
    (hwin : 0 < m → (window (offset + n)).1 = (window offset).1) :
    fetch ops chip offset (n + m) = fetch ops chip offset n ++ fetch ops chip (offset + n) m := by
  rcases Nat.eq_zero_or_pos m with rfl | hm
  · simp [fetch]
  · rw [fetch, List.range_add, List.map_append, List.map_map, fetch, fetch,
      window_add h₂ (hwin hm)]
    congr 1
    apply List.map_congr_left
    intro k _
    simp only [Function.comp_apply, Nat.add_assoc]

section Steps

variable {ops : LawfulOps C} {s : Rest C} {dev : VirtualDevice C} {cpu : BaseCPU}
  {hd : Heard} {last : Option Bool}

private theorem entry_holds (c : Call) (now : AIChip C) (h : last.getD true = s.flag) :
    (Pc.entry c).Holds ops.toChipOps s now [] last := by
  cases c with
  | periRead offset len => exact ⟨rfl, h⟩
  | _ => exact h

/-- A call returns the answer of the program, which then shows the flag of the last run. -/
theorem Returns.holds {pc : Pc} {c : Call} {result : Bool} (hret : Returns pc c result)
    {now : AIChip C} (h : pc.Holds ops.toChipOps s now hd.taken last) :
    (hd.hear (.ret c result : Label C)).answers =
        hd.answers ++ [c.answer ops.toChipOps s] ∧
      last.getD true = c.flag now s.flag := by
  cases hret with
  | done =>
      cases c with
      | periInit counter =>
          have hlast : last = some now.finished := h
          exact ⟨rfl, by rw [hlast]; rfl⟩
      | periIsFinished =>
          obtain ⟨hb, hlast⟩ : result = s.flag ∧ last.getD true = s.flag := h
          exact ⟨by rw [hb]; rfl, hlast⟩
      | periWrite offset src len => exact ⟨rfl, h⟩
      | periRead offset len => exact h.elim
  | write offset src len => exact ⟨rfl, h⟩
  | read offset len =>
      obtain ⟨-, htaken, hlast⟩ := h
      refine ⟨?_, hlast⟩
      rw [Call.answer, ← htaken]
      rfl

/-- A load of the status register takes nothing. -/
theorem hear_status (data : Nat → UInt8) (r : Reply C) :
    hd.hear (.access (loadByte 0 data) dev r) = hd := by
  simp [Heard.hear, loadByte]

private theorem hear_store {pkt : Packet} (hread : pkt.isRead = false) (r : Reply C) :
    hd.hear (.access pkt dev r) = hd := by
  simp [Heard.hear, hread]

private theorem finished_quiet {pkt : Packet} (h : ¬ Packet.requests pkt) (r : Reply C) :
    (Label.access pkt dev r).finished = none := by
  have hacc : accepts pkt dev = false := by
    rw [← Bool.not_eq_true, accepts_iff]
    exact fun hboth => h hboth.1
  simp [Label.finished, hacc]

/-- An access of the driver carries the call on. -/
theorem Issues.holds {pc : Pc} {pkt : Packet} {next : UInt8 → Pc} (hissue : Issues pc pkt next)
    (hcall : ∀ c ∈ pc.call, c.InWindow ∧ c.ReadsWindow)
    (hmeets : pc.Meets ops.toChipOps s.chip dev.aichip)
    (hoff : ∀ counter, pc = .storeInit counter → dev.pmem &&& vdevWork = 0)
    (hflag : pc = .loadFinish → (dev.pmem &&& vdevFinish != 0) = last.getD true)
    (h : pc.Holds ops.toChipOps s dev.aichip hd.taken last) {r : Reply C}
    (hreply : access ops.toChipOps pkt dev cpu = .ok r) :
    (hd.hear (.access pkt dev r)).answers = hd.answers ∧
      (next (r.data 0)).Holds ops.toChipOps s r.dev.aichip (hd.hear (.access pkt dev r)).taken
        ((Label.access pkt dev r).finished.or last) := by
  cases hissue with
  | storeCounter counter =>
      rw [hear_store rfl, finished_quiet (by simp [Packet.requests, storeByte])]
      exact ⟨rfl, h⟩
  | storeInit counter =>
      have hidle := hoff counter rfl
      have hacc : accepts (storeByte 0 vdevInit) dev = true :=
        accepts_iff.mpr ⟨storeInit_requests, hidle⟩
      have hflags : (Label.access (storeByte 0 vdevInit) dev r).finished =
          some r.dev.aichip.finished := if_pos hacc
      rw [hear_store rfl, hflags]
      exact ⟨rfl, rfl⟩
  | poll c data =>
      rw [hear_status, finished_quiet (by simp [Packet.requests, loadByte])]
      refine ⟨rfl, ?_⟩
      obtain ⟨data', rfl, -⟩ := access_status hreply
      dsimp only
      split_ifs
      · cases c with
        | periInit counter => exact h
        | periWrite offset src len => exact h
        | periRead offset len => exact ⟨Nat.zero_le len, h⟩
        | periIsFinished => exact h
      · exact h
  | @copyOut offset src len n size hsize hfit =>
      have hlow := (hcall _ rfl).1.1
      rw [hear_store rfl, finished_quiet (by simp [Packet.requests]; omega)]
      exact ⟨rfl, h⟩
  | @copyIn offset len n size data hsize hfit =>
      obtain ⟨hlow, hwin⟩ := (hcall _ rfl).2
      obtain ⟨-, htaken, hlast⟩ := h
      have hchip : dev.aichip = s.chip := hmeets
      rw [finished_quiet (by simp [Packet.requests])]
      obtain ⟨data', haccess, hbytes⟩ := access_window ops.toChipOps
        ⟨true, false, offset + n, size, data⟩ dev cpu (Nat.le_add_right_of_le hlow)
      obtain rfl := Except.ok.inj (haccess.symm.trans hreply)
      have hnew : (List.range size).map data' = fetch ops.toChipOps s.chip (offset + n) size := by
        apply List.map_congr_left
        intro k hk
        rw [hbytes k (List.mem_range.mp hk), copiedByte, if_pos rfl, hchip]
      have hhear : hd.hear (.access ⟨true, false, offset + n, size, data⟩ dev
          ⟨data', copied ops.toChipOps ⟨true, false, offset + n, size, data⟩ dev size, cpu⟩) =
            ⟨hd.answers, hd.taken ++ (List.range size).map data'⟩ :=
        if_pos ⟨rfl, Nat.le_add_right_of_le hlow⟩
      rw [hhear]
      refine ⟨rfl, hfit, ?_, hlast⟩
      rw [fetch_add ops.toChipOps s.chip hlow (fun _ => hwin n (by omega)), ← htaken, hnew]
  | loadFinish data =>
      rw [hear_status, finished_quiet (by simp [Packet.requests, loadByte])]
      obtain ⟨data', rfl, hbyte⟩ := access_status hreply
      have hlast : last.getD true = s.flag := h
      refine ⟨rfl, ?_, hlast⟩
      dsimp only
      rw [hbyte, hflag rfl, hlast]

end Steps

/-! ## Runs -/

section Runs

variable {ops : LawfulOps C} {chip : AIChip C} {ls : List (Label C)} {m : Machine C}

variable (ops) in
theorem run_holds (h : Run (Step ops.toChipOps) (boot chip) ls m)
    (hcalls : ∀ c ∈ calls ls, c.InWindow ∧ c.ReadsWindow) :
    ∃ s, (execAll ops.toChipOps (rets ls)).run ⟨chip, true⟩ = some (answers ls, s) ∧
      m.pc.Meets ops.toChipOps s.chip m.dev.aichip ∧
      m.pc.Holds ops.toChipOps s m.dev.aichip (heard ls).taken (lastFinished ls) := by
  induction h with
  | nil => exact ⟨⟨chip, true⟩, rfl, rfl, rfl⟩
  | @snoc ls l t u hrun hstep ih =>
      rw [calls_snoc] at hcalls
      have hbefore (c : Call) (hc : c ∈ calls ls) : c.InWindow ∧ c.ReadsWindow :=
        hcalls c (List.mem_append_left _ hc)
      have hinv := run_inv hrun fun c hc => (hbefore c hc).1.not_starts
      obtain ⟨s, hexec, hmeets, hholds⟩ := ih hbefore
      rw [answers] at hexec
      rw [rets_snoc, lastFinished_snoc, answers, heard_snoc]
      cases hstep with
      | call c dev cpu =>
          have hchip : dev.aichip = s.chip := hmeets
          refine ⟨s, ?_, hchip ▸ entry_meets c, entry_holds c dev.aichip hholds⟩
          simpa [Label.returned, Heard.hear] using hexec
      | @access pc pkt next dev cpu r hissue hreply =>
          have hcall (c : Call) (hc : c ∈ pc.call) : c.InWindow ∧ c.ReadsWindow := by
            apply hbefore
            rw [calls_eq hrun]
            exact List.mem_append_right _ (Option.mem_toList.mpr hc)
          have hoff (counter : UInt8) (hpc : pc = .storeInit counter) :
              dev.pmem &&& vdevWork = 0 := by
            subst hpc
            exact InStep.idle hinv.device (hinv.off fun _ heq => by cases heq)
          have hflag (hpc : pc = .loadFinish) :
              (dev.pmem &&& vdevFinish != 0) = (lastFinished ls).getD true := by
            subst hpc
            have hpmem := hinv.device.pmem
            have hrest : dev.scheduled = false := hinv.off fun _ heq => by cases heq
            simp only [hrest] at hpmem
            rw [hpmem]
            cases (lastFinished ls).getD true <;> decide
          obtain ⟨hanswers, hnext⟩ := hissue.holds hcall hmeets hoff hflag hholds hreply
          refine ⟨s, ?_, hissue.meets (fun c hc => (hcall c hc).1) hmeets hoff hreply, hnext⟩
          rw [hanswers]
          simpa [Label.returned] using hexec
      | @interrupt pc dev cpu r hon hok =>
          obtain ⟨hend, -⟩ := hinv.device.interrupt hon (InStep.registered hinv.device)
          obtain rfl := Except.ok.inj (hend.symm.trans hok)
          exact ⟨s, by simpa [Label.returned, Heard.hear] using hexec, hmeets, hholds⟩
      | @ret pc c result dev cpu hret =>
          obtain ⟨hanswers, hlast⟩ := hret.holds hholds
          refine ⟨⟨dev.aichip, c.flag dev.aichip s.flag⟩, ?_, rfl, hlast⟩
          rw [hanswers]
          exact execAll_snoc hexec (hret.meets hmeets)

end Runs

/-- Every log of the machine is one of the sequential program, and every sequence of calls that
the program can do has a log with its answers. -/
theorem answers_sequential (ops : LawfulOps C) (chip : AIChip C) :
    (∀ (ls : List (Label C)) (m : Machine C), Run (Step ops.toChipOps) (boot chip) ls m →
      (∀ c ∈ calls ls, c.InWindow ∧ c.ReadsWindow) →
      ∃ s, (execAll ops.toChipOps (rets ls)).run ⟨chip, true⟩ = some (answers ls, s) ∧
        (m.pc = .idle → rets ls = calls ls ∧ s.chip = m.dev.aichip)) ∧
    ∀ (cs : List Call) (as : List Answer) (s : Rest C),
      (∀ c ∈ cs, c.InWindow ∧ c.ReadsWindow) →
      (execAll ops.toChipOps cs).run ⟨chip, true⟩ = some (as, s) →
      ∃ ls dev cpu, Run (Step ops.toChipOps) (boot chip) ls ⟨.idle, dev, cpu⟩ ∧ calls ls = cs ∧
        answers ls = as := by
  have hidle {ls : List (Label C)} {m : Machine C}
      (h : Run (Step ops.toChipOps) (boot chip) ls m) (hpc : m.pc = .idle) :
      rets ls = calls ls := by
    rw [calls_eq h, hpc]
    simp
  constructor
  · intro ls m h hcalls
    obtain ⟨s, hexec, hmeets, -⟩ := run_holds ops h hcalls
    refine ⟨s, hexec, fun hpc => ⟨hidle h hpc, ?_⟩⟩
    rw [hpc] at hmeets
    exact Eq.symm hmeets
  · intro cs as s hcs hexec
    obtain ⟨ls, dev, cpu, hrun, rfl, -⟩ :=
      exists_run ops (fun c hc => (hcs c hc).1) (execAll_chip hexec)
    obtain ⟨s', hexec', -⟩ := run_holds ops hrun hcs
    rw [hidle hrun rfl, hexec] at hexec'
    exact ⟨ls, dev, cpu, hrun, rfl, (congrArg Prod.fst (Option.some.inj hexec')).symm⟩

/-- The drivers write the images from here. -/
theorem window_images {k : Nat} (hk : k < 1024 * 1024) :
    window (2 + 1024 * 1024 + k) = (.mem2, k) := by
  rw [window, if_neg (by omega), if_pos (by omega)]
  exact congrArg (Prod.mk DataMem.mem2) (by omega)

/-- A chip that only stores, and finishes at counter `7`. -/
def storage : LawfulOps (DataMem → Nat → UInt8) where
  stage counter := return (1, counter == 7)
  readMem d c := c d
  writeMem d off n src c :=
    Function.update c d fun k => if off ≤ k ∧ k < off + n then src (k - off) else c d k
  write_nil d off src c := by
    funext e
    by_cases h : e = d
    · subst h
      rw [Function.update_self]
      funext k
      rw [if_neg (by omega)]
    · rw [Function.update_of_ne h]
  write_split d off n m src c := by
    rw [Function.update_idem]
    congr 1
    funext k
    rw [Function.update_self]
    by_cases hlast : off + n ≤ k ∧ k < off + n + m
    · rw [if_pos (by omega), if_pos hlast]
      exact congrArg src (by omega)
    · rw [if_neg hlast]
      by_cases hfirst : off ≤ k ∧ k < off + n
      · rw [if_pos (by omega), if_pos hfirst]
      · rw [if_neg (by omega), if_neg hfirst]
  write_congr d off n src src' c h := by
    congr 1
    funext k
    split_ifs with hk
    · exact h (k - off) (by omega)
    · rfl

theorem answers_sequential_storage : ∃ ls dev cpu,
    Run (Step storage.toChipOps) (boot ⟨1, false, 0, fun _ _ => 0⟩) ls ⟨.idle, dev, cpu⟩ ∧
      calls ls = [.periWrite 3 (fun _ => 5) 2, .periInit 7, .periIsFinished, .periRead 2 4] ∧
      answers ls = [.unit, .unit, .finished true, .bytes [0, 5, 5, 0]] := by
  have hwin (off : Nat) (hoff : off < 6) : (window off).1 = .mem1 := by
    rw [window, if_pos (by omega)]
  refine (answers_sequential storage ⟨1, false, 0, fun _ _ => 0⟩).2 _ _ _ ?_ rfl
  intro c hc
  simp only [List.mem_cons, List.not_mem_nil, or_false] at hc
  rcases hc with rfl | rfl | rfl | rfl
  · exact ⟨⟨by decide, fun k hk => (hwin _ (by omega)).trans (hwin 3 (by decide)).symm⟩, trivial⟩
  · exact ⟨trivial, trivial⟩
  · exact ⟨trivial, trivial⟩
  · exact ⟨trivial, le_rfl, fun k hk => (hwin _ (by omega)).trans (hwin 2 (by decide)).symm⟩

end ModernArch.Vdev.Driver
