import ModernArch.Sim.SystemCalls

/-!
# Processes on one memory

Processes take turns on a system. Whatever the order of their calls, no two pages are on one page
of the memory, no process sees what another does, and what was written is read.
-/

namespace ModernArch.Sim
open Framework Mem

namespace LiveProcess

/-- `munmapFunc` does nothing. -/
def munmapFunc (p : LiveProcess) : Addr × LiveProcess := (0, p)

inductive Call where
  | allocateMem (vaddr : Addr) (size : Int)
  | readBlob (addr : Addr) (size : Nat)
  | writeBlob (allocating : AllocType) (addr : Addr) (bytes : List UInt8)
  | memsetBlob (allocating : AllocType) (addr : Addr) (val : UInt8) (size : Nat)
  | readString (addr : Addr) (fuel : Nat)
  | writeString (addr : Addr) (str : List UInt8)
  | stackFault (vaddr : Addr)
  | brk (new_brk : Addr)
  | mmap (start length : Addr) (anonymous fixed isOpen : Bool) (offset : Addr)
  | munmap
  | mremap (start old_length new_length : Addr) (fixed mayMove : Bool) (address : Addr)
deriving DecidableEq

/-- The process after the call. -/
def call (p : LiveProcess) : Call → Except Mem.Failure LiveProcess
  | .allocateMem vaddr size => p.allocateMem vaddr size false
  | .readBlob addr size => Prod.snd <$> p.tryReadBlob addr size
  | .writeBlob allocating addr bytes => Prod.snd <$> p.tryWriteBlob allocating addr bytes
  | .memsetBlob allocating addr val size => Prod.snd <$> p.tryMemsetBlob allocating addr val size
  | .readString addr fuel => Prod.snd <$> tryReadString [] fuel p addr
  | .writeString addr str => Prod.snd <$> p.tryWriteString addr str
  | .stackFault vaddr => Prod.snd <$> p.fixupStackFault vaddr
  | .brk new_brk => Prod.snd <$> p.brkFunc new_brk
  | .mmap start length anonymous fixed isOpen offset =>
    Prod.snd <$> p.mmapFunc start length anonymous fixed isOpen offset
  | .munmap => .ok p.munmapFunc.2
  | .mremap start old_length new_length fixed mayMove address =>
    Prod.snd <$> p.mremapFunc start old_length new_length fixed mayMove address

/-- The sizes are those that the counters of the source hold, and a mapping is not moved onto
itself or to a place that the cache remembers. -/
def Fits (p : LiveProcess) : Call → Prop
  | .allocateMem _ size => 0 ≤ size ∧ pages size < 2 ^ 31
  | .readBlob _ size => size < 2 ^ 32
  | .writeBlob _ _ bytes => bytes.length < 2 ^ 32
  | .memsetBlob _ _ _ size => size < 2 ^ 32
  | .writeString _ str => str.length < 2 ^ 64
  | .mmap _ length _ _ _ _ => Short length
  | .mremap start old_length new_length fixed mayMove address => Short new_length ∧
    ∀ target, p.moveTarget start old_length new_length fixed mayMove address = some target →
      (Process.movedPages old_length new_length ≠ 0 → start ≠ target) ∧
        FuncPageTable.MovesClear p.pTable.slots (Process.movedPages old_length new_length) start
          target
  | _ => True

/-- The bytes that a call may change when they are there. A `mremap` may change all. -/
def Covers (p : LiveProcess) (x : Addr) : Call → Prop
  | .writeBlob _ addr bytes => ∃ k < bytes.length, x = byteAt addr k
  | .memsetBlob _ addr _ size => ∃ k < size, x = byteAt addr k
  | .writeString addr str => ∃ k < str.length + 1, x = byteAt addr k
  | .brk new_brk => p.brk_point < new_brk ∧
    (2 ^ 64 < new_brk.toNat + PageBytes ∨ p.brk_point ≤ x ∧ pageAlign x < new_brk)
  | .mremap .. => True
  | _ => False

variable {p p' : LiveProcess} {c : Call}

private theorem map_ok {α β : Type} {x : Except Mem.Failure (α × β)} {b : β}
    (h : Prod.snd <$> x = .ok b) : ∃ a, x = .ok (a, b) := by
  cases x with
  | error e => cases h
  | ok r =>
      cases h
      exact ⟨r.1, rfl⟩

private theorem call_step (h : p.Sound) (hfits : p.Fits c) (hok : p.call c = .ok p') :
    Step p p' := by
  cases c with
  | allocateMem vaddr size => exact allocateMem_step h hfits.1 hfits.2 hok
  | readBlob addr size =>
      obtain ⟨r, hr⟩ := map_ok hok
      exact (readChunks_spec h (chunks_tile (by decide) addr hfits) hr).1
  | writeBlob allocating addr bytes =>
      obtain ⟨r, hr⟩ := map_ok hok
      exact (tryWriteBlob_spec h hfits hr).1
  | memsetBlob allocating addr val size =>
      obtain ⟨r, hr⟩ := map_ok hok
      exact (tryMemsetBlob_spec h hfits hr).1
  | readString addr fuel =>
      obtain ⟨r, hr⟩ := map_ok hok
      exact (tryReadString_step h hr).1
  | writeString addr str =>
      obtain ⟨r, hr⟩ := map_ok hok
      exact (tryWriteString_spec h hfits hr).1
  | stackFault vaddr =>
      obtain ⟨r, hr⟩ := map_ok hok
      exact (fixupStackFault_grows h hr).1
  | brk new_brk =>
      obtain ⟨r, hr⟩ := map_ok hok
      exact brkFunc_step h hr
  | mmap start length anonymous fixed isOpen offset =>
      obtain ⟨r, hr⟩ := map_ok hok
      exact (mmapFunc_grows h hfits hr).1
  | munmap =>
      cases hok
      exact Step.refl h
  | mremap start old_length new_length fixed mayMove address =>
      obtain ⟨r, hr⟩ := map_ok hok
      exact mremap_step h hfits.1 hfits.2 hr

private theorem call_keeps (h : p.Sound) (hfits : p.Fits c) (hok : p.call c = .ok p') {x : Addr}
    {v : UInt8} (hx : ¬ p.Covers x c) (hv : p.view x = some v) : p'.view x = some v := by
  cases c with
  | allocateMem vaddr size => exact (allocateMem_grows h hfits.1 hfits.2 hok).2.mapped hv
  | readBlob addr size =>
      obtain ⟨r, hr⟩ := map_ok hok
      rw [(readChunks_spec h (chunks_tile (by decide) addr hfits) hr).2.1]
      exact hv
  | writeBlob allocating addr bytes =>
      obtain ⟨r, hr⟩ := map_ok hok
      exact (tryWriteBlob_spec h hfits hr).2.1.keeps (fun k hk he => hx ⟨k, hk, he⟩) hv
  | memsetBlob allocating addr val size =>
      obtain ⟨r, hr⟩ := map_ok hok
      exact (tryMemsetBlob_spec h hfits hr).2.1.keeps (fun k hk he => hx ⟨k, hk, he⟩) hv
  | readString addr fuel =>
      obtain ⟨r, hr⟩ := map_ok hok
      rw [(tryReadString_step h hr).2]
      exact hv
  | writeString addr str =>
      obtain ⟨r, hr⟩ := map_ok hok
      exact (tryWriteString_spec h hfits hr).2.1.keeps (fun k hk he => hx ⟨k, hk, he⟩) hv
  | stackFault vaddr =>
      obtain ⟨r, hr⟩ := map_ok hok
      exact (fixupStackFault_grows h hr).2.mapped hv
  | brk new_brk =>
      obtain ⟨r, hr⟩ := map_ok hok
      refine brkFunc_keeps h hr (fun hgrow => ?_) hv
      have hout := not_or.mp (fun hor => hx ⟨hgrow, hor⟩)
      exact ⟨Nat.not_lt.mp hout.1, hout.2⟩
  | mmap start length anonymous fixed isOpen offset =>
      obtain ⟨r, hr⟩ := map_ok hok
      exact (mmapFunc_grows h hfits hr).2.mapped hv
  | munmap =>
      cases hok
      exact hv
  | mremap start old_length new_length fixed mayMove address => exact absurd trivial hx

/-- The process as it finds the system later. -/
def find (p : LiveProcess) (s : System) (m : Ram) : LiveProcess :=
  { p with toProcess := { p.toProcess with system := s }, physmem := m }

private theorem find_spec {q : LiveProcess} (hq : q.Sound) (hsys : q.system = p.system)
    (hmem : q.physmem = p.physmem) (hs : Step p p') (hapart : ∀ x ∈ q.own, x ∉ p.own) :
    (q.find p'.system p'.physmem).Sound ∧ (q.find p'.system p'.physmem).own = q.own ∧
      (q.find p'.system p'.physmem).view = q.view := by
  obtain ⟨ptr, hsys'⟩ := hs.system
  have htotal : p'.system.totalSize = q.system.totalSize := by rw [hsys', hsys]
  have hframe : (q.find p'.system p'.physmem).frame = q.frame := by
    funext v
    rw [frame, frame, ← htotal]
    rfl
  have hstore : q.store = p.store := by rw [store, store, hsys, hmem]
  have hused : q.own ⊆ p.store.used := hstore ▸ hq.own_used
  refine ⟨⟨hq.line, hs.sound.config, hs.sound.total, hs.sound.wholePages, hs.sound.pagePtr,
    hq.coherent, ?_, ?_, hs.sound.zero⟩, ?_, ?_⟩
  · intro v f hf
    rw [hframe] at hf
    have halign : pageAlign f = f := pageAlign_of_aligned (frame_offset hf)
    exact hs.evolves.used (hused ⟨v, hf.trans (congrArg some halign.symm)⟩)
  · rw [hframe]
    exact hq.exclusive
  · rw [own, own, hframe]
  · funext a
    have hphys : (q.find p'.system p'.physmem).phys a = q.phys a := by
      rw [phys, phys, hframe]
    rw [view, view, hphys, hmem]
    cases hf : q.phys a with
    | none => rfl
    | some x => exact congrArg some (hs.evolves.others hused hapart (phys_own hf))

end LiveProcess

/-- The system and the memory that the processes share. -/
structure Host (ι : Type) where
  system : System
  physmem : Ram := fun _ => 0
  procs : ι → LiveProcess

namespace Host

variable {ι : Type} [DecidableEq ι]

def get (h : Host ι) (i : ι) : LiveProcess := (h.procs i).find h.system h.physmem

def set (h : Host ι) (i : ι) (p : LiveProcess) : Host ι :=
  { system := p.system, physmem := p.physmem, procs := Function.update h.procs i p }

/-- A process makes a call. -/
def Turn (h : Host ι) (e : ι × LiveProcess.Call) (h' : Host ι) : Prop :=
  (h.get e.1).Fits e.2 ∧ ∃ p, (h.get e.1).call e.2 = .ok p ∧ h' = h.set e.1 p

structure Sound (h : Host ι) : Prop where
  procs : ∀ i, (h.get i).Sound
  apart : ∀ i j, i ≠ j → ∀ q ∈ (h.get i).own, q ∉ (h.get j).own
  zero : ∀ q : Addr, h.system.pagePtr.toNat * PageBytes ≤ q.toNat → q < h.system.totalSize →
    h.physmem q = 0

variable {h h' : Host ι} {i j : ι} {p : LiveProcess}

private theorem get_set : (h.set i p).get i = p := by
  have hproc : (h.set i p).procs i = p := Function.update_self _ _ _
  rw [get, hproc]
  rfl

private theorem get_set_of_ne (hne : j ≠ i) :
    (h.set i p).get j = (h.get j).find p.system p.physmem := by
  have hproc : (h.set i p).procs j = h.procs j := Function.update_of_ne hne _ _
  rw [get, hproc]
  rfl

private theorem Turn.spec {e : ι × LiveProcess.Call} (hh : h.Sound) (hturn : Turn h e h') :
    h'.Sound ∧ ∀ j, j ≠ e.1 → (h'.get j).view = (h.get j).view := by
  obtain ⟨i, c⟩ := e
  obtain ⟨hfits, p, hok, rfl⟩ := hturn
  have hs := LiveProcess.call_step (hh.procs i) hfits hok
  have hother {j : ι} (hne : j ≠ i) := LiveProcess.find_spec (p := h.get i) (hh.procs j) rfl rfl hs
    (hh.apart j i hne)
  have hfresh {j : ι} (hne : j ≠ i) : ∀ q ∈ (h.get j).own, q ∉ p.own :=
    hs.evolves.disjoint (hh.procs j).own_used (hh.apart j i hne)
  refine ⟨⟨?_, ?_, hs.sound.zero⟩, ?_⟩
  · intro j
    by_cases hj : j = i
    · rw [hj, get_set]
      exact hs.sound
    · rw [get_set_of_ne hj]
      exact (hother hj).1
  · intro j k hne q hq
    by_cases hj : j = i
    · rw [hj, get_set] at hq
      rw [get_set_of_ne (hj ▸ hne.symm), (hother (hj ▸ hne.symm)).2.1]
      exact fun hk => hfresh (hj ▸ hne.symm) q hk hq
    · rw [get_set_of_ne hj, (hother hj).2.1] at hq
      by_cases hk : k = i
      · rw [hk, get_set]
        exact hfresh hj q hq
      · rw [get_set_of_ne hk, (hother hk).2.1]
        exact hh.apart j k hne q hq
  · intro j hne
    rw [get_set_of_ne hne]
    exact (hother hne).2.2

private theorem run_sound {es : List (ι × LiveProcess.Call)} (hh : h.Sound)
    (hrun : Run Turn h es h') : h'.Sound :=
  hrun.inv (fun _ h => h.Sound) hh fun _ _ _ _ ht hturn => (hturn.spec ht).1

/-- Before the processes are loaded nothing is handed out, and the memory is zero. -/
structure Booted (h : Host ι) : Prop where
  config : h.system.Configured
  total : h.system.totalSize.toNat < 0xfffff000
  wholePages : pageOffset h.system.totalSize = 0
  pagePtr : h.system.pagePtr = 0
  zero : ∀ q, h.physmem q = 0
  line : ∀ i, ∃ k < 32, (h.procs i).cacheLineSize = 2 ^ k
  unmapped : ∀ i v, (h.procs i).pTable.pTable v = none
  coherent : ∀ i, (h.procs i).pTable.Coherent

omit [DecidableEq ι] in
theorem Booted.sound (hb : h.Booted) : h.Sound := by
  have hframe (i : ι) (v : Addr) : (h.get i).frame v = none := by
    rw [LiveProcess.frame]
    change ((h.procs i).pTable.pTable v).bind _ = none
    rw [hb.unmapped, Option.bind_none]
  refine ⟨fun i => ⟨hb.line i, hb.config, hb.total, hb.wholePages, ?_, hb.coherent i, ?_, ?_,
    fun q _ _ => hb.zero q⟩, ?_, fun q _ _ => hb.zero q⟩
  · change h.system.pagePtr.toNat * PageBytes ≤ _
    rw [hb.pagePtr]
    exact Nat.zero_le _
  · intro v f hf
    rw [hframe] at hf
    cases hf
  · intro v w f hf
    rw [hframe] at hf
    cases hf
  · rintro i j - q ⟨v, hv⟩
    rw [hframe] at hv
    cases hv

/-- Two processes that are not loaded yet. -/
def pair : Host Bool :=
  { system := twoPages
    procs := fun _ =>
      { system := twoPages, mmap_end := 0x2aaaaaaab000, brk_point := 0x500800 } }

private theorem pair_booted : pair.Booted := by
  refine ⟨twoPages_configured, by decide, by decide, rfl, fun _ => rfl, ?_, fun _ _ => rfl, ?_⟩
  · exact fun _ => ⟨6, by decide, rfl⟩
  · refine fun _ => ⟨List.nodup_nil, ?_⟩
    simp [pair, FuncPageTable.slots, PTableCache.slots, CacheElement.slot]

/-- Whatever the order of the calls, two addresses are at one place of the memory only if they are
one address of one process, and what was not handed out is zero. -/
theorem frames_exclusive {h₀ : Host ι} {es : List (ι × LiveProcess.Call)} (hb : h₀.Booted)
    (hrun : Run Turn h₀ es h) :
    (∀ i, (h.get i).pTable.Transparent) ∧
    (∀ i j a b q, ((h.get i).translate a).1 = some q → ((h.get j).translate b).1 = some q →
      q < h.system.totalSize → i = j ∧ a = b) ∧
    (∀ i a q, ((h.get i).translate a).1 = some q → q < h.system.totalSize →
      q.toNat < h.system.pagePtr.toNat * PageBytes) ∧
    ∀ q, h.system.pagePtr.toNat * PageBytes ≤ q.toNat → q < h.system.totalSize →
      h.physmem q = 0 := by
  have hh := run_sound hb.sound hrun
  have hphys {i : ι} {a q : Addr} (ht : ((h.get i).translate a).1 = some q)
      (hin : q < h.system.totalSize) : (h.get i).phys a = some q := by
    rw [LiveProcess.translate_fst (hh.procs i).coherent] at ht
    exact LiveProcess.phys_of_place ht (BitVec.lt_def.mp hin)
  refine ⟨fun i => FuncPageTable.transparent_of_agrees (hh.procs i).coherent, ?_, ?_, hh.zero⟩
  · intro i j a b q ha hb hin
    have hij : i = j := by
      by_contra hne
      exact hh.apart i j hne q (LiveProcess.phys_own (hphys ha hin))
        (LiveProcess.phys_own (hphys hb hin))
    subst hij
    exact ⟨rfl, (hh.procs i).phys_inj (hphys ha hin) (hphys hb hin)⟩
  · intro i a q ha hin
    exact (hh.procs i).own_used (LiveProcess.phys_own (hphys ha hin))

theorem frames_exclusive_pair : ∃ h, Run Turn pair
      [(false, .writeBlob .Always 0x1ffe [1, 2, 3, 4]), (true, .brk 0x501800)] h ∧
      ∀ a b q, ((h.get false).translate a).1 = some q → ((h.get true).translate b).1 = some q →
        ¬ q < h.system.totalSize := by
  obtain ⟨p, p', hp, hp'⟩ : ∃ p p',
      (pair.get false).call (.writeBlob .Always 0x1ffe [1, 2, 3, 4]) = .ok p ∧
      ((pair.set false p).get true).call (.brk 0x501800) = .ok p' := ⟨_, _, rfl, rfl⟩
  have hrun : Run Turn pair
      [(false, .writeBlob .Always 0x1ffe [1, 2, 3, 4]), (true, .brk 0x501800)]
      ((pair.set false p).set true p') :=
    (Run.nil.snoc ⟨show 4 < 2 ^ 32 by decide, p, hp, rfl⟩).snoc ⟨trivial, p', hp', rfl⟩
  refine ⟨_, hrun, fun a b q ha hb hin => ?_⟩
  exact absurd ((frames_exclusive pair_booted hrun).2.1 false true a b q ha hb hin).1 (by decide)

/-- While a process makes no call it reads what it read before. -/
theorem reads_isolated {h₀ : Host ι} {es es' : List (ι × LiveProcess.Call)} (hb : h₀.Booted)
    (hrun : Run Turn h₀ es h) (hrun' : Run Turn h es' h') (hquiet : ∀ e ∈ es', e.1 ≠ i) {a : Addr}
    {n : Nat} (hn : n < 2 ^ 32) (bytes : List UInt8) :
    (∃ q, (h'.get i).readBlob a n = .ok (bytes, q)) ↔
      ∃ q, (h.get i).readBlob a n = .ok (bytes, q) := by
  have hh := run_sound hb.sound hrun
  have hsame : h'.Sound ∧ ((∀ e ∈ es', e.1 ≠ i) → (h'.get i).view = (h.get i).view) := by
    refine hrun'.inv (fun es' h' => h'.Sound ∧ ((∀ e ∈ es', e.1 ≠ i) →
      (h'.get i).view = (h.get i).view)) ⟨hh, fun _ => rfl⟩ ?_
    rintro es' t e u ⟨ht, hview⟩ hturn
    obtain ⟨hu, hothers⟩ := hturn.spec ht
    refine ⟨hu, fun hquiet => ?_⟩
    have hlast := hquiet e (by simp)
    rw [hothers i hlast.symm]
    exact hview fun e' he' => hquiet e' (by simp [he'])
  rw [LiveProcess.readBlob_iff (hsame.1.procs i) hn, LiveProcess.readBlob_iff (hh.procs i) hn,
    hsame.2 hquiet]

theorem reads_isolated_pair : ∃ h, Run Turn pair
      [(true, .writeBlob .Always 0x1ffe [5, 6, 7, 8])] h ∧
      ∀ bytes, (∃ q, (h.get false).readBlob 0x1ffe 4 = .ok (bytes, q)) ↔
        ∃ q, (pair.get false).readBlob 0x1ffe 4 = .ok (bytes, q) := by
  obtain ⟨p, hp⟩ : ∃ p,
      (pair.get true).call (.writeBlob .Always 0x1ffe [5, 6, 7, 8]) = .ok p := ⟨_, rfl⟩
  have hrun : Run Turn pair [(true, .writeBlob .Always 0x1ffe [5, 6, 7, 8])] (pair.set true p) :=
    Run.nil.snoc ⟨show 4 < 2 ^ 32 by decide, p, hp, rfl⟩
  exact ⟨_, hrun, reads_isolated pair_booted .nil hrun (by decide) (by decide)⟩

/-- A turn in which the process, if it is its own, covers none of the bytes of `R`. -/
def SparingTurn (i : ι) (R : Addr → Prop) (h : Host ι) (e : ι × LiveProcess.Call) (h' : Host ι) :
    Prop :=
  Turn h e h' ∧ (e.1 = i → ∀ x, R x → ¬ (h.get i).Covers x e.2)

private theorem sparing_keeps {R : Addr → Prop} {es : List (ι × LiveProcess.Call)} (hh : h.Sound)
    (hrun : Run (SparingTurn i R) h es h') : h'.Sound ∧ ∀ x v, R x →
      (h.get i).view x = some v → (h'.get i).view x = some v := by
  refine hrun.inv (fun _ h' => h'.Sound ∧ ∀ x v, R x → (h.get i).view x = some v →
    (h'.get i).view x = some v) ⟨hh, fun _ _ _ hv => hv⟩ ?_
  rintro es t ⟨j, c⟩ u ⟨ht, hview⟩ ⟨hturn, hspares⟩
  obtain ⟨hu, hothers⟩ := hturn.spec ht
  refine ⟨hu, fun x v hx hv => ?_⟩
  by_cases hj : j = i
  · subst hj
    obtain ⟨hfits, p, hok, rfl⟩ := hturn
    rw [get_set]
    exact LiveProcess.call_keeps (ht.procs j) hfits hok (hspares rfl x hx) (hview x v hx hv)
  · rw [hothers i (Ne.symm hj)]
    exact hview x v hx hv

/-- A blob is read as it was written, whatever the other processes do, as long as no call of its
own process covers it. -/
theorem written_is_read {h₀ : Host ι} {es es' : List (ι × LiveProcess.Call)}
    {allocating : AllocType} {a : Addr} {bytes : List UInt8} (hb : h₀.Booted)
    (hrun : Run Turn h₀ es h) (hlen : bytes.length < 2 ^ 32)
    (hwrite : (h.get i).tryWriteBlob allocating a bytes = .ok (true, p))
    (hrun' : Run (SparingTurn i fun x => ∃ k < bytes.length, x = byteAt a k) (h.set i p) es' h') :
    ∃ q, (h'.get i).readBlob a bytes.length = .ok (bytes, q) := by
  have hh := run_sound hb.sound hrun
  have hturn : Turn h (i, .writeBlob allocating a bytes) (h.set i p) := by
    refine ⟨hlen, p, ?_, rfl⟩
    change Prod.snd <$> (h.get i).tryWriteBlob allocating a bytes = .ok p
    rw [hwrite]
    rfl
  obtain ⟨hsound, hkept⟩ := sparing_keeps (hturn.spec hh).1 hrun'
  have hholds := (LiveProcess.tryWriteBlob_spec (hh.procs i) hlen hwrite).2.2 rfl
  have hholds' : Holds (h'.get i).view a bytes := by
    intro k hk
    apply hkept _ _ ⟨k, hk, rfl⟩
    rw [get_set]
    exact hholds k hk
  obtain ⟨q, hq, -⟩ := LiveProcess.readBlob_of_view (hsound.procs i) hlen hholds'
  exact ⟨q, hq⟩

theorem written_is_read_pair : ∃ (p : LiveProcess) (h : Host Bool),
      (pair.get false).tryWriteBlob .Always 0x1ffe [1, 2, 3, 4] = .ok (true, p) ∧
      Run Turn (pair.set false p) [(true, .writeBlob .Always 0x1ffe [5, 6, 7, 8])] h ∧
      ∃ q, (h.get false).readBlob 0x1ffe 4 = .ok ([1, 2, 3, 4], q) := by
  obtain ⟨p, p', hp, hp'⟩ : ∃ p p',
      (pair.get false).tryWriteBlob .Always 0x1ffe [1, 2, 3, 4] = .ok (true, p) ∧
      ((pair.set false p).get true).call (.writeBlob .Always 0x1ffe [5, 6, 7, 8]) = .ok p' :=
    ⟨_, _, rfl, rfl⟩
  have hturn : Turn (pair.set false p) (true, .writeBlob .Always 0x1ffe [5, 6, 7, 8])
      ((pair.set false p).set true p') := ⟨show 4 < 2 ^ 32 by decide, p', hp', rfl⟩
  exact ⟨p, _, hp, Run.nil.snoc hturn, written_is_read pair_booted .nil (by decide) hp
    (Run.nil.snoc ⟨hturn, fun hi => absurd hi (by decide)⟩)⟩

/-- So is a string, up to the zero that ends it. -/
theorem string_is_read {h₀ : Host ι} {es es' : List (ι × LiveProcess.Call)} {a : Addr}
    {str : List UInt8} {fuel : Nat} (hb : h₀.Booted) (hrun : Run Turn h₀ es h)
    (hlen : str.length < 2 ^ 64) (hzero : 0 ∉ str) (hfuel : str.length < fuel)
    (hwrite : (h.get i).tryWriteString a str = .ok (true, p))
    (hrun' : Run (SparingTurn i fun x => ∃ k < str.length + 1, x = byteAt a k) (h.set i p) es' h') :
    ∃ q, LiveProcess.tryReadString [] fuel (h'.get i) a = .ok (some str, q) := by
  have hh := run_sound hb.sound hrun
  have hturn : Turn h (i, .writeString a str) (h.set i p) := by
    refine ⟨hlen, p, ?_, rfl⟩
    change Prod.snd <$> (h.get i).tryWriteString a str = .ok p
    rw [hwrite]
    rfl
  obtain ⟨hsound, hkept⟩ := sparing_keeps (hturn.spec hh).1 hrun'
  have hholds := (LiveProcess.tryWriteString_spec (hh.procs i) hlen hwrite).2.2 rfl
  have hholds' : Holds (h'.get i).view a (str ++ [0]) := by
    intro k hk
    apply hkept _ _ ⟨k, by simpa using hk, rfl⟩
    rw [get_set]
    exact hholds k hk
  obtain ⟨q, hq, -⟩ :=
    LiveProcess.tryReadString_of_view (hsound.procs i) hzero hfuel hholds' []
  exact ⟨q, hq⟩

theorem string_is_read_pair : ∃ (h : Host Bool) (p q : LiveProcess),
      (h.get false).tryWriteString 0x1004 [0x68, 0x69] = .ok (true, p) ∧
      LiveProcess.tryReadString [] 3 ((h.set false p).get false) 0x1004 =
        .ok (some [0x68, 0x69], q) := by
  obtain ⟨p, p', hp, hp'⟩ : ∃ p p',
      (pair.get false).call (.writeBlob .Always 0x1000 [0, 0, 0, 0]) = .ok p ∧
      ((pair.set false p).get false).tryWriteString 0x1004 [0x68, 0x69] = .ok (true, p') :=
    ⟨_, _, rfl, rfl⟩
  have hrun : Run Turn pair [(false, .writeBlob .Always 0x1000 [0, 0, 0, 0])]
      (pair.set false p) := Run.nil.snoc ⟨show 4 < 2 ^ 32 by decide, p, hp, rfl⟩
  obtain ⟨q, hq⟩ := string_is_read pair_booted hrun (by decide) (by decide)
    (show 2 < 3 by decide) hp' .nil
  exact ⟨_, p', q, hp', hq⟩

/-! ## System calls -/

/-- A longer data segment: what it gains is zero, and no other byte changes but in the rest of the
last page. -/
theorem brk_zeroes {h₀ : Host ι} {es : List (ι × LiveProcess.Call)} {new_brk r : Addr}
    (hb : h₀.Booted) (hrun : Run Turn h₀ es h) (hgrow : (h.get i).brk_point < new_brk)
    (hsize : new_brk.toNat - (h.get i).brk_point.toNat < 2 ^ 32)
    (hlast : new_brk.toNat + PageBytes ≤ 2 ^ 64)
    (hdev : LiveProcess.OffDevices h.system (h.get i).brk_point new_brk)
    (hok : (h.get i).brkFunc new_brk = .ok (r, p)) :
    r = new_brk ∧ p.brk_point = new_brk ∧
      (∀ x, (h.get i).brk_point ≤ x → x < new_brk → p.view x = some 0) ∧
      (∀ x v, (h.get i).view x = some v →
        ¬((h.get i).brk_point ≤ x ∧ pageAlign x < new_brk) → p.view x = some v) ∧
      ∀ j, j ≠ i → ((h.set i p).get j).view = (h.get j).view := by
  have hh := run_sound hb.sound hrun
  obtain ⟨hr, hpoint, -, hzero, -⟩ :=
    LiveProcess.brkFunc_cleared (hh.procs i) hgrow hlast hok
  have hturn : Turn h (i, .brk new_brk) (h.set i p) := by
    refine ⟨trivial, p, ?_, rfl⟩
    change Prod.snd <$> (h.get i).brkFunc new_brk = .ok p
    rw [hok]
    rfl
  refine ⟨hr, hpoint, hzero hsize hdev, ?_, (hturn.spec hh).2⟩
  intro x v hv hout
  exact LiveProcess.brkFunc_keeps (hh.procs i) hok (fun _ => ⟨hlast, hout⟩) hv

theorem brk_zeroes_pair : ∃ p : LiveProcess,
    (pair.get false).brkFunc 0x502000 = .ok (0x502000, p) ∧ p.view 0x501fff = some 0 := by
  obtain ⟨p, hp⟩ : ∃ p, (pair.get false).brkFunc 0x502000 = .ok (0x502000, p) := ⟨_, rfl⟩
  have hdev : LiveProcess.OffDevices twoPages 0x500800 0x502000 := by
    rintro x - hlt ⟨-, hv⟩
    obtain ⟨r, hr, hcontains⟩ := List.any_eq_true.mp hv
    obtain rfl := List.mem_singleton.mp hr
    have hstart := (AddrRange.le_of_contains hcontains).1
    rw [BitVec.le_def, pageAlign_toNat] at hstart
    rw [BitVec.lt_def] at hlt
    change 0x3e800000 ≤ _ at hstart
    change _ < 0x502000 at hlt
    omega
  obtain ⟨-, -, hzero, -⟩ := brk_zeroes pair_booted .nil (by decide) (by decide) (by decide) hdev hp
  exact ⟨p, hp, hzero _ (by decide) (by decide)⟩

/-- A mapping is of zero pages that were not there, and nothing else changes. -/
theorem mmap_fresh {h₀ : Host ι} {es : List (ι × LiveProcess.Call)}
    {start length offset a : Addr} {anonymous fixed isOpen : Bool} (hb : h₀.Booted)
    (hrun : Run Turn h₀ es h) (hlength : Short length)
    (hdev : ¬(h.system.hasVdev ∧ h.system.isVAddrOfVdev a))
    (hok : (h.get i).mmapFunc start length anonymous fixed isOpen offset =
      .ok (.value a, p)) :
    pageOffset a = 0 ∧
      (∀ k < (roundUp length).toNat, (h.get i).view (byteAt a k) = none ∧
        p.view (byteAt a k) = some 0) ∧
      (∀ x, (∀ k < (roundUp length).toNat, x ≠ byteAt a k) → p.view x = (h.get i).view x) ∧
      ∀ j, j ≠ i → ((h.set i p).get j).view = (h.get j).view := by
  have hh := run_sound hb.sound hrun
  obtain ⟨-, hoff, hnew, hother⟩ := LiveProcess.mmapFunc_spec (hh.procs i) hlength hdev hok
  have hturn : Turn h (i, .mmap start length anonymous fixed isOpen offset)
      (h.set i p) := by
    refine ⟨hlength, p, ?_, rfl⟩
    change Prod.snd <$> (h.get i).mmapFunc start length anonymous fixed isOpen offset =
      .ok p
    rw [hok]
    rfl
  rw [pages_roundUp hlength]
  refine ⟨hoff, ?_, ?_, (hturn.spec hh).2⟩
  · intro k hk
    obtain ⟨m, hm, hpage⟩ := page_of_byteAt hoff hk
    exact hnew _ m hm hpage
  · intro x hx
    refine hother x fun m hm hpage => ?_
    obtain ⟨k, hk, hbyte⟩ := byteAt_of_page hm hpage
    exact hx k hk hbyte

theorem mmap_fresh_pair : ∃ p : LiveProcess,
    (pair.get false).mmapFunc 0 0x1800 true false false 0 =
      .ok (.value 0x2aaaaaaab000, p) ∧ p.view 0x2aaaaaaacfff = some 0 := by
  obtain ⟨p, hp⟩ : ∃ p, (pair.get false).mmapFunc 0 0x1800 true false false 0 =
      .ok (.value 0x2aaaaaaab000, p) := ⟨_, rfl⟩
  have hlength : Short 0x1800 := by
    rw [Short]
    decide
  obtain ⟨-, hnew, -⟩ := mmap_fresh pair_booted .nil hlength (by decide) hp
  exact ⟨p, hp, (hnew 0x1fff (by decide)).2⟩

/-- A mapping that is moved to free pages takes its bytes along; those that it gains are zero. -/
theorem mremap_carries {h₀ : Host ι} {es : List (ι × LiveProcess.Call)}
    {start old_length new_length address target a : Addr} {fixed mayMove : Bool} (hb : h₀.Booted)
    (hrun : Run Turn h₀ es h) (hold : Short old_length) (hnew : Short new_length)
    (htarget : (h.get i).moveTarget start old_length new_length fixed mayMove address =
      some target)
    (hmapped : ∀ m < pages old_length.toInt, (h.get i).pTable.pTable (page start m) ≠ none)
    (hfree : ∀ m < pages (roundUp new_length).toInt,
      (h.get i).pTable.pTable (page target m) = none)
    (hdev : ¬(h.system.hasVdev ∧ h.system.isVAddrOfVdev (target + old_length)))
    (hok : (h.get i).mremapFunc start old_length new_length fixed mayMove address =
      .ok (.value a, p)) :
    a = target ∧
      (∀ k < min old_length.toNat (roundUp new_length).toNat,
        p.view (byteAt target k) = (h.get i).view (byteAt start k)) ∧
      (∀ k, old_length.toNat ≤ k → k < (roundUp new_length).toNat →
        p.view (byteAt target k) = some 0) ∧
      (∀ k < old_length.toNat, p.view (byteAt start k) = none) ∧
      (∀ x, (∀ m < pages old_length.toInt, pageAlign x ≠ page start m) →
        (∀ k < (roundUp new_length).toNat, x ≠ byteAt target k) →
        p.view x = (h.get i).view x) ∧
      ∀ j, j ≠ i → ((h.set i p).get j).view = (h.get j).view := by
  have hh := run_sound hb.sound hrun
  obtain ⟨rfl, hstart, halign, hwhole, hcarried⟩ := LiveProcess.mremap_carried (hh.procs i) hold
    hnew htarget hmapped hfree hdev hok
  have hturn : Turn h (i, .mremap start old_length new_length fixed mayMove address)
      (h.set i p) := by
    refine ⟨⟨hnew, ?_⟩, p, ?_, rfl⟩
    · intro target ht
      obtain rfl := Option.some.inj (htarget.symm.trans ht)
      exact LiveProcess.fits_of_free (hh.procs i) hold hnew hmapped hfree
    · change Prod.snd <$> (h.get i).mremapFunc start old_length new_length fixed mayMove address =
        .ok p
      rw [hok]
      rfl
  have hold_pages := hold.pages.2.2
  have hnew_pages := pages_roundUp hnew
  refine ⟨rfl, ?_, ?_, ?_, ?_, (hturn.spec hh).2⟩
  · intro k hk
    obtain ⟨htgt, hoff⟩ := byteAt_aligned halign k
    obtain ⟨hsrc, hoff'⟩ := byteAt_aligned hstart k
    refine hcarried.kept (k / PageBytes) ?_ _ _ htgt hsrc (hoff.trans hoff'.symm)
    simp only [PageShift, PageBytes] at hold_pages hnew_pages ⊢
    omega
  · intro k hk hlt
    have hwhole := hwhole (by rw [BitVec.lt_def]; omega)
    refine hcarried.fresh (k / PageBytes) ?_ ?_ _ (byteAt_aligned halign k).1
    · simp only [PageShift, PageBytes] at hwhole ⊢
      omega
    · simp only [PageShift, PageBytes] at hnew_pages ⊢
      omega
  · intro k hk
    refine hcarried.left (k / PageBytes) ?_ _ (byteAt_aligned hstart k).1
    simp only [PageShift, PageBytes] at hold_pages ⊢
    omega
  · intro x hx hx'
    refine hcarried.others x hx fun m hm hpage => ?_
    obtain ⟨k, hk, hbyte⟩ := byteAt_of_page hm hpage
    exact hx' k (hnew_pages ▸ hk) hbyte

theorem mremap_carries_pair : ∃ (h : Host Bool) (p : LiveProcess),
    (h.get false).mremapFunc 0x10000 0x1000 0x2000 true true 0x20000 =
      .ok (.value 0x20000, p) ∧ p.view 0x20001 = (h.get false).view 0x10001 := by
  obtain ⟨p, p', hp, hmapped, hfree, hfree', hdev, hp'⟩ : ∃ p p',
      (pair.get false).call (.writeBlob .Always 0x10000 [1, 2, 3, 4]) = .ok p ∧
      (((pair.set false p).get false).pTable.pTable 0x10000).isSome = true ∧
      ((pair.set false p).get false).pTable.pTable 0x20000 = none ∧
      ((pair.set false p).get false).pTable.pTable 0x21000 = none ∧
      (pair.set false p).system.isVAddrOfVdev 0x21000 = false ∧
      ((pair.set false p).get false).mremapFunc 0x10000 0x1000 0x2000 true true 0x20000 =
        .ok (.value 0x20000, p') := ⟨_, _, rfl, rfl, rfl, rfl, rfl, rfl⟩
  have hrun : Run Turn pair [(false, .writeBlob .Always 0x10000 [1, 2, 3, 4])]
      (pair.set false p) := Run.nil.snoc ⟨show 4 < 2 ^ 32 by decide, p, hp, rfl⟩
  generalize pair.set false p = h at *
  have hold : Short 0x1000 := by
    rw [Short]
    decide
  have hnew : Short 0x2000 := by
    rw [Short]
    decide
  have htarget : (h.get false).moveTarget 0x10000 0x1000 0x2000 true true 0x20000 =
      some 0x20000 := by
    rw [Process.moveTarget, if_pos (by decide), if_neg, if_neg (by decide)]
    · rfl
    · rintro ⟨-, hsame⟩
      exact absurd hsame (by decide)
  have hmapped' : ∀ m < 1, (h.get false).pTable.pTable (page 0x10000 m) ≠ none := by
    intro m hm
    obtain rfl : m = 0 := by omega
    exact Option.isSome_iff_ne_none.mp hmapped
  have hfree' : ∀ m < 2, (h.get false).pTable.pTable (page 0x20000 m) = none := by
    intro m hm
    obtain rfl | rfl : m = 0 ∨ m = 1 := by omega
    · exact hfree
    · exact hfree'
  have hcarries := mremap_carries pair_booted hrun hold hnew htarget hmapped' hfree'
    (fun hv => absurd (hdev.symm.trans hv.2) (by decide)) hp'
  exact ⟨h, p', hp', hcarries.2.1 1 (by decide)⟩

end Host

end ModernArch.Sim
