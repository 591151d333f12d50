import ModernArch.Framework.Tenancy
import ModernArch.Sim.DeviceMap
import ModernArch.Sim.LiveProcess

/-!
# Physical pages of a process

No two pages of a process are on one page of the memory, and what was not handed out is zero. The
steps from which the calls are made keep this, and leave the pages of the other processes alone.
-/

namespace ModernArch.Sim
open Framework Mem

theorem pageAlign_toNat (a : Addr) : (pageAlign a).toNat = a.toNat - a.toNat % PageBytes := by
  have hle : pageOffset a ≤ a := by
    rw [BitVec.le_def, pageOffset_toNat]
    exact Nat.mod_le _ _
  rw [pageAlign_eq, BitVec.toNat_sub_of_le hle, pageOffset_toNat]

private theorem pageOffset_pageStart (e : TlbEntry) : pageOffset e.pageStart = 0 := by
  rw [pageOffset_eq_zero]
  simp only [TlbEntry.pageStart, PageShift, PageBytes, BitVec.toNat_shiftLeft, Nat.shiftLeft_eq]
  omega

private theorem pageOffset_add (a : Addr) {f : Addr} (h : pageOffset f = 0) :
    pageOffset (pageOffset a + f) = pageOffset a := by
  rw [pageOffset_eq_zero] at h
  apply BitVec.eq_of_toNat_eq
  rw [pageOffset_toNat, BitVec.toNat_add, pageOffset_toNat]
  simp only [PageShift, PageBytes] at h ⊢
  omega

private theorem pageOffset_add_toNat (a : Addr) {f : Addr} (h : pageOffset f = 0) :
    (pageOffset a + f).toNat = a.toNat % PageBytes + f.toNat := by
  rw [pageOffset_eq_zero] at h
  rw [BitVec.toNat_add, pageOffset_toNat]
  have hlt := f.isLt
  simp only [PageShift, PageBytes] at h ⊢
  omega

private theorem add_pageAlign (a : Addr) : pageOffset a + pageAlign a = a := by
  rw [pageAlign_eq, BitVec.add_comm, BitVec.sub_add_cancel]

/-- The bytes of a page are at their offsets. -/
theorem byteAt_page {a : Addr} {k : Nat} (h : a.toNat % PageBytes + k < PageBytes) :
    pageAlign (byteAt a k) = pageAlign a ∧ pageOffset (byteAt a k) = byteAt (pageOffset a) k := by
  have hlt := a.isLt
  have hsum : (byteAt a k).toNat = a.toNat + k := by
    apply byteAt_toNat
    simp only [PageShift, PageBytes] at h
    omega
  have hoff : (byteAt (pageOffset a) k).toNat = a.toNat % PageBytes + k := by
    rw [byteAt_toNat, pageOffset_toNat]
    rw [pageOffset_toNat]
    simp only [PageShift, PageBytes] at h ⊢
    omega
  constructor <;> apply BitVec.eq_of_toNat_eq
  · rw [pageAlign_toNat, pageAlign_toNat, hsum]
    simp only [PageShift, PageBytes] at h ⊢
    omega
  · rw [pageOffset_toNat, hoff, hsum]
    simp only [PageShift, PageBytes] at h ⊢
    omega

theorem byteAt_aligned {a : Addr} (h : pageOffset a = 0) (k : Nat) :
    pageAlign (byteAt a k) = page a (k / PageBytes) ∧
      pageOffset (byteAt a k) = BitVec.ofNat 64 (k % PageBytes) := by
  rw [pageOffset_eq_zero] at h
  constructor <;> apply BitVec.eq_of_toNat_eq
  · rw [pageAlign_toNat, byteAt, page, BitVec.toNat_add, BitVec.toNat_add, BitVec.toNat_ofNat,
      BitVec.toNat_ofNat]
    simp only [PageShift, PageBytes] at h ⊢
    omega
  · rw [pageOffset_toNat, byteAt, BitVec.toNat_add, BitVec.toNat_ofNat, BitVec.toNat_ofNat]
    simp only [PageShift, PageBytes] at h ⊢
    omega

/-- The bytes of pages that follow one another. -/
theorem byteAt_of_page {a x : Addr} {n i : Nat} (hi : i < n) (h : pageAlign x = page a i) :
    ∃ k < n * PageBytes, x = byteAt a k := by
  have hx := x.isLt
  refine ⟨i * PageBytes + x.toNat % PageBytes, ?_, ?_⟩
  · simp only [PageShift, PageBytes]
    omega
  · have hoff : pageOffset x = BitVec.ofNat 64 (x.toNat % PageBytes) := by
      apply BitVec.eq_of_toNat_eq
      rw [pageOffset_toNat, BitVec.toNat_ofNat]
      simp only [PageShift, PageBytes]
      omega
    rw [byteAt, BitVec.ofNat_add, ← BitVec.add_assoc, ← hoff, BitVec.add_comm]
    exact (h ▸ add_pageAlign x).symm

theorem page_of_byteAt {a : Addr} {n k : Nat} (ha : pageOffset a = 0) (hk : k < n * PageBytes) :
    ∃ i < n, pageAlign (byteAt a k) = page a i :=
  ⟨k / PageBytes, (Nat.div_lt_iff_lt_mul (by decide)).mpr hk, (byteAt_aligned ha k).1⟩

private theorem mapPages_entry {t t' : FuncPageTable} {n : Nat} {vaddr paddr : Addr}
    {flags : BitVec 64}
    (hn : n ≤ 2 ^ 52) (h : t.mapPages flags n vaddr paddr = .ok t') {i : Nat} (hi : i < n) :
    ∃ entry, t'.pTable (page vaddr i) = some entry ∧
      entry.pageStart = pageAlign (page paddr i) := by
  induction n generalizing t vaddr paddr i with
  | zero => omega
  | succ n ih =>
      obtain ⟨t₁, hpage, hrest⟩ := bind_ok h
      cases i with
      | succ i =>
          rw [← page_succ vaddr, ← page_succ paddr]
          exact ih (by omega) hrest (Nat.lt_of_succ_lt_succ hi)
      | zero =>
          obtain ⟨-, -, hframe, -⟩ := mapPages_spec hrest
          cases (check_bind hpage).2
          have hlater : ∀ k < n, vaddr ≠ page (page vaddr 1) k := by
            intro k hk heq
            rw [page_succ] at heq
            have hzero := page_inj (by decide) (by omega) ((page_zero vaddr).trans heq)
            omega
          rw [page_zero, page_zero, hframe vaddr hlater]
          exact ⟨_, Function.update_self _ _ _, pageStart_new _ _ _ _ _⟩

namespace LiveProcess

section Spaces

variable (p : LiveProcess)

/-- The page of the memory on which the table has a page. -/
def frame (v : Addr) : Option Addr :=
  (p.pTable.pTable v).bind fun e =>
    if e.pageStart < p.system.totalSize then some e.pageStart else none

def phys (a : Addr) : Option Addr := (p.frame (pageAlign a)).map (pageOffset a + ·)

/-- What a search of the table gives for an address, in the memory or on a device. -/
def place (a : Addr) : Option Addr :=
  (p.pTable.pTable (pageAlign a)).map fun e => pageOffset a + e.pageStart

/-- The bytes of the process. -/
def view (a : Addr) : Option UInt8 := (p.phys a).map p.physmem

/-- The bytes of its pages in the memory. -/
def own : Set Addr := {q | ∃ v, p.frame v = some (pageAlign q)}

def store : Store Addr UInt8 :=
  { used := {q | q.toNat < p.system.pagePtr.toNat * PageBytes}, mem := p.physmem }

end Spaces

structure Sound (p : LiveProcess) : Prop where
  line : ∃ k < 32, p.cacheLineSize = 2 ^ k
  config : p.system.Configured
  total : p.system.totalSize.toNat < 0xfffff000
  wholePages : pageOffset p.system.totalSize = 0
  pagePtr : p.system.pagePtr.toNat * PageBytes ≤ p.system.totalSize.toNat
  coherent : p.pTable.Coherent
  used : ∀ v f, p.frame v = some f → f.toNat < p.system.pagePtr.toNat * PageBytes
  exclusive : Exclusive p.frame
  zero : ∀ q : Addr, p.system.pagePtr.toNat * PageBytes ≤ q.toNat → q < p.system.totalSize →
    p.physmem q = 0

/-- The process goes on, soundly, in the same system. -/
structure Step (p p' : LiveProcess) : Prop where
  sound : p'.Sound
  system : ∃ pagePtr, p'.system = { p.system with pagePtr := pagePtr }
  line : p'.cacheLineSize = p.cacheLineSize
  evolves : Evolves p.own p.store p'.own p'.store

variable {p p' p'' : LiveProcess}

theorem frame_eq_some {v f : Addr} : p.frame v = some f ↔
    ∃ e, p.pTable.pTable v = some e ∧ e.pageStart = f ∧ f < p.system.totalSize := by
  rw [frame, Option.bind_eq_some_iff]
  constructor
  · rintro ⟨e, he, hf⟩
    by_cases hlt : e.pageStart < p.system.totalSize
    · rw [if_pos hlt] at hf
      cases hf
      exact ⟨e, he, rfl, hlt⟩
    · rw [if_neg hlt] at hf
      cases hf
  · rintro ⟨e, he, rfl, hlt⟩
    exact ⟨e, he, if_pos hlt⟩

theorem frame_offset {v f : Addr} (h : p.frame v = some f) : pageOffset f = 0 := by
  obtain ⟨e, -, rfl, -⟩ := frame_eq_some.mp h
  exact pageOffset_pageStart e

private theorem phys_eq_some {a q : Addr} : p.phys a = some q ↔
    p.frame (pageAlign a) = some (pageAlign q) ∧ pageOffset q = pageOffset a := by
  rw [phys, Option.map_eq_some_iff]
  constructor
  · rintro ⟨f, hf, rfl⟩
    have hoff := frame_offset hf
    exact ⟨hf.trans (congrArg some (pageAlign_add a hoff).symm), pageOffset_add a hoff⟩
  · rintro ⟨hf, hoff⟩
    exact ⟨_, hf, hoff ▸ add_pageAlign q⟩

theorem phys_own {a q : Addr} (h : p.phys a = some q) : q ∈ p.own :=
  ⟨_, (phys_eq_some.mp h).1⟩

theorem view_eq_none {a : Addr} : p.view a = none ↔ p.frame (pageAlign a) = none := by
  simp [view, phys]

namespace Sound

theorem phys_inj (h : p.Sound) {a b q : Addr} (ha : p.phys a = some q) (hb : p.phys b = some q) :
    a = b := by
  obtain ⟨hfa, hoffa⟩ := phys_eq_some.mp ha
  obtain ⟨hfb, hoffb⟩ := phys_eq_some.mp hb
  rw [← add_pageAlign a, ← add_pageAlign b, h.exclusive _ _ _ hfa hfb, ← hoffa, ← hoffb]

theorem own_used (h : p.Sound) : p.own ⊆ p.store.used := by
  rintro q ⟨v, hv⟩
  have hlt := h.used _ _ hv
  rw [pageAlign_toNat] at hlt
  change q.toNat < _
  simp only [PageShift, PageBytes] at hlt ⊢
  omega

end Sound

namespace Step

theorem refl (h : p.Sound) : Step p p := ⟨h, ⟨_, rfl⟩, rfl, Evolves.refl _ _⟩

theorem trans (h : Step p p') (h' : Step p' p'') : Step p p'' := by
  obtain ⟨ptr, hsys⟩ := h.system
  obtain ⟨ptr', hsys'⟩ := h'.system
  exact ⟨h'.sound, ⟨ptr', by rw [hsys', hsys]⟩, h'.line.trans h.line, h.evolves.trans h'.evolves⟩

/-- A step that only hands out new pages, takes pages away or moves them. -/
theorem of_frames (h : p.Sound) {ptr : Addr} (hmem : p'.physmem = p.physmem)
    (hsys : p'.system = { p.system with pagePtr := ptr })
    (hptr : p.system.pagePtr.toNat ≤ ptr.toNat)
    (hle : ptr.toNat * PageBytes ≤ p.system.totalSize.toNat)
    (hline : p'.cacheLineSize = p.cacheLineSize) (hcoherent : p'.pTable.Coherent)
    (hframe : ∀ v f, p'.frame v = some f → (∃ w, p.frame w = some f) ∨
      p.system.pagePtr.toNat * PageBytes ≤ f.toNat ∧ f.toNat < ptr.toNat * PageBytes)
    (hexclusive : Exclusive p'.frame) : Step p p' := by
  have hmul := Nat.mul_le_mul_right PageBytes hptr
  have hsound : p'.Sound := by
    refine ⟨hline ▸ h.line, ?_, ?_, ?_, ?_, hcoherent, ?_, hexclusive, ?_⟩
    · rw [hsys]
      exact ⟨h.config.paired, h.config.plain, h.config.valid, h.config.sizes, h.config.outside⟩
    · rw [hsys]
      exact h.total
    · rw [hsys]
      exact h.wholePages
    · rw [hsys]
      exact hle
    · rw [hsys]
      intro v f hf
      rcases hframe v f hf with ⟨w, hw⟩ | hnew
      · exact (h.used w f hw).trans_le hmul
      · exact hnew.2
    · rw [hsys, hmem]
      intro q hq
      exact h.zero q (hmul.trans hq)
  refine ⟨hsound, ⟨ptr, hsys⟩, hline, ?_, ?_, ?_⟩
  · intro q hq
    change q.toNat < _
    rw [hsys]
    exact lt_of_lt_of_le hq hmul
  · rintro q ⟨v, hv⟩
    rcases hframe _ _ hv with hold | hnew
    · exact Or.inl hold
    · refine Or.inr fun hused => ?_
      have hlt : q.toNat < p.system.pagePtr.toNat * PageBytes := hused
      have hge := hnew.1
      rw [pageAlign_toNat] at hge
      omega
  · intro q _ _
    exact congrFun hmem q

theorem of_same (p' : LiveProcess) (h : p.Sound) (hsys : p'.system = p.system) (htable : p'.pTable = p.pTable)
    (hmem : p'.physmem = p.physmem) (hline : p'.cacheLineSize = p.cacheLineSize) :
    Step p p' ∧ p'.view = p.view := by
  have hframe : p'.frame = p.frame := by
    funext v
    rw [frame, frame, htable, hsys]
  constructor
  · refine of_frames h hmem hsys le_rfl h.pagePtr hline (htable ▸ h.coherent) ?_ ?_
    · intro v f hf
      rw [hframe] at hf
      exact Or.inl ⟨v, hf⟩
    · rw [hframe]
      exact h.exclusive
  · funext a
    rw [view, view, phys, phys, hframe, hmem]

/-- A step that hands out new pages, each once. -/
theorem of_new (h : p.Sound) {ptr : Addr} (hmem : p'.physmem = p.physmem)
    (hsys : p'.system = { p.system with pagePtr := ptr })
    (hptr : p.system.pagePtr.toNat ≤ ptr.toNat)
    (hle : ptr.toNat * PageBytes ≤ p.system.totalSize.toNat)
    (hline : p'.cacheLineSize = p.cacheLineSize) (hcoherent : p'.pTable.Coherent)
    (hpage : ∀ v, p'.frame v = p.frame v ∨ ∀ f, p'.frame v = some f →
      p.system.pagePtr.toNat * PageBytes ≤ f.toNat ∧ f.toNat < ptr.toNat * PageBytes)
    (hnew : ∀ v w f, p.system.pagePtr.toNat * PageBytes ≤ f.toNat → p'.frame v = some f →
      p'.frame w = some f → v = w) : Step p p' := by
  have hold {v f : Addr} (hlt : f.toNat < p.system.pagePtr.toNat * PageBytes)
      (hf : p'.frame v = some f) : p.frame v = some f := by
    rcases hpage v with hsame | hfresh
    · exact hsame ▸ hf
    · exact absurd (hfresh f hf).1 (Nat.not_le.mpr hlt)
  refine of_frames h hmem hsys hptr hle hline hcoherent ?_ ?_
  · intro v f hf
    rcases hpage v with hsame | hfresh
    · exact Or.inl ⟨v, hsame ▸ hf⟩
    · exact Or.inr (hfresh f hf)
  · intro v w f hv hw
    by_cases hlt : f.toNat < p.system.pagePtr.toNat * PageBytes
    · exact h.exclusive v w f (hold hlt hv) (hold hlt hw)
    · exact hnew v w f (Nat.not_lt.mp hlt) hv hw

end Step

theorem translate_fst (h : p.pTable.Coherent) (a : Addr) : (p.translate a).1 = p.place a := by
  have hr : (p.translate a).1 = (p.pTable.lookup a).1.map fun e => pageOffset a + e.pageStart := rfl
  rw [hr, FuncPageTable.transparent_of_agrees h a, place]

theorem translate_spec (h : p.Sound) {a : Addr} {r : Option Addr} {q : LiveProcess}
    (ht : p.translate a = (r, q)) : (∃ t, q = { p with pTable := t }) ∧ Step p q ∧
      q.view = p.view ∧ q.place = p.place ∧ r = p.place a := by
  obtain rfl : q = { p with pTable := (p.pTable.lookup a).2 } := (congrArg Prod.snd ht).symm
  have htable : (p.pTable.lookup a).2.pTable = p.pTable.pTable := by
    rw [FuncPageTable.lookup]
    cases p.pTable.pTableCache.find (pageAlign a) with
    | some entry => rfl
    | none => cases p.pTable.pTable (pageAlign a) <;> rfl
  have hframe : ({ p with pTable := (p.pTable.lookup a).2 } : LiveProcess).frame = p.frame := by
    funext v
    simp only [frame, htable]
  refine ⟨⟨_, rfl⟩, ?_, ?_, ?_, ?_⟩
  · refine Step.of_frames h rfl rfl le_rfl h.pagePtr rfl
      (FuncPageTable.lookup_coherent h.coherent a) ?_ ?_
    · intro v f hf
      rw [hframe] at hf
      exact Or.inl ⟨v, hf⟩
    · rw [hframe]
      exact h.exclusive
  · funext x
    simp only [view, phys, hframe]
  · funext x
    simp only [place, htable]
  · rw [← translate_fst h.coherent, ht]

theorem view_of_unmapped {a : Addr} (h : p.pTable.pTable (pageAlign a) = none) :
    p.view a = none := by
  rw [view_eq_none, frame, h, Option.bind_none]

theorem phys_of_place {a pa : Addr} (hplace : p.place a = some pa)
    (hin : pa.toNat < p.system.totalSize.toNat) : p.phys a = some pa := by
  obtain ⟨e, he, rfl⟩ := Option.map_eq_some_iff.mp hplace
  rw [pageOffset_add_toNat a (pageOffset_pageStart e)] at hin
  have hlt : e.pageStart < p.system.totalSize := by
    rw [BitVec.lt_def]
    omega
  rw [phys, frame_eq_some.mpr ⟨e, he, rfl, hlt⟩, Option.map_some]

private theorem phys_byteAt {a pa : Addr} (h : p.phys a = some pa) {k : Nat}
    (hk : a.toNat % PageBytes + k < PageBytes) : p.phys (byteAt a k) = some (byteAt pa k) := by
  obtain ⟨halign, hoff⟩ := byteAt_page hk
  obtain ⟨f, hf, rfl⟩ := Option.map_eq_some_iff.mp h
  rw [phys, halign, hf, hoff, Option.map_some]
  simp only [byteAt, BitVec.add_assoc, BitVec.add_comm f]

/-- A page of the process is inside the memory. -/
theorem Sound.page_inside (h : p.Sound) {a pa : Addr} (hphys : p.phys a = some pa) :
    pa.toNat % PageBytes = a.toNat % PageBytes ∧
      pa.toNat - pa.toNat % PageBytes + PageBytes ≤ p.system.totalSize.toNat := by
  obtain ⟨hf, hoff⟩ := phys_eq_some.mp hphys
  obtain ⟨e, -, -, hlt⟩ := frame_eq_some.mp hf
  have hwhole := pageOffset_eq_zero.mp h.wholePages
  rw [BitVec.lt_def, pageAlign_toNat] at hlt
  have hmod := congrArg BitVec.toNat hoff
  rw [pageOffset_toNat, pageOffset_toNat] at hmod
  simp only [PageShift, PageBytes] at hwhole hlt hmod ⊢
  omega

section Accesses

variable {a pa : Addr}

/-- A packet of the page that begins in the memory is inside it. -/
theorem packet_inside (h : p.Sound) (hplace : p.place a = some pa)
    (hin : pa.toNat < p.system.totalSize.toNat) {n : Nat} (hfit : a.toNat % PageBytes + n ≤ PageBytes) :
    p.phys a = some pa ∧ pa.toNat + n ≤ p.port.totalSize.toNat := by
  have hphys := phys_of_place hplace hin
  have hinside := h.page_inside hphys
  refine ⟨hphys, ?_⟩
  change _ ≤ p.system.totalSize.toNat
  simp only [PageShift, PageBytes] at hinside hfit
  omega

theorem readBlob_spec (h : p.Sound) (hplace : p.place a = some pa) {n : Nat} (hpos : 0 < n)
    (hfit : a.toNat % PageBytes + n ≤ PageBytes) {bytes : List UInt8}
    (hok : p.port.readBlob p.physmem pa n = .ok bytes) :
    (List.range n).map (fun k => p.view (byteAt a k)) = bytes.map some := by
  obtain ⟨c, hc, hline⟩ := h.line
  have hn : n < 2 ^ 32 := by
    simp only [PageShift, PageBytes] at hfit
    omega
  obtain ⟨hphys, hin⟩ :=
    packet_inside h hplace (PortProxy.readBlob_inside hc hline hn hpos.ne' hok) hfit
  rw [PortProxy.readBlob_eq hc hline hn hin] at hok
  cases hok
  rw [Ram.read, List.map_map]
  apply List.map_congr_left
  intro k hk
  rw [view, phys_byteAt hphys (by have hlt := List.mem_range.mp hk; omega)]
  rfl

theorem writeBlob_spec (h : p.Sound) (hplace : p.place a = some pa) {bytes : List UInt8}
    (hpos : 0 < bytes.length) (hfit : a.toNat % PageBytes + bytes.length ≤ PageBytes) {m : Ram}
    (hok : p.port.writeBlob p.physmem pa bytes = .ok m) :
    Step p { p with physmem := m } ∧
      (∀ k (hk : k < bytes.length),
        ({ p with physmem := m } : LiveProcess).view (byteAt a k) = some bytes[k]) ∧
      ∀ x, (∀ k < bytes.length, x ≠ byteAt a k) →
        ({ p with physmem := m } : LiveProcess).view x = p.view x := by
  obtain ⟨c, hc, hline⟩ := h.line
  have hn : bytes.length < 2 ^ 32 := by
    simp only [PageShift, PageBytes] at hfit
    omega
  obtain ⟨hphys, hin⟩ :=
    packet_inside h hplace (PortProxy.writeBlob_inside hc hline hn hpos.ne' hok) hfit
  rw [PortProxy.writeBlob_eq hc hline hn hin] at hok
  cases hok
  have hbyte {k : Nat} (hk : k < bytes.length) : p.phys (byteAt a k) = some (byteAt pa k) :=
    phys_byteAt hphys (by omega)
  have hother {x : Addr} (hx : ∀ k < bytes.length, x ≠ byteAt pa k) :
      p.physmem.write pa bytes x = p.physmem x := Ram.write_other _ _ hx
  refine ⟨⟨⟨h.line, h.config, h.total, h.wholePages, h.pagePtr, h.coherent, h.used, h.exclusive,
    ?_⟩, ⟨_, rfl⟩, rfl, fun _ hx => hx, fun _ hx => Or.inl hx, ?_⟩, ?_, ?_⟩
  · intro x hx hlt
    refine (hother ?_).trans (h.zero x hx hlt)
    rintro k hk rfl
    have hused : (byteAt pa k).toNat < p.system.pagePtr.toNat * PageBytes :=
      h.own_used (phys_own (hbyte hk))
    exact absurd hused (Nat.not_lt.mpr hx)
  · intro x _ hown
    apply hother
    rintro k hk rfl
    exact hown (phys_own (hbyte hk))
  · intro k hk
    change (p.phys (byteAt a k)).map (p.physmem.write pa bytes) = _
    rw [hbyte hk, Option.map_some, Ram.write_byteAt p.physmem pa hk (by omega)]
  · intro x hx
    change (p.phys x).map (p.physmem.write pa bytes) = (p.phys x).map p.physmem
    cases hxq : p.phys x with
    | none => rfl
    | some y =>
        rw [Option.map_some, Option.map_some, hother]
        rintro k hk rfl
        exact hx k hk (h.phys_inj hxq (hbyte hk))

end Accesses

/-! ## New pages -/

private theorem allocPhysPages_sound {s s' : System} (htotal : s.totalSize.toNat < 0xfffff000)
    (hptr : s.pagePtr.toNat * PageBytes ≤ s.totalSize.toNat) {size : Int} (hsize : 0 ≤ size)
    (hn : pages size < 2 ^ 31) {paddr : Addr}
    (hok : s.allocPhysPages (BitVec.ofInt 32 (divCeil size PageBytes)) = .ok (paddr, s')) :
    ∃ ptr : Addr, s' = { s with pagePtr := ptr } ∧ ptr.toNat = s.pagePtr.toNat + pages size ∧
      ptr.toNat * PageBytes ≤ s.totalSize.toNat ∧ paddr.toNat = s.pagePtr.toNat * PageBytes := by
  have hbound : s.pagePtr.toNat < 2 ^ 20 := by
    simp only [PageShift, PageBytes] at hptr
    omega
  rw [System.allocPhysPages_run] at hok
  obtain ⟨hle, hok⟩ := check_bind hok
  by_cases hm5 : s.Overruns size
  · rw [System.endFrame, if_pos hm5, BitVec.le_def] at hle
    have hconst : (0xfffff000 : Addr).toNat = 0xfffff000 := by decide
    omega
  · have hnext : s.nextPagePtr size = s.pagePtr + BitVec.ofNat 64 (pages size) := by
      rw [System.nextPagePtr, System.divCeil_eq hsize, System.signExtend_eq hn]
    rw [System.endFrame, if_neg hm5, hnext] at hle
    rw [if_neg hm5, if_neg hm5, hnext] at hok
    cases hok
    have hsum : (s.pagePtr + BitVec.ofNat 64 (pages size)).toNat =
        s.pagePtr.toNat + pages size := by
      rw [BitVec.toNat_add, BitVec.toNat_ofNat]
      omega
    refine ⟨_, rfl, hsum, ?_, ?_⟩
    · rw [BitVec.le_def, BitVec.toNat_shiftLeft, hsum, Nat.shiftLeft_eq] at hle
      simp only [PageShift, PageBytes] at hle ⊢
      omega
    · rw [BitVec.toNat_shiftLeft, Nat.shiftLeft_eq]
      simp only [PageShift, PageBytes]
      omega

section Mapped

variable {t : FuncPageTable} {n : Nat} {vaddr paddr ptr : Addr} {flags : BitVec 64}

/-- What the loop of `map` does to the pages of the memory. -/
theorem frame_mapPages (p' : LiveProcess) (hn : n ≤ 2 ^ 52) (hmap : p.pTable.mapPages flags n vaddr paddr = .ok t)
    (hsys : p'.system.totalSize = p.system.totalSize) (ht : p'.pTable = t) :
    (∀ i < n, p'.frame (page vaddr i) = if pageAlign (page paddr i) < p.system.totalSize then
      some (pageAlign (page paddr i)) else none) ∧
    ∀ v, (∀ i < n, v ≠ page vaddr i) → p'.frame v = p.frame v := by
  constructor
  · intro i hi
    obtain ⟨e, he, hstart⟩ := mapPages_entry hn hmap hi
    rw [frame, ht, he, Option.bind_some, hstart, hsys]
  · intro v hv
    obtain ⟨-, -, hframe, -⟩ := mapPages_spec hmap
    rw [frame, frame, ht, hframe v hv, hsys]

end Mapped

section NewPages

variable {vaddr : Addr} {size : Int} {clobber : Bool}

/-- A request that is not for a device takes the next pages of the memory. -/
theorem allocateMem_memory (h : p.Sound) (hsize : 0 ≤ size) (hn : pages size < 2 ^ 31)
    (hdev : ¬(p.system.hasVdev ∧ p.system.isVAddrOfVdev vaddr))
    (hok : p.allocateMem vaddr size clobber = .ok p') : ∃ (t : FuncPageTable) (ptr paddr : Addr),
      p' = { p with
        toProcess := { p.toProcess with system := { p.system with pagePtr := ptr }, pTable := t } } ∧
      pageOffset vaddr = 0 ∧
      p.pTable.mapPages (if clobber then Clobber else 0) (pages size) vaddr paddr = .ok t ∧
      ptr.toNat = p.system.pagePtr.toNat + pages size ∧
      ptr.toNat * PageBytes ≤ p.system.totalSize.toNat ∧
      ∀ i < pages size, pageAlign (page paddr i) = page paddr i ∧
        (page paddr i).toNat = (p.system.pagePtr.toNat + i) * PageBytes := by
  obtain ⟨q, hq, hok⟩ := bind_ok hok
  cases hok
  obtain ⟨⟨paddr, size', s'⟩, hpages, hq⟩ := bind_ok hq
  obtain ⟨t, hmap, hq⟩ := bind_ok hq
  cases hq
  obtain ⟨hoff, hmap⟩ := check_bind hmap
  rw [System.pagesFor_memory size hdev] at hpages
  obtain ⟨⟨paddr₁, s₁⟩, halloc, hpages⟩ := bind_ok hpages
  cases hpages
  obtain ⟨ptr, rfl, hptr, hle, hpaddr⟩ := allocPhysPages_sound h.total h.pagePtr hsize hn halloc
  have htotal := h.total
  refine ⟨t, ptr, paddr, rfl, hoff, hmap, hptr, hle, ?_⟩
  intro i hi
  have hnat : (page paddr i).toNat = (p.system.pagePtr.toNat + i) * PageBytes := by
    rw [page, BitVec.toNat_add, BitVec.toNat_ofNat, hpaddr]
    simp only [PageShift, PageBytes] at hle ⊢
    omega
  refine ⟨pageAlign_of_aligned ?_, hnat⟩
  rw [pageOffset_eq_zero, hnat, Nat.mul_mod_left]

private theorem allocateMem_device (hdev : p.system.hasVdev ∧ p.system.isVAddrOfVdev vaddr)
    (hok : p.allocateMem vaddr size clobber = .ok p') :
    ∃ rp ∈ p.system.pairs, ∃ t : FuncPageTable,
      p' = { p with toProcess := { p.toProcess with pTable := t } } ∧ pageOffset vaddr = 0 ∧
      p.pTable.mapPages (if clobber then Clobber else 0) (pages rp.2.size.toInt) vaddr
        rp.2.start = .ok t := by
  obtain ⟨q, hq, hok⟩ := bind_ok hok
  cases hok
  obtain ⟨⟨paddr, size', s'⟩, hpages, hq⟩ := bind_ok hq
  obtain ⟨t, hmap, hq⟩ := bind_ok hq
  cases hq
  obtain ⟨hoff, hmap⟩ := check_bind hmap
  cases hfind : p.system.pairs.find? fun rp => rp.1.contains vaddr with
  | none =>
      rw [System.pagesFor, if_pos hdev.1, if_pos hdev.2, System.allocVdevPages, hfind] at hpages
      cases hpages
  | some rp =>
      rw [System.pagesFor_device size hdev hfind] at hpages
      cases hpages
      exact ⟨rp, List.mem_of_find?_eq_some hfind, t, rfl, hoff, hmap⟩

private theorem allocateMem_free {n : Nat} {paddr : Addr} {t : FuncPageTable}
    (hmap : p.pTable.mapPages (if clobber then Clobber else 0) n vaddr paddr = .ok t)
    (hclobber : clobber = false) : ∀ i < n, p.pTable.pTable (page vaddr i) = none := by
  rw [hclobber] at hmap
  exact mapPages_free hmap

/-- A device request maps no page of the memory. -/
theorem frames_of_device (h : p.Sound) (hdev : p.system.hasVdev ∧ p.system.isVAddrOfVdev vaddr)
    (hok : p.allocateMem vaddr size clobber = .ok p') :
    Step p p' ∧ p'.physmem = p.physmem ∧ pageOffset vaddr = 0 ∧
      ∀ v, p'.frame v = p.frame v ∨
        (clobber = false → p.pTable.pTable v = none) ∧ p'.frame v = none := by
  obtain ⟨rp, hrp, t, rfl, hoff, hmap⟩ := allocateMem_device hdev hok
  have hlt : rp.2.size.toInt < 2 ^ 63 := BitVec.toInt_lt
  have hbound : pages rp.2.size.toInt ≤ 2 ^ 52 := by
    simp only [pages, PageBytes, PageShift]
    omega
  obtain ⟨hnew, hframe⟩ := frame_mapPages
    { p with toProcess := { p.toProcess with pTable := t } } hbound hmap rfl rfl
  generalize hp' : ({ p with toProcess := { p.toProcess with pTable := t } } : LiveProcess) = p' at *
  have hpage (v : Addr) : p'.frame v = p.frame v ∨
      (clobber = false → p.pTable.pTable v = none) ∧ p'.frame v = none := by
    by_cases hv : ∃ i < pages rp.2.size.toInt, v = page vaddr i
    · obtain ⟨i, hi, rfl⟩ := hv
      refine Or.inr ⟨fun hclobber => allocateMem_free hmap hclobber i hi, ?_⟩
      rw [hnew i hi, if_neg]
      have hcontains := AddrRange.contains_page (h.config.plain rp hrp).2
        (h.config.valid rp hrp) hi
      have hstart := (AddrRange.le_of_contains hcontains).1
      have hout := h.config.outside rp.2 (System.mem_pairs hrp).2
      have hwhole := pageOffset_eq_zero.mp h.wholePages
      rw [BitVec.le_def] at hstart hout
      rw [BitVec.lt_def, pageAlign_toNat]
      simp only [PageShift, PageBytes] at hwhole ⊢
      omega
    · exact Or.inl (hframe v fun i hi he => hv ⟨i, hi, he⟩)
  have hcoherent := FuncPageTable.mapPages_coherent h.coherent hmap
  have hold {v f : Addr} (hf : p'.frame v = some f) : p.frame v = some f := by
    rcases hpage v with hsame | ⟨-, hnone⟩
    · exact hsame ▸ hf
    · rw [hnone] at hf
      cases hf
  subst hp'
  refine ⟨Step.of_new h rfl rfl le_rfl h.pagePtr rfl hcoherent ?_ ?_, rfl, hoff, hpage⟩
  · intro v
    rcases hpage v with hsame | ⟨-, hnone⟩
    · exact Or.inl hsame
    · refine Or.inr fun f hf => ?_
      rw [hnone] at hf
      cases hf
  · intro v w f _ hv hw
    exact h.exclusive v w f (hold hv) (hold hw)

/-- Any other request maps new pages of the memory. -/
theorem frames_of_memory (h : p.Sound) (hsize : 0 ≤ size) (hn : pages size < 2 ^ 31)
    (hdev : ¬(p.system.hasVdev ∧ p.system.isVAddrOfVdev vaddr))
    (hok : p.allocateMem vaddr size clobber = .ok p') :
    Step p p' ∧ p'.physmem = p.physmem ∧ pageOffset vaddr = 0 ∧
      (clobber = false → ∀ i < pages size, p.pTable.pTable (page vaddr i) = none) ∧
      (∀ i < pages size, ∃ f, p'.frame (page vaddr i) = some f ∧
        p.system.pagePtr.toNat * PageBytes ≤ f.toNat) ∧
      ∀ v, (∀ i < pages size, v ≠ page vaddr i) → p'.frame v = p.frame v := by
  obtain ⟨t, ptr, paddr, rfl, hoff, hmap, hptr, hle, hplace⟩ :=
    allocateMem_memory h hsize hn hdev hok
  obtain ⟨hnew, hframe⟩ := frame_mapPages { p with
    toProcess := { p.toProcess with system := { p.system with pagePtr := ptr }, pTable := t } }
    (by omega) hmap rfl rfl
  generalize hp' : ({ p with
    toProcess := { p.toProcess with system := { p.system with pagePtr := ptr }, pTable := t } } :
      LiveProcess) = p' at *
  have hplaced {i : Nat} (hi : i < pages size) :
      p'.frame (page vaddr i) = some (page paddr i) := by
    have hlt : page paddr i < p.system.totalSize := by
      rw [BitVec.lt_def, (hplace i hi).2]
      simp only [PageShift, PageBytes] at hle ⊢
      omega
    rw [hnew i hi, (hplace i hi).1, if_pos hlt]
  have hcases (v : Addr) : (∃ i < pages size, v = page vaddr i) ∨ p'.frame v = p.frame v := by
    by_cases hv : ∃ i < pages size, v = page vaddr i
    · exact Or.inl hv
    · exact Or.inr (hframe v fun i hi he => hv ⟨i, hi, he⟩)
  have hfresh {v f : Addr} (hge : p.system.pagePtr.toNat * PageBytes ≤ f.toNat)
      (hf : p'.frame v = some f) : ∃ i < pages size, v = page vaddr i ∧ f = page paddr i := by
    rcases hcases v with ⟨i, hi, rfl⟩ | hold
    · rw [hplaced hi] at hf
      exact ⟨i, hi, rfl, (Option.some.inj hf).symm⟩
    · exact absurd (h.used v f (hold ▸ hf)) (Nat.not_lt.mpr hge)
  have hcoherent := FuncPageTable.mapPages_coherent h.coherent hmap
  subst hp'
  refine ⟨Step.of_new h rfl rfl (by omega) hle rfl hcoherent ?_ ?_, rfl, hoff,
    allocateMem_free hmap, ?_, hframe⟩
  · intro v
    rcases hcases v with ⟨i, hi, rfl⟩ | hold
    · refine Or.inr fun f hf => ?_
      rw [hplaced hi] at hf
      obtain rfl := Option.some.inj hf
      rw [(hplace i hi).2]
      simp only [PageShift, PageBytes]
      omega
    · exact Or.inl hold
  · intro v w f hge hv hw
    obtain ⟨i, hi, rfl, rfl⟩ := hfresh hge hv
    obtain ⟨j, hj, rfl, hf⟩ := hfresh hge hw
    have hnat := congrArg BitVec.toNat hf
    rw [(hplace i hi).2, (hplace j hj).2] at hnat
    simp only [PageShift, PageBytes] at hnat
    have hij : i = j := by omega
    rw [hij]
  · intro i hi
    refine ⟨_, hplaced hi, ?_⟩
    rw [(hplace i hi).2]
    exact Nat.mul_le_mul_right _ (Nat.le_add_right _ _)

theorem view_of_frame {a : Addr} (hmem : p'.physmem = p.physmem)
    (hframe : p'.frame (pageAlign a) = p.frame (pageAlign a)) : p'.view a = p.view a := by
  rw [view, view, phys, phys, hframe, hmem]

theorem view_of_fresh (h : p.Sound) (hs : Step p p') (hmem : p'.physmem = p.physmem) {a f : Addr}
    (hf : p'.frame (pageAlign a) = some f)
    (hge : p.system.pagePtr.toNat * PageBytes ≤ f.toNat) : p'.view a = some 0 := by
  have hoff := frame_offset hf
  have hphys : p'.phys a = some (pageOffset a + f) := by
    rw [phys, hf, Option.map_some]
  have hle := h.pagePtr
  obtain ⟨ptr, hsys⟩ := hs.system
  obtain ⟨-, hinside⟩ := hs.sound.page_inside hphys
  rw [hsys] at hinside
  rw [view, hphys, Option.map_some, hmem, h.zero]
  · rw [pageOffset_add_toNat a hoff]
    omega
  · rw [BitVec.lt_def]
    simp only [PageShift, PageBytes] at hinside
    omega

/-- A request without `Clobber` only adds bytes, and they are zero. -/
theorem allocateMem_grows (h : p.Sound) (hsize : 0 ≤ size) (hn : pages size < 2 ^ 31)
    (hok : p.allocateMem vaddr size false = .ok p') : Step p p' ∧ Grows 0 p.view p'.view := by
  by_cases hdev : p.system.hasVdev ∧ p.system.isVAddrOfVdev vaddr
  · obtain ⟨hs, hmem, -, hpage⟩ := frames_of_device h hdev hok
    refine ⟨hs, fun a => Or.inl ?_⟩
    rcases hpage (pageAlign a) with hsame | ⟨hfree, hnone⟩
    · exact view_of_frame hmem hsame
    · rw [view_eq_none.mpr hnone, view_of_unmapped (hfree rfl)]
  · obtain ⟨hs, hmem, -, hfree, hnew, hold⟩ := frames_of_memory h hsize hn hdev hok
    refine ⟨hs, fun a => ?_⟩
    by_cases ha : ∃ i < pages size, pageAlign a = page vaddr i
    · obtain ⟨i, hi, ha⟩ := ha
      obtain ⟨f, hf, hge⟩ := hnew i hi
      rw [← ha] at hf
      exact Or.inr ⟨view_of_unmapped (ha ▸ hfree rfl i hi), view_of_fresh h hs hmem hf hge⟩
    · exact Or.inl (view_of_frame hmem (hold _ fun i hi he => ha ⟨i, hi, he⟩))

/-- Off the devices it maps what it was asked for. -/
theorem allocateMem_zero (h : p.Sound) (hsize : 0 ≤ size) (hn : pages size < 2 ^ 31)
    (hdev : ¬(p.system.hasVdev ∧ p.system.isVAddrOfVdev vaddr))
    (hok : p.allocateMem vaddr size clobber = .ok p') {a : Addr} {i : Nat} (hi : i < pages size)
    (ha : pageAlign a = page vaddr i) : p'.view a = some 0 := by
  obtain ⟨hs, hmem, -, -, hnew, -⟩ := frames_of_memory h hsize hn hdev hok
  obtain ⟨f, hf, hge⟩ := hnew i hi
  exact view_of_fresh h hs hmem (ha ▸ hf) hge

end NewPages

end LiveProcess

end ModernArch.Sim
