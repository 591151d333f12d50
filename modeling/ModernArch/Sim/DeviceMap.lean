import ModernArch.Mem.Mapping
import ModernArch.Sim.Process

/-!
# Device ranges

When requests begin with a device and ask for its size, or keep off the devices, the pages of the
virtual ranges are those of the devices, and no others.
-/

namespace ModernArch.Sim
open Framework Mem

theorem AddrRange.le_of_contains {r : AddrRange} {a : Addr} (h : r.contains a = true) :
    r.start ≤ a ∧ a ≤ r.end_ := by
  by_cases hin : r.start ≤ a ∧ a ≤ r.end_
  · exact hin
  · simp [AddrRange.contains, hin] at h

private theorem AddrRange.contains_iff {r : AddrRange} (hr : r.intlvBits = 0) {a : Addr} :
    r.contains a = true ↔ r.start ≤ a ∧ a ≤ r.end_ := by
  simp [AddrRange.contains, AddrRange.interleaved, hr]

private theorem AddrRange.size_toNat_le {r : AddrRange} (hr : r.intlvBits = 0)
    (hv : r.start ≤ r.end_) : r.size.toNat ≤ r.end_.toNat - r.start.toNat + 1 := by
  have hle : r.start.toNat ≤ r.end_.toNat := hv
  have hlt := r.end_.isLt
  rw [AddrRange.size, hr, BitVec.ushiftRight_zero, BitVec.toNat_add,
    BitVec.toNat_sub_of_le hv]
  exact (Nat.mod_le _ _)

/-- The pages that a range has by its size begin in it. -/
theorem AddrRange.contains_page {r : AddrRange} (hr : r.intlvBits = 0) (hv : r.start ≤ r.end_)
    {i : Nat} (hi : i < pages r.size.toInt) : r.contains (page r.start i) = true := by
  have hsize := r.size_toNat_le hr hv
  have hbytes := pages_lt hi
  have hint : r.size.toInt.toNat ≤ r.size.toNat := by
    rw [BitVec.toInt_eq_toNat_cond]
    split_ifs <;> omega
  have hle : r.start.toNat ≤ r.end_.toNat := hv
  have hlt := r.end_.isLt
  have hpage : (page r.start i).toNat = r.start.toNat + i * PageBytes := by
    rw [page, BitVec.toNat_add, BitVec.toNat_ofNat]
    omega
  rw [AddrRange.contains_iff hr, BitVec.le_def, BitVec.le_def, hpage]
  omega

namespace System

abbrev pairs (s : System) : List (AddrRange × AddrRange) := s.vaddrVdevRanges.zip s.vdevRanges

/-- Paired ranges of equal sizes, with the devices above the memory. -/
structure Configured (s : System) : Prop where
  paired : s.vaddrVdevRanges.length = s.vdevRanges.length
  plain : ∀ rp ∈ s.pairs, rp.1.intlvBits = 0 ∧ rp.2.intlvBits = 0
  valid : ∀ rp ∈ s.pairs, rp.2.start ≤ rp.2.end_
  sizes : ∀ rp ∈ s.pairs, rp.1.size = rp.2.size
  outside : ∀ p ∈ s.vdevRanges, s.totalSize ≤ p.start

/-- An address of a device on the bus. -/
def onDevice (s : System) (paddr : Addr) : Bool := s.vdevRanges.any fun p => p.contains paddr

/-- The page at `v` is where its device, or none, has it. -/
def Right (s : System) (v paddr : Addr) : Prop :=
  if s.isVAddrOfVdev v then
    ∃ rp ∈ s.pairs, rp.1.contains v ∧ rp.2.contains paddr ∧
      paddr = rp.2.start + (v - rp.1.start)
  else s.onDevice paddr = false

/-- The physical pages of an ordinary request are counted as they are, and stay off the region
of the m5ops. -/
def Counted (s : System) (size : Int) : Prop :=
  0 ≤ size ∧ pages size < 2 ^ 31 ∧ s.pagePtr.toNat + pages size < 2 ^ 52 ∧
    m5opRange.contains ((s.pagePtr + BitVec.ofNat 64 (pages size)) <<< PageShift) = false

/-- Where the page pointer goes with an ordinary request. -/
def nextPagePtr (s : System) (size : Int) : Addr :=
  s.pagePtr + (BitVec.ofInt 32 (divCeil size PageBytes)).signExtend 64

/-- It goes to the region of the m5ops. -/
def Overruns (s : System) (size : Int) : Prop :=
  m5opRange.contains (s.nextPagePtr size <<< PageShift) = true

instance (s : System) (size : Int) : Decidable (s.Overruns size) :=
  inferInstanceAs (Decidable (_ = true))

/-- The first physical page of an ordinary request, and the one after the last. -/
def firstFrame (s : System) (size : Int) : Addr :=
  if s.Overruns size then 0xfffff000 else s.pagePtr <<< PageShift

def endFrame (s : System) (size : Int) : Addr :=
  if s.Overruns size then 0xfffff000 else s.nextPagePtr size <<< PageShift

/-- A request begins with the range of a device and asks for its pages. Or it is counted and has
no page there. When it is not counted its frames may be the right ones all the same. -/
def Fits (s : System) (vaddr : Addr) (size : Int) : Prop :=
  if s.hasVdev ∧ s.isVAddrOfVdev vaddr then
    ∃ rp, s.pairs.find? (fun rp => rp.1.contains vaddr) = some rp ∧
      pages rp.2.size.toInt = pages size ∧
      (0 < pages size → vaddr = rp.1.start ∧ pageOffset rp.2.start = 0)
  else
    (s.Counted size ∧ ∀ i < pages size, s.isVAddrOfVdev (page vaddr i) = false) ∨
      (¬ s.Counted size ∧ ∀ i < pages size, s.Right (page vaddr i) (page (s.firstFrame size) i))

variable {s s' : System}

theorem mem_pairs {rp : AddrRange × AddrRange} (h : rp ∈ s.pairs) :
    rp.1 ∈ s.vaddrVdevRanges ∧ rp.2 ∈ s.vdevRanges := List.of_mem_zip h

theorem divCeil_eq {size : Int} (h : 0 ≤ size) : divCeil size PageBytes = pages size := by
  obtain ⟨n, rfl⟩ := Int.eq_ofNat_of_zero_le h
  have hsum : (n : Int) + PageBytes - 1 = ((n + (PageBytes - 1) : Nat) : Int) := by
    simp only [PageBytes, PageShift]
    omega
  rw [divCeil, hsum, ← Int.ofNat_tdiv]
  rfl

theorem signExtend_eq {n : Nat} (h : n < 2 ^ 31) :
    (BitVec.ofInt 32 n).signExtend 64 = BitVec.ofNat 64 n := by
  have hnat : (BitVec.ofInt 32 n).toNat = n := by
    rw [BitVec.ofInt_natCast, BitVec.toNat_ofNat]
    omega
  have hmsb : (BitVec.ofInt 32 n).msb = false := by
    rw [BitVec.msb_eq_false_iff_two_mul_lt, hnat]
    omega
  rw [BitVec.signExtend_eq_setWidth_of_msb_false hmsb]
  apply BitVec.eq_of_toNat_eq
  rw [BitVec.toNat_setWidth, hnat, BitVec.toNat_ofNat]

private theorem pageAlign_page (a : Addr) (i : Nat) :
    pageAlign (page a i) = page (pageAlign a) i := by
  have hoff : pageOffset (page a i) = pageOffset a := by
    apply BitVec.eq_of_toNat_eq
    simp only [pageOffset_toNat, page, BitVec.toNat_add, BitVec.toNat_ofNat, PageShift, PageBytes]
    omega
  rw [pageAlign_eq, hoff, pageAlign_eq, page, page]
  bv_omega

theorem allocPhysPages_run (size : Int) :
    s.allocPhysPages (BitVec.ofInt 32 (divCeil size PageBytes)) = (do
      check (s.endFrame size ≤ s.totalSize) .fatal
      return (if s.Overruns size then 0xffffffff else s.pagePtr <<< PageShift,
        { s with pagePtr := if s.Overruns size then 0xfffff else s.nextPagePtr size })) := by
  rw [allocPhysPages, endFrame]
  by_cases hm5 : s.Overruns size
  · simp only [if_pos hm5]
    rw [Overruns, nextPagePtr] at hm5
    rw [if_pos hm5]
    rfl
  · simp only [if_neg hm5]
    rw [Overruns, nextPagePtr] at hm5
    rw [if_neg hm5]
    rfl

/-- Where the frames of a request lie, whatever its count. -/
theorem allocPhysPages_frames {size : Int} {paddr : Addr}
    (hok : s.allocPhysPages (BitVec.ofInt 32 (divCeil size PageBytes)) = .ok (paddr, s')) :
    s.endFrame size ≤ s.totalSize ∧ (∃ pagePtr, s' = { s with pagePtr := pagePtr }) ∧
      ∀ i, pageAlign (page paddr i) = page (s.firstFrame size) i := by
  rw [allocPhysPages_run] at hok
  obtain ⟨hle, hok⟩ := check_bind hok
  obtain ⟨rfl, rfl⟩ := Prod.mk.inj (Except.ok.inj hok)
  refine ⟨hle, ⟨_, rfl⟩, fun i => ?_⟩
  have hfirst : pageAlign (if s.Overruns size then 0xffffffff else s.pagePtr <<< PageShift) =
      s.firstFrame size := by
    rw [firstFrame]
    by_cases hm5 : s.Overruns size
    · rw [if_pos hm5, if_pos hm5]
      decide
    · rw [if_neg hm5, if_neg hm5]
      apply pageAlign_of_aligned
      rw [pageOffset_eq_zero]
      simp only [BitVec.toNat_shiftLeft, PageShift, PageBytes, Nat.shiftLeft_eq]
      omega
  rw [pageAlign_page, hfirst]

theorem Counted.nextPagePtr {size : Int} (h : s.Counted size) :
    s.nextPagePtr size = s.pagePtr + BitVec.ofNat 64 (pages size) ∧ ¬ s.Overruns size := by
  obtain ⟨hsize, hint, -, hm5⟩ := h
  have hnext : s.nextPagePtr size = s.pagePtr + BitVec.ofNat 64 (pages size) := by
    rw [System.nextPagePtr, divCeil_eq hsize, signExtend_eq hint]
  rw [Overruns, hnext, hm5]
  exact ⟨rfl, Bool.false_ne_true⟩

/-- The frames of a counted request are in the memory. -/
theorem Counted.frame_lt {size : Int} (h : s.Counted size) (hend : s.endFrame size ≤ s.totalSize)
    {i : Nat} (hi : i < pages size) : page (s.firstFrame size) i < s.totalSize := by
  obtain ⟨hnext, hm5⟩ := h.nextPagePtr
  obtain ⟨-, -, hptr, -⟩ := h
  rw [endFrame, if_neg hm5, hnext] at hend
  rw [firstFrame, if_neg hm5]
  have hlast : ((s.pagePtr + BitVec.ofNat 64 (pages size)) <<< PageShift).toNat =
      (s.pagePtr.toNat + pages size) * PageBytes := by
    simp only [BitVec.toNat_shiftLeft, BitVec.toNat_add, BitVec.toNat_ofNat, PageShift, PageBytes,
      Nat.shiftLeft_eq]
    omega
  have hframe : (page (s.pagePtr <<< PageShift) i).toNat = (s.pagePtr.toNat + i) * PageBytes := by
    simp only [page, BitVec.toNat_shiftLeft, BitVec.toNat_add, BitVec.toNat_ofNat, PageShift,
      PageBytes, Nat.shiftLeft_eq]
    omega
  rw [BitVec.le_def, hlast] at hend
  rw [BitVec.lt_def, hframe]
  simp only [PageBytes, PageShift] at hend ⊢
  omega

private theorem right_device (hs : s.Configured) {rp : AddrRange × AddrRange} (hrp : rp ∈ s.pairs)
    (hr : rp.1.start ≤ rp.1.end_) {i : Nat} (hi : i < pages rp.2.size.toInt) :
    s.Right (page rp.1.start i) (page rp.2.start i) := by
  have hsize := hs.sizes rp hrp
  have hvirt := AddrRange.contains_page (hs.plain rp hrp).1 hr (hsize ▸ hi)
  have hphys := AddrRange.contains_page (hs.plain rp hrp).2 (hs.valid rp hrp) hi
  have hon : s.isVAddrOfVdev (page rp.1.start i) = true :=
    List.any_eq_true.mpr ⟨rp.1, (mem_pairs hrp).1, hvirt⟩
  rw [Right, if_pos hon]
  refine ⟨rp, hrp, hvirt, hphys, ?_⟩
  simp only [page]
  rw [BitVec.add_comm rp.1.start, BitVec.add_sub_cancel]

/-- No device is where the memory is. -/
private theorem onDevice_memory (hs : s.Configured) {paddr : Addr} (hp : paddr < s.totalSize) :
    s.onDevice paddr = false := by
  rw [onDevice, List.any_eq_false]
  intro p hmem hcontains
  have hstart := (AddrRange.le_of_contains hcontains).1
  have hout := hs.outside p hmem
  rw [BitVec.le_def] at hstart hout
  rw [BitVec.lt_def] at hp
  omega

private theorem right_memory (hs : s.Configured) {v paddr : Addr} (hv : s.isVAddrOfVdev v = false)
    (hp : paddr < s.totalSize) : s.Right v paddr := by
  rw [Right, if_neg (by simp [hv])]
  exact onDevice_memory hs hp

private theorem Right.not_vdev (hs : s.Configured) {v paddr : Addr} (h : s.Right v paddr)
    (hp : paddr < s.totalSize) : s.isVAddrOfVdev v = false := by
  by_contra hv
  rw [Right, if_pos (by simpa using hv)] at h
  obtain ⟨rp, hrp, -, hphys, -⟩ := h
  have hon : s.onDevice paddr = true := List.any_eq_true.mpr ⟨rp.2, (mem_pairs hrp).2, hphys⟩
  rw [onDevice_memory hs hp] at hon
  cases hon

/-- Pages that come to a range from outside have come to its start. -/
theorem start_of_reached {r : AddrRange} (hr : r.intlvBits = 0) {vaddr : Addr}
    (hstart : pageOffset r.start = 0) (halign : pageOffset vaddr = 0)
    (hout : r.contains vaddr = false) {i : Nat} (hi : r.contains (page vaddr i) = true) :
    ∃ j ≤ i, r.start = page vaddr j := by
  induction i with
  | zero =>
      rw [page_zero, hout] at hi
      cases hi
  | succ i ih =>
      by_cases hfirst : r.start = page vaddr (i + 1)
      · exact ⟨i + 1, le_rfl, hfirst⟩
      · obtain ⟨hle, hend⟩ := AddrRange.le_of_contains hi
        have hne : r.start.toNat ≠ (page vaddr (i + 1)).toNat :=
          fun he => hfirst (BitVec.eq_of_toNat_eq he)
        have hoff := pageOffset_page halign (i + 1)
        have hprev : page vaddr (i + 1) = page vaddr i + BitVec.ofNat 64 PageBytes := by
          rw [← page_page vaddr i 1, page, Nat.one_mul]
        have hnat := congrArg BitVec.toNat hprev
        rw [BitVec.toNat_add, BitVec.toNat_ofNat] at hnat
        have hlt := (page vaddr i).isLt
        rw [pageOffset_eq_zero] at hstart hoff
        rw [BitVec.le_def] at hle hend
        have hin : r.contains (page vaddr i) = true := by
          rw [AddrRange.contains_iff hr, BitVec.le_def, BitVec.le_def]
          simp only [PageBytes, PageShift] at hstart hoff hnat
          omega
        obtain ⟨j, hj, he⟩ := ih hin
        exact ⟨j, hj.trans (Nat.le_succ i), he⟩

/-- A request that has a page of a device, as far as devices are looked at, has its first one. -/
theorem Fits.start (hs : s.Configured) {vaddr : Addr} {size : Int} (hfits : s.Fits vaddr size)
    (halign : pageOffset vaddr = 0) {i : Nat} (hi : i < pages size) (hhas : s.hasVdev = true)
    (hdev : s.isVAddrOfVdev (page vaddr i) = true) :
    ∃ rp ∈ s.pairs, rp.1.contains (page vaddr i) = true ∧
      (pageOffset rp.1.start = 0 → ∃ j ≤ i, rp.1.start = page vaddr j) := by
  rw [Fits] at hfits
  by_cases hfirst : s.hasVdev ∧ s.isVAddrOfVdev vaddr
  · rw [if_pos hfirst] at hfits
    obtain ⟨rp, hfind, hsame, hstart⟩ := hfits
    obtain ⟨rfl, -⟩ := hstart (Nat.zero_lt_of_lt hi)
    have hrp := List.mem_of_find?_eq_some hfind
    have hcontains : rp.1.contains rp.1.start = true := by simpa using List.find?_some hfind
    have hle := AddrRange.le_of_contains hcontains
    refine ⟨rp, hrp, ?_, fun _ => ⟨0, Nat.zero_le i, (page_zero _).symm⟩⟩
    apply AddrRange.contains_page (hs.plain rp hrp).1 (BitVec.le_trans hle.1 hle.2)
    rwa [hs.sizes rp hrp, hsame]
  · rw [if_neg hfirst] at hfits
    rcases hfits with ⟨-, hoffdev⟩ | ⟨-, hright⟩
    · rw [hoffdev i hi] at hdev
      cases hdev
    · have hpage := hright i hi
      rw [Right, if_pos hdev] at hpage
      obtain ⟨rp, hrp, hcontains, -⟩ := hpage
      refine ⟨rp, hrp, hcontains, fun hstart => ?_⟩
      have hout : rp.1.contains vaddr = false := by
        rw [Bool.eq_false_iff]
        exact fun hin => hfirst ⟨hhas, List.any_eq_true.mpr ⟨rp.1, (mem_pairs hrp).1, hin⟩⟩
      exact start_of_reached (hs.plain rp hrp).1 hstart halign hout hcontains

theorem pagesFor_device {vaddr : Addr} {rp : AddrRange × AddrRange} (size : Int)
    (hdev : s.hasVdev ∧ s.isVAddrOfVdev vaddr)
    (hfind : s.pairs.find? (fun rp => rp.1.contains vaddr) = some rp) :
    s.pagesFor vaddr size = .ok (rp.2.start, rp.2.size.toInt, s) := by
  rw [pagesFor, if_pos hdev.1, if_pos hdev.2, allocVdevPages, hfind]
  rfl

theorem pagesFor_memory {vaddr : Addr} (size : Int)
    (hdev : ¬(s.hasVdev ∧ s.isVAddrOfVdev vaddr)) :
    s.pagesFor vaddr size = (do
      let (paddr, s) ← s.allocPhysPages (BitVec.ofInt 32 (divCeil size PageBytes))
      return (paddr, size, s)) := by
  rw [pagesFor]
  by_cases hhas : s.hasVdev = true
  · rw [if_pos hhas, if_neg fun hv => hdev ⟨hhas, hv⟩]
  · rw [if_neg hhas]

end System

namespace Process

variable {p p' : Process} {vaddr : Addr} {size : Int} {clobber : Bool}

/-- A request that fits maps its own pages, each to the right place. -/
theorem allocateMem_spec (hs : p.system.Configured) (hfits : p.system.Fits vaddr size)
    (hok : p.allocateMem vaddr size clobber = .ok p') :
    (∃ pagePtr, p'.system = { p.system with pagePtr := pagePtr }) ∧ pageOffset vaddr = 0 ∧
      ∃ flags paddr, p.pTable.mapPages flags (pages size) vaddr paddr = .ok p'.pTable ∧
        ∀ i < pages size, p.system.Right (page vaddr i) (pageAlign (page paddr i)) := by
  obtain ⟨⟨paddr, size', s'⟩, hpages, hok⟩ := bind_ok hok
  obtain ⟨t, hmap, hok⟩ := bind_ok hok
  cases hok
  obtain ⟨hoff, hmap⟩ := check_bind hmap
  rw [System.Fits] at hfits
  by_cases hdev : p.system.hasVdev ∧ p.system.isVAddrOfVdev vaddr
  · rw [if_pos hdev] at hfits
    obtain ⟨rp, hfind, hsame, hfirst⟩ := hfits
    have hcontains : rp.1.contains vaddr = true := by simpa using List.find?_some hfind
    have hle := AddrRange.le_of_contains hcontains
    rw [System.pagesFor_device size hdev hfind] at hpages
    cases hpages
    rw [hsame] at hmap
    refine ⟨⟨_, rfl⟩, hoff, _, rp.2.start, hmap, ?_⟩
    intro i hi
    obtain ⟨hstart, halign⟩ := hfirst (Nat.zero_lt_of_lt hi)
    rw [hstart, pageAlign_of_aligned (pageOffset_page halign i)]
    exact System.right_device hs (List.mem_of_find?_eq_some hfind) (BitVec.le_trans hle.1 hle.2)
      (hsame ▸ hi)
  · rw [if_neg hdev] at hfits
    rw [System.pagesFor_memory size hdev] at hpages
    obtain ⟨⟨paddr₁, s₁⟩, halloc, hpages⟩ := bind_ok hpages
    cases hpages
    obtain ⟨hend, hsys, hframes⟩ := System.allocPhysPages_frames halloc
    refine ⟨hsys, hoff, _, _, hmap, ?_⟩
    intro i hi
    rw [hframes]
    rcases hfits with ⟨hcounted, hoffdev⟩ | ⟨-, hright⟩
    · exact System.right_memory hs (hoffdev i hi) (hcounted.frame_lt hend hi)
    · exact hright i hi

private theorem pages_le_of_lt {size : Int} (h : size < 2 ^ 63) : pages size ≤ 2 ^ 52 := by
  simp only [pages, PageBytes, PageShift]
  omega

/-- A request that fits, on unmapped pages, does not fail while there is memory for it. -/
theorem allocateMem_ok (hfits : p.system.Fits vaddr size) (hsize : size < 2 ^ 63)
    (halign : pageOffset vaddr = 0)
    (hfree : ∀ i < pages size, p.pTable.pTable (page vaddr i) = none)
    (hmemory : p.system.endFrame size ≤ p.system.totalSize) :
    ∃ p', p.allocateMem vaddr size clobber = .ok p' := by
  have hle := pages_le_of_lt hsize
  have hmap (paddr : Addr) {size' : Int} (hn : pages size' = pages size)
      (hle : pages size ≤ 2 ^ 52) :
      ∃ t, p.pTable.map vaddr paddr size' (if clobber then Clobber else 0) = .ok t := by
    rw [FuncPageTable.map, check, if_pos halign, hn]
    exact mapPages_ok hle hfree
  rw [System.Fits] at hfits
  by_cases hdev : p.system.hasVdev ∧ p.system.isVAddrOfVdev vaddr
  · rw [if_pos hdev] at hfits
    obtain ⟨rp, hfind, hsame, -⟩ := hfits
    obtain ⟨t, ht⟩ := hmap rp.2.start hsame hle
    rw [allocateMem, System.pagesFor_device size hdev hfind]
    exact ⟨_, by simp only [bind, Except.bind, ht]; rfl⟩
  · obtain ⟨t, ht⟩ := hmap (if p.system.Overruns size then 0xffffffff else
      p.system.pagePtr <<< PageShift) rfl hle
    rw [allocateMem, System.pagesFor_memory size hdev, System.allocPhysPages_run, check,
      if_pos hmemory]
    exact ⟨_, by simp only [bind, Except.bind, pure, Except.pure, ht]; rfl⟩

end Process

structure Request where
  vaddr : Addr
  size : Int
  clobber : Bool := false

def FitStep (p : Process) (r : Request) (p' : Process) : Prop :=
  p.system.Fits r.vaddr r.size ∧ p.allocateMem r.vaddr r.size r.clobber = .ok p'

/-- The system of the process but for its page pointer is `s`, every page is where `s` wants it,
and with a page of a device its first one is there. -/
structure Placed (s : System) (p : Process) : Prop where
  system : ∃ pagePtr, p.system = { s with pagePtr := pagePtr }
  coherent : p.pTable.Coherent
  placed : ∀ v entry, p.pTable.pTable v = some entry → pageOffset v = 0 ∧
    pageOffset entry.pageStart = 0 ∧ s.Right v entry.pageStart
  whole : s.hasVdev = true → ∀ v, p.pTable.pTable v ≠ none → s.isVAddrOfVdev v = true →
    ∃ rp ∈ s.pairs, rp.1.contains v = true ∧
      (pageOffset rp.1.start = 0 → p.pTable.pTable rp.1.start ≠ none)

namespace Placed

variable {s : System} {p p' : Process}

theorem empty (s : System) : Placed s { system := s } := by
  refine ⟨⟨s.pagePtr, rfl⟩, ⟨List.nodup_nil, ?_⟩, ?_, ?_⟩
  · simp [FuncPageTable.slots, PTableCache.slots, CacheElement.slot]
  · simp
  · simp

private theorem configured (h : Placed s p) (hs : s.Configured) : p.system.Configured := by
  obtain ⟨pagePtr, hsys⟩ := h.system
  rw [hsys]
  exact ⟨hs.paired, hs.plain, hs.valid, hs.sizes, hs.outside⟩

theorem step (h : Placed s p) (hs : s.Configured) {r : Request} (hstep : FitStep p r p') :
    Placed s p' := by
  obtain ⟨pagePtr, hsys⟩ := h.system
  obtain ⟨⟨pagePtr', hsys'⟩, hoff, flags, paddr, hmap, hright⟩ :=
    Process.allocateMem_spec (h.configured hs) hstep.1 hstep.2
  obtain ⟨-, hmapped, hframe, hentry⟩ := mapPages_spec hmap
  refine ⟨⟨pagePtr', by rw [hsys', hsys]⟩, FuncPageTable.mapPages_coherent h.coherent hmap, ?_, ?_⟩
  · intro v entry he
    rcases hentry v entry he with hold | ⟨i, hi, rfl, rfl⟩
    · exact h.placed v entry hold
    · have hpage := hright i hi
      rw [hsys] at hpage
      rw [pageStart_new]
      exact ⟨pageOffset_page hoff i, pageOffset_pageAlign _, hpage⟩
  · intro hhas v hv hdev
    -- pages stay mapped
    have hkeep (v : Addr) (hold : p.pTable.pTable v ≠ none) : p'.pTable.pTable v ≠ none := by
      by_cases hpage : ∃ i < pages r.size, v = page r.vaddr i
      · obtain ⟨i, hi, rfl⟩ := hpage
        exact hmapped i hi
      · rw [hframe v fun i hi he => hpage ⟨i, hi, he⟩]
        exact hold
    by_cases hold : p.pTable.pTable v = none
    · have hnew : ∃ i < pages r.size, v = page r.vaddr i := by
        by_contra hno
        simp only [not_exists, not_and] at hno
        exact hv ((hframe v hno).trans hold)
      obtain ⟨i, hi, rfl⟩ := hnew
      obtain ⟨rp, hrp, hcontains, hstart⟩ := System.Fits.start (h.configured hs) hstep.1 hoff hi
        (by rw [hsys]; exact hhas) (by rw [hsys]; exact hdev)
      rw [hsys] at hrp
      refine ⟨rp, hrp, hcontains, fun halign => ?_⟩
      obtain ⟨j, hj, hfirst⟩ := hstart halign
      rw [hfirst]
      exact hmapped j (hj.trans_lt hi)
    · obtain ⟨rp, hrp, hcontains, hfirst⟩ := h.whole hhas v hold hdev
      exact ⟨rp, hrp, hcontains, fun halign => hkeep _ (hfirst halign)⟩

theorem run (h : Placed s p) (hs : s.Configured) {rs : List Request} (hrun : Run FitStep p rs p') :
    Placed s p' :=
  hrun.inv (fun _ p' => Placed s p') h fun _ _ _ _ ht hstep => ht.step hs hstep

theorem translate (h : Placed s p) {a pa : Addr} (ha : (p.pTable.translate a).1 = some pa) :
    ∃ start, s.Right (pageAlign a) start ∧ pageAlign pa = start ∧ pa = pageOffset a + start := by
  have hlookup := FuncPageTable.transparent_of_agrees h.coherent a
  have hmap : ((p.pTable.lookup a).1.map fun e => pageOffset a + e.pageStart) = some pa := ha
  rw [hlookup] at hmap
  obtain ⟨entry, hentry, hpa⟩ := Option.map_eq_some_iff.mp hmap
  obtain ⟨-, hstart, hright⟩ := h.placed _ entry hentry
  refine ⟨entry.pageStart, hright, ?_, hpa.symm⟩
  rw [← hpa]
  exact pageAlign_add a hstart

end Placed

/-- A page is on a device exactly when it is in the range of one, at the same offset. -/
def Translates (s : System) (p : Process) : Prop :=
  ∀ a pa, (p.pTable.translate a).1 = some pa →
    s.onDevice (pageAlign pa) = s.isVAddrOfVdev (pageAlign a) ∧
    (s.isVAddrOfVdev (pageAlign a) → ∃ rp ∈ s.pairs, rp.1.contains (pageAlign a) ∧
      rp.2.contains (pageAlign pa) ∧ pa = rp.2.start + (a - rp.1.start))

def Request.covers (r : Request) (v : Addr) : Prop := ∃ i < pages r.size, v = page r.vaddr i

/-- A request maps its own pages and no others. -/
def MapsOwn (p : Process) (r : Request) (p' : Process) : Prop :=
  ∀ v, (p'.pTable.pTable v ≠ none ↔ p.pTable.pTable v ≠ none ∨ r.covers v) ∧
    (¬ r.covers v → p'.pTable.pTable v = p.pTable.pTable v)

private theorem mapsOwn_of_mapPages {p p' : Process} {r : Request} {flags : BitVec 64}
    {paddr : Addr} (h : p.pTable.mapPages flags (pages r.size) r.vaddr paddr = .ok p'.pTable) :
    MapsOwn p r p' := by
  obtain ⟨-, hmapped, hframe, -⟩ := mapPages_spec h
  intro v
  have hoff (hv : ¬ r.covers v) : p'.pTable.pTable v = p.pTable.pTable v :=
    hframe v fun i hi he => hv ⟨i, hi, he⟩
  refine ⟨?_, hoff⟩
  by_cases hv : r.covers v
  · obtain ⟨i, hi, rfl⟩ := hv
    exact ⟨fun _ => Or.inr ⟨i, hi, rfl⟩, fun _ => hmapped i hi⟩
  · rw [hoff hv]
    exact ⟨Or.inl, fun h => h.resolve_right hv⟩

private theorem Placed.translates {s : System} {p : Process} (h : Placed s p) : Translates s p := by
  intro a pa ha
  obtain ⟨start, hright, rfl, hpa⟩ := h.translate ha
  rw [System.Right] at hright
  by_cases hv : s.isVAddrOfVdev (pageAlign a) = true
  · rw [if_pos hv] at hright
    obtain ⟨rp, hrp, hvirt, hphys, hstart⟩ := hright
    have hon : s.onDevice (pageAlign pa) = true :=
      List.any_eq_true.mpr ⟨rp.2, (System.mem_pairs hrp).2, hphys⟩
    refine ⟨hon.trans hv.symm, fun _ => ⟨rp, hrp, hvirt, hphys, ?_⟩⟩
    have hsplit := pageAlign_eq a
    rw [hpa, hstart, hsplit]
    bv_omega
  · rw [if_neg hv] at hright
    exact ⟨hright.trans (Bool.not_eq_true _ ▸ hv).symm, fun hv' => absurd hv' hv⟩

/-! ## Requests that do not fit -/

/-- No two pages of a loop are one, so that the loop has as many as the pages it maps, or more if
they were mapped before. -/
theorem pages_eq_of_mapsOwn {p p' : Process} {r : Request} {n : Nat} {flags : BitVec 64}
    {paddr : Addr} (hn : n < 2 ^ 52) (h : p.pTable.mapPages flags n r.vaddr paddr = .ok p'.pTable)
    (hfree : ∀ i < pages r.size, p.pTable.pTable (page r.vaddr i) = none)
    (hown : MapsOwn p r p') (hold : pages r.size < n →
      p.pTable.pTable (page r.vaddr (pages r.size)) = none) : n = pages r.size := by
  obtain ⟨-, hmapped, hframe, -⟩ := mapPages_spec h
  rcases Nat.lt_trichotomy n (pages r.size) with hlt | heq | hgt
  · have hnew : ∀ i < n, page r.vaddr n ≠ page r.vaddr i := by
      intro i hi he
      have heq := page_inj hn (by omega) he
      omega
    have hmap := (hown (page r.vaddr n)).1.mpr (Or.inr ⟨n, hlt, rfl⟩)
    rw [hframe _ hnew, hfree n hlt] at hmap
    exact absurd rfl hmap
  · exact heq
  · rcases (hown (page r.vaddr (pages r.size))).1.mp (hmapped _ hgt) with hmap | ⟨i, hi, he⟩
    · exact absurd (hold hgt) hmap
    · have heq := page_inj (by omega) (by omega) he
      omega

/-- The first page of a device request is at the start of the range, or at another offset. -/
theorem start_of_offset {r p : AddrRange} {vaddr : Addr} (hr : r.intlvBits = 0)
    (hp : p.intlvBits = 0) (hv : p.start ≤ p.end_) (hsize : r.size = p.size)
    (hcontains : r.contains vaddr = true)
    (h : pageAlign p.start = p.start + (vaddr - r.start)) :
    vaddr = r.start ∧ pageOffset p.start = 0 := by
  obtain ⟨hstart, hend⟩ := AddrRange.le_of_contains hcontains
  have hspan : r.end_ - r.start = p.end_ - p.start := by
    rw [AddrRange.size, AddrRange.size, hr, hp, BitVec.ushiftRight_zero,
      BitVec.ushiftRight_zero] at hsize
    bv_omega
  have hzero : pageOffset p.start + (vaddr - r.start) = 0 := by
    rw [pageAlign_eq] at h
    bv_omega
  have hoff : (pageOffset p.start).toNat ≤ p.start.toNat := by
    rw [pageOffset_toNat]
    exact Nat.mod_le _ _
  have hnat : r.end_.toNat - r.start.toNat = p.end_.toNat - p.start.toNat := by
    have hspan := congrArg BitVec.toNat hspan
    rwa [BitVec.toNat_sub_of_le (BitVec.le_trans hstart hend), BitVec.toNat_sub_of_le hv] at hspan
  have hsum := congrArg BitVec.toNat hzero
  rw [BitVec.toNat_add, BitVec.toNat_sub_of_le hstart] at hsum
  rw [BitVec.le_def] at hstart hend hv
  have hlt := p.end_.isLt
  have hboth : (pageOffset p.start).toNat + (vaddr.toNat - r.start.toNat) = 0 := by
    rwa [Nat.mod_eq_of_lt (by omega)] at hsum
  constructor
  · apply BitVec.eq_of_toNat_eq
    omega
  · apply BitVec.eq_of_toNat_eq
    omega

namespace Placed

variable {s : System} {p p' : Process} {r : Request}

section Unshared

variable (h : Placed s p) (hs : s.Configured)
  (hd : ∀ rp ∈ s.pairs, ∀ rp' ∈ s.pairs, ∀ v, rp.1.contains v → rp'.1.contains v → rp = rp')
  {rp : AddrRange × AddrRange} (hrp : rp ∈ s.pairs)

include h hs hd hrp

/-- Where the first page goes tells where in the range a request begins. -/
private theorem start_of_first {vaddr : Addr} (hcontains : rp.1.contains vaddr = true)
    (halign : pageOffset vaddr = 0) {n : Nat} (hn : 0 < n) (hle : n ≤ 2 ^ 52) {flags : BitVec 64}
    (hmap : p.pTable.mapPages flags n vaddr rp.2.start = .ok p'.pTable)
    (hfree : p.pTable.pTable vaddr = none) (htrans : Translates s p') :
    vaddr = rp.1.start ∧ pageOffset rp.2.start = 0 := by
  have hpage := mapPages_translate h.coherent halign hle hmap hn (by rw [page_zero]; exact hfree)
  rw [page_zero, page_zero] at hpage
  have hplace := (htrans vaddr _ hpage).2
  rw [pageAlign_of_aligned halign] at hplace
  obtain ⟨rp', hrp', hcontains', -, hoffset⟩ :=
    hplace (List.any_eq_true.mpr ⟨rp.1, (System.mem_pairs hrp).1, hcontains⟩)
  obtain rfl := hd rp hrp rp' hrp' vaddr hcontains hcontains'
  exact start_of_offset (hs.plain rp hrp).1 (hs.plain rp hrp).2 (hs.valid rp hrp)
    (hs.sizes rp hrp) hcontains hoffset

/-- No page of a range is there while its first one is not. -/
private theorem free_of_first (hhas : s.hasVdev = true) (halign : pageOffset rp.1.start = 0)
    (hle : rp.1.start ≤ rp.1.end_) (hfree : p.pTable.pTable rp.1.start = none) {i : Nat}
    (hi : i < pages rp.2.size.toInt) : p.pTable.pTable (page rp.1.start i) = none := by
  by_contra hmapped
  have hin : rp.1.contains (page rp.1.start i) = true :=
    AddrRange.contains_page (hs.plain rp hrp).1 hle (hs.sizes rp hrp ▸ hi)
  obtain ⟨rp', hrp', hcontains', hwhole⟩ := h.whole hhas _ hmapped
    (List.any_eq_true.mpr ⟨rp.1, (System.mem_pairs hrp).1, hin⟩)
  obtain rfl := hd rp hrp rp' hrp' _ hin hcontains'
  exact hwhole halign hfree

end Unshared

private theorem fits_device (h : Placed s p) (hs : s.Configured)
    (hd : ∀ rp ∈ s.pairs, ∀ rp' ∈ s.pairs, ∀ v, rp.1.contains v → rp'.1.contains v → rp = rp')
    (hclobber : r.clobber = true → 0 < pages r.size)
    (hfree : ∀ i < pages r.size, p.pTable.pTable (page r.vaddr i) = none)
    (hdev : p.system.hasVdev ∧ p.system.isVAddrOfVdev r.vaddr)
    (hok : p.allocateMem r.vaddr r.size r.clobber = .ok p') (hown : MapsOwn p r p')
    (htrans : Translates s p') : p.system.Fits r.vaddr r.size := by
  obtain ⟨pagePtr, hsys⟩ := h.system
  have hpairs : p.system.pairs = s.pairs := by rw [hsys]
  have hhas : s.hasVdev = true := by
    have hhas := hdev.1
    rwa [hsys] at hhas
  obtain ⟨⟨paddr, size, s₁⟩, hpages, hok⟩ := bind_ok hok
  obtain ⟨t, hmap, hok⟩ := bind_ok hok
  cases hok
  obtain ⟨halign, hmap⟩ := check_bind hmap
  obtain ⟨rp, hfind⟩ : ∃ rp, p.system.pairs.find? (fun rp => rp.1.contains r.vaddr) = some rp := by
    cases hfind : p.system.pairs.find? fun rp => rp.1.contains r.vaddr with
    | some rp => exact ⟨rp, rfl⟩
    | none =>
        rw [System.pagesFor, if_pos hdev.1, if_pos hdev.2, System.allocVdevPages, hfind] at hpages
        cases hpages
  rw [System.pagesFor_device r.size hdev hfind] at hpages
  cases hpages
  have hrp : rp ∈ s.pairs := hpairs ▸ List.mem_of_find?_eq_some hfind
  have hcontains : rp.1.contains r.vaddr = true := by simpa using List.find?_some hfind
  have hlt : rp.2.size.toInt < 2 ^ 63 := BitVec.toInt_lt
  have hbound : pages rp.2.size.toInt < 2 ^ 52 := by
    simp only [pages, PageBytes, PageShift]
    omega
  have hle := AddrRange.le_of_contains hcontains
  have hzero (hn : 0 < pages r.size) : p.pTable.pTable r.vaddr = none := by
    have hzero := hfree 0 hn
    rwa [page_zero] at hzero
  have hfirst (hn : 0 < pages r.size) (hn' : 0 < pages rp.2.size.toInt) :
      r.vaddr = rp.1.start ∧ pageOffset rp.2.start = 0 :=
    h.start_of_first hs hd hrp hcontains halign hn' (Nat.le_of_lt hbound) hmap (hzero hn) htrans
  have hold (hlt : pages r.size < pages rp.2.size.toInt) :
      p.pTable.pTable (page r.vaddr (pages r.size)) = none := by
    cases hc : r.clobber with
    | false =>
        rw [hc, if_neg Bool.false_ne_true] at hmap
        exact mapPages_free hmap _ hlt
    | true =>
        have hn := hclobber hc
        obtain ⟨hstart, -⟩ := hfirst hn (hn.trans hlt)
        rw [hstart]
        exact h.free_of_first hs hd hrp hhas (hstart ▸ halign) (BitVec.le_trans hle.1 hle.2)
          (hstart ▸ hzero hn) hlt
  have hsame := pages_eq_of_mapsOwn hbound hmap hfree hown hold
  rw [System.Fits, if_pos hdev]
  exact ⟨rp, hfind, hsame, fun hn => hfirst hn (hsame ▸ hn)⟩

private theorem fits_memory (h : Placed s p) (hs : s.Configured) (hsize : r.size < 2 ^ 63)
    (hfree : ∀ i < pages r.size, p.pTable.pTable (page r.vaddr i) = none)
    (hdev : ¬(p.system.hasVdev ∧ p.system.isVAddrOfVdev r.vaddr))
    (hok : p.allocateMem r.vaddr r.size r.clobber = .ok p') (htrans : Translates s p') :
    p.system.Fits r.vaddr r.size := by
  obtain ⟨pagePtr, hsys⟩ := h.system
  obtain ⟨⟨paddr, size, s₁⟩, hpages, hok⟩ := bind_ok hok
  obtain ⟨t, hmap, hok⟩ := bind_ok hok
  cases hok
  obtain ⟨halign, hmap⟩ := check_bind hmap
  rw [System.pagesFor_memory r.size hdev] at hpages
  obtain ⟨⟨paddr₁, s₂⟩, halloc, hpages⟩ := bind_ok hpages
  cases hpages
  obtain ⟨hend, -, hframes⟩ := System.allocPhysPages_frames halloc
  have hright (i : Nat) (hi : i < pages r.size) :
      p.system.Right (page r.vaddr i) (page (p.system.firstFrame r.size) i) := by
    have htr := mapPages_translate h.coherent halign (Process.pages_le_of_lt hsize) hmap hi
      (hfree i hi)
    have hoff := pageOffset_page halign i
    obtain ⟨hon, hplace⟩ := htrans _ _ htr
    have hframe := pageAlign_of_aligned (pageOffset_pageAlign (page paddr i))
    rw [pageAlign_of_aligned hoff, hframe, hframes] at hon hplace
    have hsame : p.system.Right = s.Right := by
      rw [hsys]
      rfl
    rw [hsame, System.Right]
    split_ifs with hv
    · exact hplace hv
    · exact hon.trans (Bool.eq_false_iff.mpr hv)
  rw [System.Fits, if_neg hdev]
  by_cases hcounted : p.system.Counted r.size
  · exact Or.inl ⟨hcounted, fun i hi =>
      (hright i hi).not_vdev (h.configured hs) (hcounted.frame_lt hend hi)⟩
  · exact Or.inr ⟨hcounted, hright⟩

end Placed

/-- After requests that fit, every page is on a device exactly when it is in the range of one, at
the same offset, and a request maps its own pages. A further request on unmapped pages, where no
two devices share an address, does so exactly when it fits. -/
theorem device_pages {s : System} (hs : s.Configured) {rs : List Request} {p : Process}
    (h : Run FitStep { system := s } rs p) :
    Translates s p ∧
    (∀ r p', FitStep p r p' → MapsOwn p r p') ∧
    (∀ r, p.system.Fits r.vaddr r.size → r.size < 2 ^ 63 → pageOffset r.vaddr = 0 →
      (∀ i < pages r.size, p.pTable.pTable (page r.vaddr i) = none) →
      p.system.endFrame r.size ≤ s.totalSize → ∃ p', FitStep p r p') ∧
    ∀ r p', r.size < 2 ^ 63 → (r.clobber = true → 0 < pages r.size) →
      (∀ rp ∈ s.pairs, ∀ rp' ∈ s.pairs, ∀ v, rp.1.contains v → rp'.1.contains v → rp = rp') →
      (∀ i < pages r.size, p.pTable.pTable (page r.vaddr i) = none) →
      p.allocateMem r.vaddr r.size r.clobber = .ok p' →
      (MapsOwn p r p' ∧ Translates s p' ↔ p.system.Fits r.vaddr r.size) := by
  have hp := (Placed.empty s).run hs h
  have hown (r : Request) (p' : Process) (hstep : FitStep p r p') : MapsOwn p r p' := by
    obtain ⟨-, -, flags, paddr, hmap, -⟩ :=
      Process.allocateMem_spec (hp.configured hs) hstep.1 hstep.2
    exact mapsOwn_of_mapPages hmap
  refine ⟨hp.translates, hown, ?_, ?_⟩
  · intro r hfits hsize halign hfree hmemory
    obtain ⟨pagePtr, hsys⟩ := hp.system
    have htotal : p.system.totalSize = s.totalSize := by rw [hsys]
    rw [← htotal] at hmemory
    have hmapped : ∃ p', p.allocateMem r.vaddr r.size r.clobber = .ok p' :=
      Process.allocateMem_ok hfits hsize halign hfree hmemory
    obtain ⟨p', hok⟩ := hmapped
    exact ⟨p', hfits, hok⟩
  · intro r p' hsize hclobber hd hfree hok
    constructor
    · rintro ⟨hmaps, htrans⟩
      by_cases hdev : p.system.hasVdev ∧ p.system.isVAddrOfVdev r.vaddr
      · exact hp.fits_device hs hd hclobber hfree hdev hok hmaps htrans
      · exact hp.fits_memory hs hsize hfree hdev hok htrans
    · intro hfits
      have hstep : FitStep p r p' := ⟨hfits, hok⟩
      exact ⟨hown r p' hstep, (hp.step hs hstep).translates⟩

/-- A device of two pages above the memory. -/
def twoPages : System :=
  { totalSize := 0x20000000
    hasVdev := true
    vdevRanges := [{ start := 0x20000000, end_ := 0x20001fff }]
    vaddrVdevRanges := [{ start := 0x3e800000, end_ := 0x3e801fff }] }

theorem twoPages_configured : twoPages.Configured := by
  constructor <;> simp [twoPages, System.pairs, AddrRange.size]

/-- A request for two pages of memory, and one for the device. -/
theorem device_pages_two :
    ∃ p, Run FitStep { system := twoPages }
        [{ vaddr := 0x1000, size := 0x2000 }, { vaddr := 0x3e800000, size := 0x2000 }] p ∧
      Translates twoPages p := by
  obtain ⟨p₁, p, hptr, hok₁, hok⟩ : ∃ p₁ p, p₁.system = { twoPages with pagePtr := 2 } ∧
      Process.allocateMem { system := twoPages } 0x1000 0x2000 false = .ok p₁ ∧
      Process.allocateMem p₁ 0x3e800000 0x2000 false = .ok p := ⟨_, _, rfl, rfl, rfl⟩
  have hmemory : twoPages.Fits 0x1000 0x2000 := by
    rw [System.Fits, if_neg (by decide)]
    exact Or.inl ⟨⟨by decide, by decide, by decide, by decide⟩, by decide⟩
  have hdevice : p₁.system.Fits 0x3e800000 0x2000 := by
    rw [hptr, System.Fits, if_pos (by decide)]
    exact ⟨_, rfl, rfl, fun _ => ⟨rfl, rfl⟩⟩
  have hrun : Run FitStep { system := twoPages }
      [{ vaddr := 0x1000, size := 0x2000 }, { vaddr := 0x3e800000, size := 0x2000 }] p :=
    (Run.nil.snoc ⟨hmemory, hok₁⟩).snoc ⟨hdevice, hok⟩
  exact ⟨p, hrun, (device_pages twoPages_configured hrun).1⟩

/-- A request for the second page of the device has it translated to the first, and maps a page
past the range to the device as well. A request for the first page maps the second too, and one
that begins below the range has the first page in memory. -/
theorem device_request_misplaced :
    (∃ p, Process.allocateMem { system := twoPages } 0x3e801000 0x1000 false = .ok p ∧
      ¬ MapsOwn { system := twoPages } { vaddr := 0x3e801000, size := 0x1000 } p ∧
      ¬ Translates twoPages p) ∧
    (∃ p, Process.allocateMem { system := twoPages } 0x3e800000 0x1000 false = .ok p ∧
      ¬ MapsOwn { system := twoPages } { vaddr := 0x3e800000, size := 0x1000 } p) ∧
    ∃ p, Process.allocateMem { system := twoPages } 0x3e7ff000 0x2000 false = .ok p ∧
      ¬ Translates twoPages p := by
  refine ⟨⟨_, rfl, ?_, ?_⟩, ⟨_, rfl, ?_⟩, _, rfl, ?_⟩
  · intro h
    rcases (h 0x3e802000).1.mp (by decide) with hold | ⟨i, hi, he⟩
    · exact hold rfl
    · obtain rfl : i = 0 := Nat.lt_one_iff.mp hi
      exact absurd he (by decide)
  · intro h
    obtain ⟨rp, hrp, -, -, hpa⟩ := (h 0x3e801000 0x20000000 (by decide)).2 (by decide)
    obtain rfl := List.mem_singleton.mp hrp
    exact absurd hpa (by decide)
  · intro h
    rcases (h 0x3e801000).1.mp (by decide) with hold | ⟨i, hi, he⟩
    · exact hold rfl
    · obtain rfl : i = 0 := Nat.lt_one_iff.mp hi
      exact absurd he (by decide)
  · intro h
    exact absurd (h 0x3e800000 0x1000 (by decide)).1 (by decide)

end ModernArch.Sim
