import ModernArch.Sim.AddressSpace

/-!
# Moved and unmapped pages

`mremapFunc` carries the bytes of a mapping to its new place, when the pages there are free.
-/

namespace ModernArch.Sim
open Framework Mem

/-- The moves of the loop of `remap`. -/
def pageMoves (n : Nat) (vaddr new_vaddr : Addr) : List (Addr × Addr) :=
  (List.range n).map fun i => (page vaddr i, page new_vaddr i)

private theorem pageMoves_succ (n : Nat) (vaddr new_vaddr : Addr) :
    pageMoves (n + 1) vaddr new_vaddr =
    (vaddr, new_vaddr) :: pageMoves n (page vaddr 1) (page new_vaddr 1) := by
  rw [pageMoves, List.range_succ_eq_map, List.map_cons, List.map_map, page_zero, page_zero]
  refine congrArg _ (List.map_congr_left fun i _ => ?_)
  rw [page_succ vaddr, page_succ new_vaddr]
  rfl

private theorem page_ne_page {vaddr new_vaddr : Addr} (h : vaddr ≠ new_vaddr) (i : Nat) :
    page vaddr i ≠ page new_vaddr i := fun he => h ((BitVec.add_left_inj _).mp he)

private theorem remapPage_entry {t t' : FuncPageTable} {vaddr new_vaddr : Addr}
    (hne : vaddr ≠ new_vaddr)
    (h : t.remapPage vaddr new_vaddr = .ok t') : ∃ e, t.pTable vaddr = some e ∧ t'.pTable =
      Function.update (Function.update t.pTable vaddr none) new_vaddr
        (some (e.updateVaddr new_vaddr)) := by
  obtain ⟨hmapped, hok⟩ := check_bind h
  obtain ⟨e, he⟩ := Option.ne_none_iff_exists'.mp hmapped
  have hmoved : Function.update (Function.update t.pTable new_vaddr (t.pTable vaddr)) vaddr none
      new_vaddr = some e := by
    rw [Function.update_of_ne hne.symm, Function.update_self, he]
  cases hok
  refine ⟨e, he, ?_⟩
  dsimp only
  rw [hmoved, Option.getD_some, Function.update_comm hne, Function.update_idem,
    Function.update_comm hne.symm]

/-- The pages of the length are counted in an `int`. -/
def Short (length : Addr) : Prop := length.toNat + PageBytes ≤ 2 ^ 43

theorem Short.pages {length : Addr} (h : Short length) : 0 ≤ length.toInt ∧
    Mem.pages length.toInt < 2 ^ 31 ∧
    Mem.pages length.toInt = (length.toNat + (PageBytes - 1)) / PageBytes := by
  have hint : length.toInt = length.toNat := by
    rw [BitVec.toInt_eq_toNat_cond, if_pos]
    simp only [Short] at h
    omega
  rw [hint]
  simp only [Short, Mem.pages, PageShift, PageBytes] at h ⊢
  omega

private theorem roundUp_toNat {length : Addr} (h : Short length) :
    (roundUp length).toNat = (length.toNat + (PageBytes - 1)) / PageBytes * PageBytes := by
  have hsum : length + BitVec.ofNat 64 PageBytes - 1 =
      length + BitVec.ofNat 64 (PageBytes - 1) := by
    rw [BitVec.sub_eq_add_neg, BitVec.add_assoc]
    rfl
  have hround := and_not_low (length + BitVec.ofNat 64 PageBytes - 1) (show PageShift < 64 by decide)
  refine hround.trans ?_
  rw [hsum, BitVec.toNat_add, BitVec.toNat_ofNat]
  simp only [Short, PageShift, PageBytes] at h ⊢
  omega

theorem pages_roundUp {length : Addr} (h : Short length) :
    (roundUp length).toNat = Mem.pages (roundUp length).toInt * PageBytes := by
  have hnat := roundUp_toNat h
  have hround : Short (roundUp length) := by
    simp only [Short, PageShift, PageBytes] at h hnat ⊢
    omega
  rw [hround.pages.2.2, hnat]
  simp only [PageShift, PageBytes]
  omega

theorem Short.roundUp {length : Addr} (h : Short length) : Short (roundUp length) := by
  have hnat := roundUp_toNat h
  simp only [Short, PageShift, PageBytes] at h hnat ⊢
  omega

namespace Process

/-- Where `mremapFunc` moves the pages of the old mapping that it keeps. -/
def moveTarget (p : Process) (start old_length new_length : Addr) (fixed mayMove : Bool)
    (address : Addr) : Option Addr :=
  if old_length < roundUp new_length then
    if start + old_length = p.mmap_end ∧ (fixed = false ∨ address = start) then none
    else if fixed = false ∧ mayMove = false then none
    else some (if fixed then address else p.mmap_end)
  else if fixed = true ∧ address ≠ start then some address
  else none

/-- The pages that are moved then. -/
def movedPages (old_length new_length : Addr) : Nat :=
  pages (if old_length < roundUp new_length then old_length else roundUp new_length).toInt

/-- What a call of `mremapFunc` comes to. The new length is rounded up. -/
inductive Mremapped (p : Process) (start old_length new_length : Addr) :
    Option Addr → SyscallReturn → Process → Prop where
  | refused {target : Option Addr} {r : SyscallReturn} (hr : r = .EINVAL ∨ r = .ENOMEM) :
      Mremapped p start old_length new_length target r p
  | extended {q : Process} {mmap_end : Addr} (hlt : old_length < new_length)
      (hq : p.allocateMem p.mmap_end (new_length - old_length).toInt false = .ok q) :
      Mremapped p start old_length new_length none (.value start) { q with mmap_end := mmap_end }
  | moved {target mmap_end : Addr} {clobber : Bool} {t : FuncPageTable} {q : Process}
      (hlt : old_length < new_length) (hstart : pageOffset start = 0)
      (htarget : pageOffset target = 0)
      (ht : p.pTable.remapPages (pages old_length.toInt) start target = .ok t)
      (hq : { p with pTable := t }.allocateMem (target + old_length)
        (new_length - old_length).toInt clobber = .ok q) :
      Mremapped p start old_length new_length (some target) (.value target)
        { q with mmap_end := mmap_end }
  | cut {t : FuncPageTable} (hle : new_length ≤ old_length)
      (ht : p.pTable.unmapPages (pages (old_length - new_length).toInt) (start + new_length) =
        .ok t) :
      Mremapped p start old_length new_length none (.value start) { p with pTable := t }
  | movedCut {target : Addr} {t t' : FuncPageTable} (hle : new_length ≤ old_length)
      (hstart : pageOffset start = 0) (htarget : pageOffset target = 0)
      (ht : p.pTable.remapPages (pages new_length.toInt) start target = .ok t)
      (ht' : t.unmapPages (pages (old_length - new_length).toInt) (start + new_length) = .ok t') :
      Mremapped p start old_length new_length (some target) (.value target) { p with pTable := t' }

private theorem mremapFunc_cases {p q : Process} {start old_length new_length address : Addr}
    {fixed mayMove : Bool} {r : SyscallReturn}
    (hok : p.mremapFunc start old_length new_length fixed mayMove address = .ok (r, q)) :
    Mremapped p start old_length (roundUp new_length)
      (p.moveTarget start old_length new_length fixed mayMove address) r q := by
  have hprovided : (fixed = false ∨ (if fixed = true then address else 0) = start) ↔
      (fixed = false ∨ address = start) := by
    cases fixed <;> simp
  simp only [mremapFunc, hprovided] at hok
  rw [moveTarget]
  by_cases halign : pageOffset start ≠ 0 ∨ pageOffset (if fixed = true then address else 0) ≠ 0
  · rw [if_pos halign] at hok
    cases hok
    exact .refused (Or.inl rfl)
  rw [if_neg halign] at hok
  by_cases hlt : old_length < roundUp new_length
  · rw [if_pos hlt] at hok ⊢
    by_cases hend : start + old_length = p.mmap_end ∧ (fixed = false ∨ address = start)
    · rw [if_pos hend] at hok ⊢
      obtain ⟨q, hq, hok⟩ := bind_ok hok
      cases hok
      exact .extended hlt hq
    rw [if_neg hend] at hok ⊢
    by_cases hstay : fixed = false ∧ mayMove = false
    · rw [if_pos hstay] at hok ⊢
      cases hok
      exact .refused (Or.inr rfl)
    rw [if_neg hstay] at hok ⊢
    obtain ⟨t, ht, hok⟩ := bind_ok hok
    obtain ⟨q, hq, hok⟩ := bind_ok hok
    obtain ⟨hstart, ht⟩ := check_bind ht
    obtain ⟨htarget, ht⟩ := check_bind ht
    cases fixed
    · cases hok
      exact .moved hlt hstart htarget ht hq
    · have hmoved : Mremapped p start old_length (roundUp new_length) (some address)
          (.value address) { q with mmap_end := q.mmap_end } := .moved hlt hstart htarget ht hq
      cases hok
      exact hmoved
  · rw [if_neg hlt] at hok ⊢
    have hle : roundUp new_length ≤ old_length := BitVec.not_lt.mp hlt
    by_cases hmove : fixed = true ∧ address ≠ start
    · obtain ⟨rfl, hne⟩ := hmove
      rw [if_pos rfl, if_pos ⟨rfl, hne⟩] at hok
      rw [if_pos ⟨rfl, hne⟩]
      obtain ⟨t, ht, hok⟩ := bind_ok hok
      obtain ⟨t', ht', hok⟩ := bind_ok hok
      cases hok
      obtain ⟨hstart, ht⟩ := check_bind ht
      obtain ⟨htarget, ht⟩ := check_bind ht
      exact .movedCut hle hstart htarget ht (check_bind ht').2
    · have hmove' : ¬(fixed = true ∧ (if fixed = true then address else 0) ≠ start) := by
        cases fixed
        · simp
        · simpa using hmove
      have hsame : (if fixed = true then (if fixed = true then address else 0) else start) =
          start := by
        cases fixed
        · rfl
        · simpa using hmove
      rw [if_neg hmove', hsame] at hok
      rw [if_neg hmove]
      obtain ⟨t, ht, hok⟩ := bind_ok hok
      cases ht
      obtain ⟨t', ht', hok⟩ := bind_ok hok
      cases hok
      exact .cut hle (check_bind ht').2

end Process

namespace LiveProcess

variable {p p' : LiveProcess} {n : Nat} {vaddr new_vaddr : Addr} {t : FuncPageTable}

private theorem frame_remapPages (hne : n ≠ 0 → vaddr ≠ new_vaddr)
    (hok : p.pTable.remapPages n vaddr new_vaddr = .ok t) :
    ({ p with pTable := t } : LiveProcess).frame = moves p.frame (pageMoves n vaddr new_vaddr) := by
  induction n generalizing p vaddr new_vaddr with
  | zero =>
      cases hok
      rfl
  | succ n ih =>
      have hne := hne (Nat.succ_ne_zero n)
      obtain ⟨t₁, hpage, hrest⟩ := bind_ok hok
      obtain ⟨e, he, htable⟩ := remapPage_entry hne hpage
      have hframe : ({ p with pTable := t₁ } : LiveProcess).frame = move p.frame vaddr new_vaddr := by
        funext x
        rw [frame, htable, move]
        by_cases hx : x = new_vaddr
        · subst hx
          rw [Function.update_self, Function.update_self, frame, he]
          rfl
        · rw [Function.update_of_ne hx, Function.update_of_ne hx]
          by_cases hx' : x = vaddr
          · subst hx'
            rw [Function.update_self, Function.update_self]
            rfl
          · rw [Function.update_of_ne hx', Function.update_of_ne hx', frame]
      have hrest' := ih (p := { p with pTable := t₁ }) (fun _ => page_ne_page hne 1) hrest
      rw [hframe] at hrest'
      rw [pageMoves_succ, moves]
      exact hrest'

private theorem remapPages_step (h : p.Sound) (hne : n ≠ 0 → vaddr ≠ new_vaddr)
    (hclear : FuncPageTable.MovesClear p.pTable.slots n vaddr new_vaddr)
    (hok : p.pTable.remapPages n vaddr new_vaddr = .ok t) : Step p { p with pTable := t } := by
  have hframe := frame_remapPages hne hok
  refine Step.of_frames h rfl rfl le_rfl h.pagePtr rfl
    (FuncPageTable.remapPages_coherent (h.coherent.take _) hclear hok) ?_ ?_
  · intro v f hf
    rw [hframe] at hf
    exact Or.inl (moves_some hf)
  · rw [hframe]
    exact h.exclusive.moves

private theorem frame_unmapPages (hok : p.pTable.unmapPages n vaddr = .ok t) (x : Addr) :
    ({ p with pTable := t } : LiveProcess).frame x =
      if ∃ i < n, x = page vaddr i then none else p.frame x := by
  induction n generalizing p vaddr with
  | zero =>
      cases hok
      simp
  | succ n ih =>
      obtain ⟨t₁, hpage, hrest⟩ := bind_ok hok
      have hrest' := ih (p := { p with pTable := t₁ }) hrest
      refine hrest'.trans ?_
      cases (check_bind hpage).2
      by_cases hlater : ∃ i < n, x = page (page vaddr 1) i
      · obtain ⟨i, hi, hx⟩ := hlater
        rw [if_pos ⟨i, hi, hx⟩, if_pos ⟨i + 1, Nat.succ_lt_succ hi, by rw [hx, page_succ]⟩]
      · rw [if_neg hlater]
        by_cases hx : x = vaddr
        · subst hx
          rw [if_pos ⟨0, Nat.succ_pos n, (page_zero x).symm⟩]
          simp only [frame, Function.update_self, Option.bind_none]
        · rw [if_neg]
          · simp only [frame, Function.update_of_ne hx]
          rintro ⟨i, hi, he⟩
          cases i with
          | zero => exact hx (he.trans (page_zero vaddr))
          | succ i => exact hlater ⟨i, Nat.lt_of_succ_lt_succ hi, by rw [page_succ, he]⟩

private theorem unmapPages_step (h : p.Sound) (hok : p.pTable.unmapPages n vaddr = .ok t) :
    Step p { p with pTable := t } := by
  have hold {v f : Addr} (hf : ({ p with pTable := t } : LiveProcess).frame v = some f) :
      p.frame v = some f := by
    rw [frame_unmapPages hok] at hf
    split_ifs at hf
    exact hf
  exact Step.of_frames h rfl rfl le_rfl h.pagePtr rfl
    (FuncPageTable.unmapPages_coherent h.coherent hok) (fun v f hf => Or.inl ⟨v, hold hf⟩)
    fun v w f hv hw => h.exclusive v w f (hold hv) (hold hw)

private theorem pageMoves_spec (F : Addr → Option Addr) (hn : n ≤ 2 ^ 52)
    (hdisjoint : ∀ i < n, ∀ j < n, page vaddr i ≠ page new_vaddr j) :
    (∀ i < n, moves F (pageMoves n vaddr new_vaddr) (page new_vaddr i) = F (page vaddr i) ∧
      moves F (pageMoves n vaddr new_vaddr) (page vaddr i) = none) ∧
    ∀ x, (∀ i < n, x ≠ page vaddr i) → (∀ i < n, x ≠ page new_vaddr i) →
      moves F (pageMoves n vaddr new_vaddr) x = F x := by
  have hnodup (v : Addr) : ((List.range n).map (page v)).Nodup := by
    refine List.nodup_range.map_on ?_
    intro i hi j hj he
    rw [List.mem_range] at hi hj
    exact page_inj (by omega) (by omega) he
  have hfst : (pageMoves n vaddr new_vaddr).map Prod.fst = (List.range n).map (page vaddr) := by
    rw [pageMoves, List.map_map]
    rfl
  have hsnd : (pageMoves n vaddr new_vaddr).map Prod.snd = (List.range n).map (page new_vaddr) := by
    rw [pageMoves, List.map_map]
    rfl
  have hmem {m : Addr × Addr} (hm : m ∈ pageMoves n vaddr new_vaddr) :
      ∃ i < n, m = (page vaddr i, page new_vaddr i) := by
    obtain ⟨i, hi, he⟩ := List.mem_map.mp hm
    exact ⟨i, List.mem_range.mp hi, he.symm⟩
  constructor
  · intro i hi
    have hm : (page vaddr i, page new_vaddr i) ∈ pageMoves n vaddr new_vaddr :=
      List.mem_map.mpr ⟨i, List.mem_range.mpr hi, rfl⟩
    refine moves_spec (hfst ▸ hnodup vaddr) (hsnd ▸ hnodup new_vaddr) ?_ _ hm
    intro m hm m' hm'
    obtain ⟨i, hi, rfl⟩ := hmem hm
    obtain ⟨j, hj, rfl⟩ := hmem hm'
    exact hdisjoint i hi j hj
  · intro x hx hx'
    apply moves_other
    · rw [hfst]
      intro hmem
      obtain ⟨i, hi, he⟩ := List.mem_map.mp hmem
      exact hx i (List.mem_range.mp hi) he.symm
    · rw [hsnd]
      intro hmem
      obtain ⟨i, hi, he⟩ := List.mem_map.mp hmem
      exact hx' i (List.mem_range.mp hi) he.symm

/-! ## `mremap` -/

theorem allocateMem_step {size : Int} {clobber : Bool} (h : p.Sound) (hsize : 0 ≤ size)
    (hn : pages size < 2 ^ 31) (hok : p.allocateMem vaddr size clobber = .ok p') : Step p p' := by
  by_cases hdev : p.system.hasVdev ∧ p.system.isVAddrOfVdev vaddr
  · exact (frames_of_device h hdev hok).1
  · exact (frames_of_memory h hsize hn hdev hok).1

section Mremap

variable {start old_length new_length address : Addr} {fixed mayMove : Bool} {r : SyscallReturn}

private theorem short_sub (hold : old_length < roundUp new_length) (hnew : Short new_length) :
    Short (roundUp new_length - old_length) := by
  have hround := hnew.roundUp
  rw [BitVec.lt_def] at hold
  have hnat : (roundUp new_length - old_length).toNat =
      (roundUp new_length).toNat - old_length.toNat := BitVec.toNat_sub_of_le (Nat.le_of_lt hold)
  simp only [Short] at hround ⊢
  omega

private theorem allocateMem_lift {size : Int} {clobber : Bool} {q : Process}
    (hq : p.toProcess.allocateMem vaddr size clobber = .ok q) :
    p.allocateMem vaddr size clobber = .ok { p with toProcess := q } := by
  rw [allocateMem, hq]
  rfl

private theorem allocate_step {size : Int} {clobber : Bool} {q : Process} {mmap_end : Addr}
    (h : p.Sound) (hsize : 0 ≤ size) (hn : pages size < 2 ^ 31)
    (hq : p.toProcess.allocateMem vaddr size clobber = .ok q) :
    Step p { p with toProcess := { q with mmap_end := mmap_end } } := by
  have hs := allocateMem_step h hsize hn (allocateMem_lift hq)
  have hsame := Step.of_same
    { p with toProcess := { q with mmap_end := mmap_end } } hs.sound rfl rfl rfl rfl
  exact hs.trans hsame.1

/-- A move of pages to free places, or to places that no slot of the cache remembers. -/
theorem mremap_step (h : p.Sound) (hnew : Short new_length)
    (hclear : ∀ target, p.moveTarget start old_length new_length fixed mayMove address =
      some target → (Process.movedPages old_length new_length ≠ 0 → start ≠ target) ∧
        FuncPageTable.MovesClear p.pTable.slots (Process.movedPages old_length new_length) start
          target)
    (hok : p.mremapFunc start old_length new_length fixed mayMove address = .ok (r, p')) :
    Step p p' := by
  obtain ⟨⟨r, q⟩, hrun, hok⟩ := bind_ok (check_bind hok).2
  cases hok
  have hcases := Process.mremapFunc_cases hrun
  generalize p.moveTarget start old_length new_length fixed mayMove address = target? at *
  cases hcases with
  | refused hr => exact Step.refl h
  | extended hlt hq =>
      obtain ⟨hsize, hn, -⟩ := (short_sub hlt hnew).pages
      exact allocate_step h hsize hn hq
  | @moved target _ _ t _ hlt hstart htarget ht hq =>
      obtain ⟨hne, hclear⟩ := hclear target rfl
      rw [Process.movedPages, if_pos hlt] at hne hclear
      obtain ⟨hsize, hn, -⟩ := (short_sub hlt hnew).pages
      have hs := remapPages_step h hne hclear ht
      exact hs.trans (allocate_step (p := { p with pTable := t }) hs.sound hsize hn hq)
  | cut hle ht => exact unmapPages_step h ht
  | @movedCut target t _ hle hstart htarget ht ht' =>
      obtain ⟨hne, hclear⟩ := hclear target rfl
      rw [Process.movedPages, if_neg (BitVec.not_lt.mpr hle)] at hne hclear
      have hs := remapPages_step h hne hclear ht
      exact hs.trans (unmapPages_step (p := { p with pTable := t }) hs.sound ht')

/-- The pages of a mapping of `old` pages are at `target`, where it has `new` pages. -/
structure Carried (p p' : LiveProcess) (start target : Addr) (old new : Nat) : Prop where
  kept : ∀ i < min old new, ∀ a b, pageAlign a = page target i → pageAlign b = page start i →
    pageOffset a = pageOffset b → p'.view a = p.view b
  fresh : ∀ i, old ≤ i → i < new → ∀ a, pageAlign a = page target i → p'.view a = some 0
  left : ∀ i < old, ∀ a, pageAlign a = page start i → p'.view a = none
  others : ∀ a, (∀ i < old, pageAlign a ≠ page start i) → (∀ i < new, pageAlign a ≠ page target i) →
    p'.view a = p.view a

private theorem view_of_move {a b : Addr} (hmem : p'.physmem = p.physmem)
    (hframe : p'.frame (pageAlign a) = p.frame (pageAlign b)) (hoff : pageOffset a = pageOffset b) :
    p'.view a = p.view b := by
  rw [view, view, phys, phys, hframe, hmem, hoff]

private theorem movesClear_of_free (h : p.Sound)
    (hfree : ∀ i < n, p.pTable.pTable (page new_vaddr i) = none) :
    FuncPageTable.MovesClear p.pTable.slots n vaddr new_vaddr := by
  intro i hi hmem
  obtain ⟨e, he⟩ := mem_slotKeys.mp hmem
  have hvalue := h.coherent.value _ _ (List.mem_of_mem_take he)
  rw [hfree i hi] at hvalue
  cases hvalue

private theorem add_eq_page {vaddr length : Addr} {n : Nat} (h : length.toNat = n * PageBytes) :
    vaddr + length = page vaddr n := by
  rw [page, ← h, BitVec.ofNat_toNat, BitVec.setWidth_eq]

section Contents

variable {target mmap_end : Addr} {o n' : Nat}
  (hapart : ∀ i < o, ∀ j < n', page start i ≠ page target j)

include hapart

private theorem moved_carried {length : Int} {clobber : Bool} {q : Process} (h : p.Sound)
    (hfree : ∀ i < n', p.pTable.pTable (page target i) = none) (hn' : n' ≤ 2 ^ 31) (hle : o ≤ n') (hsize : 0 ≤ length) (hlength : pages length = n' - o)
    (hdev : ¬(p.system.hasVdev ∧ p.system.isVAddrOfVdev (page target o)))
    (ht : p.pTable.remapPages o start target = .ok t) (hne : o ≠ 0 → start ≠ target)
    (hq : { p.toProcess with pTable := t }.allocateMem (page target o) length clobber = .ok q)
    (hn : pages length < 2 ^ 31) :
    Carried p { p with toProcess := { q with mmap_end := mmap_end } } start target o n' := by
  have hs := remapPages_step h hne
    (movesClear_of_free h fun i hi => hfree i (by omega)) ht
  have hframe := frame_remapPages hne ht
  have hapart' : ∀ i < o, ∀ j < o, page start i ≠ page target j :=
    fun i hi j hj => hapart i hi j (by omega)
  obtain ⟨hmoved, hother⟩ := pageMoves_spec p.frame (by omega) hapart'
  rw [← hframe] at hmoved hother
  obtain ⟨hs₁, hmem, -, -, hnew, hkeep⟩ := frames_of_memory (p := { p with pTable := t }) hs.sound
    hsize hn hdev (allocateMem_lift hq)
  rw [hlength] at hnew hkeep
  have hsame := (Step.of_same
    { p with toProcess := { q with mmap_end := mmap_end } } hs₁.sound rfl rfl rfl rfl).2
  refine ⟨?_, ?_, ?_, ?_⟩
  · intro i hi a b ha hb hoff
    rw [Nat.min_eq_left hle] at hi
    have hkept : ∀ j < n' - o, pageAlign a ≠ page (page target o) j := by
      intro j hj he
      rw [ha, page_page] at he
      have hij := page_inj (by omega) (by omega) he
      omega
    rw [hsame]
    refine view_of_move hmem ?_ hoff
    rw [hkeep _ hkept, ha, hb]
    exact (hmoved i hi).1
  · intro i hi hi' a ha
    obtain ⟨f, hf, hge⟩ := hnew (i - o) (by omega)
    rw [page_page, Nat.add_sub_cancel' hi, ← ha] at hf
    rw [hsame]
    exact view_of_fresh hs.sound hs₁ hmem hf hge
  · intro i hi a ha
    have hkept : ∀ j < n' - o, pageAlign a ≠ page (page target o) j := by
      intro j hj
      rw [ha, page_page]
      exact hapart i hi (o + j) (by omega)
    rw [hsame, view_eq_none, hkeep _ hkept, ha]
    exact (hmoved i hi).2
  · intro a hstart htarget
    have hkept : ∀ j < n' - o, pageAlign a ≠ page (page target o) j := by
      intro j hj
      rw [page_page]
      exact htarget (o + j) (by omega)
    rw [hsame]
    refine view_of_move hmem ?_ rfl
    rw [hkeep _ hkept]
    exact hother _ hstart fun i hi => htarget i (by omega)

/-- The pages that are moved, and those of the old mapping that are left behind. -/
theorem movedCut_carried {t' : FuncPageTable} (hn' : o ≤ 2 ^ 31) (hle : n' ≤ o)
    (ht : p.pTable.remapPages n' start target = .ok t) (hne : n' ≠ 0 → start ≠ target)
    (ht' : t.unmapPages (o - n') (page start n') = .ok t') :
    Carried p { p with pTable := t' } start target o n' := by
  have hframe := frame_remapPages hne ht
  have hapart' : ∀ i < n', ∀ j < n', page start i ≠ page target j :=
    fun i hi j hj => hapart i (by omega) j hj
  obtain ⟨hmoved, hother⟩ := pageMoves_spec p.frame (by omega) hapart'
  rw [← hframe] at hmoved hother
  have hcut (x : Addr) := frame_unmapPages (p := { p with pTable := t }) ht' x
  refine ⟨?_, ?_, ?_, ?_⟩
  · intro i hi a b ha hb hoff
    rw [Nat.min_eq_right hle] at hi
    refine view_of_move rfl ?_ hoff
    rw [ha, hb]
    refine (hcut _).trans ?_
    rw [if_neg, (hmoved i hi).1]
    rintro ⟨j, hj, he⟩
    rw [page_page] at he
    exact hapart (n' + j) (by omega) i hi he.symm
  · intro i hi hi'
    omega
  · intro i hi a ha
    rw [view_eq_none, ha]
    refine (hcut _).trans ?_
    by_cases hin : i < n'
    · rw [if_neg, (hmoved i hin).2]
      rintro ⟨j, hj, he⟩
      rw [page_page] at he
      have hij := page_inj (by omega) (by omega) he
      omega
    · have hlast : page start i = page (page start n') (i - n') := by
        rw [page_page, Nat.add_sub_cancel' (Nat.not_lt.mp hin)]
      rw [if_pos ⟨i - n', by omega, hlast⟩]
  · intro a hstart htarget
    refine view_of_move rfl ?_ rfl
    refine (hcut _).trans ?_
    rw [if_neg, hother _ (fun i hi => hstart i (by omega)) htarget]
    rintro ⟨j, hj, he⟩
    rw [page_page] at he
    exact hstart (n' + j) (by omega) he

end Contents

theorem fits_of_free {target : Addr} (h : p.Sound) (hold : Short old_length)
    (hnew : Short new_length)
    (hmapped : ∀ i < pages old_length.toInt, p.pTable.pTable (page start i) ≠ none)
    (hfree : ∀ i < pages (roundUp new_length).toInt, p.pTable.pTable (page target i) = none) :
    (Process.movedPages old_length new_length ≠ 0 → start ≠ target) ∧
      FuncPageTable.MovesClear p.pTable.slots (Process.movedPages old_length new_length) start
        target := by
  have hle : Process.movedPages old_length new_length ≤ pages old_length.toInt ∧
      Process.movedPages old_length new_length ≤ pages (roundUp new_length).toInt := by
    rw [Process.movedPages, hold.pages.2.2, hnew.roundUp.pages.2.2]
    split_ifs with hlt
    · rw [BitVec.lt_def] at hlt
      rw [hold.pages.2.2]
      exact ⟨le_rfl, Nat.div_le_div_right (by omega)⟩
    · rw [BitVec.lt_def] at hlt
      rw [hnew.roundUp.pages.2.2]
      exact ⟨Nat.div_le_div_right (by omega), le_rfl⟩
  constructor
  · rintro hpos rfl
    have hfirst := hmapped 0 (by omega)
    rw [hfree 0 (by omega)] at hfirst
    exact hfirst rfl
  · exact movesClear_of_free h fun i hi => hfree i (by omega)

/-- The mapping is moved to free pages. -/
theorem mremap_carried {target a : Addr} (h : p.Sound) (hold : Short old_length)
    (hnew : Short new_length)
    (htarget : p.moveTarget start old_length new_length fixed mayMove address = some target)
    (hmapped : ∀ i < pages old_length.toInt, p.pTable.pTable (page start i) ≠ none)
    (hfree : ∀ i < pages (roundUp new_length).toInt, p.pTable.pTable (page target i) = none)
    (hdev : ¬(p.system.hasVdev ∧ p.system.isVAddrOfVdev (target + old_length)))
    (hok : p.mremapFunc start old_length new_length fixed mayMove address = .ok (.value a, p')) :
    a = target ∧ pageOffset start = 0 ∧ pageOffset target = 0 ∧
      (old_length < roundUp new_length → old_length.toNat = pages old_length.toInt * PageBytes) ∧
      Carried p p' start target (pages old_length.toInt) (pages (roundUp new_length).toInt) := by
  have hapart : ∀ i < pages old_length.toInt, ∀ j < pages (roundUp new_length).toInt,
      page start i ≠ page target j := fun i hi j hj he => hmapped i hi (he ▸ hfree j hj)
  have hne {n : Nat} (hn : n ≤ pages old_length.toInt) (hn' : n ≤ pages (roundUp new_length).toInt)
      (hpos : n ≠ 0) : start ≠ target := by
    have hfirst := hapart 0 (by omega) 0 (by omega)
    rwa [page_zero, page_zero] at hfirst
  obtain ⟨-, hlt_old, hcount_old⟩ := hold.pages
  obtain ⟨-, hlt_new, hcount_new⟩ := hnew.roundUp.pages
  have hround := roundUp_toNat hnew
  have hlen := hnew.roundUp
  obtain ⟨⟨r, q⟩, hrun, hok⟩ := bind_ok (check_bind hok).2
  cases hok
  have hcases := Process.mremapFunc_cases hrun
  rw [htarget] at hcases
  cases hcases with
  | refused hr => simp at hr
  | @moved _ _ clobber t q hlt hstart halign ht hq =>
      have hsub : (roundUp new_length - old_length).toNat =
          (roundUp new_length).toNat - old_length.toNat :=
        BitVec.toNat_sub_of_le (Nat.le_of_lt hlt)
      rw [BitVec.lt_def] at hlt
      obtain ⟨hsize, hn, hcount⟩ := (short_sub hlt hnew).pages
      have hle : pages old_length.toInt ≤ pages (roundUp new_length).toInt := by
        rw [hcount_old, hcount_new]
        exact Nat.div_le_div_right (by omega)
      have hclear : FuncPageTable.MovesClear p.pTable.slots (pages old_length.toInt) start target :=
        movesClear_of_free h fun i hi => hfree i (by omega)
      have hs := remapPages_step h (hne le_rfl hle) hclear ht
      have hoff := (frames_of_memory (p := { p with pTable := t }) hs.sound hsize hn hdev
        (allocateMem_lift hq)).2.2.1
      have hpages : old_length.toNat = pages old_length.toInt * PageBytes := by
        have hmod := pageOffset_eq_zero.mp halign
        rw [pageOffset_eq_zero, BitVec.toNat_add] at hoff
        rw [hcount_old]
        simp only [PageShift, PageBytes] at hoff hmod ⊢
        omega
      refine ⟨rfl, hstart, halign, fun _ => hpages, ?_⟩
      rw [add_eq_page hpages] at hq hdev
      refine moved_carried hapart h hfree (by omega) hle hsize ?_ hdev ht (hne le_rfl hle) hq hn
      rw [hcount, hsub, hcount_new, hcount_old]
      simp only [PageShift, PageBytes] at hpages hround ⊢
      omega
  | movedCut hle hstart halign ht ht' =>
      refine ⟨rfl, hstart, halign, fun hlt => absurd hlt (BitVec.not_lt.mpr hle), ?_⟩
      have hsub : (old_length - roundUp new_length).toNat =
          old_length.toNat - (roundUp new_length).toNat := BitVec.toNat_sub_of_le hle
      rw [BitVec.le_def] at hle
      have hshort : Short (old_length - roundUp new_length) := by
        simp only [Short] at hold ⊢
        omega
      have hle' : pages (roundUp new_length).toInt ≤ pages old_length.toInt := by
        rw [hcount_old, hcount_new]
        exact Nat.div_le_div_right (by omega)
      have hwhole : (roundUp new_length).toNat % PageBytes = 0 := by
        rw [hround, Nat.mul_mod_left]
      have hpages := pages_roundUp hnew
      have hcount : pages (old_length - roundUp new_length).toInt =
          pages old_length.toInt - pages (roundUp new_length).toInt := by
        rw [hshort.pages.2.2, hsub, hcount_old, hcount_new]
        simp only [PageShift, PageBytes] at hwhole ⊢
        omega
      rw [add_eq_page hpages, hcount] at ht'
      exact movedCut_carried hapart (by omega) hle' ht (hne hle' le_rfl) ht'

end Mremap

end LiveProcess

end ModernArch.Sim
