import ModernArch.Framework.Slots
import ModernArch.Framework.Transition
import ModernArch.Mem.PageTable

/-!
# The cache of the page table

A search that goes through the cache finds what the table alone has, as long as no moved page
leaves a slot of the page it replaces behind.
-/

namespace ModernArch.Mem
open Framework FuncPageTable

theorem check_bind {α : Type} {p : Prop} [Decidable p] {f : Failure}
    {g : Unit → Except Failure α} {a : α} (h : (check p f >>= g) = .ok a) : p ∧ g () = .ok a := by
  by_cases hp : p
  · exact ⟨hp, by simpa [check, hp, bind, Except.bind] using h⟩
  · simp [check, hp, bind, Except.bind] at h

@[simp] theorem page_zero (vaddr : Addr) : page vaddr 0 = vaddr := by simp [page]

theorem page_page (vaddr : Addr) (i j : Nat) : page (page vaddr i) j = page vaddr (i + j) := by
  simp only [page, Nat.add_mul, BitVec.ofNat_add, BitVec.add_assoc]

theorem page_succ (vaddr : Addr) (i : Nat) : page (page vaddr 1) i = page vaddr (i + 1) := by
  rw [page_page, Nat.add_comm]

theorem pageOffset_toNat (a : Addr) : (pageOffset a).toNat = a.toNat % PageBytes := by
  simp only [pageOffset, PageBytes, PageShift, BitVec.toNat_and, BitVec.toNat_ofNat]
  exact Nat.and_two_pow_sub_one_eq_mod a.toNat 12

theorem pageOffset_eq_zero {a : Addr} : pageOffset a = 0 ↔ a.toNat % PageBytes = 0 := by
  rw [← pageOffset_toNat, ← BitVec.toNat_inj]
  rfl

theorem pageOffset_page {vaddr : Addr} (h : pageOffset vaddr = 0) (i : Nat) :
    pageOffset (page vaddr i) = 0 := by
  rw [pageOffset_eq_zero] at h ⊢
  simp only [page, PageBytes, PageShift, BitVec.toNat_add, BitVec.toNat_ofNat] at h ⊢
  omega

theorem pageAlign_eq (a : Addr) : pageAlign a = a - pageOffset a := by
  have hdisjoint : pageAlign a &&& pageOffset a = 0 := by
    ext i hi
    simp only [pageAlign, pageOffset, BitVec.getElem_and, BitVec.getElem_not, BitVec.ofNat_eq_ofNat,
      BitVec.getElem_zero]
    cases a[i] <;> cases (BitVec.ofNat 64 (PageBytes - 1))[i] <;> rfl
  have hunion : pageAlign a ||| pageOffset a = a := by
    ext i hi
    simp only [pageAlign, pageOffset, BitVec.getElem_or, BitVec.getElem_and, BitVec.getElem_not]
    cases a[i] <;> cases (BitVec.ofNat 64 (PageBytes - 1))[i] <;> rfl
  have hsum : pageAlign a + pageOffset a = a :=
    (BitVec.add_eq_or_of_and_eq_zero _ _ hdisjoint).trans hunion
  exact (BitVec.eq_sub_iff_add_eq.mpr hsum)

theorem pageAlign_of_aligned {a : Addr} (h : pageOffset a = 0) : pageAlign a = a := by
  rw [pageAlign_eq, h, BitVec.ofNat_eq_ofNat, BitVec.sub_zero]

private theorem page_ne {vaddr : Addr} {i : Nat} (h : 0 < i) (hi : i ≤ 2) :
    page vaddr i ≠ vaddr := by
  intro heq
  have hnat := congrArg BitVec.toNat heq
  simp only [page, PageBytes, PageShift, BitVec.toNat_add, BitVec.toNat_ofNat] at hnat
  omega

namespace CacheElement

def slot (e : CacheElement) : Option (Addr × TlbEntry) :=
  if e.valid then some (e.vaddr, e.entry) else none

private theorem slot_invalid (e : CacheElement) :
    ({ e with valid := false } : CacheElement).slot = none :=
  rfl

variable {e : CacheElement} {vaddr : Addr} {l : List (Option (Addr × TlbEntry))}

private theorem clear_hit (h : e.valid ∧ e.vaddr = vaddr) :
    clearSlot vaddr (e.slot :: l) = none :: l := by
  rw [slot, if_pos h.1, clearSlot, if_pos h.2]

private theorem clear_miss (h : ¬(e.valid ∧ e.vaddr = vaddr)) :
    clearSlot vaddr (e.slot :: l) = e.slot :: clearSlot vaddr l := by
  by_cases hv : e.valid
  · rw [slot, if_pos hv, clearSlot, if_neg fun ha => h ⟨hv, ha⟩]
  · rw [slot, if_neg hv, clearSlot]

private theorem find_hit (h : e.valid ∧ e.vaddr = vaddr) :
    findSlot vaddr (e.slot :: l) = some e.entry := by
  rw [slot, if_pos h.1, findSlot, if_pos h.2]

private theorem find_miss (h : ¬(e.valid ∧ e.vaddr = vaddr)) :
    findSlot vaddr (e.slot :: l) = findSlot vaddr l := by
  by_cases hv : e.valid
  · rw [slot, if_pos hv, findSlot, if_neg fun ha => h ⟨hv, ha⟩]
  · rw [slot, if_neg hv, findSlot]

end CacheElement

namespace PTableCache
open CacheElement

def slots (c : PTableCache) : List (Option (Addr × TlbEntry)) := [c.c0.slot, c.c1.slot, c.c2.slot]

private theorem slots_updateCache (c : PTableCache) (vaddr : Addr) (entry : TlbEntry) :
    (c.updateCache vaddr entry).slots = (some (vaddr, entry) :: c.slots).take 3 := rfl

private theorem slots_eraseCacheEntry (c : PTableCache) (vaddr : Addr) :
    (c.eraseCacheEntry vaddr).slots = clearSlot vaddr c.slots := by
  by_cases h0 : c.c0.valid ∧ c.c0.vaddr = vaddr
  · rw [eraseCacheEntry, if_pos h0, slots, slots, clear_hit h0, slot_invalid]
  · by_cases h1 : c.c1.valid ∧ c.c1.vaddr = vaddr
    · rw [eraseCacheEntry, if_neg h0, if_pos h1, slots, slots, clear_miss h0, clear_hit h1,
        slot_invalid]
    · by_cases h2 : c.c2.valid ∧ c.c2.vaddr = vaddr
      · rw [eraseCacheEntry, if_neg h0, if_neg h1, if_pos h2, slots, slots, clear_miss h0,
          clear_miss h1, clear_hit h2, slot_invalid]
      · rw [eraseCacheEntry, if_neg h0, if_neg h1, if_neg h2, slots, clear_miss h0, clear_miss h1,
          clear_miss h2, clearSlot]

private theorem find_eq (c : PTableCache) (vaddr : Addr) :
    c.find vaddr = findSlot vaddr c.slots := by
  by_cases h0 : c.c0.valid ∧ c.c0.vaddr = vaddr
  · rw [find, if_pos h0, slots, find_hit h0]
  · by_cases h1 : c.c1.valid ∧ c.c1.vaddr = vaddr
    · rw [find, if_neg h0, if_pos h1, slots, find_miss h0, find_hit h1]
    · by_cases h2 : c.c2.valid ∧ c.c2.vaddr = vaddr
      · rw [find, if_neg h0, if_neg h1, if_pos h2, slots, find_miss h0, find_miss h1, find_hit h2]
      · rw [find, if_neg h0, if_neg h1, if_neg h2, slots, find_miss h0, find_miss h1, find_miss h2,
          findSlot]

end PTableCache

namespace FuncPageTable

def slots (t : FuncPageTable) : List (Option (Addr × TlbEntry)) := t.pTableCache.slots

/-- `lookup` gives what a search of `pTable` alone gives. -/
def Transparent (t : FuncPageTable) : Prop :=
  ∀ vaddr, (t.lookup vaddr).1 = t.pTable (pageAlign vaddr)

private theorem lookup_eq (t : FuncPageTable) (vaddr : Addr) :
    (t.lookup vaddr).1 = (findSlot (pageAlign vaddr) t.slots).or (t.pTable (pageAlign vaddr)) := by
  rw [lookup, PTableCache.find_eq, slots]
  cases findSlot (pageAlign vaddr) t.pTableCache.slots with
  | some entry => rfl
  | none => cases t.pTable (pageAlign vaddr) <;> rfl

theorem transparent_of_agrees {t : FuncPageTable} (h : Agrees t.pTable t.slots) :
    t.Transparent := by
  intro vaddr
  rw [lookup_eq]
  exact h.find _

private theorem not_transparent_of_stale {t : FuncPageTable} {vaddr : Addr}
    (h : Stale t.pTable vaddr t.slots) (halign : pageOffset vaddr = 0)
    (hnone : t.pTable vaddr = none) : ¬ t.Transparent := by
  intro ht
  have heq := ht vaddr
  rw [lookup_eq, pageAlign_of_aligned halign] at heq
  exact h.find hnone heq

variable {t t' : FuncPageTable}

abbrev Coherent (t : FuncPageTable) : Prop := Agrees t.pTable t.slots

private theorem slots_push (t : FuncPageTable) (vaddr new_vaddr : Addr) (entry : TlbEntry) :
    ((t.pTableCache.eraseCacheEntry vaddr).updateCache new_vaddr entry).slots =
      (some (new_vaddr, entry) :: clearSlot vaddr t.slots).take 3 := by
  rw [PTableCache.slots_updateCache, PTableCache.slots_eraseCacheEntry]
  rfl

private theorem mapPage_coherent {vaddr paddr : Addr} {flags : BitVec 64} (h : t.Coherent)
    (hmap : t.mapPage vaddr paddr flags = .ok t') : t'.Coherent := by
  cases (check_bind hmap).2
  rw [Coherent, slots, slots_push]
  have hpush := (h.clear vaddr).push (h.not_mem_clear vaddr)
    (TlbEntry.new t.pid vaddr paddr (flags &&& Uncacheable != 0) (flags &&& ReadOnly != 0))
  rw [Function.update_idem] at hpush
  exact hpush.take 3

theorem mapPages_coherent {n : Nat} {vaddr paddr : Addr} {flags : BitVec 64} (h : t.Coherent)
    (hmap : t.mapPages flags n vaddr paddr = .ok t') : t'.Coherent := by
  induction n generalizing t vaddr paddr with
  | zero =>
      cases hmap
      exact h
  | succ n ih =>
      obtain ⟨t₁, hpage, hrest⟩ := bind_ok hmap
      exact ih (mapPage_coherent h hpage) hrest

private theorem unmapPage_coherent {vaddr : Addr} (h : t.Coherent)
    (hunmap : t.unmapPage vaddr = .ok t') : t'.Coherent := by
  cases (check_bind hunmap).2
  rw [Coherent, slots, PTableCache.slots_eraseCacheEntry]
  exact h.clear vaddr

theorem unmapPages_coherent {n : Nat} {vaddr : Addr} (h : t.Coherent)
    (hunmap : t.unmapPages n vaddr = .ok t') : t'.Coherent := by
  induction n generalizing t vaddr with
  | zero =>
      cases hunmap
      exact h
  | succ n ih =>
      obtain ⟨t₁, hpage, hrest⟩ := bind_ok hunmap
      exact ih (unmapPage_coherent h hpage) hrest

theorem lookup_coherent (h : t.Coherent) (vaddr : Addr) : (t.lookup vaddr).2.Coherent := by
  rw [lookup, PTableCache.find_eq]
  cases hfind : findSlot (pageAlign vaddr) t.pTableCache.slots with
  | some entry => exact h
  | none =>
      cases hentry : t.pTable (pageAlign vaddr) with
      | none => exact h
      | some entry =>
          have hpush := h.push (findSlot_eq_none.mp hfind) entry
          rw [← hentry, Function.update_eq_self] at hpush
          rw [Coherent, slots, PTableCache.slots_updateCache]
          exact hpush.take 3

/-! ## Moved pages -/

/-- The pages that `n` moves go to have no slot among those that are left after them, unless they
are moved away before. -/
def MovesClear (l : List (Option (Addr × TlbEntry))) (n : Nat) (vaddr new_vaddr : Addr) : Prop :=
  ∀ i < n, page new_vaddr i ∈ slotKeys (l.take (3 - n)) →
    ∃ j ≤ i, page vaddr j = page new_vaddr i

private theorem remapPage_eq {vaddr new_vaddr : Addr} (h : t.remapPage vaddr new_vaddr = .ok t') :
    (t.pTable vaddr).isSome ∧ ∃ entry,
      t'.pTable = Function.update (Function.update t.pTable vaddr none) new_vaddr (some entry) ∧
      t'.slots = (some (new_vaddr, entry) :: clearSlot vaddr t.slots).take 3 := by
  obtain ⟨hmapped, hok⟩ := check_bind h
  cases hok
  refine ⟨Option.isSome_iff_ne_none.mpr hmapped, _, ?_, slots_push t _ _ _⟩
  by_cases hne : vaddr = new_vaddr
  · subst hne
    simp only [Function.update_idem]
  · rw [Function.update_comm hne, Function.update_idem]
    exact Function.update_comm (Ne.symm hne) _ _ _

/-- What one of `n + 1` moves does to the slots that the others leave. -/
theorem remapPage_slots {n : Nat} (hn : n ≤ 2) {vaddr new_vaddr : Addr} {entry : TlbEntry}
    (h : t'.slots = (some (new_vaddr, entry) :: clearSlot vaddr t.slots).take 3) :
    t'.slots.take (3 - n) =
      some (new_vaddr, entry) :: clearSlot vaddr (t.slots.take (3 - (n + 1))) := by
  obtain ⟨m, hm⟩ : ∃ m, 3 - n = m + 1 := ⟨2 - n, by omega⟩
  have hm' : 3 - (n + 1) = m := by omega
  rw [h, List.take_take, hm', hm, Nat.min_eq_left (by omega), List.take_succ_cons, clearSlot_take]

theorem remapPages_coherent {n : Nat} {vaddr new_vaddr : Addr}
    (h : Agrees t.pTable (t.slots.take (3 - n))) (hclear : MovesClear t.slots n vaddr new_vaddr)
    (hremap : t.remapPages n vaddr new_vaddr = .ok t') : t'.Coherent := by
  induction n generalizing t vaddr new_vaddr with
  | zero =>
      cases hremap
      exact h
  | succ n ih =>
      obtain ⟨t₁, hpage, hrest⟩ := bind_ok hremap
      obtain ⟨hmapped, entry, htable, hslots⟩ := remapPage_eq hpage
      by_cases hn : n ≤ 2
      · have htake := remapPage_slots hn hslots
        have hnot : new_vaddr ∉ slotKeys (clearSlot vaddr (t.slots.take (3 - (n + 1)))) := by
          intro hmem
          rw [slotKeys_clear, h.nodup.mem_erase_iff] at hmem
          obtain ⟨j, hj, heq⟩ := hclear 0 (Nat.succ_pos n) (by simpa using hmem.2)
          rw [Nat.le_zero.mp hj, page_zero, page_zero] at heq
          exact hmem.1 heq.symm
        apply ih _ _ hrest
        · rw [htable, htake]
          exact (h.clear vaddr).push hnot entry
        · intro i hi hmem
          rw [page_succ] at hmem ⊢
          rw [htake, slotKeys_some, slotKeys_clear, List.mem_cons, h.nodup.mem_erase_iff] at hmem
          rcases hmem with hmem | ⟨hne, hmem⟩
          · exact absurd hmem (page_ne (Nat.succ_pos i) (by omega))
          · obtain ⟨j, hj, heq⟩ := hclear (i + 1) (Nat.succ_lt_succ hi) hmem
            cases j with
            | zero => exact absurd (heq.symm.trans (page_zero vaddr)) hne
            | succ j =>
                refine ⟨j, Nat.le_of_succ_le_succ hj, ?_⟩
                rw [page_succ]
                exact heq
      · have hzero : 3 - n = 0 := by omega
        apply ih _ _ hrest
        · rw [hzero]
          exact Agrees.nil _
        · intro i _ hmem
          rw [hzero] at hmem
          simp [slotKeys] at hmem

/-- A stale slot that the other moves leave stays stale. -/
theorem remapPages_stale {n : Nat} {vaddr new_vaddr a : Addr}
    (h : Stale t.pTable a (t.slots.take (3 - n))) (hne : ∀ i < n, page new_vaddr i ≠ a)
    (hremap : t.remapPages n vaddr new_vaddr = .ok t') : Stale t'.pTable a t'.slots := by
  induction n generalizing t vaddr new_vaddr with
  | zero =>
      cases hremap
      exact h
  | succ n ih =>
      obtain ⟨t₁, hpage, hrest⟩ := bind_ok hremap
      obtain ⟨hmapped, entry, htable, hslots⟩ := remapPage_eq hpage
      have hn : n ≤ 2 := by
        by_contra hn
        have hzero : 3 - (n + 1) = 0 := by omega
        rw [hzero] at h
        simp only [Stale, slotKeys, List.take_zero, List.filterMap_nil, List.count_nil] at h
        split_ifs at h <;> omega
      have hnew : a ≠ new_vaddr := by
        have hfirst := hne 0 (Nat.succ_pos n)
        rw [page_zero] at hfirst
        exact Ne.symm hfirst
      apply ih _ _ hrest
      · rw [htable, remapPage_slots hn hslots]
        apply Stale.push_of_ne _ hnew
        by_cases ha : a = vaddr
        · subst ha
          exact h.clear hmapped
        · exact h.clear_of_ne ha none
      · intro i hi
        rw [page_succ]
        exact hne (i + 1) (Nat.succ_lt_succ hi)

private theorem remapPages_stale_of_move {n i : Nat} {vaddr new_vaddr : Addr} (hi : i < n)
    (hmem : page new_vaddr i ∈ slotKeys (t.slots.take (3 - n)))
    (hne : ∀ j ≤ i, page vaddr j ≠ page new_vaddr i)
    (hremap : t.remapPages n vaddr new_vaddr = .ok t') :
    Stale t'.pTable (page new_vaddr i) t'.slots := by
  induction n generalizing t vaddr new_vaddr i with
  | zero => omega
  | succ n ih =>
      obtain ⟨t₁, hpage, hrest⟩ := bind_ok hremap
      obtain ⟨hmapped, entry, htable, hslots⟩ := remapPage_eq hpage
      have hn : n ≤ 2 := by
        by_contra hn
        have hzero : 3 - (n + 1) = 0 := by omega
        rw [hzero] at hmem
        simp [slotKeys] at hmem
      have htake := remapPage_slots hn hslots
      have hfirst := hne 0 (Nat.zero_le i)
      rw [page_zero] at hfirst
      have hkept : page new_vaddr i ∈ slotKeys (clearSlot vaddr (t.slots.take (3 - (n + 1)))) := by
        rw [slotKeys_clear]
        exact (List.mem_erase_of_ne (Ne.symm hfirst)).mpr hmem
      cases i with
      | zero =>
          rw [page_zero] at hkept ⊢
          apply remapPages_stale _ _ hrest
          · rw [htable, htake]
            exact Stale.of_push hkept entry
          · intro k hk
            rw [page_succ]
            exact page_ne (Nat.succ_pos k) (by omega)
      | succ i =>
          rw [← page_succ]
          apply ih (Nat.lt_of_succ_lt_succ hi) _ _ hrest
          · rw [htake, slotKeys_some, page_succ]
            exact List.mem_cons_of_mem _ hkept
          · intro j hj
            rw [page_succ, page_succ]
            exact hne (j + 1) (Nat.succ_le_succ hj)

/-- A move of one or two pages leaves no slot of a page it replaces. -/
def Clear (t : FuncPageTable) : Call → Prop
  | .remap vaddr size new_vaddr => MovesClear t.slots (pages size) vaddr new_vaddr
  | _ => True

def ClearStep (t : FuncPageTable) (c : Call) (t' : FuncPageTable) : Prop :=
  t.Clear c ∧ t.call c = .ok t'

/-- Whatever clear calls follow, `lookup` finds what the table has. -/
def Safe (t : FuncPageTable) : Prop :=
  ∀ cs t', Run ClearStep t cs t' → t'.Transparent

private theorem call_coherent (h : t.Coherent) {c : Call} (hstep : ClearStep t c t') :
    t'.Coherent := by
  obtain ⟨hclear, hcall⟩ := hstep
  cases c with
  | map vaddr paddr size flags => exact mapPages_coherent h (check_bind hcall).2
  | remap vaddr size new_vaddr =>
      exact remapPages_coherent (h.take _) hclear (check_bind (check_bind hcall).2).2
  | unmap vaddr size => exact unmapPages_coherent h (check_bind hcall).2
  | lookup vaddr =>
      cases hcall
      exact lookup_coherent h vaddr

private theorem run_coherent (h : t.Coherent) {cs : List Call} (hrun : Run ClearStep t cs t') :
    t'.Coherent :=
  hrun.inv (fun _ t' => t'.Coherent) h fun _ _ _ _ ht hstep => call_coherent ht hstep

private theorem unserialize_coherent (pid : Addr) (entries : List (Addr × TlbEntry)) :
    (FuncPageTable.unserialize { pid := pid } entries).Coherent :=
  ⟨List.nodup_nil, by simp [slots, unserialize, PTableCache.slots, CacheElement.slot]⟩

private theorem not_safe_of_stale {a : Addr} (h : Stale t.pTable a t.slots)
    (halign : pageOffset a = 0) : ¬ t.Safe := by
  intro hsafe
  by_cases hmapped : t.pTable a = none
  · exact not_transparent_of_stale h halign hmapped (hsafe [] t .nil)
  · let u : FuncPageTable := { t with
      pTable := Function.update t.pTable a none
      pTableCache := t.pTableCache.eraseCacheEntry a }
    have hcall : t.call (.unmap a PageBytes) = .ok u := by
      rw [FuncPageTable.call, unmap, check, if_pos halign]
      change t.unmapPages 1 a = .ok u
      rw [unmapPages, unmapPage, check, if_pos hmapped]
      rfl
    have hstale : Stale u.pTable a u.slots := by
      have hslots : u.slots = clearSlot a t.slots := PTableCache.slots_eraseCacheEntry _ a
      rw [hslots]
      exact h.clear (Option.isSome_iff_ne_none.mpr hmapped)
    have hrun : Run ClearStep t [.unmap a PageBytes] u := Run.nil.snoc ⟨trivial, hcall⟩
    exact not_transparent_of_stale hstale halign (Function.update_self _ _ _) (hsafe _ u hrun)

/-- `lookup` is a search of the table after clear calls, and a call keeps it so exactly when it
is clear itself. -/
theorem lookup_transparent {pid : Addr} {entries : List (Addr × TlbEntry)} {cs : List Call}
    (h : Run ClearStep (FuncPageTable.unserialize { pid := pid } entries) cs t) :
    t.Transparent ∧ ∀ c t', t.call c = .ok t' → (t.Clear c ↔ t'.Safe) := by
  have ht := run_coherent (unserialize_coherent pid entries) h
  refine ⟨transparent_of_agrees ht, ?_⟩
  intro c t' hcall
  constructor
  · intro hclear cs' t'' hrun
    exact transparent_of_agrees (run_coherent (call_coherent ht ⟨hclear, hcall⟩) hrun)
  · intro hsafe
    cases c with
    | map vaddr paddr size flags => trivial
    | unmap vaddr size => trivial
    | lookup vaddr => trivial
    | remap vaddr size new_vaddr =>
        obtain ⟨hnew, hremap⟩ := check_bind (check_bind hcall).2
        intro i hi hmem
        by_contra hnone
        simp only [not_exists, not_and] at hnone
        have hstale := remapPages_stale_of_move hi hmem hnone hremap
        exact not_safe_of_stale hstale (pageOffset_page hnew i) hsafe

/-- Two pages are mapped, the first is moved and looked up, and the second is unmapped. -/
def movedCalls : List Call :=
  [.map 0x1000 0x8000 0x2000 0, .lookup 0x1004, .remap 0x1000 0x1000 0x5000, .lookup 0x5004,
    .unmap 0x2000 0x1000]

theorem lookup_transparent_moved :
    ∃ t, Run ClearStep (FuncPageTable.unserialize {} []) movedCalls t ∧
      (t.lookup 0x5004).1 = t.pTable 0x5000 ∧ (t.lookup 0x2004).1 = none ∧
      (t.lookup 0x1004).1 = none := by
  obtain ⟨t₁, t₂, t₃, t₄, t, h₁, h₂, hclear, h₃, h₄, h₅, hunmapped, hmoved⟩ :
      ∃ t₁ t₂ t₃ t₄ t, (FuncPageTable.unserialize {} []).call (.map 0x1000 0x8000 0x2000 0) =
          .ok t₁ ∧ t₁.call (.lookup 0x1004) = .ok t₂ ∧
        page 0x5000 0 ∉ slotKeys (t₂.slots.take (3 - pages 0x1000)) ∧
        t₂.call (.remap 0x1000 0x1000 0x5000) = .ok t₃ ∧ t₃.call (.lookup 0x5004) = .ok t₄ ∧
        t₄.call (.unmap 0x2000 0x1000) = .ok t ∧ t.pTable 0x2000 = none ∧ t.pTable 0x1000 = none :=
    ⟨_, _, _, _, _, rfl, rfl, by decide, rfl, rfl, rfl, rfl, rfl⟩
  have hrun : Run ClearStep (FuncPageTable.unserialize {} []) movedCalls t := by
    refine ((((Run.nil.snoc ⟨trivial, h₁⟩).snoc ⟨trivial, h₂⟩).snoc ⟨?_, h₃⟩).snoc
      ⟨trivial, h₄⟩).snoc ⟨trivial, h₅⟩
    intro i hi hmem
    obtain rfl : i = 0 := Nat.lt_one_iff.mp hi
    exact absurd hmem hclear
  have hlookup := (lookup_transparent hrun).1
  exact ⟨t, hrun, hlookup 0x5004, (hlookup 0x2004).trans hunmapped, (hlookup 0x1004).trans hmoved⟩

end FuncPageTable

end ModernArch.Mem
