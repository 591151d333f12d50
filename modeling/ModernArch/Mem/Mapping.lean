import ModernArch.Mem.Lookup

/-!
# Mapped pages

What the loop of `map` leaves in the table.
-/

namespace ModernArch.Mem
open Framework FuncPageTable

theorem page_inj {vaddr : Addr} {i j : Nat} (hi : i < 2 ^ 52) (hj : j < 2 ^ 52)
    (h : page vaddr i = page vaddr j) : i = j := by
  have hnat := congrArg BitVec.toNat h
  simp only [page, PageBytes, PageShift, BitVec.toNat_add, BitVec.toNat_ofNat] at hnat
  omega

theorem pages_lt {size : Int} {i : Nat} (h : i < pages size) : i * PageBytes < size.toNat := by
  simp only [pages, PageBytes, PageShift] at h ⊢
  omega

theorem pageStart_new (asn vaddr paddr : Addr) (uncacheable read_only : Bool) :
    (TlbEntry.new asn vaddr paddr uncacheable read_only).pageStart = pageAlign paddr := by
  have hle : pageOffset paddr ≤ paddr := by
    rw [BitVec.le_def, pageOffset_toNat]
    exact Nat.mod_le _ _
  apply BitVec.eq_of_toNat_eq
  rw [pageAlign_eq, BitVec.toNat_sub_of_le hle, pageOffset_toNat]
  simp only [TlbEntry.new, TlbEntry.pageStart, PageShift, PageBytes, BitVec.toNat_shiftLeft,
    BitVec.toNat_ushiftRight, Nat.shiftLeft_eq, Nat.shiftRight_eq_div_pow]
  omega

/-- The offset in the page is kept under the page it is translated to. -/
theorem pageAlign_add (a : Addr) {start : Addr} (h : pageOffset start = 0) :
    pageAlign (pageOffset a + start) = start := by
  have hoff : pageOffset (pageOffset a + start) = pageOffset a := by
    rw [pageOffset_eq_zero] at h
    apply BitVec.eq_of_toNat_eq
    rw [pageOffset_toNat, BitVec.toNat_add, pageOffset_toNat]
    simp only [PageShift, PageBytes] at h ⊢
    omega
  rw [pageAlign_eq, hoff, BitVec.add_comm, BitVec.add_sub_cancel]

theorem pageOffset_pageAlign (a : Addr) : pageOffset (pageAlign a) = 0 := by
  have hle : pageOffset a ≤ a := by
    rw [BitVec.le_def, pageOffset_toNat]
    exact Nat.mod_le _ _
  rw [pageOffset_eq_zero, pageAlign_eq, BitVec.toNat_sub_of_le hle, pageOffset_toNat]
  exact Nat.sub_mod_eq_zero_of_mod_eq (Nat.mod_mod _ _).symm

/-- `entry` is what the loop of `map` puts on a page. -/
def MapsTo (t : FuncPageTable) (flags : BitVec 64) (n : Nat) (vaddr paddr v : Addr)
    (entry : TlbEntry) : Prop :=
  ∃ i < n, v = page vaddr i ∧
    entry = .new t.pid v (page paddr i) (flags &&& Uncacheable != 0) (flags &&& ReadOnly != 0)

theorem mapPages_spec {t t' : FuncPageTable} {n : Nat} {vaddr paddr : Addr} {flags : BitVec 64}
    (h : t.mapPages flags n vaddr paddr = .ok t') :
    t'.pid = t.pid ∧ (∀ i < n, t'.pTable (page vaddr i) ≠ none) ∧
      (∀ v, (∀ i < n, v ≠ page vaddr i) → t'.pTable v = t.pTable v) ∧
      ∀ v entry, t'.pTable v = some entry → t.pTable v = some entry ∨
        MapsTo t flags n vaddr paddr v entry := by
  induction n generalizing t vaddr paddr with
  | zero =>
      cases h
      exact ⟨rfl, by omega, fun _ _ => rfl, fun _ _ he => Or.inl he⟩
  | succ n ih =>
      obtain ⟨t₁, hpage, hrest⟩ := bind_ok h
      obtain ⟨hpid, hmapped, hframe, hentry⟩ := ih hrest
      cases (check_bind hpage).2
      refine ⟨hpid, ?_, ?_, ?_⟩
      · intro i hi
        cases i with
        | zero =>
            rw [page_zero]
            by_cases hlater : ∃ k < n, vaddr = page (page vaddr 1) k
            · obtain ⟨k, hk, hv⟩ := hlater
              rw [hv]
              exact hmapped k hk
            · rw [hframe vaddr fun k hk hv => hlater ⟨k, hk, hv⟩]
              simp
        | succ i =>
            rw [← page_succ]
            exact hmapped i (Nat.lt_of_succ_lt_succ hi)
      · intro v hv
        have hlater : ∀ i < n, v ≠ page (page vaddr 1) i := by
          intro i hi
          rw [page_succ]
          exact hv (i + 1) (Nat.succ_lt_succ hi)
        have hne : v ≠ vaddr := by
          have hfirst := hv 0 (Nat.succ_pos n)
          rwa [page_zero] at hfirst
        rw [hframe v hlater]
        exact Function.update_of_ne hne _ _
      · intro v entry he
        rcases hentry v entry he with hold | ⟨i, hi, hv, hnew⟩
        · by_cases hne : v = vaddr
          · subst hne
            dsimp only at hold
            rw [Function.update_self] at hold
            cases hold
            refine Or.inr ⟨0, Nat.succ_pos n, (page_zero v).symm, ?_⟩
            rw [page_zero]
          · exact Or.inl ((Function.update_of_ne hne _ _).symm.trans hold)
        · refine Or.inr ⟨i + 1, Nat.succ_lt_succ hi, hv.trans (page_succ vaddr i), ?_⟩
          rw [← page_succ]
          exact hnew

theorem mapPages_ok {t : FuncPageTable} {n : Nat} {vaddr paddr : Addr} {flags : BitVec 64}
    (hn : n ≤ 2 ^ 52) (h : ∀ i < n, t.pTable (page vaddr i) = none) :
    ∃ t', t.mapPages flags n vaddr paddr = .ok t' := by
  induction n generalizing t vaddr paddr with
  | zero => exact ⟨t, rfl⟩
  | succ n ih =>
      have hfirst : t.pTable vaddr = none := by
        have h₀ := h 0 (Nat.succ_pos n)
        rwa [page_zero] at h₀
      rw [mapPages, mapPage, check, if_pos (Or.inr hfirst)]
      apply ih (Nat.le_of_succ_le hn)
      intro i hi
      have hne : page (page vaddr 1) i ≠ vaddr := by
        rw [page_succ]
        intro heq
        have hzero := page_inj (by omega) (by decide) (heq.trans (page_zero vaddr).symm)
        omega
      dsimp only
      rw [Function.update_of_ne hne, page_succ]
      exact h (i + 1) (Nat.succ_lt_succ hi)

/-- Without `Clobber` the pages were unmapped. -/
theorem mapPages_free {t t' : FuncPageTable} {n : Nat} {vaddr paddr : Addr}
    (h : t.mapPages 0 n vaddr paddr = .ok t') : ∀ i < n, t.pTable (page vaddr i) = none := by
  induction n generalizing t vaddr paddr with
  | zero => omega
  | succ n ih =>
      obtain ⟨t₁, hpage, hrest⟩ := bind_ok h
      obtain ⟨hcheck, hok⟩ := check_bind hpage
      have hfirst : t.pTable vaddr = none := hcheck.resolve_left (by decide)
      cases hok
      intro i hi
      cases i with
      | zero =>
          rw [page_zero]
          exact hfirst
      | succ i =>
          have hlater := ih hrest i (Nat.lt_of_succ_lt_succ hi)
          rw [page_succ] at hlater
          by_cases heq : page vaddr (i + 1) = vaddr
          · rw [heq]
            exact hfirst
          · exact (Function.update_of_ne heq _ _).symm.trans hlater

/-- Where the loop puts a page that was unmapped. -/
theorem mapPages_translate {t t' : FuncPageTable} {flags : BitVec 64} {n i : Nat}
    {vaddr paddr : Addr} (ht : t.Coherent) (halign : pageOffset vaddr = 0) (hn : n ≤ 2 ^ 52)
    (h : t.mapPages flags n vaddr paddr = .ok t') (hi : i < n)
    (hfree : t.pTable (page vaddr i) = none) :
    (t'.translate (page vaddr i)).1 = some (pageAlign (page paddr i)) := by
  obtain ⟨-, hmapped, -, hentry⟩ := mapPages_spec h
  obtain ⟨entry, he⟩ := Option.ne_none_iff_exists'.mp (hmapped i hi)
  have hnew : MapsTo t flags n vaddr paddr (page vaddr i) entry := by
    apply (hentry _ entry he).resolve_left
    rw [hfree]
    simp
  obtain ⟨j, hj, hpage, rfl⟩ := hnew
  obtain rfl := page_inj (by omega) (by omega) hpage
  have hoff := pageOffset_page halign i
  have hlookup := transparent_of_agrees (mapPages_coherent ht h) (page vaddr i)
  rw [pageAlign_of_aligned hoff, he] at hlookup
  have htrans : (t'.translate (page vaddr i)).1 =
      (t'.lookup (page vaddr i)).1.map fun e => pageOffset (page vaddr i) + e.pageStart := rfl
  rw [htrans, hlookup, hoff, Option.map_some, pageStart_new, BitVec.ofNat_eq_ofNat, BitVec.zero_add]

end ModernArch.Mem
