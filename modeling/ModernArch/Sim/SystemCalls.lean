import ModernArch.Sim.Moves

/-!
# System calls that grow an address space

`brkFunc` and `mmapFunc` add zero pages.
-/

namespace ModernArch.Sim
open Framework Mem

namespace LiveProcess

variable {p p' : LiveProcess}

section Brk

variable {a new_brk : Addr}

/-- A byte stays, or it is zero and new, or zero and in a page of the region. -/
def Cleared (a new_brk : Addr) (s s' : Addr → Option UInt8) (x : Addr) : Prop :=
  s' x = s x ∨ s' x = some 0 ∧ (s x = none ∨ a ≤ x ∧ pageAlign x < new_brk)

theorem Cleared.trans {s s' s'' : Addr → Option UInt8} {b x : Addr} (hab : a ≤ b)
    (h : Cleared a new_brk s s' x) (h' : Cleared b new_brk s' s'' x) :
    Cleared a new_brk s s'' x := by
  rcases h' with hsame | ⟨hzero, hwhy⟩
  · rcases h with hsame' | ⟨hzero', hwhy'⟩
    · exact Or.inl (hsame.trans hsame')
    · exact Or.inr ⟨hsame.trans hzero', hwhy'⟩
  · rcases h with hsame' | ⟨-, hwhy'⟩
    · refine Or.inr ⟨hzero, ?_⟩
      rw [hsame'] at hwhy
      exact hwhy.imp_right fun hin => ⟨BitVec.le_trans hab hin.1, hin.2⟩
    · exact Or.inr ⟨hzero, hwhy'⟩

theorem Cleared.zero {s s' : Addr → Option UInt8} {x : Addr} (h : Cleared a new_brk s s' x)
    (hzero : s x = some 0) : s' x = some 0 := by
  rcases h with hsame | ⟨hzero', -⟩
  · rw [hsame, hzero]
  · exact hzero'

theorem Cleared.of_grows {s s' : Addr → Option UInt8} (h : Grows 0 s s') (x : Addr) :
    Cleared a new_brk s s' x :=
  (h x).imp_right fun hnew => ⟨hnew.2, Or.inl hnew.1⟩

/-- Zeros that were written to a page of the region. -/
theorem Cleared.of_zeros {s s' : Addr → Option UInt8} {b : Addr} {n : Nat} (hab : a ≤ b)
    (hfit : b.toNat % PageBytes + n ≤ PageBytes) (hb : n ≠ 0 → pageAlign b < new_brk)
    (hspares : Spares s b n s') (hzero : ∀ k < n, s' (byteAt b k) = some 0) (x : Addr) :
    Cleared a new_brk s s' x := by
  by_cases hx : ∃ k < n, x = byteAt b k
  · obtain ⟨k, hk, rfl⟩ := hx
    refine Or.inr ⟨hzero k hk, Or.inr ⟨?_, ?_⟩⟩
    · have hlt := b.isLt
      have hnat : (byteAt b k).toNat = b.toNat + k := by
        apply byteAt_toNat
        simp only [PageShift, PageBytes] at hfit
        omega
      rw [BitVec.le_def] at hab ⊢
      omega
    · rw [(byteAt_page (by omega)).1]
      exact hb (by omega)
  · refine (hspares x ?_).imp_right fun hnew => ⟨hnew.2, Or.inl hnew.1⟩
    rintro k hk rfl
    exact hx ⟨k, hk, rfl⟩

private theorem memsetBlob_zero {b : Addr} {n : Nat} (h : p.Sound) (hab : a ≤ b)
    (hfit : b.toNat % PageBytes + n ≤ PageBytes) (hb : n ≠ 0 → pageAlign b < new_brk)
    (hok : p.memsetBlob .NextPage b 0 n = .ok p') :
    Step p p' ∧ (∀ k < n, p'.view (byteAt b k) = some 0) ∧
      ∀ x, Cleared a new_brk p.view p'.view x := by
  have hn : n < 2 ^ 32 := by
    simp only [PageShift, PageBytes] at hfit
    omega
  obtain ⟨hs, hspares, hholds⟩ := memsetBlob_spec h hn hok
  have hzero (k : Nat) (hk : k < n) : p'.view (byteAt b k) = some 0 := by
    have hk' := hholds k (by rw [List.length_replicate]; exact hk)
    rwa [List.getElem_replicate] at hk'
  exact ⟨hs, hzero, Cleared.of_zeros hab hfit hb hspares hzero⟩

private theorem roundUp_nat {a : Addr} (h : a.toNat + PageBytes ≤ 2 ^ 64) :
    (roundUp a).toNat = (a.toNat + (PageBytes - 1)) / PageBytes * PageBytes := by
  have hsum : a + BitVec.ofNat 64 PageBytes - 1 = a + BitVec.ofNat 64 (PageBytes - 1) := by
    rw [BitVec.sub_eq_add_neg, BitVec.add_assoc]
    rfl
  have hround := and_not_low (a + BitVec.ofNat 64 PageBytes - 1) (show PageShift < 64 by decide)
  refine hround.trans ?_
  rw [hsum, BitVec.toNat_add, BitVec.toNat_ofNat]
  simp only [PageShift, PageBytes] at h ⊢
  omega

private theorem memsetBlob_nil (p : LiveProcess) (allocating : AllocType) (a : Addr) (val : UInt8) :
    p.memsetBlob allocating a val 0 = .ok p := by
  have htiles : Tiles PageBytes a 0 (chunks a 0 PageBytes) := chunks_tile (by decide) a (by decide)
  have hnil : chunks a 0 PageBytes = [] := by
    cases hl : chunks a 0 PageBytes with
    | nil => rfl
    | cons c l =>
        rw [hl] at htiles
        obtain ⟨-, hpos, hle, -⟩ := htiles
        omega
  rw [memsetBlob, tryMemsetBlob, hnil]
  rfl

/-- A page that is there is cleared from the address on. -/
theorem clearPage_spec {n : Nat} (h : p.Sound) (hplace : p.place a ≠ none)
    (hlast : new_brk.toNat + PageBytes ≤ 2 ^ 64) (hlt : a < new_brk)
    (hfit : a.toNat % PageBytes + n ≤ PageBytes) (hok : p.clearPage a new_brk = .ok p') :
    Step p p' ∧ (∀ k < n, p'.view (byteAt a k) = some 0) ∧
      ∀ x, Cleared a new_brk p.view p'.view x := by
  have hnat := BitVec.lt_def.mp hlt
  have hround := roundUp_nat (a := a) (by omega)
  have hle : a ≤ roundUp a := by
    rw [BitVec.le_def, hround]
    simp only [PageShift, PageBytes]
    omega
  have hsub : (roundUp a - a).toNat = (roundUp a).toNat - a.toNat := BitVec.toNat_sub_of_le hle
  have halign : pageAlign a < new_brk := by
    rw [BitVec.lt_def, pageAlign_toNat]
    omega
  rw [clearPage] at hok
  by_cases hoff : a.toNat % PageBytes = 0
  · have hnext : roundUp a = a := by
      apply BitVec.eq_of_toNat_eq
      rw [hround]
      simp only [PageShift, PageBytes] at hoff ⊢
      omega
    have hwide : a < a + BitVec.ofNat 64 PageBytes := by
      rw [BitVec.lt_def, BitVec.toNat_add, BitVec.toNat_ofNat]
      simp only [PageShift, PageBytes] at hlast ⊢
      omega
    have hsize : (roundUp a - a).toNat % 2 ^ 32 = 0 := by
      rw [hsub, hnext, Nat.sub_self, Nat.zero_mod]
    rw [hsize, hnext] at hok
    obtain ⟨q, hq, hok⟩ := bind_ok hok
    cases (memsetBlob_nil p .NextPage a 0).symm.trans hq
    rw [if_pos ⟨hwide, hlt⟩] at hok
    cases ht : p.translate a with
    | mk found q =>
        obtain ⟨-, hs, hview, -, hfound⟩ := translate_spec h ht
        rw [ht] at hok
        cases found with
        | none => exact absurd hfound.symm hplace
        | some pa =>
            obtain ⟨hs₁, hzero, hcleared⟩ := memsetBlob_zero hs.sound (BitVec.le_refl a)
              (by rw [hoff]; omega) (fun _ => halign) hok
            rw [hview] at hcleared
            exact ⟨hs.trans hs₁, fun k hk => hzero k (by omega), hcleared⟩
  · have hsize : (roundUp a - a).toNat % 2 ^ 32 = PageBytes - a.toNat % PageBytes := by
      rw [hsub, hround]
      simp only [PageShift, PageBytes] at hoff ⊢
      omega
    rw [hsize] at hok
    obtain ⟨q, hq, hok⟩ := bind_ok hok
    obtain ⟨hs, hzero, hcleared⟩ := memsetBlob_zero h (BitVec.le_refl a)
      (by simp only [PageShift, PageBytes]; omega) (fun _ => halign) hq
    have hzero (k : Nat) (hk : k < n) : q.view (byteAt a k) = some 0 := hzero k (by omega)
    by_cases hnext : roundUp a < a + BitVec.ofNat 64 PageBytes ∧ roundUp a < new_brk
    · rw [if_pos hnext] at hok
      cases ht : q.translate (roundUp a) with
      | mk found q' =>
          obtain ⟨-, hs₁, hview, -, -⟩ := translate_spec hs.sound ht
          rw [ht] at hok
          cases found with
          | none =>
              cases hok
              rw [hview]
              exact ⟨hs.trans hs₁, hzero, hcleared⟩
          | some pa =>
              have hfit' : (roundUp a).toNat % PageBytes +
                  (PageBytes - (PageBytes - a.toNat % PageBytes)) ≤ PageBytes := by
                rw [hround, Nat.mul_mod_left]
                omega
              have halign' : pageAlign (roundUp a) = roundUp a := by
                apply pageAlign_of_aligned
                rw [pageOffset_eq_zero, hround, Nat.mul_mod_left]
              obtain ⟨hs₂, -, hcleared'⟩ := memsetBlob_zero hs₁.sound hle hfit'
                (fun _ => halign'.symm ▸ hnext.2) hok
              rw [hview] at hcleared'
              exact ⟨(hs.trans hs₁).trans hs₂, fun k hk => (hcleared' _).zero (hzero k hk),
                fun x => (hcleared x).trans (BitVec.le_refl a) (hcleared' x)⟩
    · rw [if_neg hnext] at hok
      cases hok
      exact ⟨hs, hzero, hcleared⟩

/-- No address of the region is in a range of a device. -/
def OffDevices (s : System) (a new_brk : Addr) : Prop :=
  ∀ x, a ≤ x → x < new_brk → ¬(s.hasVdev ∧ s.isVAddrOfVdev (pageAlign x))

theorem OffDevices.step (hs : Step p p') {b : Addr} (hab : a ≤ b)
    (h : OffDevices p.system a new_brk) : OffDevices p'.system b new_brk := by
  obtain ⟨ptr, hsys⟩ := hs.system
  rw [hsys]
  exact fun x hx => h x (BitVec.le_trans hab hx)

private theorem extendPage_spec {n : Nat} (h : p.Sound) (hlt : a < new_brk)
    (hfit : a.toNat % PageBytes + n ≤ PageBytes) (hlast : new_brk.toNat + PageBytes ≤ 2 ^ 64)
    (hok : p.extendPage a new_brk = .ok p') :
    Step p p' ∧ (OffDevices p.system a new_brk → ∀ k < n, p'.view (byteAt a k) = some 0) ∧
      ∀ x, Cleared a new_brk p.view p'.view x := by
  rw [extendPage] at hok
  cases ht : p.translate a with
  | mk found q =>
      obtain ⟨-, hs, hview, hplace, hfound⟩ := translate_spec h ht
      rw [ht] at hok
      cases found with
      | none =>
          obtain ⟨hs₁, hgrow⟩ := allocatePage_grows hs.sound hok
          rw [hview] at hgrow
          refine ⟨hs.trans hs₁, ?_, Cleared.of_grows hgrow⟩
          intro hdev k hk
          have hoff := hdev.step hs (BitVec.le_refl a) a (BitVec.le_refl a) hlt
          refine allocateMem_zero hs.sound (by decide) (by decide) hoff hok Nat.one_pos ?_
          rw [page_zero]
          exact (byteAt_page (by omega)).1
      | some pa =>
          have hthere : q.place a ≠ none := by
            rw [hplace, ← hfound]
            exact Option.some_ne_none _
          obtain ⟨hs₁, hzero, hcleared⟩ := clearPage_spec hs.sound hthere hlast hlt hfit hok
          rw [hview] at hcleared
          exact ⟨hs.trans hs₁, fun _ => hzero, hcleared⟩

private theorem extendBrk_spec {n : Nat} {l : List (Addr × Nat)} (h : p.Sound)
    (htiles : Tiles PageBytes a n l) (hend : a.toNat + n ≤ new_brk.toNat)
    (hlast : new_brk.toNat + PageBytes ≤ 2 ^ 64) (hok : p.extendBrk new_brk l = .ok p') :
    Step p p' ∧ (OffDevices p.system a new_brk → ∀ k < n, p'.view (byteAt a k) = some 0) ∧
      ∀ x, Cleared a new_brk p.view p'.view x := by
  induction l generalizing p a n with
  | nil =>
      cases hok
      cases htiles
      exact ⟨Step.refl h, fun _ k hk => by omega, fun x => Or.inl rfl⟩
  | cons c l ih =>
      obtain ⟨b, i⟩ := c
      obtain ⟨rfl, hpos, hle, hfit, -, hrest⟩ := htiles
      have hlt : b < new_brk := by
        rw [BitVec.lt_def]
        omega
      have hnext : (byteAt b i).toNat = b.toNat + i := by
        apply byteAt_toNat
        simp only [PageShift, PageBytes] at hlast
        omega
      have hbi : b ≤ byteAt b i := by
        rw [BitVec.le_def, hnext]
        omega
      obtain ⟨q, hq, hok⟩ := bind_ok hok
      obtain ⟨hs, hzero, hcleared⟩ := extendPage_spec h hlt hfit hlast hq
      have hend' : (byteAt b i).toNat + (n - i) ≤ new_brk.toNat := by omega
      obtain ⟨hs₁, hzero₁, hcleared₁⟩ := ih hs.sound hrest hend' hok
      refine ⟨hs.trans hs₁, ?_, fun x => (hcleared x).trans hbi (hcleared₁ x)⟩
      intro hdev k hk
      by_cases hki : k < i
      · exact (hcleared₁ _).zero (hzero hdev k hki)
      · have hk' := hzero₁ (hdev.step hs hbi) (k - i) (by omega)
        change p'.view (byteAt (byteAt b i) (k - i)) = some 0 at hk'
        rwa [byteAt_byteAt, Nat.add_sub_cancel' (Nat.not_lt.mp hki)] at hk'

/-- A byte that is not in the pages of the region stays. -/
theorem brkFunc_cleared {r : Addr} (h : p.Sound) (hgrow : p.brk_point < new_brk)
    (hlast : new_brk.toNat + PageBytes ≤ 2 ^ 64) (hok : p.brkFunc new_brk = .ok (r, p')) :
    r = new_brk ∧ p'.brk_point = new_brk ∧ Step p p' ∧
      (new_brk.toNat - p.brk_point.toNat < 2 ^ 32 → OffDevices p.system p.brk_point new_brk →
        ∀ x, p.brk_point ≤ x → x < new_brk → p'.view x = some 0) ∧
      ∀ x, Cleared p.brk_point new_brk p.view p'.view x := by
  have hne : new_brk ≠ 0 := by
    rintro rfl
    exact Nat.not_lt_zero _ hgrow
  have hsub : (new_brk - p.brk_point).toNat = new_brk.toNat - p.brk_point.toNat :=
    BitVec.toNat_sub_of_le (Nat.le_of_lt hgrow)
  rw [brkFunc, if_neg hne, if_pos hgrow] at hok
  obtain ⟨q, hq, hok⟩ := bind_ok hok
  cases hok
  rw [hsub] at hq
  have hmod := Nat.mod_le (new_brk.toNat - p.brk_point.toNat) (2 ^ 32)
  rw [BitVec.lt_def] at hgrow
  obtain ⟨hs, hzero, hcleared⟩ :=
    extendBrk_spec h (chunks_tile (by decide) _ (Nat.mod_lt _ (by decide))) (by omega) hlast hq
  obtain ⟨hs₁, hview⟩ := Step.of_same { q with brk_point := new_brk } hs.sound rfl rfl rfl rfl
  rw [hview]
  refine ⟨rfl, rfl, hs.trans hs₁, ?_, hcleared⟩
  intro hsize hdev x hx hlt
  have hbyte := hzero hdev (x - p.brk_point).toNat (by
    rw [BitVec.toNat_sub_of_le hx, Nat.mod_eq_of_lt hsize]
    have hxnat := BitVec.lt_def.mp hlt
    have hxle := BitVec.le_def.mp hx
    omega)
  rwa [byteAt_sub_cancel] at hbyte

private theorem clearPage_step (h : p.Sound) (hok : p.clearPage a new_brk = .ok p') :
    Step p p' := by
  rw [clearPage] at hok
  obtain ⟨q, hq, hok⟩ := bind_ok hok
  have hs := (memsetBlob_spec h (Nat.mod_lt _ (by decide)) hq).1
  have hsize : PageBytes - (roundUp a - a).toNat % 2 ^ 32 < 2 ^ 32 :=
    (Nat.sub_le _ _).trans_lt (by decide)
  split_ifs at hok with hnext
  · cases ht : q.translate (roundUp a) with
    | mk found q' =>
        obtain ⟨-, hs₁, -⟩ := translate_spec hs.sound ht
        rw [ht] at hok
        cases found with
        | none =>
            cases hok
            exact hs.trans hs₁
        | some pa => exact (hs.trans hs₁).trans (memsetBlob_spec hs₁.sound hsize hok).1
  · cases hok
    exact hs

private theorem extendBrk_step {l : List (Addr × Nat)} (h : p.Sound)
    (hok : p.extendBrk new_brk l = .ok p') : Step p p' := by
  induction l generalizing p with
  | nil =>
      cases hok
      exact Step.refl h
  | cons c l ih =>
      obtain ⟨q, hq, hok⟩ := bind_ok hok
      have hs : Step p q := by
        rw [extendPage] at hq
        cases ht : p.translate c.1 with
        | mk found q₀ =>
            obtain ⟨-, hs, -⟩ := translate_spec h ht
            rw [ht] at hq
            cases found with
            | none => exact hs.trans (allocatePage_grows hs.sound hq).1
            | some pa => exact hs.trans (clearPage_step hs.sound hq)
      exact hs.trans (ih hs.sound hok)

theorem brkFunc_step {r : Addr} (h : p.Sound) (hok : p.brkFunc new_brk = .ok (r, p')) :
    Step p p' := by
  rw [brkFunc] at hok
  split_ifs at hok with hzero hgrow
  · cases hok
    exact Step.refl h
  · obtain ⟨q, hq, hok⟩ := bind_ok hok
    cases hok
    have hs := extendBrk_step h hq
    have hs₁ := Step.of_same { q with brk_point := new_brk } hs.sound rfl rfl rfl rfl
    exact hs.trans hs₁.1
  · cases hok
    exact (Step.of_same { p with brk_point := new_brk } h rfl rfl rfl rfl).1

theorem brkFunc_keeps {r x : Addr} {v : UInt8} (h : p.Sound)
    (hok : p.brkFunc new_brk = .ok (r, p')) (hx : p.brk_point < new_brk →
      new_brk.toNat + PageBytes ≤ 2 ^ 64 ∧ ¬(p.brk_point ≤ x ∧ pageAlign x < new_brk))
    (hv : p.view x = some v) : p'.view x = some v := by
  by_cases hgrow : p.brk_point < new_brk
  · obtain ⟨hlast, hout⟩ := hx hgrow
    obtain ⟨-, -, -, -, hcleared⟩ := brkFunc_cleared h hgrow hlast hok
    rcases hcleared x with hsame | ⟨-, hnone | hin⟩
    · rw [hsame, hv]
    · rw [hv] at hnone
      cases hnone
    · exact absurd hin hout
  · rw [brkFunc, if_neg hgrow] at hok
    split_ifs at hok
    · cases hok
      exact hv
    · cases hok
      rw [(Step.of_same { p with brk_point := new_brk } h rfl rfl rfl rfl).2, hv]

end Brk

section Mmap

variable {start length offset a : Addr} {anonymous fixed isOpen : Bool}

/-- A mapping is made by `allocateMem`, wherever it is. -/
theorem mmapFunc_cases {r : MmapReturn}
    (hok : p.mmapFunc start length anonymous fixed isOpen offset = .ok (r, p')) :
    (r = .EBADF ∨ r = .EINVAL) ∧ p' = p ∨ ∃ a mmap_end, r = .value a ∧
      ({ p with mmap_end := mmap_end } : LiveProcess).allocateMem a (roundUp length).toInt false =
        .ok p' := by
  simp only [mmapFunc] at hok
  split_ifs at hok with hfile halign huse hfree hdown
  · cases hok
    exact Or.inl ⟨Or.inl rfl, rfl⟩
  · cases hok
    exact Or.inl ⟨Or.inr rfl, rfl⟩
  · cases hok
    exact Or.inl ⟨Or.inr rfl, rfl⟩
  · obtain ⟨q, hq, hok⟩ := bind_ok hok
    cases hok
    exact Or.inr ⟨start, p.mmap_end, rfl, hq⟩
  · obtain ⟨q, hq, hok⟩ := bind_ok hok
    cases hok
    exact Or.inr ⟨_, _, rfl, hq⟩
  · obtain ⟨q, hq, hok⟩ := bind_ok hok
    cases hok
    exact Or.inr ⟨_, _, rfl, hq⟩

theorem mmapFunc_grows {r : MmapReturn} (h : p.Sound) (hlength : Short length)
    (hok : p.mmapFunc start length anonymous fixed isOpen offset = .ok (r, p')) :
    Step p p' ∧ Grows 0 p.view p'.view := by
  rcases mmapFunc_cases hok with ⟨-, rfl⟩ | ⟨a, mmap_end, -, hq⟩
  · exact ⟨Step.refl h, Grows.refl _⟩
  · obtain ⟨hsize, hn, -⟩ := hlength.roundUp.pages
    obtain ⟨hs, hview⟩ := Step.of_same { p with mmap_end := mmap_end } h rfl rfl rfl rfl
    obtain ⟨hs₁, hgrow⟩ := allocateMem_grows hs.sound hsize hn hq
    rw [hview] at hgrow
    exact ⟨hs.trans hs₁, hgrow⟩

/-- The mapping is of zero pages where there were none, and nothing else changes. -/
theorem mmapFunc_spec (h : p.Sound) (hlength : Short length)
    (hdev : ¬(p.system.hasVdev ∧ p.system.isVAddrOfVdev a))
    (hok : p.mmapFunc start length anonymous fixed isOpen offset =
      .ok (.value a, p')) :
    Step p p' ∧ pageOffset a = 0 ∧ (∀ x, ∀ i < pages (roundUp length).toInt,
      pageAlign x = page a i → p.view x = none ∧ p'.view x = some 0) ∧
      ∀ x, (∀ i < pages (roundUp length).toInt, pageAlign x ≠ page a i) → p'.view x = p.view x := by
  rcases mmapFunc_cases hok with ⟨hr, -⟩ | ⟨b, mmap_end, hr, hq⟩
  · simp at hr
  · cases hr
    obtain ⟨hsize, hn, -⟩ := hlength.roundUp.pages
    obtain ⟨hs, hview⟩ := Step.of_same { p with mmap_end := mmap_end } h rfl rfl rfl rfl
    obtain ⟨hs₁, hmem, hoff, hfree, hnew, hkeep⟩ := frames_of_memory hs.sound hsize hn hdev hq
    refine ⟨hs.trans hs₁, hoff, ?_, ?_⟩
    · intro x i hi hx
      obtain ⟨f, hf, hge⟩ := hnew i hi
      rw [← hx] at hf
      refine ⟨?_, view_of_fresh hs.sound hs₁ hmem hf hge⟩
      exact view_of_unmapped (hx ▸ hfree rfl i hi)
    · intro x hx
      rw [← hview]
      exact view_of_frame hmem (hkeep _ hx)

end Mmap

end LiveProcess

end ModernArch.Sim
