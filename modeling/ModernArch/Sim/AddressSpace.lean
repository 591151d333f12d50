import ModernArch.Sim.Frames

/-!
# Functional accesses to an address space

A blob is written to its own bytes and read back from them; on the way there only zero bytes are
added to the space.
-/

namespace ModernArch.Sim
open Framework Mem

/-- But for `n` bytes from `a`, a space only gets new bytes, which are zero. -/
def Spares (s : Addr → Option UInt8) (a : Addr) (n : Nat) (s' : Addr → Option UInt8) : Prop :=
  ∀ x, (∀ k < n, x ≠ byteAt a k) → s' x = s x ∨ s x = none ∧ s' x = some 0

/-- The bytes from `a` are `bytes`. -/
def Holds (s : Addr → Option UInt8) (a : Addr) (bytes : List UInt8) : Prop :=
  ∀ k (hk : k < bytes.length), s (byteAt a k) = some bytes[k]

private theorem byteAt_inj {a : Addr} {i j : Nat} (hi : i < 2 ^ 64) (hj : j < 2 ^ 64)
    (h : byteAt a i = byteAt a j) : i = j := by
  have hsub := congrArg (fun x => (x - a).toNat) h
  simp only [byteAt_sub, BitVec.toNat_ofNat, Nat.mod_eq_of_lt hi, Nat.mod_eq_of_lt hj] at hsub
  exact hsub

section Spaces

variable {s s' s'' : Addr → Option UInt8} {a : Addr} {bytes rest : List UInt8} {n m : Nat}

theorem Spares.of_grows (h : Grows 0 s s') : Spares s a n s' := fun x _ => h x

private theorem Spares.grows_left (h : Grows 0 s s') (h' : Spares s' a n s'') : Spares s a n s'' :=
  fun x hx => Grows.at_trans (h x) (h' x hx)

private theorem Spares.append (h : Spares s a n s') (h' : Spares s' (byteAt a n) m s'') :
    Spares s a (n + m) s'' := by
  intro x hx
  refine Grows.at_trans (h x fun k hk => hx k (by omega)) (h' x ?_)
  intro j hj heq
  rw [byteAt_byteAt] at heq
  exact hx _ (by omega) heq

theorem Spares.keeps (h : Spares s a n s') {x : Addr} (hx : ∀ k < n, x ≠ byteAt a k) {v : UInt8}
    (hv : s x = some v) : s' x = some v := by
  rcases h x hx with hsame | ⟨hnone, -⟩
  · rw [hsame, hv]
  · rw [hv] at hnone
    cases hnone

theorem Holds.nil (s : Addr → Option UInt8) (a : Addr) : Holds s a [] :=
  fun _ hk => absurd hk (Nat.not_lt_zero _)

private theorem Holds.append (hlen : bytes.length + m ≤ 2 ^ 64) (h : Holds s a bytes)
    (hspares : Spares s (byteAt a bytes.length) m s')
    (h' : Holds s' (byteAt a bytes.length) rest) : Holds s' a (bytes ++ rest) := by
  intro k hk
  rw [List.length_append] at hk
  by_cases hlt : k < bytes.length
  · rw [List.getElem_append_left hlt]
    refine hspares.keeps ?_ (h k hlt)
    intro j hj heq
    rw [byteAt_byteAt] at heq
    have hkj := byteAt_inj (by omega) (by omega) heq
    omega
  · obtain ⟨j, rfl⟩ : ∃ j, k = bytes.length + j := ⟨k - bytes.length, by omega⟩
    rw [← byteAt_byteAt, List.getElem_append_right (Nat.le_add_right _ _), h' j (by omega)]
    simp

end Spaces

namespace LiveProcess

variable {p p' : LiveProcess}

theorem allocatePage_grows (h : p.Sound) {vaddr : Addr}
    (hok : p.allocateMem vaddr PageBytes false = .ok p') :
    Step p p' ∧ Grows 0 p.view p'.view :=
  allocateMem_grows h (by decide) (by decide) hok

private theorem growStack_grows {vaddr : Addr} {fuel : Nat} (h : p.Sound)
    (hok : growStack vaddr fuel p = .ok p') : Step p p' ∧ Grows 0 p.view p'.view := by
  induction fuel generalizing p with
  | zero => cases hok
  | succ fuel ih =>
      rw [growStack] at hok
      by_cases hlt : vaddr < p.stack_min
      · rw [if_pos hlt] at hok
        obtain ⟨q, hq, hrest⟩ := bind_ok (check_bind hok).2
        obtain ⟨hs, hview⟩ := Step.of_same
          { p with stack_min := p.stack_min - BitVec.ofNat 64 PageBytes } h rfl rfl rfl rfl
        obtain ⟨hs₁, hgrow₁⟩ := allocatePage_grows hs.sound hq
        obtain ⟨hs₂, hgrow₂⟩ := ih hs₁.sound hrest
        rw [hview] at hgrow₁
        exact ⟨(hs.trans hs₁).trans hs₂, hgrow₁.trans hgrow₂⟩
      · rw [if_neg hlt] at hok
        cases hok
        exact ⟨Step.refl h, Grows.refl _⟩

theorem fixupStackFault_grows {vaddr : Addr} {fixed : Bool} (h : p.Sound)
    (hok : p.fixupStackFault vaddr = .ok (fixed, p')) : Step p p' ∧ Grows 0 p.view p'.view := by
  rw [fixupStackFault] at hok
  split_ifs at hok with hon hnext
  · obtain ⟨q, hq, hok⟩ := bind_ok hok
    cases hok
    exact allocatePage_grows h hq
  · obtain ⟨q, hq, hok⟩ := bind_ok hok
    cases hok
    exact growStack_grows h hq
  · cases hok
    exact ⟨Step.refl h, Grows.refl _⟩

private theorem translateAgain_spec {a : Addr} {r : Option Addr} (h : p.Sound)
    (hok : p.translateAgain a = .ok (r, p')) :
    Step p p' ∧ p'.view = p.view ∧ r = p'.place a := by
  rw [translateAgain] at hok
  cases ht : p.translate a with
  | mk found q =>
      obtain ⟨-, hs, hview, hplace, hfound⟩ := translate_spec h ht
      rw [ht] at hok
      cases found with
      | none => cases hok
      | some pa =>
          cases hok
          exact ⟨hs, hview, hplace ▸ hfound⟩

private theorem writeAddr_spec {allocating : AllocType} {a : Addr} {r : Option Addr} (h : p.Sound)
    (hok : p.writeAddr allocating a = .ok (r, p')) :
    Step p p' ∧ Grows 0 p.view p'.view ∧ r = p'.place a := by
  rw [writeAddr] at hok
  cases ht : p.translate a with
  | mk found q =>
      obtain ⟨-, hs, hview, hplace, hfound⟩ := translate_spec h ht
      rw [ht] at hok
      cases found with
      | some pa =>
          cases hok
          exact ⟨hs, hview ▸ Grows.refl _, hplace ▸ hfound⟩
      | none =>
          cases allocating with
          | Always =>
              obtain ⟨q₁, hq₁, hok⟩ := bind_ok hok
              obtain ⟨hs₁, hgrow⟩ := allocatePage_grows hs.sound hq₁
              obtain ⟨hs₂, hview₂, hr⟩ := translateAgain_spec hs₁.sound hok
              rw [hview, ← hview₂] at hgrow
              exact ⟨(hs.trans hs₁).trans hs₂, hgrow, hr⟩
          | NextPage =>
              obtain ⟨⟨fixed, q₁⟩, hq₁, hok⟩ := bind_ok hok
              obtain ⟨hs₁, hgrow⟩ := fixupStackFault_grows hs.sound hq₁
              obtain ⟨hs₂, hview₂, hr⟩ := translateAgain_spec hs₁.sound (check_bind hok).2
              rw [hview, ← hview₂] at hgrow
              exact ⟨(hs.trans hs₁).trans hs₂, hgrow, hr⟩
          | Never =>
              cases hok
              exact ⟨hs, hview ▸ Grows.refl _, hplace ▸ hfound⟩

/-- One turn of the loops that write. -/
theorem writeChunk_spec {allocating : AllocType} {a pa : Addr} {q : LiveProcess}
    {bytes : List UInt8} {m : Ram} (h : p.Sound)
    (haddr : p.writeAddr allocating a = .ok (some pa, q)) (hpos : 0 < bytes.length)
    (hfit : a.toNat % PageBytes + bytes.length ≤ PageBytes)
    (hok : q.port.writeBlob q.physmem pa bytes = .ok m) :
    Step p { q with physmem := m } ∧
      Spares p.view a bytes.length ({ q with physmem := m } : LiveProcess).view ∧
      Holds ({ q with physmem := m } : LiveProcess).view a bytes := by
  obtain ⟨hs, hgrow, hplace⟩ := writeAddr_spec h haddr
  obtain ⟨hs₁, hwritten, hother⟩ := writeBlob_spec hs.sound hplace.symm hpos hfit hok
  exact ⟨hs.trans hs₁, .grows_left hgrow fun x hx => Or.inl (hother x hx), hwritten⟩

private theorem writeChunks_spec {allocating : AllocType} {a : Addr} {bytes : List UInt8}
    {l : List (Addr × Nat)} {done : Bool} (h : p.Sound) (htiles : Tiles PageBytes a bytes.length l)
    (hlen : bytes.length < 2 ^ 32) (hok : p.writeChunks allocating bytes l = .ok (done, p')) :
    Step p p' ∧ Spares p.view a bytes.length p'.view ∧ (done = true → Holds p'.view a bytes) := by
  induction l generalizing p a bytes with
  | nil =>
      cases hok
      rw [List.eq_nil_of_length_eq_zero htiles]
      exact ⟨Step.refl h, .of_grows (Grows.refl _), fun _ => Holds.nil _ _⟩
  | cons c l ih =>
      obtain ⟨b, n⟩ := c
      obtain ⟨rfl, hpos, hle, hfit, -, hrest⟩ := htiles
      obtain ⟨⟨r, q⟩, haddr, hok⟩ := bind_ok hok
      cases r with
      | none =>
          cases hok
          obtain ⟨hs, hgrow, -⟩ := writeAddr_spec h haddr
          exact ⟨hs, .of_grows hgrow, fun hdone => absurd hdone (by decide)⟩
      | some pa =>
          obtain ⟨m, hm, hok⟩ := bind_ok hok
          have htake : (bytes.take n).length = n := List.length_take_of_le hle
          have hdrop : (bytes.drop n).length = bytes.length - n := List.length_drop
          obtain ⟨hs, hspares, hholds⟩ := writeChunk_spec h haddr (by rw [htake]; exact hpos)
            (by rw [htake]; exact hfit) hm
          rw [← hdrop] at hrest
          obtain ⟨hs₁, hspares₁, hholds₁⟩ := ih hs.sound hrest (by omega) hok
          dsimp only at hspares hholds
          rw [htake] at hspares
          refine ⟨hs.trans hs₁, ?_, fun hdone => ?_⟩
          · have hall := hspares.append hspares₁
            rwa [hdrop, Nat.add_sub_cancel' hle] at hall
          · have hnext : Spares ({ q with physmem := m } : LiveProcess).view
                (byteAt b (bytes.take n).length) (bytes.drop n).length p'.view := by
              rw [htake]
              exact hspares₁
            have hall := hholds.append (by rw [htake]; omega) hnext
              (by rw [htake]; exact hholds₁ hdone)
            rwa [List.take_append_drop] at hall

theorem tryWriteBlob_spec {allocating : AllocType} {a : Addr} {bytes : List UInt8} {done : Bool}
    (h : p.Sound) (hlen : bytes.length < 2 ^ 32)
    (hok : p.tryWriteBlob allocating a bytes = .ok (done, p')) :
    Step p p' ∧ Spares p.view a bytes.length p'.view ∧ (done = true → Holds p'.view a bytes) :=
  writeChunks_spec h (chunks_tile (by decide) a hlen) hlen hok

private theorem memsetChunks_spec {allocating : AllocType} {a : Addr} {val : UInt8} {n : Nat}
    {l : List (Addr × Nat)} {done : Bool} (h : p.Sound) (htiles : Tiles PageBytes a n l)
    (hlen : n < 2 ^ 32) (hok : p.memsetChunks allocating val l = .ok (done, p')) :
    Step p p' ∧ Spares p.view a n p'.view ∧
      (done = true → Holds p'.view a (List.replicate n val)) := by
  induction l generalizing p a n with
  | nil =>
      cases hok
      cases htiles
      exact ⟨Step.refl h, .of_grows (Grows.refl _), fun _ => Holds.nil _ _⟩
  | cons c l ih =>
      obtain ⟨b, i⟩ := c
      obtain ⟨rfl, hpos, hle, hfit, -, hrest⟩ := htiles
      obtain ⟨⟨r, q⟩, haddr, hok⟩ := bind_ok hok
      cases r with
      | none =>
          cases hok
          obtain ⟨hs, hgrow, -⟩ := writeAddr_spec h haddr
          exact ⟨hs, .of_grows hgrow, fun hdone => absurd hdone (by decide)⟩
      | some pa =>
          obtain ⟨m, hm, hok⟩ := bind_ok hok
          have hlength : (List.replicate i val).length = i := List.length_replicate
          obtain ⟨hs, hspares, hholds⟩ := writeChunk_spec h haddr (by rw [hlength]; exact hpos)
            (by rw [hlength]; exact hfit) hm
          obtain ⟨hs₁, hspares₁, hholds₁⟩ := ih hs.sound hrest (by omega) hok
          rw [hlength] at hspares
          refine ⟨hs.trans hs₁, ?_, fun hdone => ?_⟩
          · have hall := hspares.append hspares₁
            rwa [Nat.add_sub_cancel' hle] at hall
          · have hnext : Spares ({ q with physmem := m } : LiveProcess).view
                (byteAt b (List.replicate i val).length) (n - i) p'.view := by
              rw [hlength]
              exact hspares₁
            have hall := hholds.append (by rw [hlength]; omega) hnext
              (by rw [hlength]; exact hholds₁ hdone)
            rwa [List.replicate_append_replicate, Nat.add_sub_cancel' hle] at hall

theorem tryMemsetBlob_spec {allocating : AllocType} {a : Addr} {val : UInt8} {n : Nat}
    {done : Bool} (h : p.Sound) (hlen : n < 2 ^ 32)
    (hok : p.tryMemsetBlob allocating a val n = .ok (done, p')) :
    Step p p' ∧ Spares p.view a n p'.view ∧
      (done = true → Holds p'.view a (List.replicate n val)) :=
  memsetChunks_spec h (chunks_tile (by decide) a hlen) hlen hok

theorem memsetBlob_spec {allocating : AllocType} {a : Addr} {val : UInt8} {n : Nat}
    (h : p.Sound) (hlen : n < 2 ^ 32) (hok : p.memsetBlob allocating a val n = .ok p') :
    Step p p' ∧ Spares p.view a n p'.view ∧ Holds p'.view a (List.replicate n val) := by
  obtain ⟨⟨done, q⟩, hq, hok⟩ := bind_ok hok
  obtain ⟨hdone, hok⟩ := check_bind hok
  cases hok
  obtain ⟨hs, hspares, hholds⟩ := tryMemsetBlob_spec h hlen hq
  exact ⟨hs, hspares, hholds hdone⟩

/-! ## Reads -/

private theorem place_of_view {a : Addr} (h : (p.view a).isSome) :
    ∃ pa, p.phys a = some pa ∧ p.place a = some pa := by
  obtain ⟨v, hv⟩ := Option.isSome_iff_exists.mp h
  obtain ⟨pa, hphys, -⟩ := Option.map_eq_some_iff.mp hv
  obtain ⟨f, hf, hpa⟩ := Option.map_eq_some_iff.mp hphys
  obtain ⟨e, he, rfl, -⟩ := frame_eq_some.mp hf
  exact ⟨pa, hphys, by rw [place, he, Option.map_some, hpa]⟩

theorem readChunks_spec {a : Addr} {n : Nat} {l : List (Addr × Nat)} {acc : List UInt8}
    {r : Option (List UInt8)} (h : p.Sound) (htiles : Tiles PageBytes a n l)
    (hok : p.readChunks acc l = .ok (r, p')) :
    Step p p' ∧ p'.view = p.view ∧ ∀ bytes, r = some bytes →
      bytes.map some = acc.map some ++ (List.range n).map fun k => p.view (byteAt a k) := by
  induction l generalizing p a n acc with
  | nil =>
      cases hok
      cases htiles
      refine ⟨Step.refl h, rfl, ?_⟩
      rintro bytes ⟨⟩
      simp
  | cons c l ih =>
      obtain ⟨b, i⟩ := c
      obtain ⟨rfl, hpos, hle, hfit, -, hrest⟩ := htiles
      rw [readChunks] at hok
      cases ht : p.translate b with
      | mk found q =>
          obtain ⟨⟨t, rfl⟩, hs, hview, hplace, hfound⟩ := translate_spec h ht
          dsimp only at hok
          rw [ht] at hok
          cases found with
          | none =>
              cases hok
              exact ⟨hs, hview, by simp⟩
          | some pa =>
              obtain ⟨bytes, hbytes, hok⟩ := bind_ok hok
              have hread := readBlob_spec h hfound.symm hpos hfit hbytes
              obtain ⟨hs₁, hview₁, hr⟩ := ih hs.sound hrest hok
              refine ⟨hs.trans hs₁, hview₁.trans hview, fun all hall => ?_⟩
              have hsplit : List.range n = List.range (i + (n - i)) := by
                rw [Nat.add_sub_cancel' hle]
              rw [hr all hall, hview, List.map_append, List.append_assoc, ← hread, hsplit,
                List.range_add, List.map_append, List.map_map]
              congr 2
              apply List.map_congr_left
              intro k _
              exact congrArg p.view (byteAt_byteAt b i k)

private theorem readBlob_read {a : Addr} {n : Nat} {bytes : List UInt8} (h : p.Sound)
    (hn : n < 2 ^ 32) (hok : p.readBlob a n = .ok (bytes, p')) : Step p p' ∧ p'.view = p.view ∧
      bytes.map some = (List.range n).map fun k => p.view (byteAt a k) := by
  obtain ⟨⟨r, q⟩, hq, hok⟩ := bind_ok hok
  obtain ⟨hs, hview, hr⟩ := readChunks_spec h (chunks_tile (by decide) a hn) hq
  cases r with
  | none => cases hok
  | some all =>
      cases hok
      exact ⟨hs, hview, hr _ rfl⟩

/-- Bytes of one page that the process has are read. -/
theorem readPacket_ok {a pa : Addr} {n : Nat} (h : p.Sound) (hphys : p.phys a = some pa)
    (hfit : a.toNat % PageBytes + n ≤ PageBytes) :
    ∃ bytes, p.port.readBlob p.physmem pa n = .ok bytes := by
  obtain ⟨c, hc, hline⟩ := h.line
  have hinside := h.page_inside hphys
  have hin : pa.toNat + n ≤ p.port.totalSize.toNat := by
    change _ ≤ p.system.totalSize.toNat
    simp only [PageShift, PageBytes] at hinside hfit
    omega
  refine ⟨_, PortProxy.readBlob_eq hc hline ?_ hin⟩
  simp only [PageShift, PageBytes] at hfit
  omega

private theorem readChunks_ok {a : Addr} {n : Nat} {l : List (Addr × Nat)} {acc : List UInt8}
    (h : p.Sound) (htiles : Tiles PageBytes a n l)
    (hmapped : ∀ k < n, (p.view (byteAt a k)).isSome) :
    ∃ bytes q, p.readChunks acc l = .ok (some bytes, q) := by
  induction l generalizing p a n acc with
  | nil => exact ⟨acc, p, rfl⟩
  | cons c l ih =>
      obtain ⟨b, i⟩ := c
      obtain ⟨rfl, hpos, hle, hfit, -, hrest⟩ := htiles
      have hfirst := hmapped 0 (by omega)
      rw [byteAt_zero] at hfirst
      obtain ⟨pa, hphys, hplace⟩ := place_of_view hfirst
      obtain ⟨bytes, hbytes⟩ := readPacket_ok h hphys hfit
      rw [readChunks]
      cases ht : p.translate b with
      | mk found q =>
          obtain ⟨⟨t, rfl⟩, hs, hview, -, rfl⟩ := translate_spec h ht
          have hbytes' : ({ p with pTable := t } : LiveProcess).port.readBlob p.physmem pa i =
              .ok bytes := hbytes
          simp only [hplace, hbytes', bind, Except.bind]
          refine ih hs.sound hrest fun k hk => ?_
          have hk' := hmapped (i + k) (by omega)
          rw [← byteAt_byteAt] at hk'
          rw [hview]
          exact hk'

private theorem readBlob_ok {a : Addr} {n : Nat} (h : p.Sound) (hn : n < 2 ^ 32)
    (hmapped : ∀ k < n, (p.view (byteAt a k)).isSome) :
    ∃ bytes q, p.readBlob a n = .ok (bytes, q) := by
  obtain ⟨bytes, q, hq⟩ : ∃ bytes q, p.tryReadBlob a n = .ok (some bytes, q) :=
    readChunks_ok h (chunks_tile (by decide) a hn) hmapped
  refine ⟨bytes, q, ?_⟩
  simp only [readBlob, hq, bind, Except.bind]
  rfl

/-- The bytes that were written are read. -/
theorem readBlob_of_view {a : Addr} {bytes : List UInt8} (h : p.Sound)
    (hlen : bytes.length < 2 ^ 32) (hview : Holds p.view a bytes) :
    ∃ q, p.readBlob a bytes.length = .ok (bytes, q) ∧ Step p q ∧ q.view = p.view := by
  obtain ⟨all, q, hok⟩ := readBlob_ok h hlen fun k hk => by rw [hview k hk]; rfl
  obtain ⟨hs, hsame, hall⟩ := readBlob_read h hlen hok
  have hbytes : all = bytes := by
    apply List.map_injective_iff.mpr (Option.some_injective _)
    rw [hall]
    apply List.ext_getElem
    · simp
    · intro k hk hk'
      simp only [List.getElem_map, List.getElem_range]
      exact hview k _
  exact ⟨q, hbytes ▸ hok, hs, hsame⟩

/-- A read gives what the process sees. -/
theorem readBlob_iff {a : Addr} {n : Nat} {bytes : List UInt8} (h : p.Sound) (hn : n < 2 ^ 32) :
    (∃ q, p.readBlob a n = .ok (bytes, q)) ↔
      bytes.map some = (List.range n).map fun k => p.view (byteAt a k) := by
  constructor
  · rintro ⟨q, hok⟩
    exact (readBlob_read h hn hok).2.2
  · intro hbytes
    have hlen : bytes.length = n := by simpa using congrArg List.length hbytes
    have hholds : Holds p.view a bytes := by
      intro k hk
      have hk' := congrArg (fun l => l[k]?) hbytes
      simp only [List.getElem?_map, List.getElem?_range (hlen ▸ hk), List.getElem?_eq_getElem hk,
        Option.map_some, Option.some.injEq] at hk'
      exact hk'.symm
    obtain ⟨q, hok, -⟩ := readBlob_of_view h (hlen ▸ hn) hholds
    exact ⟨q, hlen ▸ hok⟩

private theorem writeByte_spec {a : Addr} {c : UInt8} {done : Bool} (h : p.Sound)
    (hok : tryWriteString.writeByte p a c = .ok (done, p')) :
    Step p p' ∧ Spares p.view a 1 p'.view ∧ (done = true → Holds p'.view a [c]) := by
  rw [tryWriteString.writeByte] at hok
  cases ht : p.translate a with
  | mk found q =>
      obtain ⟨-, hs, hview, hplace, hfound⟩ := translate_spec h ht
      rw [ht] at hok
      cases found with
      | none =>
          cases hok
          exact ⟨hs, .of_grows (hview ▸ Grows.refl _), fun hdone => absurd hdone (by decide)⟩
      | some pa =>
          obtain ⟨m, hm, hok⟩ := bind_ok hok
          cases hok
          have hfit : a.toNat % PageBytes + [c].length ≤ PageBytes := Nat.mod_lt _ (by decide)
          obtain ⟨hs₁, hwritten, hother⟩ :=
            writeBlob_spec hs.sound (hplace ▸ hfound.symm) (by simp) hfit hm
          rw [hview] at hother
          exact ⟨hs.trans hs₁, fun x hx => Or.inl (hother x hx), fun _ => hwritten⟩

theorem tryWriteString_spec {a : Addr} {str : List UInt8} {done : Bool} (h : p.Sound)
    (hlen : str.length < 2 ^ 64) (hok : p.tryWriteString a str = .ok (done, p')) :
    Step p p' ∧ Spares p.view a (str.length + 1) p'.view ∧
      (done = true → Holds p'.view a (str ++ [0])) := by
  induction str generalizing p a with
  | nil => exact writeByte_spec h hok
  | cons c str ih =>
      obtain ⟨⟨written, q⟩, hq, hok⟩ := bind_ok hok
      obtain ⟨hs, hspares, hholds⟩ := writeByte_spec h hq
      rw [List.length_cons] at hlen ⊢
      cases written with
      | false =>
          cases hok
          exact ⟨hs, fun x hx => hspares x fun k hk => hx k (by omega),
            fun hdone => absurd hdone (by decide)⟩
      | true =>
          obtain ⟨hs₁, hspares₁, hholds₁⟩ := ih hs.sound (by omega) hok
          refine ⟨hs.trans hs₁, ?_, fun hdone => ?_⟩
          · have hall := hspares.append hspares₁
            rwa [Nat.add_comm] at hall
          · have hlen' : [c].length + (str.length + 1) ≤ 2 ^ 64 := by
              rw [List.length_singleton]
              omega
            have hall := (hholds rfl).append hlen' hspares₁ (hholds₁ hdone)
            exact hall

/-- A string that ends in a zero byte is read up to it. -/
theorem tryReadString_of_view {a : Addr} {str : List UInt8} {fuel : Nat} (h : p.Sound)
    (hzero : 0 ∉ str) (hfuel : str.length < fuel) (hview : Holds p.view a (str ++ [0]))
    (acc : List UInt8) : ∃ q, tryReadString acc fuel p a = .ok (some (acc ++ str), q) ∧ Step p q ∧ q.view = p.view := by
  induction fuel generalizing p a str acc with
  | zero => omega
  | succ fuel ih =>
      have hfirst := hview 0 (by simp)
      rw [byteAt_zero] at hfirst
      obtain ⟨pa, hphys, hplace⟩ := place_of_view (Option.isSome_iff_exists.mpr ⟨_, hfirst⟩)
      have hfit : a.toNat % PageBytes + 1 ≤ PageBytes := Nat.mod_lt _ (by decide)
      obtain ⟨bytes, hbytes⟩ := readPacket_ok h hphys hfit
      have hread := readBlob_spec h hplace Nat.one_pos hfit hbytes
      rw [List.range_one, List.map_singleton, byteAt_zero, hfirst] at hread
      obtain ⟨c, rfl⟩ : ∃ c, bytes = [c] := by
        apply List.length_eq_one_iff.mp
        simpa using (congrArg List.length hread).symm
      rw [tryReadString]
      cases ht : p.translate a with
      | mk found q =>
          obtain ⟨⟨t, rfl⟩, hs, hsame, -, rfl⟩ := translate_spec h ht
          have hbytes' : ({ p with pTable := t } : LiveProcess).port.readBlob p.physmem pa 1 =
              .ok [c] := hbytes
          simp only [hplace, hbytes', bind, Except.bind]
          cases str with
          | nil =>
              obtain rfl : c = 0 := by simpa using hread.symm
              rw [if_pos rfl, List.append_nil]
              exact ⟨_, rfl, hs, hsame⟩
          | cons d str =>
              obtain rfl : c = d := by simpa using hread.symm
              have hne : c ≠ 0 := fun hc => hzero (hc ▸ List.mem_cons_self)
              rw [if_neg hne]
              have hrest (k : Nat) (hk : k < (str ++ [0]).length) :
                  ({ p with pTable := t } : LiveProcess).view (byteAt (a + 1) k) =
                    some (str ++ [0])[k] := by
                have hk' := hview (k + 1) (by simpa using hk)
                rw [hsame]
                rw [show byteAt a (k + 1) = byteAt (a + 1) k from
                  (Nat.add_comm k 1 ▸ byteAt_byteAt a 1 k).symm] at hk'
                exact hk'
              have hread := ih hs.sound (fun hmem => hzero (List.mem_cons_of_mem _ hmem))
                (Nat.lt_of_succ_lt_succ hfuel) hrest
              obtain ⟨q, hq, hs₁, hview₁⟩ := hread (acc ++ [c])
              rw [List.append_assoc] at hq
              exact ⟨q, hq, hs.trans hs₁, hview₁.trans hsame⟩

theorem tryReadString_step {a : Addr} {acc : List UInt8} {fuel : Nat} {r : Option (List UInt8)}
    (h : p.Sound) (hok : tryReadString acc fuel p a = .ok (r, p')) :
    Step p p' ∧ p'.view = p.view := by
  induction fuel generalizing p a acc with
  | zero => cases hok
  | succ fuel ih =>
      rw [tryReadString] at hok
      cases ht : p.translate a with
      | mk found q =>
          obtain ⟨-, hs, hview, -, -⟩ := translate_spec h ht
          rw [ht] at hok
          cases found with
          | none =>
              cases hok
              exact ⟨hs, hview⟩
          | some pa =>
              obtain ⟨bytes, -, hok⟩ := bind_ok hok
              split at hok
              · split_ifs at hok with hc
                · cases hok
                  exact ⟨hs, hview⟩
                · obtain ⟨hs₁, hview₁⟩ := ih hs.sound hok
                  exact ⟨hs.trans hs₁, hview₁.trans hview⟩
              · cases hok

end LiveProcess

end ModernArch.Sim
