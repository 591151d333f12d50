import ModernArch.Framework.Packing
import ModernArch.Vdev.Memory

/-!
# Views laid end to end

Views that follow each other in a buffer are apart, and blocks of their sizes sent to the buffer
one after another fill them.
-/

namespace ModernArch.Vdev
open Framework
set_option linter.unusedSectionVars false

variable {F N : Type} [Zero F] [FloatModel F] [DecidableEq N]

/-- The bytes of a view are a block. -/
structure Memory.Stores (m : Memory N) (h : Heap N F) (b : Block) : Prop where
  size : (b.size : Int) = m.byteLen
  byte : ∀ j < b.size, readByte h m.data j = b.byte j

/-- Views from a place on, each where the last one ends. -/
def Laid (base : Ptr N) : Nat → List (Memory N) → Prop
  | _, [] => True
  | d, m :: ms => (m.data = base.add d ∧ 0 ≤ m.wzyxLen) ∧ Laid base (d + m.wzyxLen.toNat) ms

instance decidableLaid (base : Ptr N) : (d : Nat) → (ms : List (Memory N)) →
    Decidable (Laid base d ms)
  | _, [] => .isTrue trivial
  | d, m :: ms => by
      have := decidableLaid base (d + m.wzyxLen.toNat) ms
      unfold Laid
      infer_instance

def totalLen (ms : List (Memory N)) : Nat := (ms.map fun m => m.wzyxLen.toNat).sum

namespace Laid

variable {base : Ptr N} {d : Nat} {ms : List (Memory N)}

private theorem within (h : Laid base d ms) : ∀ m ∈ ms, m.data.buf = base.buf ∧
    base.off + d ≤ m.data.off ∧ m.data.off + m.wzyxLen ≤ base.off + d + totalLen ms := by
  induction ms generalizing d with
  | nil => simp
  | cons m ms ih =>
      obtain ⟨⟨hdata, hlen⟩, hrest⟩ := h
      have htotal : totalLen (m :: ms) = m.wzyxLen.toNat + totalLen ms := by
        simp [totalLen]
      intro m' hm'
      rcases List.mem_cons.mp hm' with rfl | hm'
      · rw [hdata, htotal]
        refine ⟨rfl, le_rfl, ?_⟩
        simp only [Ptr.add_off]
        omega
      · obtain ⟨hbuf, hlow, hhigh⟩ := ih hrest m' hm'
        refine ⟨hbuf, ?_, ?_⟩ <;> omega

theorem subset (h : Laid base d ms) {whole : Memory N} (hdata : whole.data = base)
    (hlen : (d + totalLen ms : Nat) ≤ whole.wzyxLen) : ∀ m ∈ ms, m.region ⊆ whole.region := by
  intro m hm p hp
  obtain ⟨hbuf, hlow, hhigh⟩ := h.within m hm
  obtain ⟨hpbuf, hplow, hphigh⟩ := hp
  rw [Memory.region, hdata]
  refine ⟨hpbuf.trans hbuf, ?_, ?_⟩ <;> omega

theorem disjoint (h : Laid base d ms) :
    ms.Pairwise fun m m' => Disjoint m.region m'.region := by
  induction ms generalizing d with
  | nil => exact List.Pairwise.nil
  | cons m ms ih =>
      obtain ⟨⟨hdata, hlen⟩, hrest⟩ := h
      refine List.Pairwise.cons (fun m' hm' => ?_) (ih hrest)
      obtain ⟨-, hlow, -⟩ := hrest.within m' hm'
      have hoff : m.data.off = base.off + d := by rw [hdata, Ptr.add_off]
      rw [Set.disjoint_left]
      intro p hp hp'
      have hhigh := hp.2.2
      have hlow' := hp'.2.1
      omega

/-- Blocks of the sizes of the first views fill their words. -/
theorem words {view : N → Memory N} {sent : List (N × Block)} {rest : List (Memory N)}
    (hlaid : Laid base d ((sent.map fun p => view p.1) ++ rest)) {before : List Block}
    (hbefore : Block.total before = 4 * d)
    (hsize : ∀ p ∈ sent, (p.2.size : Int) = (view p.1).byteLen) (h : Heap N F) :
    ∀ p ∈ sent, ∀ i : Nat, 4 * i + 4 ≤ p.2.size →
      sendAll base h 0 (before ++ sent.map Prod.snd) ((view p.1).data.add i) =
        .bytes fun k => p.2.byte (4 * i + k) := by
  induction sent generalizing d before with
  | nil => simp
  | cons q sent ih =>
      obtain ⟨name, b⟩ := q
      obtain ⟨⟨hdata, hlen⟩, hrest⟩ := hlaid
      have hb := hsize (name, b) List.mem_cons_self
      have hbytes : b.size = 4 * (view name).wzyxLen.toNat := by
        simp only [Memory.byteLen] at hb hlen
        omega
      have htotal : Block.total (before ++ [b]) = 4 * (d + (view name).wzyxLen.toNat) := by
        simp only [Block.total_append, Block.total_cons, Block.total_nil]
        omega
      have htail := ih hrest htotal fun p hp => hsize p (List.mem_cons_of_mem _ hp)
      rw [List.append_assoc] at htail
      intro p hp
      rcases List.mem_cons.mp hp with rfl | hp
      · intro i hi
        simp only at hdata
        rw [hdata, Ptr.add_add, ← Nat.cast_add]
        exact sendAll_word base h before (sent.map Prod.snd) b hbefore hi
      · exact htail p hp

/-- Blocks of the sizes of the first views fill them. -/
theorem stores {view : N → Memory N} {sent : List (N × Block)} {rest : List (Memory N)}
    (hlaid : Laid base d ((sent.map fun p => view p.1) ++ rest)) {before : List Block}
    (hbefore : Block.total before = 4 * d)
    (hsize : ∀ p ∈ sent, (p.2.size : Int) = (view p.1).byteLen) (h : Heap N F) :
    ∀ p ∈ sent, (view p.1).Stores (sendAll base h 0 (before ++ sent.map Prod.snd)) p.2 := by
  intro p hp
  have hp' := hsize p hp
  refine ⟨hp', fun j hj => ?_⟩
  have hfit : 4 * (j / 4) + 4 ≤ p.2.size := by
    simp only [Memory.byteLen] at hp'
    omega
  have hword := hlaid.words hbefore hsize h p hp (j / 4) hfit
  rw [readByte, Ptr.wordOf, hword, Word.toBytes_bytes]
  exact congrArg p.2.byte (Nat.div_add_mod j 4)

end Laid

/-- After the load phase the named views hold what was sent under their names, lie in the buffer
and are apart. -/
structure Delivered (hub : MemHub N) (h : Heap N F) (buffer : N) (names : List N)
    (sent : List (N × Block)) : Prop where
  stores : ∀ p ∈ sent, p.1 ∈ names ∧ ∃ m, hub.getMemory p.1 = some m ∧ m.Stores h p.2
  inside : ∃ whole, hub.getMemory buffer = some whole ∧
    ∀ name ∈ names, ∃ m, hub.getMemory name = some m ∧ m.region ⊆ whole.region
  apart : names.Pairwise fun a b => ∀ m m', hub.getMemory a = some m → hub.getMemory b = some m' →
    Disjoint m.region m'.region

theorem Laid.delivers {hub : MemHub N} {view : N → Memory N}
    (hserves : ∀ name, hub.getMemory name = some (view name)) {base : Ptr N} {names : List N}
    (hlaid : Laid base 0 (names.map view)) {buffer : N} (hdata : (view buffer).data = base)
    (hlen : totalLen (names.map view) ≤ (view buffer).wzyxLen) {sent : List (N × Block)}
    (hnames : sent.map Prod.fst <+: names)
    (hsize : ∀ p ∈ sent, (p.2.size : Int) = (view p.1).byteLen) (h : Heap N F) :
    Delivered hub (sendAll base h 0 (sent.map Prod.snd)) buffer names sent := by
  constructor
  · obtain ⟨rest, rfl⟩ := hnames
    rw [List.map_append, List.map_map] at hlaid
    have hstores := @Laid.stores _ _ _ _ _ _ _ _ _ _ hlaid [] rfl hsize h
    intro p hp
    exact ⟨List.mem_append_left _ (List.mem_map_of_mem hp), _, hserves _, hstores p hp⟩
  · refine ⟨_, hserves buffer, fun name hname => ⟨_, hserves name, ?_⟩⟩
    have hsubset := hlaid.subset hdata (by simpa using hlen)
    exact hsubset _ (List.mem_map_of_mem hname)
  · refine (List.pairwise_map.mp hlaid.disjoint).imp ?_
    intro a b hab m m' hm hm'
    obtain rfl := Option.some.inj ((hserves a).symm.trans hm)
    obtain rfl := Option.some.inj ((hserves b).symm.trans hm')
    exact hab

end ModernArch.Vdev
