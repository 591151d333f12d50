import ModernArch.Framework.Bins
import ModernArch.Sim.EventQueue

/-!
# The list of stacks in memory

`Chain mem p bins` says that the links of the memory spell out `bins` from `p`. The pointer of
an event to the next bin counts only while the event is the top of its stack.
-/

namespace ModernArch.Sim
open Framework

variable {mem mem' : Memory} {event : Nat}

/-- An event without its links. -/
def Event.data (e : Event) : Event := { e with nextBin := none, nextInBin := none }

theorem Event.key_of_data {e e' : Event} (h : e.data = e'.data) : e.key = e'.key := by
  have hw : e.data.when_ = e'.data.when_ := congrArg Event.when_ h
  have hp : e.data.priority = e'.data.priority := congrArg Event.priority h
  exact congrArg₂ (fun w p => toLex (w, p)) hw hp

namespace Memory

@[simp] theorem set_self (mem : Memory) (event : Nat) (f : Event → Event) :
    mem.set event f event = f (mem event) := Function.update_self _ _ _

theorem set_of_ne (f : Event → Event) {x : Nat} (h : x ≠ event) : mem.set event f x = mem x :=
  Function.update_of_ne h _ _

private theorem set_data {f : Event → Event} (hf : ∀ e, (f e).data = e.data) (x : Nat) :
    (mem.set event f x).data = (mem x).data := by
  by_cases h : x = event
  · subst h
    rw [set_self, hf]
  · rw [set_of_ne f h]

private theorem setNextBin_data (event : Nat) (p : Option Nat) (x : Nat) :
    (mem.setNextBin event p x).data = (mem x).data := by
  apply set_data
  intro e
  rfl

private theorem setNextBin_nextInBin (event : Nat) (p : Option Nat) (x : Nat) :
    (mem.setNextBin event p x).nextInBin = (mem x).nextInBin := by
  by_cases h : x = event
  · subst h
    rw [setNextBin, set_self]
  · rw [setNextBin, set_of_ne _ h]

private theorem setNextInBin_data (event : Nat) (p : Option Nat) (x : Nat) :
    (mem.setNextInBin event p x).data = (mem x).data := by
  apply set_data
  intro e
  rfl

private theorem setNextInBin_nextBin (event : Nat) (p : Option Nat) (x : Nat) :
    (mem.setNextInBin event p x).nextBin = (mem x).nextBin := by
  by_cases h : x = event
  · subst h
    rw [setNextInBin, set_self]
  · rw [setNextInBin, set_of_ne _ h]

private theorem insertBefore_of_ne (curr : Option Nat) {x : Nat} (h : x ≠ event) :
    mem.insertBefore event curr x = mem x := by
  unfold insertBefore
  cases curr with
  | none => exact set_of_ne _ h
  | some c =>
      dsimp only
      split <;> exact set_of_ne _ h

private theorem insertBefore_data (event : Nat) (curr : Option Nat) (x : Nat) :
    (mem.insertBefore event curr x).data = (mem x).data := by
  unfold insertBefore
  cases curr with
  | none =>
      apply set_data
      intro e
      rfl
  | some c =>
      dsimp only
      split <;> apply set_data <;> intro e <;> rfl

end Memory

/-- `nextInBin` spells out a stack. -/
inductive Stack (mem : Memory) : Option Nat → List Nat → Prop where
  | nil : Stack mem none []
  | cons {e : Nat} {es : List Nat} : Stack mem (mem e).nextInBin es → Stack mem (some e) (e :: es)

inductive Chain (mem : Memory) : Option Nat → List (Key × List Nat) → Prop where
  | nil : Chain mem none []
  | cons {k : Key} {e : Nat} {es : List Nat} {bs : List (Key × List Nat)} :
      Stack mem (mem e).nextInBin es → (∀ x ∈ e :: es, (mem x).key = k) →
        Chain mem (mem e).nextBin bs → Chain mem (some e) ((k, e :: es) :: bs)

abbrev items (bins : List (Key × List Nat)) : List Nat := bins.flatMap (·.2)

theorem Stack.congr {p : Option Nat} {es : List Nat} (h : Stack mem p es)
    (hl : ∀ x ∈ es, (mem' x).nextInBin = (mem x).nextInBin) : Stack mem' p es := by
  induction h with
  | nil => exact .nil
  | @cons e es _ ih =>
      apply Stack.cons
      rw [hl e List.mem_cons_self]
      exact ih fun x hx => hl x (List.mem_cons_of_mem e hx)

theorem Chain.congr {p : Option Nat} {bins : List (Key × List Nat)} (h : Chain mem p bins)
    (hl : ∀ x ∈ items bins, (mem' x).nextBin = (mem x).nextBin ∧
      (mem' x).nextInBin = (mem x).nextInBin ∧ (mem' x).key = (mem x).key) :
    Chain mem' p bins := by
  induction h with
  | nil => exact .nil
  | @cons k e es bs hstack hkey _ ih =>
      have hitems (x : Nat) (hx : x ∈ e :: es) : x ∈ items ((k, e :: es) :: bs) :=
        List.mem_append_left _ hx
      apply Chain.cons
      · rw [(hl e (hitems e List.mem_cons_self)).2.1]
        exact hstack.congr fun x hx => (hl x (hitems x (List.mem_cons_of_mem e hx))).2.1
      · intro x hx
        rw [(hl x (hitems x hx)).2.2]
        exact hkey x hx
      · rw [(hl e (hitems e List.mem_cons_self)).1]
        exact ih fun x hx => hl x (List.mem_append_right _ hx)

private theorem Chain.congr_eq {p : Option Nat} {bins : List (Key × List Nat)}
    (h : Chain mem p bins) (hl : ∀ x ∈ items bins, mem' x = mem x) : Chain mem' p bins :=
  h.congr fun x hx => by rw [hl x hx]; exact ⟨rfl, rfl, rfl⟩

/-- The first bin stays when only what follows it changes. -/
theorem Chain.cons_keep {k : Key} {e : Nat} {es : List Nat} {bs bs' : List (Key × List Nat)}
    (h : Chain mem (some e) ((k, e :: es) :: bs))
    (hstack : ∀ x ∈ e :: es, (mem' x).nextInBin = (mem x).nextInBin)
    (hdata : ∀ x, (mem' x).data = (mem x).data) (hrest : Chain mem' (mem' e).nextBin bs') :
    Chain mem' (some e) ((k, e :: es) :: bs') := by
  cases h with
  | cons hs hkey hbs =>
      apply Chain.cons
      · rw [hstack e List.mem_cons_self]
        exact hs.congr fun x hx => hstack x (List.mem_cons_of_mem e hx)
      · intro x hx
        rw [Event.key_of_data (hdata x)]
        exact hkey x hx
      · exact hrest

/-- Before a bin that does not come earlier, an event opens a new bin or tops that one. -/
theorem insertBefore_chain {p : Option Nat} {bs : List (Key × List Nat)} (h : Chain mem p bs)
    (hnew : event ∉ items bs) (hp : ∀ c, p = some c → ¬ (mem c).key < (mem event).key) :
    Chain (mem.insertBefore event p) (some event) (pushBin (mem event).key event bs) := by
  have hkeep (x : Nat) (hx : x ∈ items bs) : mem.insertBefore event p x = mem x :=
    Memory.insertBefore_of_ne p fun he => hnew (he ▸ hx)
  have hkey : (mem.insertBefore event p event).key = (mem event).key :=
    Event.key_of_data (Memory.insertBefore_data event p event)
  have hold := h.congr_eq hkeep
  cases h with
  | nil =>
      apply Chain.cons
      · simp only [Memory.insertBefore, Memory.set_self]
        exact .nil
      · intro x hx
        rw [List.mem_singleton.mp hx]
        exact hkey
      · simp only [Memory.insertBefore, Memory.set_self]
        exact .nil
  | @cons k c es bs hs hk hbs =>
      have hck : (mem c).key = k := hk c List.mem_cons_self
      have hnot := hp c rfl
      rw [hck] at hnot
      by_cases hlt : (mem event).key < k
      · have hcells : mem.insertBefore event (some c) event =
            { mem event with nextBin := some c, nextInBin := none } := by
          simp only [Memory.insertBefore]
          rw [if_pos (hck ▸ hlt), Memory.set_self]
        rw [pushBin, if_pos hlt]
        apply Chain.cons
        · rw [hcells]
          exact .nil
        · intro x hx
          rw [List.mem_singleton.mp hx]
          exact hkey
        · rw [hcells]
          exact hold
      · have heq : (mem event).key = k := le_antisymm (not_lt.mp hnot) (not_lt.mp hlt)
        have hcells : mem.insertBefore event (some c) event =
            { mem event with nextBin := (mem c).nextBin, nextInBin := some c } := by
          simp only [Memory.insertBefore]
          rw [if_neg (hck ▸ hlt), Memory.set_self]
        rw [pushBin, if_neg hlt, if_pos heq]
        cases hold with
        | cons hs' hk' hbs' =>
            have hc : mem.insertBefore event (some c) c = mem c :=
              hkeep c (by simp)
            apply Chain.cons
            · rw [hcells]
              exact .cons hs'
            · intro x hx
              rcases List.mem_cons.mp hx with rfl | hx
              · exact hkey.trans heq
              · exact hk' x hx
            · rw [hcells]
              rw [hc] at hbs'
              exact hbs'

/-- The search stops before the first bin that does not come earlier. -/
theorem insert_here {bs : List (Key × List Nat)} {prev : Nat}
    (h : Chain mem (mem prev).nextBin bs) (hn : (prev :: event :: items bs).Nodup)
    (hp : ∀ c, (mem prev).nextBin = some c → ¬ (mem c).key < (mem event).key) :
    let mem' := (mem.insertBefore event (mem prev).nextBin).setNextBin prev (some event)
    Chain mem' (mem' prev).nextBin (pushBin (mem event).key event bs) ∧
      (∀ x, x ≠ event → (mem' x).nextInBin = (mem x).nextInBin) ∧
      (∀ x, x ≠ event → x ≠ prev → mem' x = mem x) ∧
      ∀ x, (mem' x).data = (mem x).data := by
  intro mem'
  rw [List.nodup_cons, List.nodup_cons, List.mem_cons, not_or] at hn
  obtain ⟨⟨hpe, hprev⟩, hnew, -⟩ := hn
  have hchain := insertBefore_chain h hnew hp
  refine ⟨?_, ?_, ?_, ?_⟩
  · have hnext : (mem' prev).nextBin = some event := by
      simp only [mem', Memory.setNextBin, Memory.set_self]
    rw [hnext]
    apply hchain.congr_eq
    intro x hx
    have hne : x ≠ prev := by
      rintro rfl
      rcases mem_items_pushBin.mp hx with he | hx
      · exact hpe he
      · exact hprev hx
    exact Memory.set_of_ne _ hne
  · intro x hx
    rw [Memory.setNextBin_nextInBin, Memory.insertBefore_of_ne _ hx]
  · intro x hx hxp
    exact (Memory.set_of_ne _ hxp).trans (Memory.insertBefore_of_ne _ hx)
  · intro x
    exact (Memory.setNextBin_data _ _ x).trans (Memory.insertBefore_data _ _ x)

private theorem findBin_insert {bs : List (Key × List Nat)} {prev fuel : Nat}
    (h : Chain mem (mem prev).nextBin bs) (hn : (prev :: event :: items bs).Nodup)
    (hfuel : bs.length < fuel) :
    ∃ prev' curr, mem.findBin event fuel prev (mem prev).nextBin = some (prev', curr) ∧
      let mem' := (mem.insertBefore event curr).setNextBin prev' (some event)
      Chain mem' (mem' prev).nextBin (pushBin (mem event).key event bs) ∧
        (∀ x, x ≠ event → (mem' x).nextInBin = (mem x).nextInBin) ∧
        (∀ x, x ≠ event → x ≠ prev → x ∉ items bs → mem' x = mem x) ∧
        ∀ x, (mem' x).data = (mem x).data := by
  induction bs generalizing prev fuel with
  | nil =>
      obtain ⟨fuel, rfl⟩ : ∃ n, fuel = n + 1 := ⟨fuel - 1, by omega⟩
      have hnil : (mem prev).nextBin = none := by
        cases hp : (mem prev).nextBin with
        | none => rfl
        | some c => rw [hp] at h; cases h
      obtain ⟨hchain, hstack, hframe, hdata⟩ := insert_here h hn (by simp [hnil])
      refine ⟨prev, (mem prev).nextBin, ?_, hchain, hstack, ?_, hdata⟩
      · rw [hnil]
        rfl
      · intro x hx hxp _
        exact hframe x hx hxp
  | cons b bs ih =>
      obtain ⟨fuel, rfl⟩ : ∃ n, fuel = n + 1 := ⟨fuel - 1, by omega⟩
      have hall := h
      generalize hp : (mem prev).nextBin = p at h
      cases h with
      | @cons k c es _ hs hk hbs =>
          have hck : (mem c).key = k := hk c List.mem_cons_self
          by_cases hlt : (mem c).key < (mem event).key
          · simp only [List.nodup_cons, List.mem_cons, items, List.flatMap_cons, List.mem_append,
              List.cons_append, not_or] at hn
            obtain ⟨⟨hpe, hpc, hpes, hpbs⟩, ⟨hec, hees, hebs⟩, ⟨hces, hcbs⟩, hnb⟩ := hn
            have hnc : (c :: event :: items bs).Nodup := by
              simp only [List.nodup_cons, List.mem_cons, not_or]
              exact ⟨⟨Ne.symm hec, hcbs⟩, hebs, hnb.of_append_right⟩
            obtain ⟨prev', curr, hfind, hchain, hstack, hframe, hdata⟩ :=
              ih hbs hnc (Nat.lt_of_succ_lt_succ hfuel)
            refine ⟨prev', curr, ?_, ?_, hstack, ?_, hdata⟩
            · rw [Memory.findBin, if_pos hlt]
              exact hfind
            · rw [hck] at hlt
              rw [hframe prev hpe hpc hpbs, hp, pushBin, if_neg hlt.not_gt, if_neg hlt.ne']
              rw [hp] at hall
              apply hall.cons_keep _ hdata hchain
              intro x hx
              apply hstack
              rintro rfl
              rcases List.mem_cons.mp hx with rfl | hx
              · exact hec rfl
              · exact hees hx
            · intro x hxe hxp hx
              simp only [items, List.flatMap_cons, List.mem_append, List.mem_cons, not_or] at hx
              exact hframe x hxe hx.1.1 hx.2
          · obtain ⟨hchain, hstack, hframe, hdata⟩ := insert_here hall hn (by simpa [hp] using hlt)
            rw [hp] at hchain hstack hframe hdata
            refine ⟨prev, some c, ?_, hchain, hstack, ?_, hdata⟩
            · rw [Memory.findBin, if_neg hlt]
            · intro x hx hxp _
              exact hframe x hx hxp

theorem insert_spec {bins : List (Key × List Nat)} {head : Option Nat} {fuel : Nat}
    (h : Chain mem head bins) (hn : (event :: items bins).Nodup) (hfuel : bins.length ≤ fuel) :
    ∃ mem' head', mem.insert fuel head event = some (mem', head') ∧
      Chain mem' head' (pushBin (mem event).key event bins) ∧
      ∀ x, (mem' x).data = (mem x).data := by
  have hnew : event ∉ items bins := (List.nodup_cons.mp hn).1
  have hall := h
  cases h with
  | nil =>
      refine ⟨mem.insertBefore event none, some event, rfl, ?_, Memory.insertBefore_data _ _⟩
      exact insertBefore_chain hall hnew (by simp)
  | @cons k e es bs hs hk hbs =>
      have hek : (mem e).key = k := hk e List.mem_cons_self
      by_cases hle : (mem event).key ≤ (mem e).key
      · refine ⟨mem.insertBefore event (some e), some event, ?_, ?_, Memory.insertBefore_data _ _⟩
        · rw [Memory.insert]
          exact if_pos hle
        · apply insertBefore_chain hall hnew
          intro c hc
          cases hc
          exact hle.not_gt
      · have hlt : k < (mem event).key := by
          rw [← hek]
          exact not_le.mp hle
        simp only [List.nodup_cons, List.mem_cons, items, List.flatMap_cons, List.mem_append,
          List.cons_append, not_or] at hn
        obtain ⟨⟨hee, hees, hebs⟩, ⟨hes, hebs'⟩, hnb⟩ := hn
        have hne : (e :: event :: items bs).Nodup := by
          simp only [List.nodup_cons, List.mem_cons, not_or]
          exact ⟨⟨Ne.symm hee, hebs'⟩, hebs, hnb.of_append_right⟩
        obtain ⟨prev, curr, hfind, hchain, hstack, -, hdata⟩ := findBin_insert hbs hne hfuel
        refine ⟨_, some e, ?_, ?_, hdata⟩
        · rw [Memory.insert]
          dsimp only
          rw [if_neg hle, hfind]
          rfl
        · rw [pushBin, if_neg hlt.not_gt, if_neg hlt.ne']
          apply hall.cons_keep _ hdata hchain
          intro x hx
          apply hstack
          rintro rfl
          rcases List.mem_cons.mp hx with rfl | hx
          · exact hee rfl
          · exact hees hx

/-! ## Removal -/

theorem Chain.key {p : Option Nat} {bins : List (Key × List Nat)} (h : Chain mem p bins)
    {b : Key × List Nat} (hb : b ∈ bins) {x : Nat} (hx : x ∈ b.2) : (mem x).key = b.1 := by
  induction h with
  | nil => simp at hb
  | cons _ hk _ ih =>
      rcases List.mem_cons.mp hb with rfl | hb
      · exact hk x hx
      · exact ih hb

private theorem Chain.mem_first {p : Option Nat} {k : Key} {b : List Nat}
    {bs : List (Key × List Nat)} (h : Chain mem p ((k, b) :: bs)) (hs : SortedBins ((k, b) :: bs))
    (he : event ∈ items ((k, b) :: bs)) :
    ((mem event).key = k ∧ event ∈ b) ∨ (k < (mem event).key ∧ event ∈ items bs) := by
  rcases List.mem_append.mp he with he | he
  · exact Or.inl ⟨h.key List.mem_cons_self he, he⟩
  · obtain ⟨q, hq, heq⟩ := List.mem_flatMap.mp he
    have hkey : (mem event).key = q.1 := h.key (List.mem_cons_of_mem _ hq) heq
    rw [hkey]
    exact Or.inr ⟨(List.pairwise_cons.mp hs).1 q hq, he⟩

private theorem findInBin_remove {es : List Nat} {curr fuel : Nat}
    (h : Stack mem (mem curr).nextInBin es) (hn : (curr :: es).Nodup) (he : event ∈ es)
    (hfuel : es.length ≤ fuel) :
    ∃ c, mem.findInBin event fuel curr (mem curr).nextInBin = some c ∧ c ∈ curr :: es ∧
      let mem' := mem.setNextInBin c (mem event).nextInBin
      Stack mem' (mem' curr).nextInBin (es.erase event) := by
  induction es generalizing curr fuel with
  | nil => simp at he
  | cons n es ih =>
      obtain ⟨fuel, rfl⟩ : ∃ m, fuel = m + 1 :=
        ⟨fuel - 1, by simp only [List.length_cons] at hfuel; omega⟩
      generalize hp : (mem curr).nextInBin = p at h
      cases h with
      | cons hs =>
          obtain ⟨hc, hn⟩ := List.nodup_cons.mp hn
          by_cases hen : event = n
          · subst hen
            refine ⟨curr, ?_, List.mem_cons_self, ?_⟩
            · rw [Memory.findInBin, if_pos rfl]
            · rw [List.erase_cons_head]
              simp only [Memory.setNextInBin, Memory.set_self]
              apply hs.congr
              intro x hx
              rw [Memory.set_of_ne]
              rintro rfl
              exact hc (List.mem_cons_of_mem _ hx)
          · have hees : event ∈ es := (List.mem_cons.mp he).resolve_left hen
            obtain ⟨c, hfind, hcmem, hstack⟩ := ih hs hn hees (Nat.le_of_succ_le_succ hfuel)
            refine ⟨c, ?_, List.mem_cons_of_mem _ hcmem, ?_⟩
            · rw [Memory.findInBin, if_neg hen]
              exact hfind
            · have hne : curr ≠ c := by
                rintro rfl
                exact hc hcmem
              rw [List.erase_cons_tail (by simpa using Ne.symm hen)]
              simp only [Memory.setNextInBin, Memory.set_of_ne _ hne, hp]
              exact .cons hstack

private theorem removeItem_spec {t fuel : Nat} {k : Key} {ts : List Nat}
    {bs : List (Key × List Nat)}
    (h : Chain mem (some t) ((k, t :: ts) :: bs)) (hn : (t :: (ts ++ items bs)).Nodup)
    (he : event ∈ t :: ts) (hfuel : ts.length ≤ fuel) :
    ∃ mem' top, mem.removeItem fuel event t = some (mem', top) ∧
      Chain mem' top (consBin k ((t :: ts).erase event) bs) ∧
      (∀ x, x ∉ t :: ts → mem' x = mem x) ∧ ∀ x, (mem' x).data = (mem x).data := by
  obtain ⟨ht, hts⟩ := List.nodup_cons.mp hn
  have hdisj (x : Nat) (hx : x ∈ items bs) : x ∉ t :: ts := by
    intro hxt
    rcases List.mem_cons.mp hxt with rfl | hxt
    · exact ht (List.mem_append_right _ hx)
    · exact (List.nodup_append.mp hts).2.2 x hxt x hx rfl
  cases h with
  | cons hs hk hbs =>
      by_cases het : event = t
      · subst het
        rw [List.erase_cons_head]
        generalize hp : (mem event).nextInBin = p at hs
        cases hs with
        | nil =>
            refine ⟨mem, (mem event).nextBin, ?_, hbs, fun _ _ => rfl, fun _ => rfl⟩
            simp [Memory.removeItem, hp]
        | @cons n ts hs =>
            have hdata := mem.setNextBin_data n (mem event).nextBin
            have hkeep (x : Nat) (hx : x ∉ event :: n :: ts) :
                mem.setNextBin n (mem event).nextBin x = mem x := by
              apply Memory.set_of_ne
              rintro rfl
              simp at hx
            refine ⟨mem.setNextBin n (mem event).nextBin, some n, ?_, ?_, hkeep, hdata⟩
            · simp [Memory.removeItem, hp]
            · apply Chain.cons
              · rw [Memory.setNextBin_nextInBin]
                exact hs.congr fun x _ => Memory.setNextBin_nextInBin _ _ x
              · intro x hx
                rw [Event.key_of_data (hdata x)]
                exact hk x (List.mem_cons_of_mem _ hx)
              · simp only [Memory.setNextBin, Memory.set_self]
                exact hbs.congr_eq fun x hx => hkeep x (hdisj x hx)
      · have hets : event ∈ ts := (List.mem_cons.mp he).resolve_left het
        have hnt : (t :: ts).Nodup := hn.sublist ((List.sublist_append_left ts _).cons_cons t)
        obtain ⟨c, hfind, hc, hstack⟩ := findInBin_remove hs hnt hets hfuel
        have hdata := mem.setNextInBin_data c (mem event).nextInBin
        have hkeep (x : Nat) (hx : x ∉ t :: ts) :
            mem.setNextInBin c (mem event).nextInBin x = mem x := by
          apply Memory.set_of_ne
          rintro rfl
          exact hx hc
        refine ⟨mem.setNextInBin c (mem event).nextInBin, some t, ?_, ?_, hkeep, hdata⟩
        · rw [Memory.removeItem]
          rw [if_neg het, hfind]
          rfl
        · rw [List.erase_cons_tail (by simpa using Ne.symm het)]
          apply Chain.cons hstack
          · intro x hx
            rw [Event.key_of_data (hdata x)]
            apply hk
            rcases List.mem_cons.mp hx with rfl | hx
            · exact List.mem_cons_self
            · exact List.mem_cons_of_mem _ (List.mem_of_mem_erase hx)
          · rw [Memory.setNextInBin_nextBin]
            exact hbs.congr_eq fun x hx => hkeep x (hdisj x hx)

/-- The search stops at the bin of a queued event, which then leaves its stack. -/
theorem findBin_remove {bs : List (Key × List Nat)} {prev fuel depth : Nat}
    (h : Chain mem (mem prev).nextBin bs) (hsorted : SortedBins bs)
    (hn : (prev :: items bs).Nodup) (he : event ∈ items bs) (hfuel : bs.length ≤ fuel)
    (hdepth : (items bs).length ≤ depth) :
    ∃ prev' c mem₁ top, mem.findBin event fuel prev (mem prev).nextBin = some (prev', some c) ∧
      (mem c).key = (mem event).key ∧ mem.removeItem depth event c = some (mem₁, top) ∧
      let mem' := mem₁.setNextBin prev' top
      Chain mem' (mem' prev).nextBin (dropBin (mem event).key event bs) ∧
        (∀ x, x ∉ items bs → (mem' x).nextInBin = (mem x).nextInBin) ∧
        (∀ x, x ≠ prev → x ∉ items bs → mem' x = mem x) ∧
        ∀ x, (mem' x).data = (mem x).data := by
  induction bs generalizing prev fuel with
  | nil => simp at he
  | cons b bs ih =>
      obtain ⟨fuel, rfl⟩ : ∃ n, fuel = n + 1 :=
        ⟨fuel - 1, by simp only [List.length_cons] at hfuel; omega⟩
      have hall := h
      generalize hp : (mem prev).nextBin = p at h
      cases h with
      | @cons k c es _ hs hk hbs =>
          have hck : (mem c).key = k := hk c List.mem_cons_self
          obtain ⟨hprev, hn⟩ := List.nodup_cons.mp hn
          rw [hp] at hall
          rcases hall.mem_first hsorted he with ⟨hkey, hees⟩ | ⟨hlt, hebs⟩
          · have hlen : es.length ≤ depth := by
              simp only [items, List.flatMap_cons, List.length_append, List.length_cons] at hdepth
              omega
            obtain ⟨mem₁, top, hitem, hchain, hkeep, hdata⟩ := removeItem_spec hall hn hees hlen
            refine ⟨prev, c, mem₁, top, ?_, hck.trans hkey.symm, hitem, ?_, ?_, ?_, ?_⟩
            · rw [Memory.findBin, if_neg (hck.trans hkey.symm).not_lt]
            · rw [hkey, dropBin, if_pos rfl]
              simp only [Memory.setNextBin, Memory.set_self]
              apply hchain.congr_eq
              intro x hx
              apply Memory.set_of_ne
              rintro rfl
              apply hprev
              rcases mem_items_consBin.mp hx with hx | hx
              · exact List.mem_append_left _ (List.mem_of_mem_erase hx)
              · exact List.mem_append_right _ hx
            · intro x hx
              rw [Memory.setNextBin_nextInBin, hkeep x fun hxb => hx (List.mem_append_left _ hxb)]
            · intro x hxp hx
              exact (Memory.set_of_ne _ hxp).trans
                (hkeep x fun hxb => hx (List.mem_append_left _ hxb))
            · intro x
              exact (Memory.setNextBin_data _ _ x).trans (hdata x)
          · have hnc : (c :: items bs).Nodup := hn.sublist
              ((List.sublist_append_right es _).cons_cons c)
            have hlen : (items bs).length ≤ depth := by
              simp only [items, List.flatMap_cons, List.length_append, List.length_cons] at hdepth ⊢
              omega
            obtain ⟨prev', c', mem₁, top, hfind, hkey, hitem, hchain, hstack, hframe, hdata⟩ :=
              ih hbs (List.pairwise_cons.mp hsorted).2 hnc hebs (Nat.le_of_succ_le_succ hfuel) hlen
            have hframe' (x : Nat) (hx : x ∉ items ((k, c :: es) :: bs)) :
                mem₁.setNextBin prev' top x = mem x := by
              apply hframe
              · rintro rfl
                exact hx (List.mem_append_left _ List.mem_cons_self)
              · exact fun hxb => hx (List.mem_append_right _ hxb)
            refine ⟨prev', c', mem₁, top, ?_, hkey, hitem, ?_, ?_, ?_, hdata⟩
            · rw [Memory.findBin, if_pos (hck ▸ hlt)]
              exact hfind
            · rw [hframe' prev hprev, hp, dropBin, if_neg hlt.ne]
              apply hall.cons_keep _ hdata hchain
              intro x hx
              apply hstack
              exact fun hxb => (List.nodup_append.mp hn).2.2 x hx x hxb rfl
            · intro x hx
              rw [hframe' x hx]
            · intro x _ hx
              exact hframe' x hx

theorem remove_spec {bins : List (Key × List Nat)} {head : Option Nat} {fuel : Nat}
    (h : Chain mem head bins) (hsorted : SortedBins bins) (hn : (items bins).Nodup)
    (he : event ∈ items bins) (hbins : bins.length ≤ fuel) (hfuel : (items bins).length ≤ fuel) :
    ∃ mem' head', mem.remove fuel head event = some (mem', head') ∧
      Chain mem' head' (dropBin (mem event).key event bins) ∧
      ∀ x, (mem' x).data = (mem x).data := by
  have hall := h
  cases h with
  | nil => simp at he
  | @cons k t ts bs hs hk hbs =>
      have htk : (mem t).key = k := hk t List.mem_cons_self
      rcases hall.mem_first hsorted he with ⟨hkey, hets⟩ | ⟨hlt, hebs⟩
      · have hlen : ts.length ≤ fuel := by
          simp only [items, List.flatMap_cons, List.length_append, List.length_cons] at hfuel
          omega
        obtain ⟨mem', top, hitem, hchain, -, hdata⟩ := removeItem_spec hall hn hets hlen
        refine ⟨mem', top, ?_, ?_, hdata⟩
        · rw [Memory.remove]
          dsimp only
          rw [if_pos (htk.trans hkey.symm)]
          exact hitem
        · rw [hkey, dropBin, if_pos rfl]
          exact hchain
      · have hnt : (t :: items bs).Nodup := hn.sublist
          ((List.sublist_append_right ts _).cons_cons t)
        have hlen : (items bs).length ≤ fuel := by
          simp only [items, List.flatMap_cons, List.length_append] at hfuel ⊢
          omega
        obtain ⟨prev, c, mem₁, top, hfind, hkey, hitem, hchain, hstack, -, hdata⟩ :=
          findBin_remove hbs (List.pairwise_cons.mp hsorted).2 hnt hebs
            (Nat.le_of_succ_le hbins) hlen
        refine ⟨mem₁.setNextBin prev top, some t, ?_, ?_, hdata⟩
        · rw [Memory.remove]
          dsimp only
          rw [if_neg (htk.trans_ne hlt.ne), hfind]
          dsimp only [Option.bind_eq_bind, Option.bind_some]
          rw [if_neg (not_not_intro hkey), hitem]
          rfl
        · rw [dropBin, if_neg hlt.ne]
          apply hall.cons_keep _ hdata hchain
          intro x hx
          apply hstack
          exact fun hxb => (List.nodup_append.mp hn).2.2 x hx x hxb rfl

end ModernArch.Sim
