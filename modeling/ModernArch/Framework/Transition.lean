import Mathlib.Data.List.Induction

/-!
# Runs of a transition system

A run is a finite sequence of labelled steps. An invariant may speak of the labels so far.
-/

namespace ModernArch.Framework

variable {σ ε : Type}

inductive Run (step : σ → ε → σ → Prop) (s : σ) : List ε → σ → Prop where
  | nil : Run step s [] s
  | snoc {es : List ε} {e : ε} {t u : σ} : Run step s es t → step t e u → Run step s (es ++ [e]) u

variable {step : σ → ε → σ → Prop}

theorem Run.inv {s : σ} (I : List ε → σ → Prop) (h₀ : I [] s)
    (hstep : ∀ es t e u, I es t → step t e u → I (es ++ [e]) u) {es : List ε} {t : σ}
    (h : Run step s es t) : I es t := by
  induction h with
  | nil => exact h₀
  | snoc _ hlast ih => exact hstep _ _ _ _ ih hlast

theorem Run.last {s u : σ} {es : List ε} {e : ε} (h : Run step s (es ++ [e]) u) :
    ∃ t, Run step s es t ∧ step t e u := by
  generalize hl : es ++ [e] = l at h
  cases h with
  | nil => simp at hl
  | snoc hrun hstep =>
      obtain ⟨rfl, he⟩ := List.append_inj' hl rfl
      obtain rfl := List.singleton_inj.mp he
      exact ⟨_, hrun, hstep⟩

theorem Run.of_prefix {s u : σ} {es fs : List ε} (h : Run step s es u) (hp : fs <+: es) :
    ∃ t, Run step s fs t := by
  induction h with
  | nil =>
      rw [List.prefix_nil.mp hp]
      exact ⟨s, .nil⟩
  | snoc hrun hstep ih =>
      rcases List.prefix_concat_iff.mp hp with rfl | hp
      · exact ⟨_, hrun.snoc hstep⟩
      · exact ih hp

theorem bind_ok {φ α β : Type} {x : Except φ α} {g : α → Except φ β} {b : β}
    (h : x >>= g = .ok b) : ∃ a, x = .ok a ∧ g a = .ok b := by
  cases x with
  | error e => cases h
  | ok a => exact ⟨a, rfl, h⟩

theorem Run.of_foldlM {φ : Type} {f : σ → ε → Except φ σ} {s t : σ} {es : List ε}
    (h : es.foldlM f s = .ok t) : Run (fun s e t => f s e = .ok t) s es t := by
  induction es using List.reverseRecOn generalizing t with
  | nil =>
      cases h
      exact .nil
  | append_singleton es e ih =>
      rw [List.foldlM_append] at h
      cases hs : es.foldlM f s with
      | error x =>
          rw [hs] at h
          cases h
      | ok u =>
          rw [hs] at h
          have hlast : f u e = .ok t := by
            cases hu : f u e with
            | error x => simp [bind, Except.bind, hu] at h
            | ok v => simpa [bind, Except.bind, hu, pure, Except.pure] using h
          exact (ih hs).snoc hlast

end ModernArch.Framework
