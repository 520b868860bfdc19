import Mathlib.Data.List.Basic

/-!
# Runs of a labelled transition system

A transition system is a relation `step s e s'`: in state `s` the event `e` may lead to `s'`. A
`Run` from `s₀` is a finite sequence of such steps together with the events it took, oldest first.
Deterministic systems are the special case `step s e s' ↔ exec e s = s'`.

Safety arguments about such systems all have one shape: a property holds at the start and no step
breaks it. `Run.invariant` is that rule. `Run.invariant_history` lets the property speak about the
events so far, for ghost quantities that are read off the history instead of the state.
-/

namespace Ripclone.Library

variable {σ ε : Type*}

/-- `Run step s₀ es s`: taking the events `es` one after the other leads from `s₀` to `s`. -/
inductive Run (step : σ → ε → σ → Prop) (s₀ : σ) : List ε → σ → Prop
  | nil : Run step s₀ [] s₀
  | snoc {es : List ε} {e : ε} {s s' : σ} :
      Run step s₀ es s → step s e s' → Run step s₀ (es ++ [e]) s'

namespace Run

variable {step : σ → ε → σ → Prop} {s₀ : σ}

/-- The invariant rule, for a property of the events so far and the state they led to. Each step
may use that its own event is one the run took. -/
theorem invariant_history {I : List ε → σ → Prop} (init : I [] s₀)
    (preserved : ∀ {es e s s'}, Run step s₀ es s → I es s → step s e s' → I (es ++ [e]) s')
    {es : List ε} {s : σ} (hrun : Run step s₀ es s) : I es s := by
  induction hrun with
  | nil => exact init
  | snoc hprev hstep ih => exact preserved hprev ih hstep

/-- The invariant rule: what holds at the start and is kept by every step whose event satisfies
`P` holds after every run made of such events. -/
theorem invariant {I : σ → Prop} {P : ε → Prop} (init : I s₀)
    (preserved : ∀ {e s s'}, P e → I s → step s e s' → I s')
    {es : List ε} {s : σ} (hrun : Run step s₀ es s) (hP : ∀ e ∈ es, P e) : I s := by
  induction hrun with
  | nil => exact init
  | snoc _ hstep ih =>
      have hpre := ih (fun e he => hP e (List.mem_append_left _ he))
      exact preserved (hP _ (by simp)) hpre hstep

/-- A run of one system is a run of every system that has its steps. -/
theorem mono {step' : σ → ε → σ → Prop} (hstep : ∀ s e s', step s e s' → step' s e s')
    {es : List ε} {s : σ} (h : Run step s₀ es s) : Run step' s₀ es s := by
  induction h with
  | nil => exact .nil
  | snoc _ hlast ih => exact ih.snoc (hstep _ _ _ hlast)

/-- A run is one of every system that has the steps it took. -/
theorem mono_mem {step' : σ → ε → σ → Prop} {es : List ε} {s : σ} (h : Run step s₀ es s)
    (hstep : ∀ s e s', e ∈ es → step s e s' → step' s e s') : Run step' s₀ es s := by
  induction h with
  | nil => exact .nil
  | snoc _ hlast ih =>
      refine (ih fun s e s' he => hstep s e s' (List.mem_append_left _ he)).snoc ?_
      exact hstep _ _ _ (by simp) hlast

/-- Runs compose. -/
theorem append {es fs : List ε} {s s' : σ} (h : Run step s₀ es s) (h' : Run step s fs s') :
    Run step s₀ (es ++ fs) s' := by
  induction h' with
  | nil => simpa using h
  | snoc _ hstep ih =>
      rw [← List.append_assoc]
      exact ih.snoc hstep

/-- Appending events extends a run: every run over `es ++ fs` passes through a state after `es`. -/
theorem split {es fs : List ε} {s' : σ} (h : Run step s₀ (es ++ fs) s') :
    ∃ s, Run step s₀ es s ∧ Run step s fs s' := by
  generalize hes : es ++ fs = gs at h
  induction h generalizing fs with
  | nil =>
      obtain ⟨rfl, rfl⟩ := List.append_eq_nil_iff.mp hes
      exact ⟨_, .nil, .nil⟩
  | @snoc gs e s s' hprev hstep ih =>
      rcases List.eq_nil_or_concat fs with rfl | ⟨fs', e', rfl⟩
      · rw [List.append_nil] at hes
        exact ⟨_, hes ▸ hprev.snoc hstep, .nil⟩
      · rw [List.concat_eq_append, ← List.append_assoc] at hes
        obtain ⟨hes', he⟩ := List.append_inj' hes rfl
        obtain ⟨t, ht, ht'⟩ := ih hes'
        refine ⟨t, ht, ?_⟩
        rw [List.concat_eq_append, List.cons.inj he |>.1]
        exact ht'.snoc hstep

/-- A system that computes its next state, run over a list of events. -/
theorem of_foldlM {exec : σ → ε → Option σ} {es : List ε} {s : σ}
    (h : es.foldlM exec s₀ = some s) : Run (fun s e s' => exec s e = some s') s₀ es s := by
  induction es generalizing s₀ with
  | nil =>
      obtain rfl := Option.some.inj h
      exact .nil
  | cons e es ih =>
      rw [List.foldlM_cons] at h
      obtain ⟨t, hfirst, hrest⟩ := Option.bind_eq_some_iff.mp h
      exact (Run.nil.snoc hfirst).append (ih hrest)

end Run

end Ripclone.Library
