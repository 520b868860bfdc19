import Ripclone.Library.Calls

/-!
# What a program does

The calls a program makes, with their replies, whatever the replies are: what it can do next to
anything else that uses the same surroundings. A program run over a state does one of them.
-/

namespace Ripclone.Library

variable {C : Type} {R : C → Type} {α β σ : Type}

/-- A call and its reply. -/
abbrev Event (C : Type) (R : C → Type) := Sigma R

namespace Prog

/-- The program makes the calls of `events`, gets their replies and ends. -/
inductive Runs : Prog C R α → List (Event C R) → α → Prop
  | pure (a : α) : Runs (.pure a) [] a
  | call {c : C} {k : R c → Prog C R α} {r : R c} {events : List (Event C R)} {a : α}
      (h : Runs (k r) events a) : Runs (.call c k) (⟨c, r⟩ :: events) a

/-- What a program does over a state. -/
def trace (exec : (c : C) → σ → R c × σ) : Prog C R α → σ → List (Event C R)
  | .pure _, _ => []
  | .call c k, s => ⟨c, (exec c s).1⟩ :: (k (exec c s).1).trace exec (exec c s).2

theorem runs_trace (exec : (c : C) → σ → R c × σ) (p : Prog C R α) (s : σ) :
    p.Runs (p.trace exec s) (p.run exec s).1 := by
  induction p generalizing s with
  | pure a => exact .pure a
  | call c k ih => exact .call (ih _ _)

theorem Runs.bind {p : Prog C R α} {f : α → Prog C R β} {first later : List (Event C R)} {a : α}
    {b : β} (hp : p.Runs first a) (hf : (f a).Runs later b) : (p >>= f).Runs (first ++ later) b := by
  induction hp with
  | pure a => exact hf
  | call _ ih => exact .call (ih hf)

theorem runs_bind {p : Prog C R α} {f : α → Prog C R β} {events : List (Event C R)} {b : β} :
    (p >>= f).Runs events b ↔
      ∃ first a later, events = first ++ later ∧ p.Runs first a ∧ (f a).Runs later b := by
  constructor
  · intro h
    induction p generalizing events with
    | pure a => exact ⟨[], a, events, rfl, .pure a, h⟩
    | call c k ih =>
        cases h with
        | @call _ _ r events _ h =>
            obtain ⟨first, a, later, rfl, hfirst, hlater⟩ := ih r h
            exact ⟨⟨c, r⟩ :: first, a, later, rfl, .call hfirst, hlater⟩
  · rintro ⟨first, a, later, rfl, hfirst, hlater⟩
    exact hfirst.bind hlater

end Prog

/-! ## Programs that may fail -/

section Except

variable {ε ε' : Type} {events : List (Event C R)}

/-- The program makes the calls of `events`, gets their replies and succeeds. -/
def RunsTo (x : ExceptT ε (Prog C R) α) (events : List (Event C R)) (a : α) : Prop :=
  x.run.Runs events (.ok a)

@[simp] theorem runsTo_pure {a b : α} :
    RunsTo (pure a : ExceptT ε (Prog C R) α) events b ↔ events = [] ∧ a = b := by
  constructor
  · intro h
    cases h
    exact ⟨rfl, rfl⟩
  · rintro ⟨rfl, rfl⟩
    exact .pure _

@[simp] theorem runsTo_throw {e : ε} {b : α} :
    RunsTo (throw e : ExceptT ε (Prog C R) α) events b ↔ False := by
  constructor
  · intro h
    cases h
  · exact False.elim

theorem RunsTo.bind {x : ExceptT ε (Prog C R) α} {f : α → ExceptT ε (Prog C R) β}
    {first later : List (Event C R)} {a : α} {b : β} (hx : RunsTo x first a)
    (hf : RunsTo (f a) later b) : RunsTo (x >>= f) (first ++ later) b :=
  Prog.Runs.bind hx hf

theorem runsTo_bind {x : ExceptT ε (Prog C R) α} {f : α → ExceptT ε (Prog C R) β} {b : β} :
    RunsTo (x >>= f) events b ↔
      ∃ first a later, events = first ++ later ∧ RunsTo x first a ∧ RunsTo (f a) later b := by
  constructor
  · intro h
    obtain ⟨first, result, later, rfl, hfirst, hlater⟩ := Prog.runs_bind.mp h
    cases result with
    | ok a => exact ⟨first, a, later, rfl, hfirst, hlater⟩
    | error e => cases hlater
  · rintro ⟨first, a, later, rfl, hfirst, hlater⟩
    exact hfirst.bind hlater

theorem runsTo_attempt {c : C} {r : R c} :
    RunsTo (attempt c : ExceptT ε (Prog C R) (R c)) events r ↔ events = [⟨c, r⟩] := by
  constructor
  · intro h
    cases h with
    | call h =>
        cases h
        rfl
  · rintro rfl
    exact .call (.pure _)

theorem runsTo_ofExcept {x : Except ε α} {a : α} :
    RunsTo (MonadExcept.ofExcept x : ExceptT ε (Prog C R) α) events a ↔ events = [] ∧ x = .ok a := by
  cases x with
  | ok b => exact runsTo_pure.trans (by simp)
  | error e => exact runsTo_throw.trans (by simp)

/-- Another name for an error changes nothing else. -/
theorem runsTo_adapt {f : ε → ε'} {x : ExceptT ε (Prog C R) α} {a : α} :
    RunsTo (x.adapt f) events a ↔ RunsTo x events a := by
  constructor
  · intro h
    obtain ⟨first, result, later, rfl, hfirst, hlater⟩ := Prog.runs_bind.mp h
    cases result with
    | ok a' =>
        cases hlater
        rw [List.append_nil]
        exact hfirst
    | error e => cases hlater
  · intro h
    have hmapped : (x.adapt f).run.Runs (events ++ []) (.ok a) := Prog.Runs.bind h (.pure _)
    rwa [List.append_nil] at hmapped

/-- A run that succeeds, as what it does. -/
theorem runsTo_of_runExcept {exec : (c : C) → σ → R c × σ} {x : ExceptT ε (Prog C R) α} {s : σ} {a : α}
    (h : (runExcept exec x s).1 = .ok a) : RunsTo x (x.run.trace exec s) a := by
  have hruns := Prog.runs_trace exec x.run s
  rw [show (x.run.run exec s).1 = .ok a from h] at hruns
  exact hruns

/-! ### Runs that go well -/

/-- Some replies let the program succeed. -/
def CanReturn (x : ExceptT ε (Prog C R) α) (a : α) : Prop := ∃ events, RunsTo x events a

theorem CanReturn.pure (a : α) : CanReturn (Pure.pure a : ExceptT ε (Prog C R) α) a :=
  ⟨[], runsTo_pure.mpr ⟨rfl, rfl⟩⟩

theorem CanReturn.bind {x : ExceptT ε (Prog C R) α} {f : α → ExceptT ε (Prog C R) β} {a : α} {b : β}
    (hx : CanReturn x a) (hf : CanReturn (f a) b) : CanReturn (x >>= f) b := by
  obtain ⟨first, hfirst⟩ := hx
  obtain ⟨later, hlater⟩ := hf
  exact ⟨first ++ later, hfirst.bind hlater⟩

/-- A call, and what comes after the reply `r`. -/
theorem CanReturn.call (c : C) (r : R c) {f : R c → ExceptT ε (Prog C R) β} {b : β}
    (hf : CanReturn (f r) b) : CanReturn (attempt c >>= f) b := by
  obtain ⟨later, hlater⟩ := hf
  exact ⟨_, (runsTo_attempt.mpr rfl).bind hlater⟩

end Except

end Ripclone.Library
