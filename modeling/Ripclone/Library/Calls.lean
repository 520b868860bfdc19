import Ripclone.Library.Run

/-!
# Programs that make calls

A `Prog` is what a thread does as far as its surroundings can tell: it makes calls and goes on with
their replies. The surroundings give the calls a meaning, `exec`, over a state of their own. One
program can then be run to its end, and several at once, one call at a time in any order.

`Within P Q S` says that every call of a program meets `P` and its result `S`, when the replies it
gets meet `Q`. An invariant that every call within `P` keeps, with a reply within `Q`, holds after the
program and at every point of every interleaving of such programs.
-/

namespace Ripclone.Library

variable {C : Type} {R : C → Type} {α β σ : Type}

inductive Prog (C : Type) (R : C → Type) (α : Type) where
  | pure (a : α)
  | call (c : C) (k : R c → Prog C R α)

namespace Prog

def bind : Prog C R α → (α → Prog C R β) → Prog C R β
  | .pure a, f => f a
  | .call c k, f => .call c fun r => (k r).bind f

instance : Monad (Prog C R) where
  pure := Prog.pure
  bind := Prog.bind

def perform (c : C) : Prog C R (R c) := .call c .pure

/-- The result of a program and the state it leaves. -/
def run (exec : (c : C) → σ → R c × σ) : Prog C R α → σ → α × σ
  | .pure a, s => (a, s)
  | .call c k, s => (k (exec c s).1).run exec (exec c s).2

section Run

variable {exec : (c : C) → σ → R c × σ}

@[simp] theorem run_pure (a : α) (s : σ) : run exec (pure a : Prog C R α) s = (a, s) := rfl

@[simp] theorem run_bind (p : Prog C R α) (f : α → Prog C R β) (s : σ) :
    run exec (p >>= f) s = run exec (f (run exec p s).1) (run exec p s).2 := by
  induction p generalizing s with
  | pure a => rfl
  | call c k ih => exact ih _ _

end Run

/-- Every call meets `P` and the result `S`, when every reply meets `Q`. -/
inductive Within (P : C → Prop) (Q : (c : C) → R c → Prop) (S : α → Prop) : Prog C R α → Prop
  | pure {a : α} (ha : S a) : Within P Q S (.pure a)
  | call {c : C} {k : R c → Prog C R α} (hcall : P c) (hk : ∀ r, Q c r → Within P Q S (k r)) :
      Within P Q S (.call c k)

section Within

variable {P : C → Prop} {Q : (c : C) → R c → Prop} {S : α → Prop}

theorem Within.bind {T : β → Prop} {p : Prog C R α} {f : α → Prog C R β} (hp : Within P Q S p)
    (hf : ∀ a, S a → Within P Q T (f a)) : Within P Q T (p >>= f) := by
  induction hp with
  | pure ha => exact hf _ ha
  | call hcall _ ih => exact .call hcall ih

theorem Within.mono {P' : C → Prop} {S' : α → Prop} (hP : ∀ c, P c → P' c)
    (hS : ∀ a, S a → S' a) {p : Prog C R α} (hp : Within P Q S p) : Within P' Q S' p := by
  induction hp with
  | pure ha => exact .pure (hS _ ha)
  | call hcall _ ih => exact .call (hP _ hcall) ih

/-- What every call keeps holds after the program. -/
theorem Within.run {exec : (c : C) → σ → R c × σ} {I : σ → Prop}
    (hexec : ∀ c s, P c → I s → Q c (exec c s).1 ∧ I (exec c s).2) {p : Prog C R α}
    (hp : Within P Q S p) {s : σ} (hs : I s) : I (p.run exec s).2 := by
  induction hp generalizing s with
  | pure _ => exact hs
  | @call c k hcall _ ih =>
      obtain ⟨hreply, hafter⟩ := hexec c s hcall hs
      exact ih _ hreply hafter

end Within

end Prog

/-! ## Programs that may fail -/

/-- A call, in a program that may fail. -/
def attempt {ε : Type} (c : C) : ExceptT ε (Prog C R) (R c) := ExceptT.lift (Prog.perform c)

section Except

variable {ε : Type} {P : C → Prop} {Q : (c : C) → R c → Prop} {S : α → Prop}

/-- Every call of a program that may fail meets `P`, and its result, if it does not fail, `S`. -/
def Within (P : C → Prop) (Q : (c : C) → R c → Prop) (S : α → Prop) (x : ExceptT ε (Prog C R) α) :
    Prop :=
  Prog.Within P Q (fun result => ∀ a, result = .ok a → S a) x.run

namespace Within

theorem ret {a : α} (ha : S a) : Within P Q S (pure a : ExceptT ε (Prog C R) α) :=
  .pure fun _ heq => Except.ok.inj heq ▸ ha

theorem throw (e : ε) : Within P Q S (throw e : ExceptT ε (Prog C R) α) :=
  .pure fun _ heq => by cases heq

theorem bind {T : β → Prop} {x : ExceptT ε (Prog C R) α} {f : α → ExceptT ε (Prog C R) β}
    (hx : Within P Q S x) (hf : ∀ a, S a → Within P Q T (f a)) : Within P Q T (x >>= f) := by
  refine Prog.Within.bind hx fun result hresult => ?_
  cases result with
  | ok a => exact hf a (hresult a rfl)
  | error e => exact .pure fun _ heq => by cases heq

theorem mono {P' : C → Prop} (hP : ∀ c, P c → P' c) {x : ExceptT ε (Prog C R) α}
    (hx : Within P Q S x) : Within P' Q S x :=
  Prog.Within.mono hP (fun _ => id) hx

/-- A call returns its reply. -/
theorem attempt {c : C} (hcall : P c) :
    Within P Q (Q c) (Library.attempt c : ExceptT ε (Prog C R) (R c)) :=
  .call hcall fun _ hr => .pure fun _ heq => Except.ok.inj heq ▸ hr

end Within

section Run

variable {exec : (c : C) → σ → R c × σ}

/-- What a program that may fail leaves, and whether it failed. -/
def runExcept (exec : (c : C) → σ → R c × σ) (x : ExceptT ε (Prog C R) α) (s : σ) :
    Except ε α × σ := Prog.run exec x.run s

@[simp] theorem runExcept_pure (a : α) (s : σ) :
    runExcept exec (pure a : ExceptT ε (Prog C R) α) s = (.ok a, s) := rfl

@[simp] theorem runExcept_throw (e : ε) (s : σ) :
    runExcept exec (throw e : ExceptT ε (Prog C R) α) s = (.error e, s) := rfl

@[simp] theorem runExcept_attempt (c : C) (s : σ) :
    runExcept exec (attempt c : ExceptT ε (Prog C R) (R c)) s =
      (.ok (exec c s).1, (exec c s).2) := rfl

/-- A sequence that succeeds does its first part and then its second. -/
theorem runExcept_bind_ok {x : ExceptT ε (Prog C R) α} {f : α → ExceptT ε (Prog C R) β} {s s' : σ}
    {b : β} (h : runExcept exec (x >>= f) s = (.ok b, s')) :
    ∃ a t, runExcept exec x s = (.ok a, t) ∧ runExcept exec (f a) t = (.ok b, s') := by
  have hbind : runExcept exec (x >>= f) s =
      Prog.run exec (ExceptT.bindCont f (runExcept exec x s).1) (runExcept exec x s).2 :=
    Prog.run_bind _ _ _
  rw [hbind] at h
  rcases hx : runExcept exec x s with ⟨result, t⟩
  rw [hx] at h
  cases result with
  | ok a => exact ⟨a, t, rfl, h⟩
  | error e => cases h

end Run

end Except

/-! ## Several programs at once -/

/-- Programs that run over one state. -/
structure Threads (C : Type) (R : C → Type) (σ : Type) where
  state : σ
  threads : List (Prog C R Unit)

namespace Threads

/-- The `i`th program makes its next call. -/
def step (exec : (c : C) → σ → R c × σ) (s : Threads C R σ) (i : Nat) : Option (Threads C R σ) :=
  match s.threads[i]? with
  | some (.call c k) =>
    some ⟨(exec c s.state).2, s.threads.set i (k (exec c s.state).1)⟩
  | _ => none

def Step (exec : (c : C) → σ → R c × σ) (s : Threads C R σ) (i : Nat) (s' : Threads C R σ) : Prop :=
  s.step exec i = some s'

/-- What every call keeps holds at every point of every interleaving. -/
theorem invariant {exec : (c : C) → σ → R c × σ} {P : C → Prop} {Q : (c : C) → R c → Prop}
    {I : σ → Prop} (hexec : ∀ c s, P c → I s → Q c (exec c s).1 ∧ I (exec c s).2)
    {s s' : Threads C R σ} {order : List Nat} (hrun : Run (Step exec) s order s')
    (hs : I s.state) (hthreads : ∀ p ∈ s.threads, p.Within P Q fun _ => True) :
    I s'.state := by
  suffices hboth : I s'.state ∧ ∀ p ∈ s'.threads, p.Within P Q fun _ => True from hboth.1
  refine hrun.invariant (P := fun _ => True)
    (I := fun t => I t.state ∧ ∀ p ∈ t.threads, p.Within P Q fun _ => True) ⟨hs, hthreads⟩ ?_
    (by simp)
  rintro i t t' - ⟨ht, hwithin⟩ hstep
  unfold Step step at hstep
  split at hstep
  · next c k hi =>
      obtain rfl := Option.some.inj hstep
      cases hwithin _ (List.mem_of_getElem? hi) with
      | call hcall hk =>
          obtain ⟨hreply, hafter⟩ := hexec c t.state hcall ht
          refine ⟨hafter, fun p hp => ?_⟩
          rcases List.mem_or_eq_of_mem_set hp with hold | rfl
          · exact hwithin p hold
          · exact hk _ hreply
  · cases hstep

end Threads

end Ripclone.Library
