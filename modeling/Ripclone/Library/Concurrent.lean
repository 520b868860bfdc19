import Ripclone.Library.Calls

/-!
# Programs next to one another

Programs run over one state, and what a call does to it need not be determined: `does t c s r s'` says
that program `t`, which calls `c` in state `s`, may get the reply `r` and leave `s'`. Between their calls
the state changes from outside, and a crash ends all programs and leaves what it leaves.

A program is proved by itself, over what it may rely on: `rely t` says which changes the others make, and
`inv` holds between any two calls. `Safe inv rely t pre p post` is that, from states with `pre` on, the
program keeps `inv`, does to the others what they rely on, and ends with `post`. Programs that are safe
keep `inv` together (`Crew.invariant`).
-/

namespace Ripclone.Library

variable {C : Type} {R : C → Type} {α β σ ε : Type}

/-- What calls do to a state, and what happens to it besides. -/
structure Effects (C : Type) (R : C → Type) (σ : Type) where
  does : Nat → (c : C) → σ → R c → σ → Prop
  outside : σ → σ → Prop
  crash : σ → σ → Prop

namespace Effects

variable (effects : Effects C R σ) (inv : σ → Prop) (rely : Nat → σ → σ → Prop)

/-- Program `t` keeps `inv` and does to the others what they rely on. -/
inductive Safe (t : Nat) : (σ → Prop) → Prog C R α → (α → σ → Prop) → Prop
  | pure {pre : σ → Prop} {post : α → σ → Prop} {a : α} (hpost : ∀ s, inv s → pre s → post a s) :
      Safe t pre (.pure a) post
  | call {pre : σ → Prop} {post : α → σ → Prop} {c : C} {k : R c → Prog C R α} (mid : R c → σ → Prop)
      (hdoes : ∀ s r s', inv s → pre s → effects.does t c s r s' →
        inv s' ∧ (∀ other, other ≠ t → rely other s s') ∧ mid r s')
      (hstable : ∀ r s s', mid r s → rely t s s' → mid r s')
      (hk : ∀ r, Safe t (mid r) (k r) post) : Safe t pre (.call c k) post

section Rules

variable {effects inv rely} {t : Nat} {pre pre' : σ → Prop}

theorem Safe.weaken {p : Prog C R α} {post : α → σ → Prop} (hp : effects.Safe inv rely t pre' p post)
    (hpre : ∀ s, inv s → pre s → pre' s) : effects.Safe inv rely t pre p post := by
  cases hp with
  | pure hpost => exact .pure fun s hs h => hpost s hs (hpre s hs h)
  | call mid hdoes hstable hk =>
      exact .call mid (fun s r s' hs h => hdoes s r s' hs (hpre s hs h)) hstable hk

theorem Safe.post {p : Prog C R α} {post post' : α → σ → Prop} (hp : effects.Safe inv rely t pre p post)
    (hpost : ∀ a s, post a s → post' a s) : effects.Safe inv rely t pre p post' := by
  induction hp with
  | pure h => exact .pure fun s hs hpre => hpost _ s (h s hs hpre)
  | call mid hdoes hstable _ ih => exact .call mid hdoes hstable fun r => ih r hpost

theorem Safe.bind {p : Prog C R α} {f : α → Prog C R β} {mid : α → σ → Prop} {post : β → σ → Prop}
    (hp : effects.Safe inv rely t pre p mid) (hf : ∀ a, effects.Safe inv rely t (mid a) (f a) post) :
    effects.Safe inv rely t pre (p >>= f) post := by
  induction hp with
  | pure hpost => exact (hf _).weaken hpost
  | call mid' hdoes hstable _ ih => exact .call mid' hdoes hstable fun r => ih r hf

/-- From no state on, everything is safe. -/
theorem Safe.impossible (p : Prog C R α) (hpre : ∀ s, ¬ pre s) (post : α → σ → Prop) :
    effects.Safe inv rely t pre p post := by
  induction p generalizing pre with
  | pure a => exact .pure fun s _ h => absurd h (hpre s)
  | call c k ih =>
      exact .call (fun _ _ => False) (fun s _ _ _ h _ => absurd h (hpre s)) (fun _ _ _ h _ => h)
        fun r => ih r fun _ h => h

theorem Safe.assuming {p : Prop} {x : Prog C R α} {post : α → σ → Prop}
    (hx : p → effects.Safe inv rely t pre x post) : effects.Safe inv rely t (fun s => pre s ∧ p) x post := by
  by_cases hp : p
  · exact (hx hp).weaken fun _ _ h => h.1
  · exact .impossible x (fun _ h => hp h.2) post

variable (effects inv rely) in
/-- A program that may fail is safe, and ends with `post` when it does not. -/
def SafeExcept (t : Nat) (pre : σ → Prop) (x : ExceptT ε (Prog C R) α) (post : α → σ → Prop) : Prop :=
  effects.Safe inv rely t pre x.run fun result s => ∀ a, result = .ok a → post a s

namespace SafeExcept

theorem ret {a : α} {post : α → σ → Prop} (hpost : ∀ s, inv s → pre s → post a s) :
    effects.SafeExcept inv rely t pre (pure a : ExceptT ε (Prog C R) α) post :=
  .pure fun s hs h _ heq => Except.ok.inj heq ▸ hpost s hs h

theorem throw (e : ε) {post : α → σ → Prop} :
    effects.SafeExcept inv rely t pre (throw e : ExceptT ε (Prog C R) α) post :=
  .pure fun _ _ _ _ heq => by cases heq

theorem weaken {x : ExceptT ε (Prog C R) α} {post : α → σ → Prop}
    (hx : effects.SafeExcept inv rely t pre' x post) (hpre : ∀ s, inv s → pre s → pre' s) :
    effects.SafeExcept inv rely t pre x post :=
  Safe.weaken hx hpre

theorem assuming {p : Prop} {x : ExceptT ε (Prog C R) α} {post : α → σ → Prop}
    (hx : p → effects.SafeExcept inv rely t pre x post) :
    effects.SafeExcept inv rely t (fun s => pre s ∧ p) x post :=
  Safe.assuming hx

/-- A program's result, whatever it is. -/
theorem lift {p : Prog C R α} {post : α → σ → Prop} (hp : effects.Safe inv rely t pre p post) :
    effects.SafeExcept inv rely t pre (ExceptT.lift p : ExceptT ε (Prog C R) α) post :=
  Safe.bind hp fun _ => .pure fun _ _ h _ heq => Except.ok.inj heq ▸ h

theorem post {x : ExceptT ε (Prog C R) α} {post post' : α → σ → Prop}
    (hx : effects.SafeExcept inv rely t pre x post) (hpost : ∀ a s, post a s → post' a s) :
    effects.SafeExcept inv rely t pre x post' :=
  Safe.post hx fun _ s h a heq => hpost a s (h a heq)

theorem bind {x : ExceptT ε (Prog C R) α} {f : α → ExceptT ε (Prog C R) β} {mid : α → σ → Prop}
    {post : β → σ → Prop} (hx : effects.SafeExcept inv rely t pre x mid)
    (hf : ∀ a, effects.SafeExcept inv rely t (mid a) (f a) post) :
    effects.SafeExcept inv rely t pre (x >>= f) post := by
  refine Safe.bind hx fun result => ?_
  cases result with
  | ok a => exact Safe.weaken (hf a) fun s _ h => h a rfl
  | error e => exact .pure fun _ _ _ _ heq => by cases heq

theorem attempt {c : C} {mid : R c → σ → Prop}
    (hdoes : ∀ s r s', inv s → pre s → effects.does t c s r s' →
      inv s' ∧ (∀ other, other ≠ t → rely other s s') ∧ mid r s')
    (hstable : ∀ r s s', mid r s → rely t s s' → mid r s') :
    effects.SafeExcept inv rely t pre (Library.attempt c : ExceptT ε (Prog C R) (R c)) mid :=
  .call mid hdoes hstable fun _ => .pure fun _ _ h _ heq => Except.ok.inj heq ▸ h

end SafeExcept

end Rules

end Effects

/-! ## All of them -/

/-- The programs that run, over their state. One that has ended stays in its place. -/
structure Crew (C : Type) (R : C → Type) (σ : Type) where
  state : σ
  threads : List (Prog C R Unit)

inductive CrewEvent where
  /-- Program `t` makes its next call. -/
  | call (t : Nat)
  | spawn
  | outside
  | crash
  deriving DecidableEq, Repr

/-- A step of the programs, of which those that satisfy `allowed` are started. -/
inductive Crew.Step (effects : Effects C R σ) (allowed : Prog C R Unit → Prop) :
    Crew C R σ → CrewEvent → Crew C R σ → Prop
  | call {s s' : σ} {threads : List (Prog C R Unit)} {t : Nat} {c : C} {k : R c → Prog C R Unit} {r : R c}
      (hthread : threads[t]? = some (.call c k)) (hdoes : effects.does t c s r s') :
      Step effects allowed ⟨s, threads⟩ (.call t) ⟨s', threads.set t (k r)⟩
  | spawn {s : σ} {threads : List (Prog C R Unit)} {p : Prog C R Unit} (hallowed : allowed p) :
      Step effects allowed ⟨s, threads⟩ .spawn ⟨s, threads ++ [p]⟩
  | outside {s s' : σ} {threads : List (Prog C R Unit)} (houtside : effects.outside s s') :
      Step effects allowed ⟨s, threads⟩ .outside ⟨s', threads⟩
  | crash {s s' : σ} {threads : List (Prog C R Unit)} (hcrash : effects.crash s s') :
      Step effects allowed ⟨s, threads⟩ .crash ⟨s', []⟩

section Play

variable (exec : Nat → (c : C) → σ → R c × σ)

/-- The programs make their calls in this order, and get the replies of `exec`. -/
def Crew.play : List Nat → Crew C R σ → Crew C R σ
  | [], crew => crew
  | t :: rest, crew =>
    match crew.threads[t]? with
    | some (.call c k) =>
      let (r, s) := exec t c crew.state
      play rest ⟨s, crew.threads.set t (k r)⟩
    | _ => play rest crew

theorem Crew.run_play {effects : Effects C R σ} {allowed : Prog C R Unit → Prop}
    (hexec : ∀ t c s, effects.does t c s (exec t c s).1 (exec t c s).2) (order : List Nat) (crew : Crew C R σ) :
    ∃ events, Run (Step effects allowed) crew events (crew.play exec order) := by
  induction order generalizing crew with
  | nil => exact ⟨[], .nil⟩
  | cons t rest ih =>
      rw [play]
      split
      · next c k hthread =>
          obtain ⟨events, hrest⟩ := ih ⟨(exec t c crew.state).2, crew.threads.set t (k (exec t c crew.state).1)⟩
          have hfirst : Step effects allowed crew (.call t) _ := .call hthread (hexec t c crew.state)
          exact ⟨_, (Run.nil.snoc hfirst).append hrest⟩
      · exact ih crew

end Play

/-- What holds between any two calls holds at every point of every interleaving, with crashes. -/
theorem Crew.invariant {effects : Effects C R σ} {inv : σ → Prop} {rely : Nat → σ → σ → Prop}
    {allowed : Prog C R Unit → Prop}
    (hsafe : ∀ p, allowed p → ∀ t, effects.Safe inv rely t (fun _ => True) p fun _ _ => True)
    (houtside : ∀ s s', inv s → effects.outside s s' → inv s' ∧ ∀ t, rely t s s')
    (hcrash : ∀ s s', inv s → effects.crash s s' → inv s') {s₀ : σ} (hinit : inv s₀)
    {events : List CrewEvent} {crew : Crew C R σ} (hrun : Run (Step effects allowed) ⟨s₀, []⟩ events crew) :
    inv crew.state := by
  let Ready (t : Nat) (s : σ) (p : Prog C R Unit) : Prop := ∃ pre : σ → Prop,
    (∀ s s', pre s → rely t s s' → pre s') ∧ pre s ∧ effects.Safe inv rely t pre p fun _ _ => True
  -- Each thread is safe from something that it knows of the state and the others do not change.
  suffices hboth : inv crew.state ∧ ∀ t p, crew.threads[t]? = some p → Ready t crew.state p from hboth.1
  refine hrun.invariant_history
    (I := fun _ crew => inv crew.state ∧ ∀ t p, crew.threads[t]? = some p → Ready t crew.state p)
    ⟨hinit, fun t p hp => by cases hp⟩ ?_
  rintro _ e _ _ _ ⟨hinv, hready⟩ hstep
  cases hstep with
  | @call s s' threads t c k r hthread hdoes =>
      obtain ⟨pre, _, hpre, hsafe⟩ := hready t _ hthread
      cases hsafe with
      | call mid hcall hstable hk =>
          obtain ⟨hinv', hothers, hmid⟩ := hcall s r s' hinv hpre hdoes
          refine ⟨hinv', fun other p hp => ?_⟩
          by_cases hother : other = t
          · subst hother
            have hlt := (List.getElem?_eq_some_iff.mp hthread).1
            rw [List.getElem?_set_self hlt] at hp
            obtain rfl := Option.some.inj hp
            exact ⟨mid r, hstable r, hmid, hk r⟩
          · rw [List.getElem?_set_ne (Ne.symm hother)] at hp
            obtain ⟨pre', hkeeps, hpre', hsafe'⟩ := hready other p hp
            exact ⟨pre', hkeeps, hkeeps s s' hpre' (hothers other hother), hsafe'⟩
  | @spawn s threads p hallowed =>
      refine ⟨hinv, fun t q hq => ?_⟩
      rw [List.getElem?_append] at hq
      split at hq
      · exact hready t q hq
      · obtain rfl := List.mem_singleton.mp (List.mem_of_getElem? hq)
        exact ⟨fun _ => True, fun _ _ _ _ => trivial, trivial, hsafe _ hallowed t⟩
  | @outside s s' threads hout =>
      obtain ⟨hinv', hrely⟩ := houtside s s' hinv hout
      refine ⟨hinv', fun t p hp => ?_⟩
      obtain ⟨pre, hkeeps, hpre, hsafe⟩ := hready t p hp
      exact ⟨pre, hkeeps, hkeeps s s' hpre (hrely t), hsafe⟩
  | @crash s s' threads hdown =>
      exact ⟨hcrash s s' hinv hdown, fun t p hp => by cases hp⟩

end Ripclone.Library
