import Ripclone.Storage.PutLimit

/-!
# Runs under the limit on PUTs

Whatever the order of its steps, the slots that are free or held are as many as the limit and the debt,
and the limit stays between one and its maximum. That no slot is free while there is debt holds as long
as no waiter goes away with a slot it was handed: such a slot is given back to the semaphore and not
set against the debt.
-/

namespace Ripclone.Storage

open Ripclone.Library PutLimit

variable {limit limit' : PutLimit} {event : Event} {maximum put : Nat} {permit : PutPermit}

theorem Step.effect (hpos : 0 < limit.state.limit) (h : Step limit event limit') :
    Effect limit event limit' ∧ limit'.max = limit.max := by
  obtain ⟨limit'', hexec, heffect⟩ := exec_ok hpos h.1
  obtain rfl := Except.ok.inj (h.2.symm.trans hexec)
  exact heffect

/-! ## Every run -/

/-- What holds in every state. -/
structure Sound (maximum : Nat) (limit : PutLimit) : Prop where
  max_eq : limit.max = max maximum 1
  slots_eq : limit.slots.free + limit.held = limit.state.limit + limit.state.debt
  limit_pos : 1 ≤ limit.state.limit
  limit_le : limit.state.limit ≤ max maximum 1
  round_le : ∀ permit ∈ limit.permits, permit.round ≤ limit.state.round

theorem sound_new (maximum : Nat) : Sound maximum (.new maximum) where
  max_eq := rfl
  slots_eq := rfl
  limit_pos := Nat.le_max_right _ _
  limit_le := Nat.le_refl _
  round_le := by
    intro permit hpermit
    cases hpermit

/-- A PUT in flight was in flight before, or is sent in the round of this step. -/
theorem mem_permits (hpos : 0 < limit.state.limit) (h : Step limit event limit')
    (hpermit : permit ∈ limit'.permits) :
    permit ∈ limit.permits ∨ permit.round = limit.state.round := by
  obtain ⟨henabled, hexec⟩ := h
  cases event with
  | acquire put =>
      obtain rfl := Except.ok.inj hexec
      exact .inl hpermit
  | resumed put =>
      obtain rfl := Except.ok.inj hexec
      exact .inl hpermit
  | started put =>
      obtain rfl := Except.ok.inj hexec
      rcases List.mem_cons.mp hpermit with rfl | hmem
      · exact .inr rfl
      · exact .inl hmem
  | abandoned put =>
      obtain rfl := Except.ok.inj hexec
      exact .inl hpermit
  | succeeded permit =>
      rcases succeeded_cases limit with ⟨successes, hok⟩ | ⟨-, -, hok⟩ | ⟨-, -, hok⟩
      all_goals
        rw [exec, hok] at hexec
        obtain rfl := Except.ok.inj hexec
        exact .inl (List.mem_of_mem_erase hpermit)
  | throttled permit =>
      rcases throttled_cases hpos permit with ⟨-, hok⟩ | ⟨-, forgotten, owed, -, -, -, hok⟩
      all_goals
        rw [exec, hok] at hexec
        obtain rfl := Except.ok.inj hexec
        exact .inl (List.mem_of_mem_erase hpermit)
  | dropped permit =>
      rcases drop_cases limit with ⟨-, hok⟩ | ⟨-, hok⟩
      all_goals
        rw [exec, hok] at hexec
        obtain rfl := Except.ok.inj hexec
        exact .inl (List.mem_of_mem_erase hpermit)
  | released permit =>
      rcases drop_cases limit with ⟨-, hok⟩ | ⟨-, hok⟩
      all_goals
        rw [exec, hok] at hexec
        obtain rfl := Except.ok.inj hexec
        exact .inl hpermit

theorem Step.round_le (hpos : 0 < limit.state.limit) (h : Step limit event limit') :
    limit.state.round ≤ limit'.state.round := by
  obtain ⟨heffect, -⟩ := h.effect hpos
  cases heffect with
  | took _ _ state | gaveBack _ state _ => exact Nat.le_of_eq (congrArg State.round state.symm)
  | _ => omega

/-- Each step keeps what holds in every state. -/
theorem sound_step (hsound : Sound maximum limit) (h : Step limit event limit') :
    Sound maximum limit' := by
  have hpos : 0 < limit.state.limit := hsound.limit_pos
  obtain ⟨heffect, hmax⟩ := h.effect hpos
  have hround := h.round_le hpos
  have hslots := hsound.slots_eq
  have hle := hsound.limit_le
  have hmax' := hsound.max_eq
  have hrounds : ∀ permit ∈ limit'.permits, permit.round ≤ limit'.state.round := by
    intro permit hpermit
    rcases mem_permits hpos h hpermit with hold | hnew
    · exact Nat.le_trans (hsound.round_le permit hold) hround
    · rw [hnew]
      exact hround
  refine ⟨hmax.trans hmax', ?_, ?_, ?_, hrounds⟩
  all_goals
    cases heffect with
    | took _ _ state | gaveBack _ state _ =>
        rw [state]
        omega
    | _ => omega

theorem sound_run {events : List Event} (hrun : Run Step (.new maximum) events limit) :
    Sound maximum limit := by
  refine hrun.invariant (I := Sound maximum) (P := fun _ => True) (sound_new maximum) ?_ (by simp)
  intro event limit limit' _ hsound hstep
  exact sound_step hsound hstep

theorem round_le_run {events : List Event} (hsound : Sound maximum limit)
    (hrun : Run Step limit events limit') : limit.state.round ≤ limit'.state.round := by
  refine (hrun.invariant (I := fun l => Sound maximum l ∧ limit.state.round ≤ l.state.round)
    (P := fun _ => True) ⟨hsound, Nat.le_refl _⟩ ?_ (by simp)).2
  rintro event l l' - ⟨hsound, hle⟩ hstep
  exact ⟨sound_step hsound hstep, Nat.le_trans hle (hstep.round_le hsound.limit_pos)⟩

/-- A PUT halves the limit when it is throttled in the round it was sent in. -/
def Halves (limit : PutLimit) (permit : PutPermit) : Prop := permit.round = limit.state.round

theorem state_of_not_halves (hpos : 0 < limit.state.limit) (hnot : ¬Halves limit permit)
    (h : Step limit (.throttled permit) limit') : limit'.state = limit.state := by
  rcases throttled_cases hpos permit with ⟨-, hok⟩ | ⟨hround, -⟩
  · have hexec := h.2
    rw [exec, hok] at hexec
    obtain rfl := Except.ok.inj hexec
    rfl
  · exact absurd hround hnot

/-- A PUT that was in flight when the limit was halved never halves it again. -/
theorem not_halves_again {events : List Event} {halved : PutLimit} {other : PutPermit}
    (hsound : Sound maximum limit) (hpermit : permit ∈ limit.permits) (hother : Halves limit other)
    (hhalve : Step limit (.throttled other) halved) (hrun : Run Step halved events limit') :
    ¬Halves limit' permit := by
  have hround : halved.state.round = limit.state.round + 1 := by
    rcases throttled_cases hsound.limit_pos other with ⟨hne, -⟩ | ⟨-, forgotten, owed, -, -, -, hok⟩
    · exact absurd hother hne
    · have hexec := hhalve.2
      rw [exec, hok] at hexec
      obtain rfl := Except.ok.inj hexec
      rfl
  have hle := round_le_run (sound_step hsound hhalve) hrun
  have hold := hsound.round_le permit hpermit
  intro hagain
  have hagain : permit.round = limit'.state.round := hagain
  omega

/-! ## Runs without a lost debt -/

/-- No waiter goes away with a slot it was handed while there is debt. -/
def KeepsDebt (limit : PutLimit) : Event → Prop
  | .abandoned put => put ∈ limit.slots.handed → limit.state.debt = 0
  | _ => True

def CarefulStep (limit : PutLimit) (event : Event) (limit' : PutLimit) : Prop :=
  Step limit event limit' ∧ KeepsDebt limit event

/-- A slot is free only when there is no debt. -/
def FreeOnlyPaid (limit : PutLimit) : Prop := 0 < limit.slots.free → limit.state.debt = 0

theorem freeOnlyPaid_step (hpos : 0 < limit.state.limit) (hpaid : FreeOnlyPaid limit)
    (h : CarefulStep limit event limit') : FreeOnlyPaid limit' := by
  obtain ⟨heffect, -⟩ := h.1.effect hpos
  unfold FreeOnlyPaid at *
  cases heffect with
  | took _ _ state =>
      rw [state]
      omega
  | gaveBack _ state owed =>
      rw [state]
      rcases owed with hzero | hsame | ⟨put, rfl, hhanded⟩
      · exact fun _ => hzero
      · rw [hsame]
        exact hpaid
      · exact fun _ => h.2 hhanded
  | _ => omega

/-- A step gives a PUT a slot: a free one, or one that is handed to it while it waits. -/
def Gives (limit limit' : PutLimit) (put : Nat) : Prop :=
  put ∉ limit.slots.handed ++ limit.taken ∧ put ∈ limit'.slots.handed ++ limit'.taken

/-- A slot is given to a PUT only while there is no debt. -/
theorem debt_of_gives (hpos : 0 < limit.state.limit) (hpaid : FreeOnlyPaid limit)
    (h : CarefulStep limit event limit') (hgives : Gives limit limit' put) :
    limit'.state.debt = 0 := by
  obtain ⟨⟨henabled, hexec⟩, hkeeps⟩ := h
  obtain ⟨hnot, hgiven⟩ := hgives
  -- A slot is given to a new PUT by a release, which pays a debt first, or from the free ones.
  cases event with
  | acquire other =>
      obtain rfl := Except.ok.inj hexec
      by_cases hfree : 0 < limit.slots.free
      · exact hpaid hfree
      · refine absurd ?_ hnot
        simpa [PutLimit.acquire, Semaphore.acquire, hfree] using hgiven
  | resumed other =>
      obtain rfl := Except.ok.inj hexec
      refine absurd ?_ hnot
      rcases List.mem_append.mp hgiven with hmem | hmem
      · exact List.mem_append_left _ (List.mem_of_mem_erase hmem)
      · rcases List.mem_cons.mp hmem with rfl | hmem
        · exact List.mem_append_left _ henabled
        · exact List.mem_append_right _ hmem
  | started other =>
      obtain rfl := Except.ok.inj hexec
      refine absurd ?_ hnot
      rcases List.mem_append.mp hgiven with hmem | hmem
      · exact List.mem_append_left _ hmem
      · exact List.mem_append_right _ (List.mem_of_mem_erase hmem)
  | abandoned other =>
      obtain rfl := Except.ok.inj hexec
      by_cases hhanded : other ∈ limit.slots.handed
      · exact hkeeps hhanded
      · refine absurd ?_ hnot
        simpa [Semaphore.abandon, hhanded] using hgiven
  | succeeded permit =>
      rcases succeeded_cases limit with ⟨successes, hok⟩ | ⟨-, -, hok⟩ | ⟨-, hzero, hok⟩
      all_goals
        rw [exec, hok] at hexec
        obtain rfl := Except.ok.inj hexec
      · exact absurd hgiven hnot
      · exact absurd hgiven hnot
      · exact hzero
  | throttled permit =>
      rcases throttled_cases hpos permit with ⟨-, hok⟩ | ⟨-, forgotten, owed, -, -, -, hok⟩
      all_goals
        rw [exec, hok] at hexec
        obtain rfl := Except.ok.inj hexec
        exact absurd hgiven hnot
  | dropped permit | released permit =>
      rcases drop_cases limit with ⟨-, hok⟩ | ⟨hzero, hok⟩
      all_goals
        rw [exec, hok] at hexec
        obtain rfl := Except.ok.inj hexec
      · exact absurd hgiven hnot
      · exact hzero

theorem careful_run {events : List Event} (hrun : Run CarefulStep (.new maximum) events limit) :
    Sound maximum limit ∧ FreeOnlyPaid limit := by
  refine hrun.invariant (I := fun l => Sound maximum l ∧ FreeOnlyPaid l) (P := fun _ => True)
    ⟨sound_new maximum, fun _ => rfl⟩ ?_ (by simp)
  rintro event limit limit' - ⟨hsound, hpaid⟩ hstep
  exact ⟨sound_step hsound hstep.1, freeOnlyPaid_step hsound.limit_pos hpaid hstep⟩

/-- No slot is held or waited for. -/
def Idle (limit : PutLimit) : Prop := limit.slots.waiting = [] ∧ limit.held = 0

/-- In every state of a run in which no waiter goes away with a slot it was handed while there is debt:
the slots add up, the limit stays in its bounds, a slot is free only when there is no debt, an idle
limit has all its slots free, nothing goes below zero, a PUT is given a slot only while fewer others than
the limit hold one, and a PUT in flight when the limit was halved leaves it as it is when it is
throttled. -/
theorem putLimit_kept {events : List Event} (hrun : Run CarefulStep (.new maximum) events limit) :
    limit.slots.free + limit.held = limit.state.limit + limit.state.debt ∧
    1 ≤ limit.state.limit ∧ limit.state.limit ≤ max 1 maximum ∧
    (0 < limit.slots.free → limit.state.debt = 0) ∧
    (Idle limit → limit.slots.free = limit.state.limit) ∧
    (∀ event, limit.Enabled event → ∃ limit', limit.exec event = .ok limit') ∧
    (∀ event limit' put, CarefulStep limit event limit' → Gives limit limit' put →
      limit'.held ≤ limit'.state.limit) ∧
    (∀ permit other halved more later after, permit ∈ limit.permits → Halves limit other →
      CarefulStep limit (.throttled other) halved → Run CarefulStep halved more later →
      CarefulStep later (.throttled permit) after → after.state = later.state) := by
  obtain ⟨hsound, hpaid⟩ := careful_run hrun
  have hpos : 0 < limit.state.limit := hsound.limit_pos
  have hslots := hsound.slots_eq
  refine ⟨hslots, hpos, ?_, hpaid, ?_, ?_, ?_, ?_⟩
  · rw [Nat.max_comm]
    exact hsound.limit_le
  · rintro ⟨-, hidle⟩
    -- With nothing held, the free slots are the limit and the debt: there is one, so no debt.
    have hdebt := hpaid (by omega)
    omega
  · intro event henabled
    obtain ⟨limit', hexec, -⟩ := exec_ok hpos henabled
    exact ⟨limit', hexec⟩
  · intro event limit' put hstep hgives
    have hdebt := debt_of_gives hpos hpaid hstep hgives
    have hslots' := (sound_step hsound hstep.1).slots_eq
    omega
  · intro permit other halved more later after hpermit hother hhalve hmore hthrottled
    have hlater : Run Step halved more later := hmore.mono fun _ _ _ h => h.1
    have hsound' : Sound maximum later := by
      refine hlater.invariant (I := Sound maximum) (P := fun _ => True)
        (sound_step hsound hhalve.1) ?_ (by simp)
      intro event l l' _ hsound hstep
      exact sound_step hsound hstep
    exact state_of_not_halves hsound'.limit_pos
      (not_halves_again hsound hpermit hother hhalve.1 hlater) hthrottled.1

/-! ## A debt that is lost -/

/-- The state after an event, if it can come. -/
def PutLimit.exec? (limit : PutLimit) (event : Event) : Option PutLimit :=
  if limit.Enabled event then (limit.exec event).toOption else none

theorem step_of_exec? (h : limit.exec? event = some limit') : Step limit event limit' := by
  unfold PutLimit.exec? at h
  split at h
  · next henabled =>
      cases hexec : limit.exec event with
      | error panic =>
          rw [hexec] at h
          cases h
      | ok next =>
          rw [hexec] at h
          obtain rfl := Option.some.inj h
          exact ⟨henabled, hexec⟩
  · cases h

theorem run_of_exec? {start : PutLimit} {events : List Event}
    (h : events.foldlM PutLimit.exec? start = some limit) : Run Step start events limit :=
  (Run.of_foldlM h).mono fun _ _ _ => step_of_exec?

/-- Five PUTs under a limit of four, so one of them waits. One that is throttled halves the limit, which
leaves two slots owed; they are paid, and the next one goes to the PUT that waits. -/
def throttledOnce : List Event :=
  [.acquire 1, .started 1, .acquire 2, .started 2, .acquire 3, .started 3, .acquire 4, .started 4,
    .acquire 5, .throttled ⟨1, 0⟩, .released ⟨1, 0⟩, .dropped ⟨2, 0⟩, .dropped ⟨3, 0⟩, .resumed 5,
    .started 5, .dropped ⟨4, 0⟩, .dropped ⟨5, 1⟩]

def afterThrottledOnce : PutLimit := ⟨⟨2, [], []⟩, 4, ⟨2, 0, 1, 0⟩, [], [], []⟩

theorem throttledOnce_idle : Run CarefulStep (.new 4) throttledOnce afterThrottledOnce ∧
    afterThrottledOnce.slots.free = afterThrottledOnce.state.limit := by
  have hrun : Run Step (.new 4) throttledOnce afterThrottledOnce := run_of_exec? (by decide)
  have hcareful : Run CarefulStep (.new 4) throttledOnce afterThrottledOnce := by
    have hkeeps : ∀ event ∈ throttledOnce, ∀ limit, KeepsDebt limit event := by
      simp [throttledOnce, KeepsDebt]
    exact hrun.mono_mem fun limit event limit' hevent hstep => ⟨hstep, hkeeps event hevent limit⟩
  exact ⟨hcareful, (putLimit_kept hcareful).2.2.2.2.1 ⟨rfl, rfl⟩⟩

/-- Four PUTs hold all slots of a limit of four and three more wait. Three of the four end and hand their
slots over, the fourth is throttled, and the three that waited go away. -/
def handedAndAbandoned : List Event :=
  [.acquire 1, .started 1, .acquire 2, .started 2, .acquire 3, .started 3, .acquire 4, .started 4,
    .acquire 5, .acquire 6, .acquire 7, .dropped ⟨1, 0⟩, .dropped ⟨2, 0⟩, .dropped ⟨3, 0⟩,
    .throttled ⟨4, 0⟩, .released ⟨4, 0⟩, .abandoned 5, .abandoned 6, .abandoned 7]

/-- The halved limit of two is left with three free slots, one of them owed, and three PUTs start. -/
theorem debt_lost : ∃ limit crowded, Run Step (.new 4) handedAndAbandoned limit ∧ Idle limit ∧
    limit.slots.free = 3 ∧ limit.state.limit = 2 ∧ limit.state.debt = 1 ∧
    Run Step limit [.acquire 8, .acquire 9, .acquire 10, .started 8, .started 9, .started 10] crowded ∧
    crowded.state.limit = 2 ∧ crowded.permits.length = 3 :=
  ⟨⟨⟨3, [], []⟩, 4, ⟨2, 0, 1, 1⟩, [], [], []⟩,
    ⟨⟨0, [], []⟩, 4, ⟨2, 0, 1, 1⟩, [], [⟨10, 1⟩, ⟨9, 1⟩, ⟨8, 1⟩], []⟩,
    run_of_exec? (by decide), ⟨rfl, rfl⟩, rfl, rfl, rfl, run_of_exec? (by decide), rfl, rfl⟩

end Ripclone.Storage
