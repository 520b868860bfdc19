import Ripclone.Library.Machine
import Ripclone.Library.Run
import Ripclone.Library.Semaphore

/-!
# The limit on PUTs

At most so many PUTs to the bucket are in flight as the limit says, which a throttled PUT halves and
succeeding ones raise. A slot is held from when the semaphore gives it until the PUT is dropped. A
limit that shrinks cannot take back slots that are held: it counts them as debt, and a PUT that ends
while there is debt drops its slot instead of giving it back.

The fields behind the lock change together, and each change touches the semaphore at most once, so a
change is one step. Asking for a slot, getting it and reading the round it is of are steps of their own,
as are the report of how a PUT went and the release of its slot after it.
-/

namespace Ripclone.Storage

open Ripclone.Library

/-- What the lock guards. -/
structure State where
  limit : Nat
  /-- PUTs that succeeded since the limit last changed. -/
  successes : Nat
  /-- Counts the halvings. -/
  round : Nat
  /-- Slots taken out of the limit while held. -/
  debt : Nat
  deriving DecidableEq, Repr

/-- One PUT's slot, and the round it was sent in. -/
structure PutPermit where
  put : Nat
  round : Nat
  deriving DecidableEq, Repr

/-- The limit and the PUTs under it. -/
structure PutLimit where
  slots : Semaphore
  max : Nat
  state : State
  /-- PUTs that have a slot and are to read the round. -/
  taken : List Nat
  /-- PUTs in flight. -/
  permits : List PutPermit
  /-- PUTs that said how they went and still have their slot. -/
  reported : List PutPermit
  deriving DecidableEq, Repr

inductive Event where
  | acquire (put : Nat)
  /-- A waiter finds that it was handed a slot. -/
  | resumed (put : Nat)
  /-- The round is read, and the PUT is sent. -/
  | started (put : Nat)
  /-- An acquire is dropped while it waits. -/
  | abandoned (put : Nat)
  | succeeded (permit : PutPermit)
  | throttled (permit : PutPermit)
  /-- A PUT is dropped without a report. -/
  | dropped (permit : PutPermit)
  /-- A PUT that reported is dropped. -/
  | released (permit : PutPermit)
  deriving DecidableEq, Repr

namespace PutLimit

def new (maximum : Nat) : PutLimit where
  slots := .new (Max.max maximum 1)
  max := Max.max maximum 1
  state := ⟨Max.max maximum 1, 0, 0, 0⟩
  taken := []
  permits := []
  reported := []

def acquire (limit : PutLimit) (put : Nat) : PutLimit :=
  let (slots, taken) := limit.slots.acquire put
  { limit with slots := slots, taken := if taken then put :: limit.taken else limit.taken }

def succeeded (limit : PutLimit) : Except Panic PutLimit :=
  let state := { limit.state with successes := limit.state.successes + 1 }
  if state.limit ≤ state.successes ∧ state.limit < limit.max then
    let state := { state with successes := 0, limit := state.limit + 1 }
    if 0 < state.debt then do
      let debt ← subChecked state.debt 1
      return { limit with state := { state with debt := debt } }
    else return { limit with state := state, slots := limit.slots.release }
  else return { limit with state := state }

/-- Halve the limit, unless the PUT was sent before the last halving. -/
def throttled (limit : PutLimit) (permit : PutPermit) : Except Panic PutLimit :=
  if permit.round = limit.state.round then do
    let halved := Max.max (limit.state.limit / 2) 1
    let cut ← subChecked limit.state.limit halved
    let (slots, forgotten) := limit.slots.forgetPermits cut
    let owed ← subChecked cut forgotten
    return { limit with
      slots := slots
      state := {
        limit := halved
        successes := 0
        round := limit.state.round + 1
        debt := limit.state.debt + owed } }
  else return limit

/-- The slot of a PUT that ends. -/
def drop (limit : PutLimit) : Except Panic PutLimit :=
  if 0 < limit.state.debt then do
    let debt ← subChecked limit.state.debt 1
    return { limit with state := { limit.state with debt := debt } }
  else return { limit with slots := limit.slots.release }

/-- Which events can come. -/
def Enabled (limit : PutLimit) : Event → Prop
  | .acquire put => put ∉ limit.slots.waiting ++ limit.slots.handed ++ limit.taken
  | .resumed put => put ∈ limit.slots.handed
  | .started put => put ∈ limit.taken
  | .abandoned put => put ∈ limit.slots.waiting ∨ put ∈ limit.slots.handed
  | .succeeded permit | .throttled permit | .dropped permit => permit ∈ limit.permits
  | .released permit => permit ∈ limit.reported

instance (limit : PutLimit) : (event : Event) → Decidable (limit.Enabled event)
  | .acquire put =>
    inferInstanceAs (Decidable (put ∉ limit.slots.waiting ++ limit.slots.handed ++ limit.taken))
  | .resumed put => inferInstanceAs (Decidable (put ∈ limit.slots.handed))
  | .started put => inferInstanceAs (Decidable (put ∈ limit.taken))
  | .abandoned put =>
    inferInstanceAs (Decidable (put ∈ limit.slots.waiting ∨ put ∈ limit.slots.handed))
  | .succeeded permit | .throttled permit | .dropped permit =>
    inferInstanceAs (Decidable (permit ∈ limit.permits))
  | .released permit => inferInstanceAs (Decidable (permit ∈ limit.reported))

def exec (limit : PutLimit) : Event → Except Panic PutLimit
  | .acquire put => return limit.acquire put
  | .resumed put => return { limit with slots := limit.slots.resume put, taken := put :: limit.taken }
  | .started put => return { limit with
      taken := limit.taken.erase put
      permits := ⟨put, limit.state.round⟩ :: limit.permits }
  | .abandoned put => return { limit with slots := limit.slots.abandon put }
  | .succeeded permit => do
    let limit ← limit.succeeded
    return { limit with
      permits := limit.permits.erase permit, reported := permit :: limit.reported }
  | .throttled permit => do
    let limit ← limit.throttled permit
    return { limit with
      permits := limit.permits.erase permit, reported := permit :: limit.reported }
  | .dropped permit => do
    let limit ← limit.drop
    return { limit with permits := limit.permits.erase permit }
  | .released permit => do
    let limit ← limit.drop
    return { limit with reported := limit.reported.erase permit }

end PutLimit

def Step (limit : PutLimit) (event : Event) (limit' : PutLimit) : Prop :=
  limit.Enabled event ∧ limit.exec event = .ok limit'

/-! ## What a step does -/

namespace PutLimit

/-- Slots that a PUT has, or a waiter was handed. -/
def held (limit : PutLimit) : Nat :=
  limit.slots.handed.length + limit.taken.length + limit.permits.length + limit.reported.length

/-- What a step can do to the slots and to what the lock guards. -/
inductive Effect (limit : PutLimit) (event : Event) (limit' : PutLimit) : Prop
  | kept (free : limit'.slots.free = limit.slots.free) (held : limit'.held = limit.held)
      (bound : limit'.state.limit = limit.state.limit) (round : limit'.state.round = limit.state.round)
      (debt : limit'.state.debt = limit.state.debt)
  /-- A slot is taken. -/
  | took (free : limit'.slots.free + 1 = limit.slots.free) (held : limit'.held = limit.held + 1)
      (state : limit'.state = limit.state)
  /-- A slot is given back, and free or handed over. One is free while there is debt only if a waiter
  that was handed it stops waiting. -/
  | gaveBack (slots : limit'.slots.free + limit'.held = limit.slots.free + limit.held)
      (state : limit'.state = limit.state)
      (owed : limit.state.debt = 0 ∨ limit'.slots.free = limit.slots.free ∨
        ∃ put, event = .abandoned put ∧ put ∈ limit.slots.handed)
  /-- A slot is taken out of the limit. -/
  | paid (free : limit'.slots.free = limit.slots.free) (held : limit'.held + 1 = limit.held)
      (debt : limit'.state.debt + 1 = limit.state.debt)
      (bound : limit'.state.limit = limit.state.limit) (round : limit'.state.round = limit.state.round)
  /-- The limit is raised by a slot that was owed. -/
  | raisedOwed (below : limit.state.limit < limit.max) (free : limit'.slots.free = limit.slots.free)
      (held : limit'.held = limit.held) (debt : limit'.state.debt + 1 = limit.state.debt)
      (bound : limit'.state.limit = limit.state.limit + 1)
      (round : limit'.state.round = limit.state.round)
  /-- The limit is raised by a new slot. -/
  | raised (below : limit.state.limit < limit.max)
      (slots : limit'.slots.free + limit'.held = limit.slots.free + limit.held + 1)
      (owed : limit.state.debt = 0) (debt : limit'.state.debt = 0)
      (bound : limit'.state.limit = limit.state.limit + 1)
      (round : limit'.state.round = limit.state.round)
  /-- The limit is halved: free slots are taken out first, the others are owed. -/
  | halved (forgotten owed : Nat) (held : limit'.held = limit.held)
      (bound : limit'.state.limit = Max.max (limit.state.limit / 2) 1)
      (cut : limit.state.limit = limit'.state.limit + forgotten + owed)
      (free : limit.slots.free = limit'.slots.free + forgotten)
      (none_owed : 0 < limit'.slots.free → owed = 0)
      (debt : limit'.state.debt = limit.state.debt + owed)
      (round : limit'.state.round = limit.state.round + 1)

variable {limit limit' : PutLimit} {permit : PutPermit} {put : Nat}

theorem subChecked_of_le {a b : Nat} (h : b ≤ a) : subChecked a b = .ok (a - b) := if_pos h

theorem length_erase {α : Type} [BEq α] [LawfulBEq α] {a : α} {l : List α} (h : a ∈ l) :
    (l.erase a).length + 1 = l.length := by
  have hpos := List.length_pos_of_mem h
  rw [List.length_erase_of_mem h]
  omega

/-- A PUT that ends drops its slot while there is debt, and else gives it back. -/
theorem drop_cases (limit : PutLimit) :
    0 < limit.state.debt ∧ limit.drop = .ok { limit with
      state := { limit.state with debt := limit.state.debt - 1 } } ∨
    limit.state.debt = 0 ∧ limit.drop = .ok { limit with slots := limit.slots.release } := by
  unfold drop
  by_cases hdebt : 0 < limit.state.debt
  · left
    rw [if_pos hdebt, subChecked_of_le hdebt]
    exact ⟨hdebt, rfl⟩
  · right
    rw [if_neg hdebt]
    exact ⟨by omega, rfl⟩

theorem succeeded_cases (limit : PutLimit) :
    (∃ successes, limit.succeeded =
      .ok { limit with state := { limit.state with successes := successes } }) ∨
    limit.state.limit < limit.max ∧ 0 < limit.state.debt ∧ limit.succeeded = .ok { limit with
      state := {
        limit := limit.state.limit + 1
        successes := 0
        round := limit.state.round
        debt := limit.state.debt - 1 } } ∨
    limit.state.limit < limit.max ∧ limit.state.debt = 0 ∧ limit.succeeded = .ok { limit with
      slots := limit.slots.release
      state := { limit.state with limit := limit.state.limit + 1, successes := 0 } } := by
  unfold succeeded
  dsimp only
  split
  · next hraise =>
      by_cases hdebt : 0 < limit.state.debt
      · rw [if_pos hdebt, subChecked_of_le hdebt]
        exact .inr (.inl ⟨hraise.2, hdebt, rfl⟩)
      · rw [if_neg hdebt]
        exact .inr (.inr ⟨hraise.2, by omega, rfl⟩)
  · exact .inl ⟨_, rfl⟩

/-- The limit a throttled PUT leaves, where there is one to halve. -/
theorem throttled_cases (hpos : 0 < limit.state.limit) (permit : PutPermit) :
    permit.round ≠ limit.state.round ∧ limit.throttled permit = .ok limit ∨
    permit.round = limit.state.round ∧ ∃ forgotten owed,
      limit.state.limit = Max.max (limit.state.limit / 2) 1 + forgotten + owed ∧
      limit.slots.free = (limit.slots.free - (forgotten + owed)) + forgotten ∧
      (0 < limit.slots.free - (forgotten + owed) → owed = 0) ∧
      limit.throttled permit = .ok { limit with
        slots := { limit.slots with free := limit.slots.free - (forgotten + owed) }
        state := {
          limit := Max.max (limit.state.limit / 2) 1
          successes := 0
          round := limit.state.round + 1
          debt := limit.state.debt + owed } } := by
  unfold throttled
  by_cases hround : permit.round = limit.state.round
  · right
    have hcut : Max.max (limit.state.limit / 2) 1 ≤ limit.state.limit := by omega
    obtain ⟨cut, hsub⟩ : ∃ cut, limit.state.limit = Max.max (limit.state.limit / 2) 1 + cut :=
      Nat.exists_eq_add_of_le hcut
    have hchecked : subChecked limit.state.limit (Max.max (limit.state.limit / 2) 1) = .ok cut := by
      rw [subChecked_of_le hcut]
      congr 1
      omega
    have howed : min cut limit.slots.free + (cut - min cut limit.slots.free) = cut := by omega
    refine ⟨hround, min cut limit.slots.free, cut - min cut limit.slots.free, by omega, by omega,
      by omega, ?_⟩
    rw [if_pos hround]
    dsimp only
    rw [hchecked, howed]
    show (subChecked cut (min cut limit.slots.free) >>= fun owed => pure _) = _
    rw [subChecked_of_le (Nat.min_le_left _ _)]
    rfl
  · exact .inl ⟨hround, by rw [if_neg hround]; rfl⟩

/-- Every event that can come has a result, and no subtraction of it goes below zero. -/
theorem exec_ok (hpos : 0 < limit.state.limit) {event : Event} (h : limit.Enabled event) :
    ∃ limit', limit.exec event = .ok limit' ∧ Effect limit event limit' ∧ limit'.max = limit.max := by
  -- No event gives an error here: what it takes away is there, and a permit that is dropped pays a debt first.
  cases event with
  | acquire put =>
      refine ⟨limit.acquire put, rfl, ?_, ?_⟩
      · unfold PutLimit.acquire Semaphore.acquire
        split
        · next slots taken hacquire =>
            split at hacquire
            · next hfree =>
                obtain ⟨rfl, rfl⟩ := Prod.mk.inj hacquire
                exact .took (by dsimp only; omega) (by simp [held]; omega) rfl
            · obtain ⟨rfl, rfl⟩ := Prod.mk.inj hacquire
              exact .kept rfl rfl rfl rfl rfl
      · rfl
  | resumed put =>
      have hcount : (limit.slots.resume put).handed.length + 1 = limit.slots.handed.length :=
        Semaphore.count_resume h
      exact ⟨_, rfl, .kept rfl (by simp [held]; omega) rfl rfl rfl, rfl⟩
  | started put =>
      have hcount := length_erase (show put ∈ limit.taken from h)
      exact ⟨_, rfl, .kept rfl (by simp [held]; omega) rfl rfl rfl, rfl⟩
  | abandoned put =>
      have hcount := Semaphore.count_abandon limit.slots put
      refine ⟨_, rfl, .gaveBack (by simp [held]; omega) rfl ?_, rfl⟩
      -- A wait that was handed a slot gives the slot back, and is the one that must not pay a debt.
      by_cases hhanded : put ∈ limit.slots.handed
      · exact .inr (.inr ⟨put, rfl, hhanded⟩)
      · refine .inr (.inl ?_)
        show (limit.slots.abandon put).free = _
        rw [Semaphore.abandon, if_neg hhanded]
  | succeeded permit =>
      have hcount := length_erase (show permit ∈ limit.permits from h)
      rcases succeeded_cases limit with ⟨successes, hok⟩ | ⟨hbelow, hdebt, hok⟩ | ⟨hbelow, hdebt, hok⟩
      all_goals
        rw [exec, hok]
        refine ⟨_, rfl, ?_, rfl⟩
      · exact .kept rfl (by simp [held]; omega) rfl rfl rfl
      · exact .raisedOwed hbelow rfl (by simp [held]; omega) (by dsimp only; omega) rfl rfl
      · have hrelease := Semaphore.count_release limit.slots
        exact .raised hbelow (by simp [held]; omega) hdebt hdebt rfl rfl
  | throttled permit =>
      have hcount := length_erase (show permit ∈ limit.permits from h)
      rcases throttled_cases hpos permit with ⟨-, hok⟩ | ⟨-, forgotten, owed, hcut, hfree, hnone, hok⟩
      all_goals
        rw [exec, hok]
        refine ⟨_, rfl, ?_, rfl⟩
      · exact .kept rfl (by simp [held]; omega) rfl rfl rfl
      · exact .halved forgotten owed (by simp [held]; omega) rfl hcut hfree hnone rfl rfl
  | dropped permit =>
      have hcount := length_erase (show permit ∈ limit.permits from h)
      rcases drop_cases limit with ⟨hdebt, hok⟩ | ⟨hdebt, hok⟩
      all_goals
        rw [exec, hok]
        refine ⟨_, rfl, ?_, rfl⟩
      · exact .paid rfl (by simp [held]; omega) (by dsimp only; omega) rfl rfl
      · have hrelease := Semaphore.count_release limit.slots
        exact .gaveBack (by simp [held]; omega) rfl (.inl hdebt)
  | released permit =>
      have hcount := length_erase (show permit ∈ limit.reported from h)
      rcases drop_cases limit with ⟨hdebt, hok⟩ | ⟨hdebt, hok⟩
      all_goals
        rw [exec, hok]
        refine ⟨_, rfl, ?_, rfl⟩
      · exact .paid rfl (by simp [held]; omega) (by dsimp only; omega) rfl rfl
      · have hrelease := Semaphore.count_release limit.slots
        exact .gaveBack (by simp [held]; omega) rfl (.inl hdebt)

end PutLimit

end Ripclone.Storage
