import Mathlib.Logic.Function.Basic
import Ripclone.Library.Run

/-!
# Pins

A build pins each artifact before it looks whether storage has it, and a sweep marks each artifact
before it deletes it. A pin waits while its artifact is being deleted, and a marked artifact is one
that no build pins, so no artifact is ever both.

The pins of all builds and the artifacts being deleted are under one lock, and each build's own set of
pins under another, which a pin holds while it waits. A step of the system is what one thread does
under the first lock, or under its set's lock alone. A pin that wakes up and finds its artifact still
being deleted waits on, which is no step.
-/

namespace Ripclone.Pins

open Ripclone.Library

/-- The server's pins and the artifacts being deleted. -/
structure State where
  /-- Pins per artifact, across builds. -/
  pinned : String → Option Nat
  deleting : String → Bool

namespace State

def new : State := ⟨fun _ => none, fun _ => false⟩

/-- One pin more, or nothing while the artifact is being deleted. -/
def pin (state : State) (hash : String) : Option State :=
  if state.deleting hash then none
  else
    let count := (state.pinned hash).getD 0 + 1
    some { state with pinned := Function.update state.pinned hash (some count) }

/-- One pin less. The count is unsigned: there is no result when it would be less than none. -/
def unpin (state : State) (hash : String) : Option State :=
  match state.pinned hash with
  | none => some state
  | some 0 => none
  | some 1 => some { state with pinned := Function.update state.pinned hash none }
  | some (count + 1) => some { state with pinned := Function.update state.pinned hash (some count) }

/-- Start deleting the artifact unless a build pins it or it is already being deleted. -/
def beginDelete (state : State) (hash : String) : Option State :=
  if (state.pinned hash).isSome || state.deleting hash then none
  else some { state with deleting := Function.update state.deleting hash true }

def endDelete (state : State) (hash : String) : State :=
  { state with deleting := Function.update state.deleting hash false }

end State

/-- What has hold of a set of pins. -/
inductive Phase where
  /-- Nothing: its lock is free. -/
  | idle
  /-- A pin that waits until the artifact is not being deleted. -/
  | pinning (hash : String)
  /-- A pin whose artifact is counted and not yet held. -/
  | counted (hash : String)
  /-- The set is being dropped. -/
  | dropping
  /-- The drop took the artifact out of the set and has yet to unpin it. -/
  | unpinning (hash : String)
  | dropped
  deriving DecidableEq, Repr

/-- One build's pins. -/
structure PinSet where
  held : List String
  phase : Phase
  deriving DecidableEq, Repr

/-- Whether the set holds the artifact: from when it is counted for it until it is unpinned. -/
def PinSet.holds (hash : String) (set : PinSet) : Bool :=
  hash ∈ set.held || set.phase = .counted hash || set.phase = .unpinning hash

/-- Whether the set still has an owner. -/
def PinSet.alive (set : PinSet) : Bool :=
  match set.phase with
  | .idle | .pinning _ | .counted _ => true
  | .dropping | .unpinning _ | .dropped => false

/-- The pins, every build's set of them, and the artifacts some sweep has a `Deleting` guard of. -/
structure System where
  state : State
  sets : List PinSet
  guards : List String

def System.init : System := ⟨.new, [], []⟩

inductive Event where
  | newSet
  /-- A call of `PinSet::pin` takes the set's lock. -/
  | pin (set : Nat) (hash : String)
  /-- `Pins::pin` finds that its artifact is not being deleted. -/
  | count (set : Nat)
  /-- The call ends. -/
  | hold (set : Nat)
  /-- The last reference to a set is dropped. -/
  | dropSet (set : Nat)
  | drain (set : Nat) (hash : String)
  | unpin (set : Nat)
  | dropped (set : Nat)
  | beginDelete (hash : String)
  /-- A sweep drops its guard. -/
  | endDelete (hash : String)
  deriving DecidableEq, Repr

namespace System

/-- What a step makes of the set it is about. -/
def onSet (s : System) (i : Nat) (f : PinSet → Option (State × PinSet)) : Option System := do
  let set ← s.sets[i]?
  let (state, set) ← f set
  return { s with state, sets := s.sets.set i set }

def exec (s : System) : Event → Option System
  | .newSet => some { s with sets := s.sets ++ [⟨[], .idle⟩] }
  | .pin i hash => s.onSet i fun set =>
    if set.phase = .idle then
      -- an artifact the set holds already is not counted again
      some (s.state, if hash ∈ set.held then set else { set with phase := .pinning hash })
    else none
  | .count i => s.onSet i fun set =>
    match set.phase with
    | .pinning hash => (s.state.pin hash).map fun state => (state, { set with phase := .counted hash })
    | _ => none
  | .hold i => s.onSet i fun set =>
    match set.phase with
    | .counted hash => some (s.state, ⟨hash :: set.held, .idle⟩)
    | _ => none
  | .dropSet i => s.onSet i fun set =>
    if set.phase = .idle then some (s.state, { set with phase := .dropping }) else none
  | .drain i hash => s.onSet i fun set =>
    if set.phase = .dropping ∧ hash ∈ set.held then
      some (s.state, ⟨set.held.erase hash, .unpinning hash⟩)
    else none
  | .unpin i => s.onSet i fun set =>
    match set.phase with
    | .unpinning hash => (s.state.unpin hash).map fun state => (state, { set with phase := .dropping })
    | _ => none
  | .dropped i => s.onSet i fun set =>
    if set.phase = .dropping ∧ set.held = [] then some (s.state, { set with phase := .dropped })
    else none
  | .beginDelete hash =>
    match s.state.beginDelete hash with
    | some state => some { s with state, guards := hash :: s.guards }
    | none => some s
  | .endDelete hash =>
    if hash ∈ s.guards then
      some { s with state := s.state.endDelete hash, guards := s.guards.erase hash }
    else none

end System

/-- One step of one thread. -/
def Step (s : System) (e : Event) (s' : System) : Prop := s.exec e = some s'

/-! ## What holds in every state -/

/-- What has hold of a set is of an artifact the set does not have. -/
structure PinSet.Ok (set : PinSet) : Prop where
  nodup : set.held.Nodup
  fresh : ∀ hash, set.phase = .pinning hash ∨ set.phase = .counted hash ∨
    set.phase = .unpinning hash → hash ∉ set.held

/-- A count is the number of sets that hold the artifact, and an artifact with a guard has none. -/
structure System.Ok (s : System) : Prop where
  sets : ∀ set ∈ s.sets, set.Ok
  count : ∀ hash, (s.state.pinned hash).getD 0 = s.sets.countP (PinSet.holds hash)
  pos : ∀ {hash n}, s.state.pinned hash = some n → 0 < n
  deleting : ∀ hash, s.state.deleting hash = true ↔ hash ∈ s.guards
  guards : s.guards.Nodup
  apart : ∀ {hash}, s.state.deleting hash = true → s.state.pinned hash = none

section Steps

variable {s s' : System} {set set' : PinSet} {state state' : State} {i : Nat} {hash : String}

theorem onSet_eq_some {f : PinSet → Option (State × PinSet)} (h : s.onSet i f = some s') :
    ∃ set state' set', s.sets[i]? = some set ∧ f set = some (state', set') ∧
      s' = { s with state := state', sets := s.sets.set i set' } := by
  obtain ⟨set, hset, h⟩ := Option.bind_eq_some_iff.mp h
  obtain ⟨⟨state', set'⟩, hf, h⟩ := Option.bind_eq_some_iff.mp h
  exact ⟨set, state', set', hset, hf, (Option.some.inj h).symm⟩

/-- A step on a set leaves the guards as they are. -/
theorem onSet_frame {f : PinSet → Option (State × PinSet)} (h : s.onSet i f = some s') :
    s'.guards = s.guards ∧ s'.sets.length = s.sets.length := by
  obtain ⟨set, state', set', hset, hf, rfl⟩ := onSet_eq_some h
  exact ⟨rfl, List.length_set⟩

/-- The sets that hold an artifact, when one of them changes. -/
theorem countP_replaced (p : PinSet → Bool) (set' : PinSet) (hset : s.sets[i]? = some set) :
    (s.sets.set i set').countP p + (if p set then 1 else 0) =
      s.sets.countP p + (if p set' then 1 else 0) := by
  obtain ⟨hlt, rfl⟩ := List.getElem?_eq_some_iff.mp hset
  rw [List.countP_set hlt]
  by_cases hp : p s.sets[i] = true
  · have hpos : 0 < s.sets.countP p := List.countP_pos_iff.mpr ⟨_, List.getElem_mem hlt, hp⟩
    rw [if_pos hp]
    omega
  · rw [if_neg hp]
    omega

/-- A step on one set keeps the invariant when it changes the counts as it changes what the set
holds. -/
theorem System.Ok.replace (h : s.Ok) (hset : s.sets[i]? = some set) (hok : set'.Ok)
    (hcount : ∀ hash, (state'.pinned hash).getD 0 + (if set.holds hash then 1 else 0) =
      (s.state.pinned hash).getD 0 + (if set'.holds hash then 1 else 0))
    (hpos : ∀ {hash n}, state'.pinned hash = some n → 0 < n)
    (hdeleting : state'.deleting = s.state.deleting)
    (hapart : ∀ {hash}, state'.deleting hash = true → state'.pinned hash = none) :
    System.Ok { s with state := state', sets := s.sets.set i set' } where
  sets := by
    intro other hother
    rcases List.mem_or_eq_of_mem_set hother with hold | rfl
    · exact h.sets other hold
    · exact hok
  count := by
    intro hash
    have hreplaced := countP_replaced (PinSet.holds hash) set' hset
    have hbefore := h.count hash
    have hchange := hcount hash
    show (state'.pinned hash).getD 0 = (s.sets.set i set').countP (PinSet.holds hash)
    omega
  pos := hpos
  deleting := fun hash => by rw [← h.deleting hash, hdeleting]
  guards := h.guards
  apart := hapart

/-- A step that leaves the counts and what the set holds as they are. -/
theorem System.Ok.replace_same (h : s.Ok) (hset : s.sets[i]? = some set) (hok : set'.Ok)
    (hholds : ∀ hash, set'.holds hash = set.holds hash) :
    System.Ok { s with sets := s.sets.set i set' } :=
  h.replace hset hok (fun hash => by rw [hholds hash]) h.pos rfl h.apart

theorem ok_init : System.init.Ok where
  sets := by simp [System.init]
  count := by simp [System.init, State.new]
  pos := by simp [System.init, State.new]
  deleting := by simp [System.init, State.new]
  guards := List.nodup_nil
  apart := by simp [System.init, State.new]

/-! Each step on a set. -/

theorem ok_pin (h : s.Ok) (hstep : s.exec (.pin i hash) = some s') : s'.Ok := by
  obtain ⟨set, state', set', hset, hf, rfl⟩ := onSet_eq_some hstep
  have hok := h.sets set (List.mem_of_getElem? hset)
  split at hf
  · next hidle =>
      obtain ⟨rfl, rfl⟩ := Prod.mk.inj (Option.some.inj hf)
      split
      · exact h.replace_same hset hok fun _ => rfl
      · next hnew =>
          refine h.replace_same hset ⟨hok.nodup, ?_⟩ fun other => by simp [PinSet.holds, hidle]
          intro other hother
          obtain rfl : hash = other := by simpa using hother
          exact hnew
  · cases hf

theorem ok_hold (h : s.Ok) (hstep : s.exec (.hold i) = some s') : s'.Ok := by
  obtain ⟨set, state', set', hset, hf, rfl⟩ := onSet_eq_some hstep
  have hok := h.sets set (List.mem_of_getElem? hset)
  split at hf
  · next hash hphase =>
      obtain ⟨rfl, rfl⟩ := Prod.mk.inj (Option.some.inj hf)
      have hfresh := hok.fresh hash (.inr (.inl hphase))
      refine h.replace_same hset ⟨List.nodup_cons.mpr ⟨hfresh, hok.nodup⟩, by simp⟩ fun other => ?_
      simp [PinSet.holds, hphase, Bool.or_comm, eq_comm]
  · cases hf

theorem ok_dropSet (h : s.Ok) (hstep : s.exec (.dropSet i) = some s') : s'.Ok := by
  obtain ⟨set, state', set', hset, hf, rfl⟩ := onSet_eq_some hstep
  have hok := h.sets set (List.mem_of_getElem? hset)
  split at hf
  · next hidle =>
      obtain ⟨rfl, rfl⟩ := Prod.mk.inj (Option.some.inj hf)
      exact h.replace_same hset ⟨hok.nodup, by simp⟩ fun other => by simp [PinSet.holds, hidle]
  · cases hf

theorem ok_drain (h : s.Ok) (hstep : s.exec (.drain i hash) = some s') : s'.Ok := by
  obtain ⟨set, state', set', hset, hf, rfl⟩ := onSet_eq_some hstep
  have hok := h.sets set (List.mem_of_getElem? hset)
  split at hf
  · next hdrain =>
      obtain ⟨hphase, hheld⟩ := hdrain
      obtain ⟨rfl, rfl⟩ := Prod.mk.inj (Option.some.inj hf)
      refine h.replace_same hset ⟨hok.nodup.erase hash, ?_⟩ fun other => ?_
      · intro other hother
        obtain rfl : hash = other := by simpa using hother
        exact hok.nodup.not_mem_erase
      · by_cases hother : other = hash
        · subst hother
          simp [PinSet.holds, hheld]
        · have hne : hash ≠ other := Ne.symm hother
          simp [PinSet.holds, hphase, hne, List.mem_erase_of_ne hother]
  · cases hf

theorem ok_dropped (h : s.Ok) (hstep : s.exec (.dropped i) = some s') : s'.Ok := by
  obtain ⟨set, state', set', hset, hf, rfl⟩ := onSet_eq_some hstep
  have hok := h.sets set (List.mem_of_getElem? hset)
  split at hf
  · next hempty =>
      obtain ⟨rfl, rfl⟩ := Prod.mk.inj (Option.some.inj hf)
      refine h.replace_same hset ⟨hok.nodup, by simp⟩ fun other => ?_
      simp [PinSet.holds, hempty.1]
  · cases hf

/-- A pin counts its artifact, and the set holds it from then on. -/
theorem ok_count (h : s.Ok) (hstep : s.exec (.count i) = some s') : s'.Ok := by
  obtain ⟨set, state', set', hset, hf, rfl⟩ := onSet_eq_some hstep
  have hok := h.sets set (List.mem_of_getElem? hset)
  split at hf
  · next hash hphase =>
      have hfresh := hok.fresh hash (.inl hphase)
      obtain ⟨state, hpin, hpair⟩ := Option.map_eq_some_iff.mp hf
      obtain ⟨rfl, rfl⟩ := Prod.mk.inj hpair
      unfold State.pin at hpin
      split at hpin
      · cases hpin
      · next hfree =>
          obtain rfl := Option.some.inj hpin
          refine h.replace hset ⟨hok.nodup, ?_⟩ ?_ ?_ rfl ?_
          · intro other hother
            obtain rfl : hash = other := by simpa using hother
            exact hfresh
          · intro other
            by_cases hother : other = hash
            · subst hother
              simp [PinSet.holds, hphase, hfresh]
            · have hne : hash ≠ other := Ne.symm hother
              simp [PinSet.holds, hphase, hne, Function.update_of_ne hother]
          · intro other n hn
            by_cases hother : other = hash
            · subst hother
              simp only [Function.update_self, Option.some.injEq] at hn
              omega
            · exact h.pos (by simpa only [Function.update_of_ne hother] using hn)
          · intro other hdeleting
            have hother : other ≠ hash := by
              rintro rfl
              exact hfree hdeleting
            simpa only [Function.update_of_ne hother] using h.apart hdeleting
  · cases hf

/-- An artifact a set holds is counted. -/
theorem System.Ok.pinned_of_holds (h : s.Ok) (hset : set ∈ s.sets) (hholds : set.holds hash = true) :
    ∃ n, s.state.pinned hash = some (n + 1) := by
  have hpos : 0 < s.sets.countP (PinSet.holds hash) := List.countP_pos_iff.mpr ⟨set, hset, hholds⟩
  rw [← h.count hash] at hpos
  cases hpinned : s.state.pinned hash with
  | none => simp [hpinned] at hpos
  | some n => exact ⟨n - 1, by have := h.pos hpinned; congr 1; omega⟩

theorem System.Ok.holds_of_pinned (h : s.Ok) (hpinned : (s.state.pinned hash).isSome) :
    ∃ set ∈ s.sets, set.holds hash = true := by
  obtain ⟨n, hn⟩ := Option.isSome_iff_exists.mp hpinned
  have hpos := h.pos hn
  have hcount := h.count hash
  rw [hn, Option.getD_some] at hcount
  exact List.countP_pos_iff.mp (hcount ▸ hpos)

theorem unpin_of_pinned {n : Nat} (h : state.pinned hash = some (n + 1)) :
    state.unpin hash = some { state with
      pinned := Function.update state.pinned hash (if n = 0 then none else some n) } := by
  cases n with
  | zero => simp [State.unpin, h]
  | succ n => simp [State.unpin, h]

/-- A drop uncounts the artifact it took out of the set. -/
theorem ok_unpin (h : s.Ok) (hstep : s.exec (.unpin i) = some s') : s'.Ok := by
  obtain ⟨set, state', set', hset, hf, rfl⟩ := onSet_eq_some hstep
  have hmem := List.mem_of_getElem? hset
  have hok := h.sets set hmem
  split at hf
  · next hash hphase =>
      have hfresh := hok.fresh hash (.inr (.inr hphase))
      have hholds : set.holds hash = true := by simp [PinSet.holds, hphase]
      obtain ⟨n, hn⟩ := h.pinned_of_holds hmem hholds
      rw [unpin_of_pinned hn] at hf
      obtain ⟨rfl, rfl⟩ := Prod.mk.inj (Option.some.inj hf)
      refine h.replace hset ⟨hok.nodup, by simp⟩ ?_ ?_ rfl ?_
      · intro other
        by_cases hother : other = hash
        · subst hother
          cases n <;> simp [PinSet.holds, hphase, hfresh, hn]
        · have hne : hash ≠ other := Ne.symm hother
          simp [PinSet.holds, hphase, hne, Function.update_of_ne hother]
      · intro other m hm
        by_cases hother : other = hash
        · subst hother
          simp only [Function.update_self] at hm
          split at hm
          · cases hm
          · obtain rfl := Option.some.inj hm
            omega
        · exact h.pos (by simpa only [Function.update_of_ne hother] using hm)
      · intro other hdeleting
        have hother : other ≠ hash := by
          rintro rfl
          rw [h.apart hdeleting] at hn
          cases hn
        simpa only [Function.update_of_ne hother] using h.apart hdeleting
  · cases hf

/-- A deletion begins only of an artifact that no set holds. -/
theorem ok_beginDelete (h : s.Ok) (hstep : s.exec (.beginDelete hash) = some s') : s'.Ok := by
  simp only [System.exec, State.beginDelete] at hstep
  by_cases hbusy : ((s.state.pinned hash).isSome || s.state.deleting hash) = true
  · simp only [hbusy, if_true] at hstep
    exact Option.some.inj hstep ▸ h
  · simp only [hbusy] at hstep
    obtain rfl := Option.some.inj hstep
    obtain ⟨hfree, hidle⟩ : s.state.pinned hash = none ∧ s.state.deleting hash = false := by
      simpa using hbusy
    have hnew : hash ∉ s.guards := by
      rw [← h.deleting hash, hidle]
      simp
    refine ⟨h.sets, h.count, h.pos, fun other => ?_, List.nodup_cons.mpr ⟨hnew, h.guards⟩, ?_⟩
    · by_cases hother : other = hash
      · subst hother
        simp
      · simpa [Function.update_of_ne hother, hother] using h.deleting other
    · intro other hdeleting
      by_cases hother : other = hash
      · exact hother ▸ hfree
      · exact h.apart (by simpa only [Function.update_of_ne hother] using hdeleting)

theorem ok_endDelete (h : s.Ok) (hstep : s.exec (.endDelete hash) = some s') : s'.Ok := by
  simp only [System.exec] at hstep
  split at hstep
  · obtain rfl := Option.some.inj hstep
    refine ⟨h.sets, h.count, h.pos, fun other => ?_, h.guards.erase hash, ?_⟩
    · by_cases hother : other = hash
      · subst hother
        simp [State.endDelete, h.guards.not_mem_erase]
      · rw [List.mem_erase_of_ne hother]
        simpa [State.endDelete, Function.update_of_ne hother] using h.deleting other
    · intro other hdeleting
      by_cases hother : other = hash
      · subst hother
        simp [State.endDelete] at hdeleting
      · exact h.apart (by simpa only [State.endDelete, Function.update_of_ne hother] using hdeleting)
  · cases hstep

theorem ok_exec {e : Event} (h : s.Ok) (hstep : s.exec e = some s') : s'.Ok := by
  cases e with
  | newSet =>
      obtain rfl := Option.some.inj hstep
      refine ⟨?_, fun hash => ?_, h.pos, h.deleting, h.guards, h.apart⟩
      · intro set hset
        rcases List.mem_append.mp hset with hold | hnew
        · exact h.sets set hold
        · obtain rfl := List.mem_singleton.mp hnew
          exact ⟨List.nodup_nil, by simp⟩
      · rw [List.countP_append, ← h.count hash]
        rfl
  | pin i hash => exact ok_pin h hstep
  | count i => exact ok_count h hstep
  | hold i => exact ok_hold h hstep
  | dropSet i => exact ok_dropSet h hstep
  | drain i hash => exact ok_drain h hstep
  | unpin i => exact ok_unpin h hstep
  | dropped i => exact ok_dropped h hstep
  | beginDelete hash => exact ok_beginDelete h hstep
  | endDelete hash => exact ok_endDelete h hstep

/-- A set that has an owner has had it before, and keeps what it holds; it loses its owner when it is
dropped only. -/
theorem alive_exec {e : Event} (hstep : s.exec e = some s') (hset : s.sets[i]? = some set) :
    ∃ set', s'.sets[i]? = some set' ∧
      (set'.alive = true → set.alive = true ∧ ∀ hash ∈ set.held, hash ∈ set'.held) ∧
      (e ≠ .dropSet i → set.alive = true → set'.alive = true) := by
  have hkept : ∃ set', s.sets[i]? = some set' ∧
      (set'.alive = true → set.alive = true ∧ ∀ hash ∈ set.held, hash ∈ set'.held) ∧
      (e ≠ .dropSet i → set.alive = true → set'.alive = true) :=
    ⟨set, hset, fun halive => ⟨halive, fun _ h => h⟩, fun _ => id⟩
  -- A step on one set, which may be this one.
  have hreplaced : ∀ {j : Nat} {f : PinSet → Option (State × PinSet)}, s.onSet j f = some s' →
      (∀ state set', f set = some (state, set') →
        (set'.alive = true → set.alive = true ∧ ∀ hash ∈ set.held, hash ∈ set'.held) ∧
        (e ≠ .dropSet j → set.alive = true → set'.alive = true)) →
      ∃ set', s'.sets[i]? = some set' ∧
        (set'.alive = true → set.alive = true ∧ ∀ hash ∈ set.held, hash ∈ set'.held) ∧
        (e ≠ .dropSet i → set.alive = true → set'.alive = true) := by
    intro j f hon hf
    obtain ⟨other, state', other', hother, hf', rfl⟩ := onSet_eq_some hon
    have hlt : j < s.sets.length := (List.getElem?_eq_some_iff.mp hother).1
    by_cases hji : j = i
    · subst hji
      obtain rfl := Option.some.inj (hset.symm.trans hother)
      exact ⟨other', List.getElem?_set_self hlt, hf state' other' hf'⟩
    · obtain ⟨kept, hkept, hrest⟩ := hkept
      exact ⟨kept, by rwa [List.getElem?_set_ne hji], hrest⟩
  cases e with
  | newSet =>
      obtain rfl := Option.some.inj hstep
      obtain ⟨kept, hkept, hrest⟩ := hkept
      exact ⟨kept, by rwa [List.getElem?_append_left (List.getElem?_eq_some_iff.mp hkept).1], hrest⟩
  | beginDelete hash =>
      simp only [System.exec] at hstep
      split at hstep <;> exact Option.some.inj hstep ▸ hkept
  | endDelete hash =>
      simp only [System.exec] at hstep
      split at hstep
      · exact Option.some.inj hstep ▸ hkept
      · cases hstep
  | count j =>
      refine hreplaced hstep fun state set' hf => ?_
      split at hf
      · next hash hphase =>
          obtain ⟨_, _, hpair⟩ := Option.map_eq_some_iff.mp hf
          obtain ⟨rfl, rfl⟩ := Prod.mk.inj hpair
          simp [PinSet.alive, hphase]
      · cases hf
  | unpin j =>
      refine hreplaced hstep fun state set' hf => ?_
      split at hf
      · next hash hphase =>
          obtain ⟨_, _, hpair⟩ := Option.map_eq_some_iff.mp hf
          obtain ⟨rfl, rfl⟩ := Prod.mk.inj hpair
          simp [PinSet.alive, hphase]
      · cases hf
  | _ => exact hreplaced hstep (by grind [PinSet.alive])

theorem ok_run {events : List Event} (hrun : Run Step System.init events s) : s.Ok :=
  hrun.invariant (I := System.Ok) (P := fun _ => True) ok_init (fun _ h hstep => ok_exec h hstep)
    (by simp)

theorem beginDelete_eq_none : state.beginDelete hash = none ↔
    (state.pinned hash).isSome ∨ state.deleting hash = true := by
  unfold State.beginDelete
  split
  · next hbusy => simpa using hbusy
  · next hfree => simpa using hfree

end Steps

/-- In every state the threads of any builds and sweeps can reach: no artifact is both pinned and
being deleted; its count is the number of sets that hold it; a deletion is refused exactly when it is
pinned or being deleted, that is when some set holds it or some sweep has its guard; and a drop that
is about to unpin it finds a count to take one off. -/
theorem pins_and_deletions_apart {events : List Event} {s : System}
    (hrun : Run Step System.init events s) (hash : String) :
    ¬ ((s.state.pinned hash).isSome ∧ s.state.deleting hash = true) ∧
    (s.state.pinned hash).getD 0 = s.sets.countP (PinSet.holds hash) ∧
    (s.state.beginDelete hash = none ↔
      (s.state.pinned hash).isSome ∨ s.state.deleting hash = true) ∧
    ((s.state.pinned hash).isSome ↔ ∃ set ∈ s.sets, set.holds hash = true) ∧
    (s.state.deleting hash = true ↔ hash ∈ s.guards) ∧
    ∀ set ∈ s.sets, set.phase = .unpinning hash →
      (∃ n, s.state.pinned hash = some (n + 1)) ∧ (s.state.unpin hash).isSome := by
  have hok := ok_run hrun
  refine ⟨?_, hok.count hash, beginDelete_eq_none, ⟨hok.holds_of_pinned, ?_⟩, hok.deleting hash, ?_⟩
  · rintro ⟨hpinned, hdeleting⟩
    rw [hok.apart hdeleting] at hpinned
    cases hpinned
  · rintro ⟨set, hset, hholds⟩
    obtain ⟨n, hn⟩ := hok.pinned_of_holds hset hholds
    rw [hn]
    rfl
  · intro set hset hphase
    have hholds : set.holds hash = true := by simp [PinSet.holds, hphase]
    obtain ⟨n, hn⟩ := hok.pinned_of_holds hset hholds
    exact ⟨⟨n, hn⟩, by rw [unpin_of_pinned hn]; rfl⟩

/-- Two builds pin one artifact, one of them twice, and the other's set is being dropped. -/
def sharedEvents : List Event :=
  [.newSet, .newSet, .pin 0 "x", .count 0, .hold 0, .pin 0 "x", .pin 1 "x", .count 1, .hold 1,
    .beginDelete "x", .beginDelete "y", .dropSet 1, .drain 1 "x"]

theorem shared_artifact_apart : ∃ s, Run Step System.init sharedEvents s ∧
    s.state.pinned "x" = some 2 ∧ s.guards = ["y"] ∧ (s.state.unpin "x").isSome := by
  obtain ⟨s, hs⟩ := Option.isSome_iff_exists.mp
    (show (sharedEvents.foldlM System.exec System.init).isSome by decide)
  have hrun : Run Step System.init sharedEvents s := Run.of_foldlM hs
  have hseen : (sharedEvents.foldlM System.exec System.init).map
      (fun s => (s.state.pinned "x", s.guards, s.sets)) =
      some (some 2, ["y"], [⟨["x"], .idle⟩, ⟨[], .unpinning "x"⟩]) := by decide
  rw [hs] at hseen
  obtain ⟨hpinned, hguards, hsets⟩ : s.state.pinned "x" = some 2 ∧ s.guards = ["y"] ∧
      s.sets = [⟨["x"], .idle⟩, ⟨[], .unpinning "x"⟩] := by simpa using hseen
  have hdropping := (pins_and_deletions_apart hrun "x").2.2.2.2.2 ⟨[], .unpinning "x"⟩
  exact ⟨s, hrun, hpinned, hguards, (hdropping (by simp [hsets]) rfl).2⟩

end Ripclone.Pins
