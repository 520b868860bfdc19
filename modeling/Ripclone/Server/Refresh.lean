import Mathlib.Data.List.Nodup
import Ripclone.Library.Run

/-!
# Refreshes of a repository's refs

Every refresh of a repository sets `refresh_wanted` and tries the repository's refresh lock. The one
that gets it runs a pass for as long as the flag is set, drops the lock and looks at the flag once
more; one that does not leaves its request to whoever has the lock. A first build's Full waits in
`first_branches` for the refresh that runs, by taking the lock when that refresh drops it.

A step of the system is one atomic operation of one call: on the flag, on the lock, or a pass. The
lock is tokio's: a dropped one goes to the first call that waits for it.
-/

namespace Ripclone.Server.Refresh

open Ripclone.Library

/-- Where a call is. -/
inductive Pc where
  /-- `refresh` is about to set `refresh_wanted`. -/
  | want
  /-- It is about to try the lock. -/
  | trying
  /-- It has the lock and is about to swap the flag. -/
  | swapping
  /-- `refresh_once` runs. -/
  | passing
  /-- It is about to drop the lock. -/
  | dropping
  /-- It has dropped the lock and is about to read the flag. -/
  | rechecking
  /-- `first_branches` is about to look for published branches. -/
  | checking
  /-- It is about to try the lock, to see whether a refresh runs. -/
  | probing
  /-- It got the lock, and is about to drop it and refresh. -/
  | probed
  /-- It is about to ask for the lock. -/
  | locking
  /-- It has asked for the lock, and drops it when it has it. -/
  | waiting
  /-- It is about to look for published branches again. -/
  | ending
  | returned
  deriving DecidableEq, Repr

namespace Pc

/-- Whether a call there has the lock without having waited for it. -/
def Holds (pc : Pc) : Prop := pc = swapping ∨ pc = passing ∨ pc = dropping ∨ pc = probed

/-- Whether a call there is still to look at the flag. -/
def Looks (pc : Pc) : Prop := pc = want ∨ pc = trying ∨ pc = rechecking ∨ pc.Holds

end Pc

structure Call where
  /-- Whether it is a call of `first_branches`, which may call `refresh`, or of `refresh`. -/
  firstBranches : Bool
  pc : Pc
  /-- Whether the last pass it ran succeeded. -/
  last : Bool
  deriving DecidableEq, Repr

/-- A refresh returns `last`; `first_branches` goes on unless it failed. -/
def Call.refreshed (call : Call) : Call :=
  { call with pc := if call.firstBranches && call.last then .locking else .returned }

structure System where
  /-- `refresh_wanted`. -/
  wanted : Bool
  /-- The call that has the refresh lock and then those that wait for it, in the order they asked. -/
  lock : List Nat
  calls : List Call
  deriving DecidableEq, Repr

def System.init : System := ⟨false, [], []⟩

inductive Event where
  /-- A call of `refresh` begins. -/
  | refresh
  /-- A call of `first_branches` begins. -/
  | firstBranches
  | want (call : Nat)
  | tryLock (call : Nat)
  /-- The flag was set, and a pass begins. -/
  | begin (call : Nat)
  /-- The flag was not set. -/
  | drained (call : Nat)
  | passed (call : Nat) (ok : Bool)
  | unlock (call : Nat)
  | recheck (call : Nat)
  /-- What the control database said about the branches, or that it failed. -/
  | check (call : Nat) (published : Option Bool)
  | probe (call : Nat)
  | unprobe (call : Nat)
  | lock (call : Nat)
  /-- A call that waited has the lock, and drops it. -/
  | unwait (call : Nat)
  | ended (call : Nat)
  deriving DecidableEq, Repr

namespace System

/-- What a step makes of a call that is at `pc`. -/
def atPc (s : System) (i : Nat) (pc : Pc) (f : Call → Option System) : Option System := do
  let call ← s.calls[i]?
  if call.pc = pc then f call else none

def become (s : System) (i : Nat) (call : Call) : System := { s with calls := s.calls.set i call }

/-- Drop the lock, which the next call that waits then has. -/
def unlock (s : System) (i : Nat) : System := { s with lock := s.lock.erase i }

def exec (s : System) : Event → Option System
  | .refresh => some { s with calls := s.calls ++ [⟨false, .want, true⟩] }
  | .firstBranches => some { s with calls := s.calls ++ [⟨true, .checking, true⟩] }
  | .want i => s.atPc i .want fun call =>
    some { s.become i { call with pc := .trying } with wanted := true }
  | .tryLock i => s.atPc i .trying fun call =>
    if s.lock = [] then some { s.become i { call with pc := .swapping } with lock := [i] }
    else some (s.become i call.refreshed)
  | .begin i => s.atPc i .swapping fun call =>
    if s.wanted then some { s.become i { call with pc := .passing } with wanted := false } else none
  | .drained i => s.atPc i .swapping fun call =>
    if s.wanted then none else some (s.become i { call with pc := .dropping })
  | .passed i ok => s.atPc i .passing fun call =>
    some (s.become i { call with pc := .swapping, last := ok })
  | .unlock i => s.atPc i .dropping fun call =>
    some ((s.unlock i).become i { call with pc := .rechecking })
  | .recheck i => s.atPc i .rechecking fun call =>
    some (s.become i (if s.wanted then { call with pc := .trying } else call.refreshed))
  | .check i published => s.atPc i .checking fun call =>
    some (s.become i { call with pc := if published = some false then .probing else .returned })
  | .probe i => s.atPc i .probing fun call =>
    if s.lock = [] then some { s.become i { call with pc := .probed } with lock := [i] }
    else some (s.become i { call with pc := .locking })
  | .unprobe i => s.atPc i .probed fun call =>
    some ((s.unlock i).become i { call with pc := .want })
  | .lock i => s.atPc i .locking fun call =>
    some { s.become i { call with pc := .waiting } with lock := s.lock ++ [i] }
  | .unwait i => s.atPc i .waiting fun call =>
    if s.lock.head? = some i then some ((s.unlock i).become i { call with pc := .ending }) else none
  | .ended i => s.atPc i .ending fun call => some (s.become i { call with pc := .returned })

end System

/-- One step of one call. -/
def Step (s : System) (e : Event) (s' : System) : Prop := s.exec e = some s'

/-- Every request so far was followed by the beginning of a pass. -/
def Served (events : List Event) : Prop :=
  ∀ before i after, events = before ++ .want i :: after → ∃ j, .begin j ∈ after

/-- A refresh that tries the lock does not find it with a call of `first_branches` that waited for
it. -/
def Clear (s : System) (e : Event) : Prop :=
  ∀ i, e = .tryLock i → ∀ owner, s.lock.head? = some owner →
    ∀ call : Call, s.calls[owner]? = some call → call.pc ≠ .waiting

/-! ## What holds while no refresh finds the lock with a call that waited for it -/

structure System.Ok (s : System) : Prop where
  nodup : s.lock.Nodup
  /-- A call in the line waits, or has the lock. -/
  line : ∀ i ∈ s.lock, ∃ call : Call, s.calls[i]? = some call ∧
    (call.pc = .waiting ∨ s.lock.head? = some i ∧ call.pc.Holds)
  /-- When the flag is set, some call is still to look at it. -/
  looks : s.wanted = true → ∃ (i : Nat) (call : Call), s.calls[i]? = some call ∧ call.pc.Looks

section Steps

variable {s s' : System} {call call' : Call} {i : Nat} {wanted' : Bool} {lock' : List Nat}

theorem atPc_eq_some {pc : Pc} {f : Call → Option System} (h : s.atPc i pc f = some s') :
    ∃ call, s.calls[i]? = some call ∧ call.pc = pc ∧ f call = some s' := by
  obtain ⟨call, hcall, h⟩ := Option.bind_eq_some_iff.mp h
  split at h
  · next hpc => exact ⟨call, hcall, hpc, h⟩
  · cases h

/-- A step of one call, when it leaves the others their places in the line. -/
theorem System.Ok.replace (h : s.Ok) (hcall : s.calls[i]? = some call) (hnodup : lock'.Nodup)
    (hothers : ∀ j ∈ lock', j ≠ i → j ∈ s.lock ∧ (s.lock.head? = some j → lock'.head? = some j))
    (hself : i ∈ lock' → call'.pc = .waiting ∨ lock'.head? = some i ∧ call'.pc.Holds)
    (hlooks : wanted' = true → call'.pc.Looks ∨
      ∃ (j : Nat) (other : Call), j ≠ i ∧ s.calls[j]? = some other ∧ other.pc.Looks) :
    System.Ok ⟨wanted', lock', s.calls.set i call'⟩ := by
  have hlt : i < s.calls.length := (List.getElem?_eq_some_iff.mp hcall).1
  have hset : (s.calls.set i call')[i]? = some call' := List.getElem?_set_self hlt
  refine ⟨hnodup, fun j hj => ?_, fun hwanted => ?_⟩
  · by_cases hji : j = i
    · subst hji
      exact ⟨call', hset, hself hj⟩
    · obtain ⟨hmem, hhead⟩ := hothers j hj hji
      obtain ⟨other, hother, hplace⟩ := h.line j hmem
      refine ⟨other, by rwa [List.getElem?_set_ne (Ne.symm hji)], ?_⟩
      exact hplace.imp_right fun ⟨howner, hholds⟩ => ⟨hhead howner, hholds⟩
  · rcases hlooks hwanted with hlook | ⟨j, other, hji, hother, hlook⟩
    · exact ⟨i, call', hset, hlook⟩
    · exact ⟨j, other, by rwa [List.getElem?_set_ne (Ne.symm hji)], hlook⟩

/-- The call that is still to look at the flag is another one, or the one that takes the step. -/
theorem System.Ok.looks_after (h : s.Ok) (hcall : s.calls[i]? = some call)
    (hkeeps : call.pc.Looks → call'.pc.Looks) (hwanted : s.wanted = true) :
    call'.pc.Looks ∨ ∃ (j : Nat) (other : Call), j ≠ i ∧ s.calls[j]? = some other ∧ other.pc.Looks := by
  obtain ⟨j, other, hother, hlook⟩ := h.looks hwanted
  by_cases hji : j = i
  · subst hji
    obtain rfl := Option.some.inj (hcall.symm.trans hother)
    exact .inl (hkeeps hlook)
  · exact .inr ⟨j, other, hji, hother, hlook⟩

/-- A call that neither waits nor has the lock is not in the line. -/
theorem System.Ok.not_in_line (h : s.Ok) (hcall : s.calls[i]? = some call)
    (hwaits : call.pc ≠ .waiting) (hholds : ¬ call.pc.Holds) : i ∉ s.lock := by
  intro hmem
  obtain ⟨other, hother, hplace⟩ := h.line i hmem
  obtain rfl := Option.some.inj (hcall.symm.trans hother)
  rcases hplace with hwaiting | ⟨_, hholding⟩
  · exact hwaits hwaiting
  · exact hholds hholding

/-- A step that leaves the lock and the flag as they are, of a call outside the line. -/
theorem System.Ok.move (h : s.Ok) (hcall : s.calls[i]? = some call)
    (hwaits : call.pc ≠ .waiting) (hholds : ¬ call.pc.Holds)
    (hkeeps : call.pc.Looks → call'.pc.Looks) : (s.become i call').Ok :=
  h.replace hcall h.nodup (fun _ hj _ => ⟨hj, id⟩)
    (fun hmem => absurd hmem (h.not_in_line hcall hwaits hholds)) (h.looks_after hcall hkeeps)

/-- A step of the call that has the lock, which keeps it. -/
theorem System.Ok.keep (h : s.Ok) (hcall : s.calls[i]? = some call) (hholds : call.pc.Holds)
    (hholds' : call'.pc.Holds) :
    System.Ok ⟨wanted', s.lock, s.calls.set i call'⟩ := by
  have hwaits : call.pc ≠ .waiting := by
    intro hwaiting
    simp [Pc.Holds, hwaiting] at hholds
  refine h.replace hcall h.nodup (fun _ hj _ => ⟨hj, id⟩) (fun hmem => ?_) (fun _ => ?_)
  · obtain ⟨other, hother, hplace⟩ := h.line i hmem
    obtain rfl := Option.some.inj (hcall.symm.trans hother)
    exact .inr ⟨(hplace.resolve_left hwaits).1, hholds'⟩
  · exact .inl (.inr (.inr (.inr hholds')))

/-- A call gets a lock that nobody has. -/
theorem System.Ok.take (h : s.Ok) (hcall : s.calls[i]? = some call) (hholds : call'.pc.Holds) :
    System.Ok ⟨s.wanted, [i], s.calls.set i call'⟩ := by
  refine h.replace hcall (List.nodup_singleton i) (fun j hj hji => ?_) (fun _ => ?_) (fun _ => ?_)
  · exact absurd (List.mem_singleton.mp hj) hji
  · exact .inr ⟨rfl, hholds⟩
  · exact .inl (.inr (.inr (.inr hholds)))

/-- A call drops the lock: the next one in the line has it. -/
theorem System.Ok.release (h : s.Ok) (hcall : s.calls[i]? = some call)
    (hkeeps : call.pc.Looks → call'.pc.Looks) : ((s.unlock i).become i call').Ok := by
  refine h.replace hcall (h.nodup.erase i) (fun j hj hji => ⟨List.mem_of_mem_erase hj, ?_⟩)
    (fun hmem => absurd hmem h.nodup.not_mem_erase) (h.looks_after hcall hkeeps)
  intro hhead
  cases hlock : s.lock with
  | nil => simp [hlock] at hhead
  | cons k rest =>
      obtain rfl : k = j := by simpa [hlock] using hhead
      simp [System.unlock, hlock, hji]

/-- A call asks for the lock, after all that asked before. -/
theorem System.Ok.queue (h : s.Ok) (hcall : s.calls[i]? = some call)
    (hwaits : call.pc ≠ .waiting) (hholds : ¬ call.pc.Holds)
    (hkeeps : call.pc.Looks → call'.pc.Looks) (hwaiting : call'.pc = .waiting) :
    System.Ok ⟨s.wanted, s.lock ++ [i], s.calls.set i call'⟩ := by
  have hout := h.not_in_line hcall hwaits hholds
  refine h.replace hcall (List.nodup_append.mpr ⟨h.nodup, List.nodup_singleton i, ?_⟩)
    (fun j hj hji => ⟨by simpa [hji] using hj, fun hhead => by simp [hhead]⟩)
    (fun _ => .inl hwaiting) (h.looks_after hcall hkeeps)
  rintro j hj k hk rfl
  exact hout (List.mem_singleton.mp hk ▸ hj)

/-- A refresh that does not get the lock leaves its request to the call that has it. -/
theorem System.Ok.leave (h : s.Ok) (hclear : Clear s (.tryLock i))
    (hcall : s.calls[i]? = some call) (hpc : call.pc = .trying) (hheld : s.lock ≠ []) :
    (s.become i call.refreshed).Ok := by
  have hout : i ∉ s.lock := h.not_in_line hcall (by simp [hpc]) (by simp [Pc.Holds, hpc])
  refine h.replace hcall h.nodup (fun _ hj _ => ⟨hj, id⟩) (fun hmem => absurd hmem hout) ?_
  intro _
  obtain ⟨owner, rest, hlock⟩ := List.exists_cons_of_ne_nil hheld
  have hmem : owner ∈ s.lock := by simp [hlock]
  obtain ⟨other, hother, hplace⟩ := h.line owner hmem
  have hwaits := hclear i rfl owner (by simp [hlock]) other hother
  refine .inr ⟨owner, other, fun heq => hout (heq ▸ hmem), hother, ?_⟩
  exact .inr (.inr (.inr (hplace.resolve_left hwaits).2))

theorem ok_init : System.init.Ok :=
  ⟨List.nodup_nil, by simp [System.init], by simp [System.init]⟩

/-- A call that begins changes neither the line nor which calls look at the flag. -/
theorem ok_called (h : s.Ok) (call : Call) : System.Ok { s with calls := s.calls ++ [call] } := by
  have hkept : ∀ {j : Nat} {other : Call}, s.calls[j]? = some other → (s.calls ++ [call])[j]? = some other := by
    intro j other hother
    rwa [List.getElem?_append_left (List.getElem?_eq_some_iff.mp hother).1]
  refine ⟨h.nodup, fun j hj => ?_, fun hwanted => ?_⟩
  · obtain ⟨other, hother, hplace⟩ := h.line j hj
    exact ⟨other, hkept hother, hplace⟩
  · obtain ⟨j, other, hother, hlook⟩ := h.looks hwanted
    exact ⟨j, other, hkept hother, hlook⟩

/-- Every step keeps the invariant, unless it is a refresh that finds the lock with a call that waited
for it. -/
theorem ok_exec {e : Event} (h : s.Ok) (hclear : Clear s e) (hstep : s.exec e = some s') : s'.Ok := by
  cases e with
  | refresh => exact Option.some.inj hstep ▸ ok_called h _
  | firstBranches => exact Option.some.inj hstep ▸ ok_called h _
  -- The flag is set by a call that looks at it itself, so whoever reads it set has somebody behind it.
  | want i =>
      obtain ⟨call, hcall, hpc, hf⟩ := atPc_eq_some hstep
      obtain rfl := Option.some.inj hf
      have hout := h.not_in_line hcall (by simp [hpc]) (by simp [Pc.Holds, hpc])
      exact h.replace hcall h.nodup (fun _ hj _ => ⟨hj, id⟩) (fun hmem => absurd hmem hout)
        fun _ => .inl (.inr (.inl rfl))
  | tryLock i =>
      obtain ⟨call, hcall, hpc, hf⟩ := atPc_eq_some hstep
      split at hf
      · -- A call that finds the lock held leaves, and whoever holds it looks at the flag after it.
        exact Option.some.inj hf ▸ h.take hcall (.inl rfl)
      · next hheld => exact Option.some.inj hf ▸ h.leave hclear hcall hpc hheld
  | begin i =>
      obtain ⟨call, hcall, hpc, hf⟩ := atPc_eq_some hstep
      split at hf
      · exact Option.some.inj hf ▸ h.keep hcall (.inl hpc) (.inr (.inl rfl))
      · cases hf
  | drained i =>
      obtain ⟨call, hcall, hpc, hf⟩ := atPc_eq_some hstep
      split at hf
      · cases hf
      · exact Option.some.inj hf ▸ h.keep hcall (.inl hpc) (.inr (.inr (.inl rfl)))
  | passed i ok =>
      obtain ⟨call, hcall, hpc, hf⟩ := atPc_eq_some hstep
      exact Option.some.inj hf ▸ h.keep hcall (.inr (.inl hpc)) (.inl rfl)
  | unlock i =>
      obtain ⟨call, hcall, hpc, hf⟩ := atPc_eq_some hstep
      exact Option.some.inj hf ▸ h.release hcall fun _ => .inr (.inr (.inl rfl))
  | recheck i =>
      obtain ⟨call, hcall, hpc, hf⟩ := atPc_eq_some hstep
      obtain rfl := Option.some.inj hf
      by_cases hwanted : s.wanted = true
      · rw [if_pos hwanted]
        exact h.move hcall (by simp [hpc]) (by simp [Pc.Holds, hpc]) fun _ => .inr (.inl rfl)
      · -- the flag is not set, so nobody has to look at it
        rw [if_neg hwanted]
        have hout := h.not_in_line hcall (by simp [hpc]) (by simp [Pc.Holds, hpc])
        exact h.replace hcall h.nodup (fun _ hj _ => ⟨hj, id⟩) (fun hmem => absurd hmem hout)
          fun htrue => absurd htrue hwanted
  | check i published =>
      obtain ⟨call, hcall, hpc, hf⟩ := atPc_eq_some hstep
      exact Option.some.inj hf ▸ h.move hcall (by simp [hpc]) (by simp [Pc.Holds, hpc])
        (by simp [Pc.Looks, Pc.Holds, hpc])
  | probe i =>
      obtain ⟨call, hcall, hpc, hf⟩ := atPc_eq_some hstep
      split at hf
      · exact Option.some.inj hf ▸ h.take hcall (.inr (.inr (.inr rfl)))
      · exact Option.some.inj hf ▸ h.move hcall (by simp [hpc]) (by simp [Pc.Holds, hpc])
          (by simp [Pc.Looks, Pc.Holds, hpc])
  | unprobe i =>
      obtain ⟨call, hcall, hpc, hf⟩ := atPc_eq_some hstep
      exact Option.some.inj hf ▸ h.release hcall fun _ => .inl rfl
  | lock i =>
      obtain ⟨call, hcall, hpc, hf⟩ := atPc_eq_some hstep
      exact Option.some.inj hf ▸ h.queue hcall (by simp [hpc]) (by simp [Pc.Holds, hpc])
        (by simp [Pc.Looks, Pc.Holds, hpc]) rfl
  | unwait i =>
      obtain ⟨call, hcall, hpc, hf⟩ := atPc_eq_some hstep
      split at hf
      · exact Option.some.inj hf ▸ h.release hcall (by simp [Pc.Looks, Pc.Holds, hpc])
      · cases hf
  | ended i =>
      obtain ⟨call, hcall, hpc, hf⟩ := atPc_eq_some hstep
      exact Option.some.inj hf ▸ h.move hcall (by simp [hpc]) (by simp [Pc.Holds, hpc])
        (by simp [Pc.Looks, Pc.Holds, hpc])

/-- What a step does to the flag. -/
theorem wanted_exec {e : Event} (hstep : s.exec e = some s') :
    (∃ i, e = .want i) ∧ s'.wanted = true ∨ (∃ i, e = .begin i) ∧ s'.wanted = false ∨
      (∀ i, e ≠ .want i) ∧ s'.wanted = s.wanted := by
  cases e with
  | refresh => exact .inr (.inr ⟨by simp, by rw [← Option.some.inj hstep]⟩)
  | firstBranches => exact .inr (.inr ⟨by simp, by rw [← Option.some.inj hstep]⟩)
  | want i =>
      obtain ⟨call, -, -, hf⟩ := atPc_eq_some hstep
      exact .inl ⟨⟨i, rfl⟩, by rw [← Option.some.inj hf]⟩
  | begin i =>
      obtain ⟨call, -, -, hf⟩ := atPc_eq_some hstep
      split at hf
      · exact .inr (.inl ⟨⟨i, rfl⟩, by rw [← Option.some.inj hf]⟩)
      · cases hf
  | _ =>
      obtain ⟨call, -, -, hf⟩ := atPc_eq_some hstep
      refine .inr (.inr ⟨by simp, ?_⟩)
      grind [System.become, System.unlock]

end Steps

/-! ## Requests and passes -/

variable {events : List Event}

theorem served_begin (i : Nat) : Served (events ++ [.begin i]) := by
  intro before j after heq
  have hlast := congrArg List.getLast? heq
  rw [List.getLast?_concat, List.getLast?_append, List.getLast?_cons] at hlast
  cases hafter : after.getLast? with
  | none => simp [hafter] at hlast
  | some e =>
      obtain rfl : e = .begin i := by simpa [hafter] using hlast.symm
      exact ⟨i, List.mem_of_getLast? hafter⟩

theorem Served.snoc {e : Event} (h : Served events) (hwant : ∀ i, e ≠ .want i) :
    Served (events ++ [e]) := by
  intro before i after heq
  rcases List.eq_nil_or_concat after with rfl | ⟨after', e', rfl⟩
  · obtain ⟨-, he⟩ := List.append_inj' heq rfl
    exact absurd (List.cons.inj he).1 (hwant i)
  · rw [List.concat_eq_append, ← List.cons_append, ← List.append_assoc] at heq
    obtain ⟨hevents, -⟩ := List.append_inj' heq rfl
    obtain ⟨j, hj⟩ := h before i after' hevents
    exact ⟨j, by simp [hj]⟩

/-- While the flag is not set, a pass has begun after every request. -/
theorem served_of_not_wanted {s : System} (hrun : Run Step System.init events s) :
    s.wanted = false → Served events := by
  refine hrun.invariant_history (I := fun events s => s.wanted = false → Served events) ?_ ?_
  · intro _ before i after heq
    simp at heq
  · intro events e s s' _ ih hstep hwanted
    rcases wanted_exec hstep with ⟨-, htrue⟩ | ⟨⟨i, rfl⟩, -⟩ | ⟨hwant, hsame⟩
    · rw [hwanted] at htrue
      cases htrue
    · exact served_begin i
    · exact (ih (hsame ▸ hwanted)).snoc hwant

/-- In every run in which no refresh tries the lock while a call of `first_branches` that waited for it
has it, no request is lost: once every call has returned the flag is not set, and after each request
a pass has begun. -/
theorem no_request_lost {s : System}
    (hrun : Run (fun s e s' => Step s e s' ∧ Clear s e) System.init events s)
    (hreturned : ∀ call ∈ s.calls, call.pc = .returned) :
    s.wanted = false ∧ Served events := by
  have hok : s.Ok := hrun.invariant (P := fun _ => True) ok_init
    (fun _ h ⟨hstep, hclear⟩ => ok_exec h hclear hstep) (by simp)
  have hsteps : Run Step System.init events s := hrun.mono fun _ _ _ h => h.1
  have hwanted : s.wanted = false := by
    by_contra hset
    obtain ⟨i, call, hcall, hlooks⟩ := hok.looks (by simpa using hset)
    have hpc := hreturned call (List.mem_of_getElem? hcall)
    simp [Pc.Looks, Pc.Holds, hpc] at hlooks
  exact ⟨hwanted, served_of_not_wanted hsteps hwanted⟩

/-- A step whose condition is checked. -/
def System.execClear (s : System) (e : Event) : Option System :=
  match e with
  | .tryLock _ =>
    match s.lock.head?.bind (s.calls[·]?) with
    | some call => if call.pc = .waiting then none else s.exec e
    | none => s.exec e
  | _ => s.exec e

theorem execClear_spec {s s' : System} {e : Event} (h : s.execClear e = some s') :
    Step s e s' ∧ Clear s e := by
  unfold System.execClear at h
  split at h
  · next j =>
      split at h
      · next call hcall =>
          split at h
          · cases h
          · next hpc =>
              refine ⟨h, fun i _ owner howner other hother => ?_⟩
              rw [howner, Option.bind_some, hother] at hcall
              exact Option.some.inj hcall ▸ hpc
      · next hnone =>
          refine ⟨h, fun i _ owner howner other hother => ?_⟩
          rw [howner, Option.bind_some, hother] at hnone
          cases hnone
  · next htry => exact ⟨h, fun i hi => absurd hi (htry i)⟩

/-- Two refreshes, the second while the first runs, and a Full that waits for it. -/
def foldedEvents : List Event :=
  [.refresh, .want 0, .tryLock 0, .begin 0, .firstBranches, .check 1 (some false), .probe 1, .lock 1,
    .refresh, .want 2, .tryLock 2, .passed 0 false, .begin 0, .passed 0 true, .drained 0, .unlock 0,
    .unwait 1, .recheck 0, .ended 1]

theorem folded_requests_served : ∃ s, Run Step System.init foldedEvents s ∧ s.wanted = false ∧
    Served foldedEvents := by
  have hrun : foldedEvents.foldlM System.execClear System.init =
      some ⟨false, [], [⟨false, .returned, true⟩, ⟨true, .returned, true⟩, ⟨false, .returned, true⟩]⟩ := by
    decide
  have hclear := (Run.of_foldlM hrun).mono fun _ _ _ => execClear_spec
  exact ⟨_, hclear.mono fun _ _ _ h => h.1, no_request_lost hclear (by decide)⟩

/-- A refresh tries the lock when the first one has dropped it, and finds it with the Full that waited
for it. Its request stays, and every call returns. -/
theorem request_lost : ∃ events s, Run Step System.init events s ∧
    (∀ call ∈ s.calls, call.pc = .returned) ∧ s.wanted = true ∧ ¬ Served events := by
  let events : List Event :=
    [.refresh, .want 0, .tryLock 0, .begin 0, .firstBranches, .check 1 (some false), .probe 1,
      .lock 1, .passed 0 true, .drained 0, .unlock 0, .refresh, .recheck 0, .want 2, .tryLock 2,
      .unwait 1, .ended 1]
  have hrun : events.foldlM System.exec System.init =
      some ⟨true, [], [⟨false, .returned, true⟩, ⟨true, .returned, true⟩, ⟨false, .returned, true⟩]⟩ := by
    decide
  refine ⟨events, _, Run.of_foldlM hrun, by decide, rfl, fun hserved => ?_⟩
  obtain ⟨j, hj⟩ := hserved (events.take 13) 2 [.tryLock 2, .unwait 1, .ended 1] rfl
  simp at hj

end Ripclone.Server.Refresh
