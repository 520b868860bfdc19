import Ripclone.Library.Run
import Ripclone.Library.Table

/-!
# Build cancellation

A worker cancels a build whose lease it lost. Every git child of the build leads a process group and
is registered with the build's token while it runs, so that a cancel can stop the groups. A group is
signalled under its leader's id, which is its own only until the leader is reaped.

The registered groups are under a lock; the flag that says whether the build is cancelled is not. A
step is what one thread does between two points where another one can see it: a read or a write of
the flag, a signal, or a critical section that does neither.
-/

namespace Ripclone.Cancel

open Ripclone.Library

/-- The leader of a git process group. -/
inductive Child where
  | running
  /-- Not reaped: its id is still its own. -/
  | exited
  | reaped
  deriving DecidableEq, Repr

/-- Where a call of `wait_child_watched` is. -/
inductive Pc where
  /-- The child is started and not registered. -/
  | spawned
  /-- It has the lock, and looks whether the build is cancelled. -/
  | locked
  /-- It is: the group is to be killed. -/
  | cancelled
  /-- The group is to be registered. -/
  | inserting
  | waiting
  /-- The wait is over. The watchdog is not, perhaps. -/
  | waited
  /-- No longer registered. What is left of the group is to be killed. -/
  | killing
  | reaping
  | returned
  deriving DecidableEq, Repr

inductive Watchdog where
  | off
  | watching
  /-- It sent SIGTERM, and waits for the grace. -/
  | grace
  | ended
  deriving DecidableEq, Repr

/-- A call of `wait_child_watched`. -/
structure Call where
  /-- The child's id, which is its group's. -/
  group : Nat
  /-- Whether there is a timeout or a stop check. -/
  watched : Bool
  pc : Pc
  child : Child
  watchdog : Watchdog
  /-- Whether a signal was sent to the group. -/
  signalled : Bool
  deriving DecidableEq, Repr

namespace Call

def registered (call : Call) : Bool := call.pc = .waiting || call.pc = .waited

def signal (call : Call) : Call := { call with signalled := true }

/-- The call after a signal to a group: it is its own child's while that is not reaped. -/
def receive (group : Nat) (call : Call) : Call :=
  if call.group = group ∧ call.child ≠ .reaped then call.signal else call

end Call

/-- Where a call of `Cancel::cancel`, and then the thread it leaves behind, is. -/
inductive Canceller where
  | called
  /-- The build was cancelled already. -/
  | repeated
  /-- It set the flag. -/
  | swapped
  /-- It has the lock, and these groups are to be sent SIGTERM. -/
  | signalling (groups : List Nat)
  /-- The call returned. Its thread sleeps for the grace. -/
  | sleeping
  /-- The thread has the lock, and these groups are to be sent SIGKILL. -/
  | killing (groups : List Nat)
  | ended
  deriving DecidableEq, Repr

/-- Whether the call that set the flag has returned. -/
def Canceller.returned : Canceller → Bool
  | .sleeping | .killing _ | .ended => true
  | _ => false

inductive Holder where
  | call (i : Nat)
  | canceller (i : Nat)
  deriving DecidableEq, Repr

structure System where
  cancelled : Bool
  groups : List Nat
  lock : Option Holder
  calls : List Call
  cancellers : List Canceller
  deriving DecidableEq, Repr

def System.init : System := ⟨false, [], none, [], []⟩

inductive Event where
  /-- The build starts a child, under an id that no unreaped child has. -/
  | spawn (group : Nat) (watched : Bool)
  /-- A child exits by itself or by a signal. -/
  | exit (i : Nat)
  | lock (i : Nat)
  | look (i : Nat)
  | killNew (i : Nat)
  | insert (i : Nat)
  /-- `wait_without_reaping` returns: the child exited, or the wait failed. -/
  | waited (i : Nat)
  | watchdogTerm (i : Nat)
  | watchdogKill (i : Nat)
  | watchdogEnd (i : Nat)
  | unregister (i : Nat)
  | killGroup (i : Nat)
  | reap (i : Nat)
  /-- A call of `Cancel::cancel`. -/
  | cancel
  | swap (i : Nat)
  | take (i : Nat)
  | term (i : Nat)
  /-- Every group was sent SIGTERM: the call leaves a thread behind and returns. -/
  | leave (i : Nat)
  | wake (i : Nat)
  | kill (i : Nat)
  | finish (i : Nat)
  deriving DecidableEq, Repr

namespace System

def setCall (s : System) (i : Nat) (call : Call) : System := { s with calls := s.calls.set i call }

def setCanceller (s : System) (i : Nat) (canceller : Canceller) : System :=
  { s with cancellers := s.cancellers.set i canceller }

/-- `signal_group` by a thread that walks the registered groups. -/
def signal (s : System) (group : Nat) : System :=
  { s with calls := s.calls.map (Call.receive group) }

/-- A step of the call `i`, from the place `pc`. -/
def callAt (s : System) (i : Nat) (pc : Pc) : Option Call :=
  (s.calls[i]?).filter fun call => call.pc = pc

def exec (s : System) : Event → Option System
  | .spawn group watched =>
    if s.calls.all fun call => call.group ≠ group || call.child = .reaped then
      some { s with calls := s.calls ++ [⟨group, watched, .spawned, .running, .off, false⟩] }
    else none
  | .exit i => do
    let call ← s.calls[i]?
    if call.child = .running then return s.setCall i { call with child := .exited } else none
  | .lock i => do
    let call ← s.callAt i .spawned
    if s.lock = none then
      return { s.setCall i { call with pc := .locked } with lock := some (.call i) }
    else none
  | .look i => do
    let call ← s.callAt i .locked
    return s.setCall i { call with pc := if s.cancelled then .cancelled else .inserting }
  | .killNew i => do
    let call ← s.callAt i .cancelled
    return s.setCall i { call.signal with pc := .inserting }
  | .insert i => do
    let call ← s.callAt i .inserting
    let watchdog := if call.watched then .watching else .off
    return { s.setCall i { call with pc := .waiting, watchdog } with
      groups := call.group :: s.groups, lock := none }
  | .waited i => do
    let call ← s.callAt i .waiting
    return s.setCall i { call with pc := .waited }
  | .watchdogTerm i => do
    let call ← s.calls[i]?
    if call.watchdog = .watching then
      return s.setCall i { call.signal with watchdog := .grace }
    else none
  | .watchdogKill i => do
    let call ← s.calls[i]?
    if call.watchdog = .grace then return s.setCall i { call.signal with watchdog := .ended }
    else none
  | .watchdogEnd i => do
    let call ← s.callAt i .waited
    if call.watchdog = .off then none else return s.setCall i { call with watchdog := .ended }
  | .unregister i => do
    let call ← s.callAt i .waited
    if s.lock = none ∧ (call.watchdog = .off ∨ call.watchdog = .ended) then
      return { s.setCall i { call with pc := .killing } with
        groups := s.groups.filter fun group => group ≠ call.group }
    else none
  | .killGroup i => do
    let call ← s.callAt i .killing
    return s.setCall i { call.signal with pc := .reaping }
  | .reap i => do
    let call ← s.callAt i .reaping
    if call.child = .exited then return s.setCall i { call with pc := .returned, child := .reaped }
    else none
  | .cancel => some { s with cancellers := s.cancellers ++ [.called] }
  | .swap i =>
    if s.cancellers[i]? = some .called then
      some { s.setCanceller i (if s.cancelled then .repeated else .swapped) with cancelled := true }
    else none
  | .take i =>
    if s.cancellers[i]? = some .swapped ∧ s.lock = none then
      if s.groups.isEmpty then some (s.setCanceller i .ended)
      else some { s.setCanceller i (.signalling s.groups) with lock := some (.canceller i) }
    else none
  | .term i =>
    match s.cancellers[i]? with
    | some (.signalling (group :: rest)) =>
      some ((s.setCanceller i (.signalling rest)).signal group)
    | _ => none
  | .leave i =>
    if s.cancellers[i]? = some (.signalling []) then
      some { s.setCanceller i .sleeping with lock := none }
    else none
  | .wake i =>
    if s.cancellers[i]? = some .sleeping ∧ s.lock = none then
      some { s.setCanceller i (.killing s.groups) with lock := some (.canceller i) }
    else none
  | .kill i =>
    match s.cancellers[i]? with
    | some (.killing (group :: rest)) => some ((s.setCanceller i (.killing rest)).signal group)
    | _ => none
  | .finish i =>
    if s.cancellers[i]? = some (.killing []) then
      some { s.setCanceller i .ended with lock := none }
    else none

end System

/-- One step of one thread. -/
def Step (s : System) (e : Event) (s' : System) : Prop := s.exec e = some s'

/-! ## What holds in every state -/

/-- Whether the call is in its critical section. -/
def Call.critical (call : Call) : Bool :=
  call.pc = .locked || call.pc = .cancelled || call.pc = .inserting

/-- What holds of a call by itself. -/
structure Call.Ok (call : Call) : Prop where
  unreaped : call.pc ≠ .returned → call.child ≠ .reaped
  watchdog : call.watchdog = .watching ∨ call.watchdog = .grace → call.registered = true
  signalled : call.pc = .reaping ∨ call.pc = .returned → call.signalled = true

namespace Canceller

/-- The groups the thread has yet to signal. -/
def rest : Canceller → List Nat
  | .signalling groups | .killing groups => groups
  | _ => []

/-- The groups that have yet to be sent SIGTERM. -/
def toTerm : Canceller → List Nat
  | .signalling groups => groups
  | _ => []

def critical : Canceller → Bool
  | .signalling _ | .killing _ => true
  | _ => false

/-- Whether the call has looked at the registered groups. -/
def looked : Canceller → Bool
  | .signalling _ | .sleeping | .killing _ | .ended => true
  | _ => false

end Canceller

structure System.Ok (s : System) : Prop where
  calls : ∀ call ∈ s.calls, call.Ok
  /-- No two unreaped children have one id. -/
  apart : ∀ {i j : Nat} {a b : Call}, s.calls[i]? = some a → s.calls[j]? = some b → a.child ≠ .reaped →
    b.child ≠ .reaped → a.group = b.group → i = j
  groups : ∀ {group : Nat}, group ∈ s.groups ↔
    ∃ call ∈ s.calls, call.registered = true ∧ call.group = group
  callLock : ∀ {i : Nat} {call : Call}, s.calls[i]? = some call → call.critical = true → s.lock = some (.call i)
  cancellerLock : ∀ {i : Nat} {canceller : Canceller}, s.cancellers[i]? = some canceller →
    canceller.critical = true → s.lock = some (.canceller i)
  rest : ∀ canceller ∈ s.cancellers, ∀ group ∈ canceller.rest, group ∈ s.groups
  flag : ∀ canceller ∈ s.cancellers, canceller ≠ .called → s.cancelled = true
  /-- A registered child was signalled, or is among those the canceller has yet to signal. -/
  sent : ∀ canceller ∈ s.cancellers, canceller.looked = true → ∀ call ∈ s.calls,
    call.registered = true → call.signalled = true ∨ call.group ∈ canceller.toTerm
  /-- A child that is registered unsignalled is so before a canceller looks. -/
  late : ∀ call ∈ s.calls, call.pc = .inserting → call.signalled = false →
    ∀ canceller ∈ s.cancellers, canceller.looked = false

theorem ok_init : System.init.Ok := by
  constructor <;> simp [System.init]

section Steps

variable {s s' : System} {call call' : Call} {canceller canceller' : Canceller} {i : Nat}

/-- A step of one call. -/
theorem System.Ok.setCall (h : s.Ok) {groups : List Nat} {lock : Option Holder}
    (hcall : s.calls[i]? = some call) (hok : call'.Ok) (hgroup : call'.group = call.group)
    (hchild : call'.child ≠ .reaped → call.child ≠ .reaped)
    (hgroups : ∀ {group}, group ∈ groups ↔ call'.registered = true ∧ call.group = group ∨
      ∃ j other, j ≠ i ∧ s.calls[j]? = some other ∧ other.registered = true ∧ other.group = group)
    (hlock : call'.critical = true → lock = some (.call i))
    (hothers : lock = s.lock ∨ s.lock = none ∨ s.lock = some (.call i))
    (hrest : ∀ canceller ∈ s.cancellers, ∀ group ∈ canceller.rest, group ∈ groups)
    (hsent : call'.registered = true → ∀ canceller ∈ s.cancellers, canceller.looked = true →
      call'.signalled = true ∨ call'.group ∈ canceller.toTerm)
    (hlate : call'.pc = .inserting → call'.signalled = false →
      ∀ canceller ∈ s.cancellers, canceller.looked = false) :
    System.Ok { s.setCall i call' with groups := groups, lock := lock } where
  calls := by
    intro other hother
    rcases List.mem_or_eq_of_mem_set hother with hold | rfl
    · exact h.calls other hold
    · exact hok
  apart := by
    -- A group belongs to one call: the changed one keeps its group, so the pair is compared as before.
    intro j k a b ha hb hla hlb hab
    rcases Table.getElem?_set_cases ha with ⟨rfl, rfl⟩ | ⟨hj, ha'⟩ <;>
      rcases Table.getElem?_set_cases hb with ⟨hk, rfl⟩ | ⟨hk, hb'⟩
    · exact hk.symm
    · exact h.apart hcall hb' (hchild hla) hlb (hgroup.symm.trans hab)
    · exact (h.apart ha' hcall hla (hchild hlb) (hab.trans hgroup)).trans hk.symm
    · exact h.apart ha' hb' hla hlb hab
  groups := by
    intro group
    show group ∈ groups ↔ ∃ other ∈ s.calls.set i call', other.registered = true ∧ other.group = group
    rw [hgroups]
    constructor
    · rintro (⟨hregistered, rfl⟩ | ⟨j, other, hj, hother, hregistered⟩)
      · refine ⟨call', ?_, hregistered, hgroup⟩
        exact List.mem_set (List.getElem?_eq_some_iff.mp hcall).1 call'
      · refine ⟨other, ?_, hregistered⟩
        have hkept : (s.calls.set i call')[j]? = some other := by
          rw [List.getElem?_set_ne (Ne.symm hj)]
          exact hother
        exact List.mem_of_getElem? hkept
    · rintro ⟨other, hother, hregistered, rfl⟩
      obtain ⟨j, hj⟩ := List.mem_iff_getElem?.mp hother
      rcases Table.getElem?_set_cases hj with ⟨rfl, rfl⟩ | ⟨hne, hj⟩
      · exact .inl ⟨hregistered, hgroup.symm⟩
      · exact .inr ⟨j, other, hne, hj, hregistered, rfl⟩
  callLock := by
    intro j other hother hcritical
    show lock = some (.call j)
    rcases Table.getElem?_set_cases hother with ⟨rfl, rfl⟩ | ⟨hne, hother⟩
    · exact hlock hcritical
    · -- Another call in its critical section held the lock before, and the step took it from nobody.
      have hheld := h.callLock hother hcritical
      rcases hothers with rfl | hnone | hmine
      · exact hheld
      · rw [hnone] at hheld
        cases hheld
      · rw [hmine] at hheld
        cases hheld
        exact absurd rfl hne
  cancellerLock := by
    intro j other hother hcritical
    show lock = some (.canceller j)
    have hheld := h.cancellerLock hother hcritical
    rcases hothers with rfl | hnone | hmine
    · exact hheld
    · rw [hnone] at hheld
      cases hheld
    · rw [hmine] at hheld
      cases hheld
  rest := hrest
  flag := h.flag
  sent := by
    intro canceller hcanceller hlooked other hother hregistered
    rcases List.mem_or_eq_of_mem_set hother with hold | rfl
    · exact h.sent canceller hcanceller hlooked other hold hregistered
    · exact hsent hregistered canceller hcanceller hlooked
  late := by
    intro other hother hpc hunsignalled
    rcases List.mem_or_eq_of_mem_set hother with hold | rfl
    · exact h.late other hold hpc hunsignalled
    · exact hlate hpc hunsignalled

/-- The registered groups, by the call `i` and the others. -/
theorem System.Ok.groups_at (h : s.Ok) (hcall : s.calls[i]? = some call) {group : Nat} :
    group ∈ s.groups ↔ call.registered = true ∧ call.group = group ∨
      ∃ j other, j ≠ i ∧ s.calls[j]? = some other ∧ other.registered = true ∧ other.group = group := by
  rw [h.groups]
  constructor
  · rintro ⟨other, hother, hregistered⟩
    obtain ⟨j, hj⟩ := List.mem_iff_getElem?.mp hother
    by_cases hji : j = i
    · subst hji
      rw [hcall] at hj
      cases hj
      exact .inl hregistered
    · exact .inr ⟨j, other, hji, hj, hregistered⟩
  · rintro (hregistered | ⟨j, other, _, hj, hregistered⟩)
    · exact ⟨call, List.mem_of_getElem? hcall, hregistered⟩
    · exact ⟨other, List.mem_of_getElem? hj, hregistered⟩

/-- A step of a call that takes no lock and changes no registration. -/
theorem System.Ok.keep (h : s.Ok) (hcall : s.calls[i]? = some call) (hok : call'.Ok)
    (hgroup : call'.group = call.group)
    (hchild : call'.child ≠ .reaped → call.child ≠ .reaped)
    (hregistered : call'.registered = call.registered)
    (hcritical : call'.critical = true → call.critical = true)
    (hsignalled : call.signalled = true → call'.signalled = true)
    (hlate : call'.pc = .inserting → call'.signalled = false →
      ∀ canceller ∈ s.cancellers, canceller.looked = false) : (s.setCall i call').Ok := by
  refine h.setCall hcall hok hgroup hchild ?_ (fun hc => h.callLock hcall (hcritical hc)) (.inl rfl)
    h.rest ?_ hlate
  · intro group
    rw [hregistered]
    exact h.groups_at hcall
  · intro hnow canceller hcanceller hlooked
    rw [hregistered] at hnow
    rw [hgroup]
    exact (h.sent canceller hcanceller hlooked call (List.mem_of_getElem? hcall) hnow).imp_left
      hsignalled

/-- A step of one canceller. -/
theorem System.Ok.setCanceller (h : s.Ok) {lock : Option Holder} {cancelled : Bool}
    (hcanceller : s.cancellers[i]? = some canceller)
    (hflag : s.cancelled = true → cancelled = true) (hset : canceller' ≠ .called → cancelled = true)
    (hrest : ∀ group ∈ canceller'.rest, group ∈ s.groups)
    (hlock : canceller'.critical = true → lock = some (.canceller i))
    (hothers : lock = s.lock ∨ s.lock = none ∨ s.lock = some (.canceller i))
    (hsent : canceller'.looked = true → ∀ call ∈ s.calls, call.registered = true →
      call.signalled = true ∨ call.group ∈ canceller'.toTerm)
    (hlate : canceller'.looked = true → ∀ call ∈ s.calls, call.pc = .inserting →
      call.signalled = true) :
    System.Ok { s.setCanceller i canceller' with lock := lock, cancelled := cancelled } where
  calls := h.calls
  apart := h.apart
  groups := h.groups
  callLock := by
    intro j call hcall hcritical
    show lock = some (.call j)
    -- A call in its critical section held the lock before, so it was neither free nor this canceller's.
    have hheld := h.callLock hcall hcritical
    rcases hothers with rfl | hnone | hmine
    · exact hheld
    · rw [hnone] at hheld
      cases hheld
    · rw [hmine] at hheld
      cases hheld
  cancellerLock := by
    intro j other hother hcritical
    show lock = some (.canceller j)
    rcases Table.getElem?_set_cases hother with ⟨rfl, rfl⟩ | ⟨hne, hother⟩
    · exact hlock hcritical
    · have hheld := h.cancellerLock hother hcritical
      rcases hothers with rfl | hnone | hmine
      · exact hheld
      · rw [hnone] at hheld
        cases hheld
      · rw [hmine] at hheld
        cases hheld
        exact absurd rfl hne
  rest := by
    intro other hother
    rcases List.mem_or_eq_of_mem_set hother with hold | rfl
    · exact h.rest other hold
    · exact hrest
  flag := by
    intro other hother hne
    rcases List.mem_or_eq_of_mem_set hother with hold | rfl
    · exact hflag (h.flag other hold hne)
    · exact hset hne
  sent := by
    intro other hother
    rcases List.mem_or_eq_of_mem_set hother with hold | rfl
    · exact h.sent other hold
    · exact hsent
  late := by
    intro call hcall hpc hunsignalled other hother
    rcases List.mem_or_eq_of_mem_set hother with hold | rfl
    · exact h.late call hcall hpc hunsignalled other hold
    · -- A canceller that has looked has signalled every call that it did not find registered.
      by_contra hlooked
      have := hlate (by simpa using hlooked) call hcall hpc
      rw [this] at hunsignalled
      cases hunsignalled

/-- A signal to a group. -/
theorem System.Ok.signal (h : s.Ok) (group : Nat) : (s.signal group).Ok := by
  -- A signal changes whether a call was signalled, and for the group's calls only.
  have hsame : ∀ call : Call, (call.receive group).group = call.group ∧
      (call.receive group).pc = call.pc ∧ (call.receive group).child = call.child ∧
      (call.receive group).watchdog = call.watchdog ∧
      (call.signalled = true → (call.receive group).signalled = true) := by
    intro call
    unfold Call.receive
    split <;> simp [Call.signal]
  have hregistered : ∀ call : Call, (call.receive group).registered = call.registered := by
    intro call
    simp only [Call.registered, (hsame call).2.1]
  have hat : ∀ {i : Nat} {call : Call}, (s.signal group).calls[i]? = some call →
      ∃ before, s.calls[i]? = some before ∧ before.receive group = call := by
    intro i call hcall
    exact Option.map_eq_some_iff.mp (List.getElem?_map ▸ hcall)
  refine ⟨?_, ?_, ?_, ?_, h.cancellerLock, h.rest, h.flag, ?_, ?_⟩
  · intro call hcall
    obtain ⟨before, hbefore, rfl⟩ := List.mem_map.mp hcall
    obtain ⟨_, hpc, hchild, hwatchdog, hsignalled⟩ := hsame before
    have hok := h.calls before hbefore
    refine ⟨?_, ?_, ?_⟩
    · rw [hpc, hchild]
      exact hok.unreaped
    · rw [hwatchdog, hregistered]
      exact hok.watchdog
    · rw [hpc]
      exact fun hdone => hsignalled (hok.signalled hdone)
  · intro i j a b ha hb hla hlb hab
    obtain ⟨a', ha', rfl⟩ := hat ha
    obtain ⟨b', hb', rfl⟩ := hat hb
    rw [(hsame a').2.2.1] at hla
    rw [(hsame b').2.2.1] at hlb
    rw [(hsame a').1, (hsame b').1] at hab
    exact h.apart ha' hb' hla hlb hab
  · intro other
    show other ∈ s.groups ↔ ∃ call ∈ s.calls.map (Call.receive group), _
    rw [h.groups]
    simp only [List.mem_map, exists_exists_and_eq_and, hregistered, (hsame _).1]
  · intro i call hcall hcritical
    obtain ⟨before, hbefore, rfl⟩ := hat hcall
    simp only [Call.critical, (hsame before).2.1] at hcritical
    exact h.callLock hbefore hcritical
  · intro canceller hcanceller hlooked call hcall hnow
    obtain ⟨before, hbefore, rfl⟩ := List.mem_map.mp hcall
    rw [hregistered] at hnow
    rw [(hsame before).1]
    exact (h.sent canceller hcanceller hlooked before hbefore hnow).imp_left (hsame before).2.2.2.2
  · intro call hcall hpc hunsignalled
    obtain ⟨before, hbefore, rfl⟩ := List.mem_map.mp hcall
    rw [(hsame before).2.1] at hpc
    refine h.late before hbefore hpc ?_
    by_contra hsent
    rw [(hsame before).2.2.2.2 (by simpa using hsent)] at hunsignalled
    cases hunsignalled

theorem callAt_eq_some {pc : Pc} (h : s.callAt i pc = some call) :
    s.calls[i]? = some call ∧ call.pc = pc := by
  obtain ⟨hcall, hpc⟩ := Option.filter_eq_some_iff.mp h
  exact ⟨hcall, of_decide_eq_true hpc⟩

/-! Each step of a call. -/

theorem ok_spawn {group : Nat} {watched : Bool} (h : s.Ok)
    (hstep : s.exec (.spawn group watched) = some s') : s'.Ok := by
  simp only [System.exec, Option.ite_none_right_eq_some, List.all_eq_true] at hstep
  obtain ⟨hfree, hstep⟩ := hstep
  obtain rfl := Option.some.inj hstep
  have hnew : ∀ {j : Nat} {other : Call}, s.calls[j]? = some other → other.child ≠ .reaped →
      other.group ≠ group := by
    intro j other hother hchild
    simpa [hchild] using hfree other (List.mem_of_getElem? hother)
  refine ⟨?_, ?_, ?_, ?_, h.cancellerLock, h.rest, h.flag, ?_, ?_⟩
  · intro call hcall
    rcases List.mem_append.mp hcall with hold | hlast
    · exact h.calls call hold
    · obtain rfl := List.mem_singleton.mp hlast
      exact ⟨by simp, by simp, by simp⟩
  · intro j k a b ha hb hla hlb hab
    rcases Table.getElem?_concat_cases ha with ⟨rfl, rfl⟩ | ha' <;>
      rcases Table.getElem?_concat_cases hb with ⟨hk, rfl⟩ | hb'
    · exact hk.symm
    · exact absurd hab.symm (hnew hb' hlb)
    · exact absurd hab (hnew ha' hla)
    · exact h.apart ha' hb' hla hlb hab
  · intro other
    simp [h.groups, Call.registered]
  · intro j call hcall hcritical
    rcases Table.getElem?_concat_cases hcall with ⟨rfl, rfl⟩ | hold
    · simp [Call.critical] at hcritical
    · exact h.callLock hold hcritical
  · intro canceller hcanceller hlooked call hcall hregistered
    rcases List.mem_append.mp hcall with hold | hlast
    · exact h.sent canceller hcanceller hlooked call hold hregistered
    · obtain rfl := List.mem_singleton.mp hlast
      simp [Call.registered] at hregistered
  · intro call hcall hpc
    rcases List.mem_append.mp hcall with hold | hlast
    · exact h.late call hold hpc
    · obtain rfl := List.mem_singleton.mp hlast
      cases hpc

theorem ok_exit (h : s.Ok) (hstep : s.exec (.exit i) = some s') : s'.Ok := by
  obtain ⟨call, hcall, hstep⟩ := Option.bind_eq_some_iff.mp hstep
  obtain ⟨hrunning, hstep⟩ := Option.ite_none_right_eq_some.mp hstep
  obtain rfl := Option.some.inj hstep
  have hok := h.calls call (List.mem_of_getElem? hcall)
  refine h.keep hcall ⟨by simp, hok.watchdog, hok.signalled⟩ rfl (by simp [hrunning]) rfl id id ?_
  exact h.late call (List.mem_of_getElem? hcall)

theorem ok_lock (h : s.Ok) (hstep : s.exec (.lock i) = some s') : s'.Ok := by
  obtain ⟨call, hat, hstep⟩ := Option.bind_eq_some_iff.mp hstep
  obtain ⟨hcall, hpc⟩ := callAt_eq_some hat
  obtain ⟨hfree, hstep⟩ := Option.ite_none_right_eq_some.mp hstep
  obtain rfl := Option.some.inj hstep
  have hok := h.calls call (List.mem_of_getElem? hcall)
  have hwatchdog : ¬(call.watchdog = .watching ∨ call.watchdog = .grace) := by
    intro hactive
    simpa [Call.registered, hpc] using hok.watchdog hactive
  refine h.setCall hcall ⟨fun _ => hok.unreaped (by simp [hpc]), ?_, by simp⟩ rfl id ?_ (fun _ => rfl)
    (.inr (.inl hfree)) h.rest (by simp [Call.registered]) (by simp)
  · exact fun hactive => absurd hactive hwatchdog
  · intro group
    rw [System.setCall, h.groups_at hcall]
    simp [Call.registered, hpc]

theorem ok_look (h : s.Ok) (hstep : s.exec (.look i) = some s') : s'.Ok := by
  obtain ⟨call, hat, hstep⟩ := Option.bind_eq_some_iff.mp hstep
  obtain ⟨hcall, hpc⟩ := callAt_eq_some hat
  obtain rfl := Option.some.inj hstep
  have hok := h.calls call (List.mem_of_getElem? hcall)
  have hactive : ¬(call.watchdog = .watching ∨ call.watchdog = .grace) := by
    intro hactive
    simpa [Call.registered, hpc] using hok.watchdog hactive
  refine h.keep hcall ⟨fun _ => hok.unreaped (by simp [hpc]), fun hw => absurd hw hactive, ?_⟩ rfl id
    ?_ (by simp [Call.critical, hpc]) id ?_
  · split <;> simp
  · split <;> simp [Call.registered, hpc]
  · intro hinserting _ canceller hcanceller
    -- the flag was not set, so no canceller is past setting it
    have hunset : s.cancelled = false := by
      by_contra hset
      simp [hset] at hinserting
    by_contra hlooked
    have hne : canceller ≠ .called := by
      rintro rfl
      exact hlooked rfl
    rw [h.flag canceller hcanceller hne] at hunset
    cases hunset

theorem ok_killNew (h : s.Ok) (hstep : s.exec (.killNew i) = some s') : s'.Ok := by
  obtain ⟨call, hat, hstep⟩ := Option.bind_eq_some_iff.mp hstep
  obtain ⟨hcall, hpc⟩ := callAt_eq_some hat
  obtain rfl := Option.some.inj hstep
  have hok := h.calls call (List.mem_of_getElem? hcall)
  have hactive : ¬(call.watchdog = .watching ∨ call.watchdog = .grace) := by
    intro hactive
    simpa [Call.registered, hpc] using hok.watchdog hactive
  refine h.keep hcall ⟨fun _ => hok.unreaped (by simp [hpc]), fun hw => absurd hw hactive, by simp⟩
    rfl id (by simp [Call.registered, hpc]) (by simp [Call.critical, hpc]) (by simp [Call.signal]) ?_
  simp [Call.signal]

/-- A child is registered unsignalled only before a canceller looks. -/
theorem ok_insert (h : s.Ok) (hstep : s.exec (.insert i) = some s') : s'.Ok := by
  obtain ⟨call, hat, hstep⟩ := Option.bind_eq_some_iff.mp hstep
  obtain ⟨hcall, hpc⟩ := callAt_eq_some hat
  obtain rfl := Option.some.inj hstep
  have hmem := List.mem_of_getElem? hcall
  have hok := h.calls call hmem
  have hheld := h.callLock hcall (by simp [Call.critical, hpc])
  refine h.setCall hcall ⟨fun _ => hok.unreaped (by simp [hpc]), by simp [Call.registered], by simp⟩
    rfl id ?_ (by simp [Call.critical]) (.inr (.inr hheld)) ?_ ?_ (by simp)
  · intro group
    rw [List.mem_cons, h.groups_at hcall, @eq_comm _ group]
    simp [Call.registered, hpc]
  · intro canceller hcanceller group hgroup
    exact List.mem_cons_of_mem _ (h.rest canceller hcanceller group hgroup)
  · intro _ canceller hcanceller hlooked
    left
    by_contra hunsignalled
    rw [h.late call hmem hpc (by simpa using hunsignalled) canceller hcanceller] at hlooked
    cases hlooked

theorem ok_waited (h : s.Ok) (hstep : s.exec (.waited i) = some s') : s'.Ok := by
  obtain ⟨call, hat, hstep⟩ := Option.bind_eq_some_iff.mp hstep
  obtain ⟨hcall, hpc⟩ := callAt_eq_some hat
  obtain rfl := Option.some.inj hstep
  have hok := h.calls call (List.mem_of_getElem? hcall)
  exact h.keep hcall ⟨fun _ => hok.unreaped (by simp [hpc]), by simp [Call.registered], by simp⟩ rfl id
    (by simp [Call.registered, hpc]) (by simp [Call.critical]) id (by simp)

/-- A step of the watchdog. -/
theorem System.Ok.watchdog (h : s.Ok) (hcall : s.calls[i]? = some call) {watchdog : Watchdog}
    {signalled : Bool} (hsignalled : call.signalled = true → signalled = true)
    (hactive : watchdog = .watching ∨ watchdog = .grace → call.registered = true) :
    (s.setCall i { call with watchdog, signalled }).Ok := by
  have hok := h.calls call (List.mem_of_getElem? hcall)
  refine h.keep hcall ⟨hok.unreaped, hactive, fun hdone => hsignalled (hok.signalled hdone)⟩ rfl id
    rfl id hsignalled ?_
  intro hpc hunsignalled
  refine h.late call (List.mem_of_getElem? hcall) hpc ?_
  by_contra hsent
  rw [hsignalled (by simpa using hsent)] at hunsignalled
  cases hunsignalled

theorem ok_watchdogTerm (h : s.Ok) (hstep : s.exec (.watchdogTerm i) = some s') : s'.Ok := by
  obtain ⟨call, hcall, hstep⟩ := Option.bind_eq_some_iff.mp hstep
  obtain ⟨hwatching, hstep⟩ := Option.ite_none_right_eq_some.mp hstep
  obtain rfl := Option.some.inj hstep
  have hok := h.calls call (List.mem_of_getElem? hcall)
  exact h.watchdog hcall (fun _ => rfl) fun _ => hok.watchdog (.inl hwatching)

theorem ok_watchdogKill (h : s.Ok) (hstep : s.exec (.watchdogKill i) = some s') : s'.Ok := by
  obtain ⟨call, hcall, hstep⟩ := Option.bind_eq_some_iff.mp hstep
  obtain ⟨_, hstep⟩ := Option.ite_none_right_eq_some.mp hstep
  obtain rfl := Option.some.inj hstep
  exact h.watchdog hcall (fun _ => rfl) (by simp)

theorem ok_watchdogEnd (h : s.Ok) (hstep : s.exec (.watchdogEnd i) = some s') : s'.Ok := by
  obtain ⟨call, hat, hstep⟩ := Option.bind_eq_some_iff.mp hstep
  obtain ⟨_, hstep⟩ := Option.ite_none_left_eq_some.mp hstep
  obtain rfl := Option.some.inj hstep
  exact h.watchdog (callAt_eq_some hat).1 id (by simp)

/-- No other registered child has the id. -/
theorem ok_unregister (h : s.Ok) (hstep : s.exec (.unregister i) = some s') : s'.Ok := by
  obtain ⟨call, hat, hstep⟩ := Option.bind_eq_some_iff.mp hstep
  obtain ⟨hcall, hpc⟩ := callAt_eq_some hat
  obtain ⟨⟨hfree, hended⟩, hstep⟩ := Option.ite_none_right_eq_some.mp hstep
  obtain rfl := Option.some.inj hstep
  have hok := h.calls call (List.mem_of_getElem? hcall)
  have hunreaped := hok.unreaped (by simp [hpc])
  have hother : ∀ {j : Nat} {other : Call}, j ≠ i → s.calls[j]? = some other →
      other.registered = true → other.group ≠ call.group := by
    intro j other hne hj hregistered hgroup
    refine hne (h.apart hj hcall ?_ hunreaped hgroup)
    refine (h.calls other (List.mem_of_getElem? hj)).unreaped ?_
    intro hreturned
    simp [Call.registered, hreturned] at hregistered
  refine h.setCall hcall ⟨fun _ => hunreaped, ?_, by simp⟩ rfl id ?_ (by simp [Call.critical])
    (.inl rfl) ?_ (by simp [Call.registered]) (by simp)
  · rcases hended with hoff | hdone
    · simp [hoff]
    · simp [hdone]
  · intro group
    rw [List.mem_filter, h.groups_at hcall]
    simp only [Call.registered, hpc]
    constructor
    · rintro ⟨⟨_, rfl⟩ | hothers, hne⟩
      · simp at hne
      · exact .inr hothers
    · rintro (⟨hnow, _⟩ | ⟨j, other, hne, hj, hregistered, rfl⟩)
      · simp at hnow
      · exact ⟨.inr ⟨j, other, hne, hj, hregistered, rfl⟩, by simpa using hother hne hj hregistered⟩
  · -- the lock is free, so no canceller has groups left to signal
    intro canceller hcanceller group hgroup
    obtain ⟨k, hk⟩ := List.mem_iff_getElem?.mp hcanceller
    have hcritical : canceller.critical = true := by
      cases canceller <;> first | rfl | cases hgroup
    rw [h.cancellerLock hk hcritical] at hfree
    cases hfree

theorem ok_killGroup (h : s.Ok) (hstep : s.exec (.killGroup i) = some s') : s'.Ok := by
  obtain ⟨call, hat, hstep⟩ := Option.bind_eq_some_iff.mp hstep
  obtain ⟨hcall, hpc⟩ := callAt_eq_some hat
  obtain rfl := Option.some.inj hstep
  have hok := h.calls call (List.mem_of_getElem? hcall)
  have hactive : ¬(call.watchdog = .watching ∨ call.watchdog = .grace) := by
    intro hactive
    simpa [Call.registered, hpc] using hok.watchdog hactive
  exact h.keep hcall ⟨fun _ => hok.unreaped (by simp [hpc]), fun hw => absurd hw hactive, fun _ => rfl⟩
    rfl id (by simp [Call.registered, hpc]) (by simp [Call.critical]) (fun _ => rfl) (by simp)

theorem ok_reap (h : s.Ok) (hstep : s.exec (.reap i) = some s') : s'.Ok := by
  obtain ⟨call, hat, hstep⟩ := Option.bind_eq_some_iff.mp hstep
  obtain ⟨hcall, hpc⟩ := callAt_eq_some hat
  obtain ⟨_, hstep⟩ := Option.ite_none_right_eq_some.mp hstep
  obtain rfl := Option.some.inj hstep
  have hok := h.calls call (List.mem_of_getElem? hcall)
  have hactive : ¬(call.watchdog = .watching ∨ call.watchdog = .grace) := by
    intro hactive
    simpa [Call.registered, hpc] using hok.watchdog hactive
  exact h.keep hcall ⟨by simp, fun hw => absurd hw hactive, fun _ => hok.signalled (.inl hpc)⟩
    rfl (by simp) (by simp [Call.registered, hpc]) (by simp [Call.critical]) id (by simp)

/-! Each step of a canceller. -/

theorem ok_cancel (h : s.Ok) (hstep : s.exec .cancel = some s') : s'.Ok := by
  obtain rfl := Option.some.inj hstep
  refine ⟨h.calls, h.apart, h.groups, h.callLock, ?_, ?_, ?_, ?_, ?_⟩
  · intro j canceller hcanceller hcritical
    rcases Table.getElem?_concat_cases hcanceller with ⟨rfl, rfl⟩ | hold
    · cases hcritical
    · exact h.cancellerLock hold hcritical
  · intro canceller hcanceller
    rcases List.mem_append.mp hcanceller with hold | hlast
    · exact h.rest canceller hold
    · obtain rfl := List.mem_singleton.mp hlast
      simp [Canceller.rest]
  · intro canceller hcanceller hne
    rcases List.mem_append.mp hcanceller with hold | hlast
    · exact h.flag canceller hold hne
    · exact absurd (List.mem_singleton.mp hlast) hne
  · intro canceller hcanceller hlooked
    rcases List.mem_append.mp hcanceller with hold | hlast
    · exact h.sent canceller hold hlooked
    · obtain rfl := List.mem_singleton.mp hlast
      cases hlooked
  · intro call hcall hpc hunsignalled canceller hcanceller
    rcases List.mem_append.mp hcanceller with hold | hlast
    · exact h.late call hcall hpc hunsignalled canceller hold
    · obtain rfl := List.mem_singleton.mp hlast
      rfl

theorem ok_swap (h : s.Ok) (hstep : s.exec (.swap i) = some s') : s'.Ok := by
  obtain ⟨hcanceller, hstep⟩ := Option.ite_none_right_eq_some.mp hstep
  obtain rfl := Option.some.inj hstep
  refine h.setCanceller hcanceller (fun _ => rfl) (fun _ => rfl) ?_ ?_ (.inl rfl) ?_ ?_ <;>
    split <;> simp [Canceller.rest, Canceller.critical, Canceller.looked]

/-- While the lock is free no call is in its critical section. -/
theorem System.Ok.not_critical (h : s.Ok) (hfree : s.lock = none) (hcall : call ∈ s.calls) :
    call.critical = false := by
  by_contra hcritical
  obtain ⟨j, hj⟩ := List.mem_iff_getElem?.mp hcall
  rw [h.callLock hj (by simpa using hcritical)] at hfree
  cases hfree

/-- The canceller finds every registered group under the lock. -/
theorem ok_take (h : s.Ok) (hstep : s.exec (.take i) = some s') : s'.Ok := by
  obtain ⟨⟨hcanceller, hfree⟩, hstep⟩ := Option.ite_none_right_eq_some.mp hstep
  have hset : s.cancelled = true := h.flag _ (List.mem_of_getElem? hcanceller) (by simp)
  have hlate : ∀ call ∈ s.calls, call.pc = .inserting → call.signalled = true := by
    intro call hcall hpc
    have := h.not_critical hfree hcall
    simp [Call.critical, hpc] at this
  split at hstep
  · next hempty =>
      obtain rfl := Option.some.inj hstep
      refine h.setCanceller hcanceller id (fun _ => hset) (by simp [Canceller.rest])
        (by simp [Canceller.critical]) (.inl rfl) (fun _ call hcall hregistered => ?_)
        (fun _ => hlate)
      have hmem : call.group ∈ s.groups := h.groups.mpr ⟨call, hcall, hregistered, rfl⟩
      rw [List.isEmpty_iff.mp hempty] at hmem
      cases hmem
  · obtain rfl := Option.some.inj hstep
    refine h.setCanceller hcanceller id (fun _ => hset) (fun _ => id) (fun _ => rfl)
      (.inr (.inl hfree)) (fun _ call hcall hregistered => ?_) (fun _ => hlate)
    exact .inr (h.groups.mpr ⟨call, hcall, hregistered, rfl⟩)

/-- A canceller that is past its look stays so. -/
theorem System.Ok.inserting_signalled (h : s.Ok) (hcanceller : canceller ∈ s.cancellers)
    (hlooked : canceller.looked = true) :
    ∀ call ∈ s.calls, call.pc = .inserting → call.signalled = true := by
  intro call hcall hpc
  by_contra hunsignalled
  rw [h.late call hcall hpc (by simpa using hunsignalled) canceller hcanceller] at hlooked
  cases hlooked

/-- A signal reaches the registered child whose id it is sent to. -/
theorem received {group : Nat} (hgroup : (call.receive group).group = group)
    (hok : (call.receive group).Ok) (hregistered : (call.receive group).registered = true) :
    (call.receive group).signalled = true := by
  by_cases hmine : call.group = group ∧ call.child ≠ .reaped
  · simp [Call.receive, hmine, Call.signal]
  · rw [Call.receive, if_neg hmine] at hgroup hok hregistered
    have hunreaped : call.child ≠ .reaped := by
      apply hok.unreaped
      intro hreturned
      simp [Call.registered, hreturned] at hregistered
    exact absurd ⟨hgroup, hunreaped⟩ hmine

theorem ok_term (h : s.Ok) (hstep : s.exec (.term i) = some s') : s'.Ok := by
  simp only [System.exec] at hstep
  split at hstep
  · next group rest hcanceller =>
      obtain rfl := Option.some.inj hstep
      have hmem := List.mem_of_getElem? hcanceller
      have hsignal := h.signal group
      refine hsignal.setCanceller hcanceller id (fun _ => h.flag _ hmem (by simp)) ?_
        (fun _ => h.cancellerLock hcanceller rfl) (.inl rfl) (fun _ call hcall hregistered => ?_)
        (fun _ => hsignal.inserting_signalled hmem rfl)
      · exact fun p hp => h.rest _ hmem p (List.mem_cons_of_mem _ hp)
      · -- the group at the front was just signalled
        rcases hsignal.sent _ hmem rfl call hcall hregistered with hsignalled | hleft
        · exact .inl hsignalled
        · rcases List.mem_cons.mp hleft with hfirst | hrest
          · left
            obtain ⟨before, hbefore, rfl⟩ := List.mem_map.mp hcall
            exact received hfirst (hsignal.calls _ hcall) hregistered
          · exact .inr hrest
  · cases hstep

theorem ok_leave (h : s.Ok) (hstep : s.exec (.leave i) = some s') : s'.Ok := by
  obtain ⟨hcanceller, hstep⟩ := Option.ite_none_right_eq_some.mp hstep
  obtain rfl := Option.some.inj hstep
  have hmem := List.mem_of_getElem? hcanceller
  refine h.setCanceller hcanceller id (fun _ => h.flag _ hmem (by simp)) (by simp [Canceller.rest])
    (by simp [Canceller.critical]) (.inr (.inr (h.cancellerLock hcanceller rfl)))
    (fun _ call hcall hregistered => ?_) (fun _ => h.inserting_signalled hmem rfl)
  exact h.sent _ hmem rfl call hcall hregistered

/-- The thread that is left behind finds registered groups only. -/
theorem ok_wake (h : s.Ok) (hstep : s.exec (.wake i) = some s') : s'.Ok := by
  obtain ⟨⟨hcanceller, hfree⟩, hstep⟩ := Option.ite_none_right_eq_some.mp hstep
  obtain rfl := Option.some.inj hstep
  have hmem := List.mem_of_getElem? hcanceller
  have hsent := h.sent _ hmem rfl
  exact h.setCanceller hcanceller id (fun _ => h.flag _ hmem (by simp)) (fun _ => id) (fun _ => rfl)
    (.inr (.inl hfree)) (fun _ => hsent) (fun _ => h.inserting_signalled hmem rfl)

theorem ok_kill (h : s.Ok) (hstep : s.exec (.kill i) = some s') : s'.Ok := by
  simp only [System.exec] at hstep
  split at hstep
  · next group rest hcanceller =>
      obtain rfl := Option.some.inj hstep
      have hmem := List.mem_of_getElem? hcanceller
      have hsignal := h.signal group
      have hsent := hsignal.sent _ hmem rfl
      refine hsignal.setCanceller hcanceller id (fun _ => h.flag _ hmem (by simp)) ?_
        (fun _ => h.cancellerLock hcanceller rfl) (.inl rfl) (fun _ => hsent)
        (fun _ => hsignal.inserting_signalled hmem rfl)
      exact fun p hp => h.rest _ hmem p (List.mem_cons_of_mem _ hp)
  · cases hstep

theorem ok_finish (h : s.Ok) (hstep : s.exec (.finish i) = some s') : s'.Ok := by
  obtain ⟨hcanceller, hstep⟩ := Option.ite_none_right_eq_some.mp hstep
  obtain rfl := Option.some.inj hstep
  have hmem := List.mem_of_getElem? hcanceller
  have hsent := h.sent _ hmem rfl
  exact h.setCanceller hcanceller id (fun _ => h.flag _ hmem (by simp)) (by simp [Canceller.rest])
    (by simp [Canceller.critical]) (.inr (.inr (h.cancellerLock hcanceller rfl)))
    (fun _ => hsent) (fun _ => h.inserting_signalled hmem rfl)

theorem ok_exec {e : Event} (h : s.Ok) (hstep : s.exec e = some s') : s'.Ok := by
  cases e with
  | spawn group watched => exact ok_spawn h hstep
  | exit i => exact ok_exit h hstep
  | lock i => exact ok_lock h hstep
  | look i => exact ok_look h hstep
  | killNew i => exact ok_killNew h hstep
  | insert i => exact ok_insert h hstep
  | waited i => exact ok_waited h hstep
  | watchdogTerm i => exact ok_watchdogTerm h hstep
  | watchdogKill i => exact ok_watchdogKill h hstep
  | watchdogEnd i => exact ok_watchdogEnd h hstep
  | unregister i => exact ok_unregister h hstep
  | killGroup i => exact ok_killGroup h hstep
  | reap i => exact ok_reap h hstep
  | cancel => exact ok_cancel h hstep
  | swap i => exact ok_swap h hstep
  | take i => exact ok_take h hstep
  | term i => exact ok_term h hstep
  | leave i => exact ok_leave h hstep
  | wake i => exact ok_wake h hstep
  | kill i => exact ok_kill h hstep
  | finish i => exact ok_finish h hstep

end Steps

/-! ## Signals -/

/-- The group that the next step of a thread signals. -/
def System.signals (s : System) : Event → Option Nat
  | .killNew i => (s.callAt i .cancelled).map Call.group
  | .watchdogTerm i =>
    ((s.calls[i]?).filter fun call => call.watchdog = .watching).map Call.group
  | .watchdogKill i => ((s.calls[i]?).filter fun call => call.watchdog = .grace).map Call.group
  | .killGroup i => (s.callAt i .killing).map Call.group
  | .term i =>
    match s.cancellers[i]? with
    | some (.signalling groups) => groups.head?
    | _ => none
  | .kill i =>
    match s.cancellers[i]? with
    | some (.killing groups) => groups.head?
    | _ => none
  | _ => none

/-- The call whose child a step signals, when the thread is that call's or its watchdog. -/
def Event.own : Event → Option Nat
  | .killNew i | .watchdogTerm i | .watchdogKill i | .killGroup i => some i
  | _ => none

section Signals

variable {s : System} {group : Nat} {i : Nat}

/-- A call signals its own child, which it has not reaped. -/
theorem System.Ok.own_unreaped (h : s.Ok) {p : Call → Bool}
    (hpc : ∀ call ∈ s.calls, p call = true → call.pc ≠ .returned)
    (hsignals : ((s.calls[i]?).filter p).map Call.group = some group) :
    ∃ call, s.calls[i]? = some call ∧ call.group = group ∧ call.child ≠ .reaped := by
  obtain ⟨call, hfound, hgroup⟩ := Option.map_eq_some_iff.mp hsignals
  obtain ⟨hcall, hp⟩ := Option.filter_eq_some_iff.mp hfound
  have hmem := List.mem_of_getElem? hcall
  exact ⟨call, hcall, hgroup, (h.calls call hmem).unreaped (hpc call hmem hp)⟩

/-- A registered group has an unreaped leader. -/
theorem System.Ok.group_unreaped (h : s.Ok) (hgroup : group ∈ s.groups) :
    ∃ (i : Nat) (call : Call), s.calls[i]? = some call ∧ call.group = group ∧ call.child ≠ .reaped := by
  obtain ⟨call, hcall, hregistered, hgroup⟩ := h.groups.mp hgroup
  obtain ⟨i, hi⟩ := List.mem_iff_getElem?.mp hcall
  refine ⟨i, call, hi, hgroup, (h.calls call hcall).unreaped ?_⟩
  intro hreturned
  simp [Call.registered, hreturned] at hregistered

theorem System.Ok.active_not_returned (h : s.Ok) {call : Call} (hcall : call ∈ s.calls)
    (hactive : call.watchdog = .watching ∨ call.watchdog = .grace) : call.pc ≠ .returned := by
  intro hreturned
  have := (h.calls call hcall).watchdog hactive
  simp [Call.registered, hreturned] at this

theorem System.Ok.signals_unreaped (h : s.Ok) {e : Event} (hsignals : s.signals e = some group) :
    ∃ (i : Nat) (call : Call), s.calls[i]? = some call ∧ call.group = group ∧
      call.child ≠ .reaped ∧ ∀ j ∈ e.own, j = i := by
  have hown : ∀ {i : Nat}, (∃ call, s.calls[i]? = some call ∧ call.group = group ∧
      call.child ≠ .reaped) → ∃ (k : Nat) (call : Call), s.calls[k]? = some call ∧
        call.group = group ∧ call.child ≠ .reaped ∧ ∀ j ∈ some i, j = k := by
    rintro i ⟨call, hcall, hgroup, hchild⟩
    exact ⟨i, call, hcall, hgroup, hchild, fun j hj => (Option.some.inj hj).symm⟩
  have hany : group ∈ s.groups → ∃ (k : Nat) (call : Call), s.calls[k]? = some call ∧
      call.group = group ∧ call.child ≠ .reaped ∧ ∀ j ∈ none, j = k := by
    intro hgroup
    obtain ⟨k, call, hcall, hcallGroup, hchild⟩ := h.group_unreaped hgroup
    exact ⟨k, call, hcall, hcallGroup, hchild, by simp⟩
  cases e with
  | killNew i =>
      refine hown (h.own_unreaped (fun call _ hpc => ?_) hsignals)
      simp [of_decide_eq_true hpc]
  | watchdogTerm i =>
      refine hown (h.own_unreaped (fun call hcall hactive => ?_) hsignals)
      exact h.active_not_returned hcall (.inl (of_decide_eq_true hactive))
  | watchdogKill i =>
      refine hown (h.own_unreaped (fun call hcall hactive => ?_) hsignals)
      exact h.active_not_returned hcall (.inr (of_decide_eq_true hactive))
  | killGroup i =>
      refine hown (h.own_unreaped (fun call _ hpc => ?_) hsignals)
      simp [of_decide_eq_true hpc]
  | term i =>
      simp only [System.signals] at hsignals
      split at hsignals
      · next groups hcanceller =>
          exact hany (h.rest _ (List.mem_of_getElem? hcanceller) group (List.mem_of_head? hsignals))
      · cases hsignals
  | kill i =>
      simp only [System.signals] at hsignals
      split at hsignals
      · next groups hcanceller =>
          exact hany (h.rest _ (List.mem_of_getElem? hcanceller) group (List.mem_of_head? hsignals))
      · cases hsignals
  | _ => cases hsignals

/-- In every interleaving, a step that signals a group finds its leader unreaped; once the call that
cancelled the build has returned, every registered child was signalled, whenever it registered; and
no child is reaped unsignalled. -/
theorem groups_signalled_in_time {events : List Event} (hrun : Run Step System.init events s) :
    (∀ e group, s.signals e = some group → ∃ (i : Nat) (call : Call), s.calls[i]? = some call ∧
      call.group = group ∧ call.child ≠ .reaped ∧ ∀ j ∈ e.own, j = i) ∧
    (∀ canceller ∈ s.cancellers, canceller.returned = true → ∀ call ∈ s.calls,
      call.registered = true → call.signalled = true) ∧
    ∀ call ∈ s.calls, call.pc = .reaping ∨ call.pc = .returned → call.signalled = true := by
  have h : s.Ok := hrun.invariant ok_init (fun _ hok hstep => ok_exec hok hstep) (fun _ _ => trivial)
  refine ⟨fun e group => h.signals_unreaped, fun canceller hcanceller hreturned => ?_,
    fun call hcall => (h.calls call hcall).signalled⟩
  intro call hcall hregistered
  have hlooked : canceller.looked = true := by
    cases canceller <;> first | rfl | cases hreturned
  have hnone : canceller.toTerm = [] := by
    cases canceller <;> first | rfl | cases hreturned
  rcases h.sent canceller hcanceller hlooked call hcall hregistered with hsignalled | hleft
  · exact hsignalled
  · rw [hnone] at hleft
    cases hleft

/-- One child registers before the cancel looks and one after it. -/
def cancelledEvents : List Event :=
  [.spawn 7 false, .lock 0, .look 0, .cancel, .swap 0, .insert 0, .take 0, .term 0, .leave 0,
    .spawn 8 true, .lock 1, .look 1, .killNew 1, .insert 1]

theorem cancelled_events_signalled : ∃ s, Run Step System.init cancelledEvents s ∧
    s.groups = [8, 7] ∧ s.cancellers = [.sleeping] ∧
    ∀ call ∈ s.calls, call.registered = true ∧ call.signalled = true := by
  have hruns : (cancelledEvents.foldlM System.exec System.init).any (fun s =>
      s.groups = [8, 7] ∧ s.cancellers = [.sleeping] ∧ s.calls.all Call.registered) = true := by
    decide
  obtain ⟨s, hs, hstate⟩ := (Option.any_eq_true _ _).mp hruns
  obtain ⟨hgroups, hcancellers, hregistered⟩ := of_decide_eq_true hstate
  have hrun : Run Step System.init cancelledEvents s := Run.of_foldlM hs
  refine ⟨s, hrun, hgroups, hcancellers, fun call hcall => ?_⟩
  have hnow := List.all_eq_true.mp hregistered call hcall
  refine ⟨hnow, (groups_signalled_in_time hrun).2.1 .sleeping ?_ rfl call hcall hnow⟩
  rw [hcancellers]
  exact List.mem_singleton.mpr rfl

end Signals

end Ripclone.Cancel
