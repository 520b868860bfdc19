import Mathlib.Data.List.Basic

/-!
# A fair semaphore

Slots that callers take and give back, as those of tokio's `Semaphore`. What is used of it is what its
documentation says: it is fair, so a slot that is given back goes to the oldest waiter, who has it before it
resumes; a wait that is dropped loses its place, and gives back the slot that it was handed, if it was. Free
slots can be taken out of the semaphore (`forget_permits`, which says how many), slots that are held cannot.
-/

namespace Ripclone.Library

structure Semaphore where
  free : Nat
  /-- Callers without a slot, the oldest first. -/
  waiting : List Nat
  /-- Callers that were handed a slot while they waited and have not resumed. -/
  handed : List Nat
  deriving DecidableEq, Repr

namespace Semaphore

def new (permits : Nat) : Semaphore := ⟨permits, [], []⟩

/-- The caller takes a free slot, or else waits. -/
def acquire (slots : Semaphore) (caller : Nat) : Semaphore × Bool :=
  if 0 < slots.free then ({ slots with free := slots.free - 1 }, true)
  else ({ slots with waiting := slots.waiting ++ [caller] }, false)

/-- One slot is given back, or added. -/
def release (slots : Semaphore) : Semaphore :=
  match slots.waiting with
  | [] => { slots with free := slots.free + 1 }
  | caller :: rest => { slots with waiting := rest, handed := slots.handed ++ [caller] }

/-- A caller that was handed a slot goes on with it. -/
def resume (slots : Semaphore) (caller : Nat) : Semaphore :=
  { slots with handed := slots.handed.erase caller }

/-- A caller stops waiting. -/
def abandon (slots : Semaphore) (caller : Nat) : Semaphore :=
  if caller ∈ slots.handed then release { slots with handed := slots.handed.erase caller }
  else { slots with waiting := slots.waiting.erase caller }

/-- Free slots are taken out, at most `n` of them; the result is how many were. -/
def forgetPermits (slots : Semaphore) (n : Nat) : Semaphore × Nat :=
  ({ slots with free := slots.free - n }, min n slots.free)

variable {slots : Semaphore} {caller n : Nat}

/-- A slot that is given back is free or handed over. -/
theorem release_cases (slots : Semaphore) :
    slots.release.free = slots.free + 1 ∧ slots.release.handed = slots.handed ∨
      ∃ caller, slots.release.free = slots.free ∧ slots.release.handed = slots.handed ++ [caller] := by
  unfold release
  split
  · exact .inl ⟨rfl, rfl⟩
  · next caller rest _ => exact .inr ⟨caller, rfl, rfl⟩

theorem count_release (slots : Semaphore) :
    slots.release.free + slots.release.handed.length = slots.free + slots.handed.length + 1 := by
  rcases release_cases slots with ⟨hfree, hhanded⟩ | ⟨caller, hfree, hhanded⟩
  · rw [hfree, hhanded]
    omega
  · rw [hfree, hhanded, List.length_append, List.length_singleton]
    omega

theorem count_resume (h : caller ∈ slots.handed) :
    (slots.resume caller).handed.length + 1 = slots.handed.length := by
  have hpos := List.length_pos_of_mem h
  rw [resume, List.length_erase_of_mem h]
  omega

/-- A caller that stops waiting leaves as many slots free or handed over as there were. -/
theorem count_abandon (slots : Semaphore) (caller : Nat) :
    (slots.abandon caller).free + (slots.abandon caller).handed.length =
      slots.free + slots.handed.length := by
  unfold abandon
  split
  · next hmem =>
      have hpos := List.length_pos_of_mem hmem
      rw [count_release, List.length_erase_of_mem hmem]
      dsimp only
      omega
  · rfl

/-! ### Callers -/

/-- Each caller is in one list, and no slot is free while somebody waits. -/
structure Ok (slots : Semaphore) : Prop where
  nodup : (slots.waiting ++ slots.handed).Nodup
  free : slots.waiting ≠ [] → slots.free = 0

/-- Whether the caller asked for a slot and has not gone on. -/
def Has (slots : Semaphore) (caller : Nat) : Prop := caller ∈ slots.waiting ∨ caller ∈ slots.handed

variable {other : Nat}

theorem ok_new (permits : Nat) : (new permits).Ok := ⟨List.nodup_nil, fun h => absurd rfl h⟩

theorem Ok.not_handed (h : slots.Ok) (hwaiting : caller ∈ slots.waiting) : caller ∉ slots.handed :=
  fun hhanded => (List.nodup_append.mp h.nodup).2.2 caller hwaiting caller hhanded rfl

theorem Ok.acquire (h : slots.Ok) (hnew : ¬ slots.Has caller) : (slots.acquire caller).1.Ok := by
  unfold Semaphore.acquire
  split
  · next hfree => exact ⟨h.nodup, fun hwaiting => absurd (h.free hwaiting) (Nat.ne_of_gt hfree)⟩
  · next hnone =>
      refine ⟨?_, fun _ => Nat.eq_zero_of_not_pos hnone⟩
      rw [List.append_assoc]
      exact List.perm_middle.nodup_iff.mpr
        (List.nodup_cons.mpr ⟨fun hmem => hnew (List.mem_append.mp hmem), h.nodup⟩)

/-- A caller without a slot waits. -/
theorem has_acquire : (slots.acquire caller).1.Has other ↔
    slots.Has other ∨ (other = caller ∧ (slots.acquire caller).2 = false) := by
  unfold Semaphore.acquire Has
  split
  · simp
  · simp only [List.mem_append, List.mem_singleton, and_true]
    tauto

theorem count_acquire : (slots.acquire caller).1.free + (if (slots.acquire caller).2 then 1 else 0) = slots.free ∧
    (slots.acquire caller).1.handed = slots.handed := by
  unfold Semaphore.acquire
  split
  · next hfree => exact ⟨Nat.sub_add_cancel hfree, rfl⟩
  · exact ⟨rfl, rfl⟩

theorem Ok.release (h : slots.Ok) : slots.release.Ok := by
  unfold Semaphore.release
  split
  · next hnone => exact ⟨h.nodup, fun hwaiting => absurd hnone hwaiting⟩
  · next first rest hsome =>
      have hnodup := h.nodup
      rw [hsome] at hnodup
      refine ⟨?_, fun _ => h.free (by rw [hsome]; exact List.cons_ne_nil _ _)⟩
      rw [← List.append_assoc]
      exact (List.perm_append_singleton first (rest ++ slots.handed)).nodup_iff.mpr hnodup

theorem has_release : slots.release.Has other ↔ slots.Has other := by
  unfold Semaphore.release Has
  split
  · exact Iff.rfl
  · next first rest hsome =>
      rw [hsome, List.mem_cons, List.mem_append, List.mem_singleton]
      tauto

theorem Ok.resume (h : slots.Ok) (caller : Nat) : (slots.resume caller).Ok :=
  ⟨h.nodup.sublist (List.Sublist.append_left List.erase_sublist _), h.free⟩

theorem has_resume (h : slots.Ok) (hhanded : caller ∈ slots.handed) :
    (slots.resume caller).Has other ↔ slots.Has other ∧ other ≠ caller := by
  unfold Has Semaphore.resume
  rw [(List.nodup_append.mp h.nodup).2.1.mem_erase_iff]
  have hne : other ∈ slots.waiting → other ≠ caller := by
    rintro hwaiting rfl
    exact h.not_handed hwaiting hhanded
  tauto

theorem Ok.abandon (h : slots.Ok) (caller : Nat) : (slots.abandon caller).Ok := by
  unfold Semaphore.abandon
  split
  · exact (h.resume caller).release
  · exact ⟨h.nodup.sublist (List.Sublist.append_right List.erase_sublist _), fun hwaiting =>
      h.free fun hnone => hwaiting (by rw [hnone]; rfl)⟩

theorem has_abandon (h : slots.Ok) :
    (slots.abandon caller).Has other ↔ slots.Has other ∧ other ≠ caller := by
  unfold Semaphore.abandon
  split
  · next hhanded =>
      rw [has_release]
      exact has_resume h hhanded
  · next hhanded =>
      unfold Has
      rw [(List.nodup_append.mp h.nodup).1.mem_erase_iff]
      have hne : other ∈ slots.handed → other ≠ caller := by
        rintro hmem rfl
        exact hhanded hmem
      tauto

end Semaphore

end Ripclone.Library
