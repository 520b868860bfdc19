import Mathlib.Data.List.Basic

/-!
# Notifications

Waiters are notified one at a time, as by tokio's `Notify`. What is used of it is what its documentation
says: `notify_one` notifies the one that has waited longest; a notification that finds nobody is kept for the
next waiter, but only one is; a waiter waits from `enable` on; and one that is dropped with a notification it
has not seen gives it to the next.
-/

namespace Ripclone.Library

structure Notify where
  /-- A notification is kept. -/
  permit : Bool
  /-- Waiters that are not notified, the oldest first. -/
  waiting : List Nat
  /-- Waiters that are notified and have not seen it. -/
  notified : List Nat
  deriving DecidableEq, Repr

namespace Notify

def new : Notify := ⟨false, [], []⟩

/-- Start to wait, unless a notification is kept, which is then the waiter's. -/
def enable (notify : Notify) (waiter : Nat) : Notify × Bool :=
  if notify.permit then ({ notify with permit := false }, true)
  else ({ notify with waiting := notify.waiting ++ [waiter] }, false)

def notifyOne (notify : Notify) : Notify :=
  match notify.waiting with
  | [] => { notify with permit := true }
  | waiter :: rest => { notify with waiting := rest, notified := waiter :: notify.notified }

/-- A waiter sees that it is notified. -/
def see (notify : Notify) (waiter : Nat) : Notify :=
  { notify with notified := notify.notified.erase waiter }

/-- A waiter leaves. -/
def drop (notify : Notify) (waiter : Nat) : Notify :=
  if waiter ∈ notify.notified then (notify.see waiter).notifyOne
  else { notify with waiting := notify.waiting.erase waiter }

/-- Each waiter is in one list, and no notification is kept while somebody waits. -/
structure Ok (notify : Notify) : Prop where
  nodup : (notify.waiting ++ notify.notified).Nodup
  permit : notify.permit = true → notify.waiting = []

/-- Whether the waiter has started to wait and has not left. -/
def Has (notify : Notify) (waiter : Nat) : Prop := waiter ∈ notify.waiting ∨ waiter ∈ notify.notified

variable {notify : Notify} {waiter other : Nat}

theorem ok_new : new.Ok := ⟨List.nodup_nil, fun h => by cases h⟩

theorem Ok.not_notified (h : notify.Ok) (hwaiting : waiter ∈ notify.waiting) : waiter ∉ notify.notified :=
  fun hnotified => (List.nodup_append.mp h.nodup).2.2 waiter hwaiting waiter hnotified rfl

theorem has_notifyOne : notify.notifyOne.Has waiter ↔ notify.Has waiter := by
  unfold notifyOne Has
  split
  · next hnone => simp [hnone]
  · next first rest hsome =>
      rw [hsome, List.mem_cons, List.mem_cons]
      tauto

theorem waiting_notifyOne (h : waiter ∈ notify.notifyOne.waiting) : waiter ∈ notify.waiting := by
  unfold notifyOne at h
  split at h
  · exact h
  · next first rest hsome =>
      rw [hsome]
      exact List.mem_cons_of_mem _ h

/-- While somebody waits, a notification is somebody's. -/
theorem length_notifyOne (hwaiting : notify.waiting ≠ []) :
    notify.notifyOne.notified.length = notify.notified.length + 1 := by
  unfold notifyOne
  split
  · next hnone => exact absurd hnone hwaiting
  · rfl

theorem Ok.notifyOne (h : notify.Ok) : notify.notifyOne.Ok := by
  unfold Notify.notifyOne
  split
  · next hnone => exact ⟨h.nodup, fun _ => hnone⟩
  · next first rest hsome =>
      have hnodup := h.nodup
      rw [hsome] at hnodup
      refine ⟨(List.perm_middle.nodup_iff).mpr hnodup, fun hpermit => ?_⟩
      rw [h.permit hpermit] at hsome
      cases hsome

theorem Ok.enable (h : notify.Ok) (hnew : ¬ notify.Has waiter) : (notify.enable waiter).1.Ok := by
  unfold Notify.enable
  split
  · exact ⟨h.nodup, fun hpermit => by cases hpermit⟩
  · next hpermit =>
      refine ⟨?_, fun hkept => absurd hkept hpermit⟩
      have hperm : ((notify.waiting ++ [waiter]) ++ notify.notified).Perm
          (waiter :: (notify.waiting ++ notify.notified)) := by
        rw [List.append_assoc]
        exact List.perm_middle
      refine hperm.nodup_iff.mpr (List.nodup_cons.mpr ⟨fun hmem => hnew (List.mem_append.mp hmem), h.nodup⟩)

theorem Ok.see (h : notify.Ok) (waiter : Nat) : (notify.see waiter).Ok :=
  ⟨h.nodup.sublist (List.Sublist.append_left List.erase_sublist _), h.permit⟩

theorem Ok.drop (h : notify.Ok) (waiter : Nat) : (notify.drop waiter).Ok := by
  unfold Notify.drop
  split
  · exact (h.see waiter).notifyOne
  · refine ⟨h.nodup.sublist (List.Sublist.append_right List.erase_sublist _), fun hpermit => ?_⟩
    dsimp only
    rw [h.permit hpermit]
    rfl

theorem has_see (h : notify.Ok) : (notify.see waiter).Has other ↔
    notify.Has other ∧ (other ∈ notify.waiting ∨ other ≠ waiter) := by
  unfold Has Notify.see
  rw [(List.nodup_append.mp h.nodup).2.1.mem_erase_iff]
  tauto

theorem has_drop (h : notify.Ok) : (notify.drop waiter).Has other ↔ notify.Has other ∧ other ≠ waiter := by
  unfold Notify.drop
  split
  · next hnotified =>
      rw [has_notifyOne]
      rw [has_see h]
      constructor
      · rintro ⟨hhas, hother⟩
        refine ⟨hhas, ?_⟩
        rintro rfl
        rcases hother with hwaiting | hne
        · exact h.not_notified hwaiting hnotified
        · exact hne rfl
      · exact fun ⟨hhas, hne⟩ => ⟨hhas, .inr hne⟩
  · next hnotified =>
      unfold Has
      rw [(List.nodup_append.mp h.nodup).1.mem_erase_iff]
      constructor
      · rintro (⟨hne, hwaiting⟩ | hmem)
        · exact ⟨.inl hwaiting, hne⟩
        · exact ⟨.inr hmem, fun heq => hnotified (heq ▸ hmem)⟩
      · rintro ⟨hwaiting | hmem, hne⟩
        · exact .inl ⟨hne, hwaiting⟩
        · exact .inr hmem

theorem waiting_drop (h : other ∈ (notify.drop waiter).waiting) : other ∈ notify.waiting := by
  unfold Notify.drop at h
  split at h
  · exact @waiting_notifyOne (notify.see waiter) other h
  · exact List.mem_of_mem_erase h

theorem length_see (hnotified : waiter ∈ notify.notified) :
    (notify.see waiter).notified.length + 1 = notify.notified.length := by
  have hpos := List.length_pos_of_mem hnotified
  rw [Notify.see, List.length_erase_of_mem hnotified]
  omega

/-- A notification that nobody saw is not lost while another one waits. -/
theorem length_drop (hother : other ∈ (notify.drop waiter).waiting) :
    (notify.drop waiter).notified.length = notify.notified.length := by
  have hwaiting := waiting_drop hother
  unfold Notify.drop
  split
  · next hnotified =>
      rw [@length_notifyOne (notify.see waiter) (List.ne_nil_of_mem hwaiting), length_see hnotified]
  · rfl

end Notify

end Ripclone.Library
