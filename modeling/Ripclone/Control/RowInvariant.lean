import Ripclone.Control.Fencing

/-!
# What holds of every build row

Failure reaches a row by two paths, a build that fails and the give-up pass inside any worker's
claim, and both may take the Full along with the Head. `RowOk` is the invariant that survives every
mix of them: a Full never waits behind a failed Head, a Full is leased or ready only over a ready
Head, an output is stored exactly when it is ready, and the attempts column counts the grants since
the row's last fresh start.
-/

namespace Ripclone.Control

open Ripclone.Library

/-- The claims of a kind granted since the row was admitted or a retry last reset the kind. -/
def grantsSince (key : String × String) (kind : ExactResultKind) : List Event → Nat
  | [] => 0
  | .granted claim :: older =>
    (if claim.key = key ∧ claim.kind = kind then 1 else 0) + grantsSince key kind older
  | .admitted admitted :: older => if admitted = key then 0 else grantsSince key kind older
  | .retried retried reset :: older =>
    if retried = key ∧ reset = kind then 0 else grantsSince key kind older

/-- The columns of one kind, under a limit of attempts. -/
structure ColumnsOk (maxAttempts : Nat) (columns : OutColumns) : Prop where
  ready_iff : columns.state = .ready ↔ columns.output.isSome
  attempts_le : columns.attempts ≤ maxAttempts

/-- The columns of one row, under a limit of attempts. -/
structure RowOk (maxAttempts : Nat) (row : BuildRow) : Prop where
  full_failed : (row.out .head).state = .failed → (row.out .full).state = .failed
  head_ready : (row.out .full).state = .ready ∨ (row.out .full).lease.isSome →
    (row.out .head).state = .ready
  columns : ∀ kind, ColumnsOk maxAttempts (row.out kind)

/-- The limit of attempts of the stores that claim and fail. -/
def Op.maxAttempts? : Op → Option Nat
  | .claim store _ _ _ _ _ => some store.maxAttempts
  | .fail store _ _ _ _ => some store.maxAttempts
  | _ => none

/-! ## The columns of a row -/

section Columns

variable {op : Op} {row row' : BuildRow} {columns : OutColumns} {maxAttempts : Nat}

theorem ColumnsOk.default : ColumnsOk maxAttempts .default where
  ready_iff := by simp [OutColumns.default]
  attempts_le := by simp [OutColumns.default]

/-- Columns that are not ready and hold no output are fine whatever else they say. -/
theorem ColumnsOk.of_not_ready (hstate : columns.state ≠ .ready) (houtput : columns.output = none)
    (hattempts : columns.attempts ≤ maxAttempts) : ColumnsOk maxAttempts columns where
  ready_iff := by simp [hstate, houtput]
  attempts_le := hattempts

theorem ColumnsOk.output_eq_none (h : ColumnsOk maxAttempts columns)
    (hstate : columns.state ≠ .ready) : columns.output = none := by
  by_contra hsome
  exact hstate (h.ready_iff.mpr (Option.isSome_iff_ne_none.mpr hsome))

theorem rowOk_newBuild (repo commit : String) (refName : Option String) (now : Int) (seq : Nat) :
    RowOk maxAttempts (newBuild repo commit refName now seq) where
  full_failed := by simp [newBuild, OutColumns.default, BuildRow.out]
  head_ready := by simp [newBuild, OutColumns.default, BuildRow.out]
  columns := by
    intro kind
    cases kind <;> exact ColumnsOk.default

/-- Every statement keeps the columns of each kind. -/
theorem RowStep.columnsOk (h : RowStep op row row') (hmax : ∀ m ∈ op.maxAttempts?, m = maxAttempts)
    (hok : ∀ kind, ColumnsOk maxAttempts (row.out kind)) (kind : ExactResultKind) :
    ColumnsOk maxAttempts (row'.out kind) := by
  have hpending : ∀ {k}, (row.out k).state = .pending → (row.out k).output = none :=
    fun h => (hok _).output_eq_none (by simp [h])
  -- A Full that a failed Head takes along.
  have hcascade : ∀ error, row.full.state = .pending →
      ColumnsOk maxAttempts { row.full with state := .failed, error := error } :=
    fun _ h => .of_not_ready (by simp) (hpending (k := .full) h) (hok .full).attempts_le
  cases h with
  | refName => simpa using hok kind
  | reset _ _ =>
      rw [out_resetRow, resetFailed]
      split
      · next hfailed =>
          exact .of_not_ready (by simp) ((hok kind).output_eq_none (by simp [hfailed])) (by simp)
      · exact hok kind
  | gaveUp h =>
      rw [out_giveUpRow]
      split
      · exact .of_not_ready (by simp [giveUpColumns]) (hpending (exhausted_state h))
          (hok _).attempts_le
      · split
        · next hfull => exact hcascade _ hfull.2.2
        · exact hok kind
  | @leased store _ _ pool _ _ _ _ hstate _ hattempts =>
      rw [out_leaseRow]
      split
      · obtain rfl := hmax store.maxAttempts rfl
        exact .of_not_ready (by simp [hstate]) (hpending hstate) hattempts
      · exact hok kind
  | renewed h =>
      rw [out_renewRow]
      split
      · exact ⟨(hok _).ready_iff, (hok _).attempts_le⟩
      · exact hok kind
  | published h hkind =>
      rw [out_publishRow]
      split
      · exact ⟨by simp, (hok _).attempts_le⟩
      · exact hok kind
  | failed h =>
      rw [out_failRow]
      split
      · refine .of_not_ready ?_ (hpending (ownsPending_state h)) (hok _).attempts_le
        simp only [failColumns]
        split <;> simp
      · split
        · next hfull => exact hcascade _ hfull.2.2.2
        · exact hok kind
  | released h =>
      rw [out_releaseRow]
      split
      · exact ⟨(hok _).ready_iff, (hok _).attempts_le⟩
      · exact hok kind
  | cleared => exact ⟨by simpa using (hok kind).ready_iff, by simpa using (hok kind).attempts_le⟩

theorem ownsLease_isSome {claim : Claim} (h : ownsLease claim row = true) :
    (row.out claim.kind).lease.isSome := by
  simp only [ownsLease, Bool.and_eq_true, decide_eq_true_eq] at h
  obtain ⟨lease, hlease, _⟩ := Option.map_eq_some_iff.mp h.2
  simp [hlease]

/-- A Head that is pending has no Full that is leased or ready over it. -/
theorem RowOk.full_idle (hok : RowOk maxAttempts row) (hhead : (row.out .head).state = .pending) :
    (row.out .full).state ≠ .ready ∧ (row.out .full).lease = none := by
  refine ⟨fun hready => ?_, ?_⟩
  · have := hok.head_ready (.inl hready)
    simp [hhead] at this
  · by_contra hlease
    have := hok.head_ready (.inr (Option.isSome_iff_ne_none.mpr hlease))
    simp [hhead] at this

/-- Whatever a failing Head does not take along had failed before. -/
theorem RowOk.full_failed_of_head_pending (hok : RowOk maxAttempts row)
    (hhead : (row.out .head).state = .pending) (hfull : (row.out .full).state ≠ .pending) :
    (row.out .full).state = .failed := by
  have hready := (hok.full_idle hhead).1
  cases hstate : (row.out .full).state with
  | pending => exact absurd hstate hfull
  | ready => exact absurd hstate hready
  | failed => rfl

/-- A row whose Full has failed and is not leased. -/
theorem RowOk.of_full_failed (hstate : (row.out .full).state = .failed)
    (hlease : (row.out .full).lease = none)
    (hcolumns : ∀ kind, ColumnsOk maxAttempts (row.out kind)) : RowOk maxAttempts row where
  full_failed := fun _ => hstate
  head_ready := by simp [hstate, hlease]
  columns := hcolumns

/-- A row whose Head is ready. -/
theorem RowOk.of_head_ready (hhead : (row.out .head).state = .ready)
    (hcolumns : ∀ kind, ColumnsOk maxAttempts (row.out kind)) : RowOk maxAttempts row where
  full_failed := by simp [hhead]
  head_ready := fun _ => hhead
  columns := hcolumns

/-- The states of Head and Full decide the relation between them; a lease may only go away. -/
theorem RowOk.frame (hok : RowOk maxAttempts row)
    (hhead : (row'.out .head).state = (row.out .head).state)
    (hfull : (row'.out .full).state = (row.out .full).state)
    (hlease : (row'.out .full).lease.isSome → (row.out .full).lease.isSome)
    (hcolumns : ∀ kind, ColumnsOk maxAttempts (row'.out kind)) : RowOk maxAttempts row' where
  full_failed := by rw [hhead, hfull]; exact hok.full_failed
  head_ready := by
    rw [hhead, hfull]
    exact fun h => hok.head_ready (h.imp id hlease)
  columns := hcolumns

/-- A row whose pending Head fails by a statement that takes the pending Full along. -/
theorem RowOk.of_head_fails (hok : RowOk maxAttempts row)
    (hhead : (row.out .head).state = .pending)
    (hfull : (row'.out .full).state = if (row.out .full).state = .pending then .failed
      else (row.out .full).state)
    (hlease : (row'.out .full).lease = (row.out .full).lease)
    (hcolumns : ∀ kind, ColumnsOk maxAttempts (row'.out kind)) : RowOk maxAttempts row' := by
  refine .of_full_failed ?_ (hlease.trans (hok.full_idle hhead).2) hcolumns
  rw [hfull]
  split
  · rfl
  · next hne => exact hok.full_failed_of_head_pending hhead hne

/-- Every statement keeps the Full behind its Head. -/
theorem RowStep.rowOk (h : RowStep op row row') (hmax : ∀ m ∈ op.maxAttempts?, m = maxAttempts)
    (hok : RowOk maxAttempts row) : RowOk maxAttempts row' := by
  have hcolumns := h.columnsOk hmax hok.columns
  cases h with
  | refName => exact hok.frame (by simp) (by simp) (by simp) hcolumns
  | reset _ _ =>
      refine ⟨?_, ?_, hcolumns⟩
      · simp only [out_resetRow, resetFailed]
        intro hfailed
        split at hfailed
        · cases hfailed
        · next hne => exact absurd hfailed hne
      · simp only [out_resetRow, resetFailed]
        intro hfull
        have hhead : (row.out .head).state = .ready := by
          split at hfull
          · exact hok.head_ready (hfull.imp (fun h => by cases h) id)
          · exact hok.head_ready hfull
        simp [hhead]
  | @gaveUp store _ _ pool _ _ _ h =>
      have hpending := exhausted_state h
      cases pool with
      | head =>
          refine hok.of_head_fails hpending ?_ ?_ hcolumns
          · rw [show Pool.kind .head = .head from rfl, out_giveUpRow]
            by_cases hfull : row.full.state = .pending <;> simp [BuildRow.out, hfull]
          · rw [show Pool.kind .head = .head from rfl, out_giveUpRow]
            by_cases hfull : row.full.state = .pending <;> simp [BuildRow.out, hfull]
      | files =>
          refine hok.frame ?_ ?_ ?_ hcolumns <;> simp [out_giveUpRow, Pool.kind]
      | full =>
          refine .of_full_failed ?_ ?_ hcolumns <;> simp [out_giveUpRow, Pool.kind, giveUpColumns]
  | @leased _ _ _ pool _ _ _ _ hstate hhead _ =>
      cases pool with
      | full =>
          refine .of_head_ready ?_ hcolumns
          rw [out_leaseRow, if_neg (by decide)]
          exact hhead rfl
      | _ => refine hok.frame ?_ ?_ ?_ hcolumns <;> simp [out_leaseRow, Pool.kind]
  | @renewed _ claim _ _ _ h =>
      cases hkind : claim.kind <;> refine hok.frame ?_ ?_ ?_ hcolumns <;>
        simp [out_renewRow, hkind]
  | @published claim output _ h hkind =>
      have hlease := ownsLease_isSome (Bool.and_eq_true_iff.mp h).1
      rw [← hkind] at hlease
      cases hout : output.kind with
      | head => exact .of_head_ready (by simp [out_publishRow, hout]) hcolumns
      | files => refine hok.frame ?_ ?_ ?_ hcolumns <;> simp [out_publishRow, hout]
      | full =>
          -- The Full that is published is leased, and that takes a ready Head.
          rw [hout] at hlease
          refine .of_head_ready ?_ hcolumns
          simpa [out_publishRow, hout] using hok.head_ready (.inr hlease)
  | @failed store _ claim error _ _ retryAt h =>
      have hpending := ownsPending_state h
      have hlease := ownsLease_isSome (Bool.and_eq_true_iff.mp h).1
      generalize claim.kind = kind at hpending hlease hcolumns ⊢
      cases kind with
      | head =>
          by_cases hfails : givesUp store retryAt row.head = true
          · refine hok.of_head_fails hpending ?_ ?_ hcolumns
            · rw [out_failRow]
              by_cases hfull : row.full.state = .pending <;> simp [BuildRow.out, hfull, hfails]
            · rw [out_failRow]
              by_cases hfull : row.full.state = .pending <;> simp [BuildRow.out, hfull, hfails]
          · refine hok.frame ?_ ?_ ?_ hcolumns
            · rw [out_failRow, if_pos rfl, hpending]
              simp [failColumns, BuildRow.out, hfails]
            · simp [out_failRow, hfails]
            · simp [out_failRow, hfails]
      | files => refine hok.frame ?_ ?_ ?_ hcolumns <;> simp [out_failRow]
      | full =>
          refine .of_head_ready ?_ hcolumns
          simpa [out_failRow] using hok.head_ready (.inr hlease)
  | @released claim _ h =>
      refine hok.frame ?_ ?_ ?_ hcolumns
      · rw [out_releaseRow]
        split
        · next heq => rw [heq]
        · rfl
      · rw [out_releaseRow]
        split
        · next heq => rw [heq]
        · rfl
      · rw [out_releaseRow]
        split
        · simp
        · exact id
  | cleared => exact hok.frame (by simp) (by simp) (by simp) hcolumns

theorem RowSteps.rowOk (h : RowSteps op row row') (hmax : ∀ m ∈ op.maxAttempts?, m = maxAttempts)
    (hok : RowOk maxAttempts row) : RowOk maxAttempts row' := by
  induction h with
  | refl => exact hok
  | tail _ hstep ih => exact hstep.rowOk hmax ih

end Columns

/-! ## Counting the grants -/

section Attempts

variable {op : Op} {row row' : BuildRow} {db : Db} {key : String × String}
  {kind : ExactResultKind} {history : List Event}

/-- Attempts change in claims and retries only. -/
theorem RowStep.attempts_out (h : RowStep op row row') (hclaim : op.owner? = none)
    (hretry : ∀ repo commit, op ≠ .retry repo commit) :
    (row'.out kind).attempts = (row.out kind).attempts := by
  cases h with
  | refName => simp
  | reset _ _ => exact absurd rfl (hretry _ _)
  | gaveUp h => cases hclaim
  | leased _ _ _ => cases hclaim
  | renewed h =>
      rw [out_renewRow]
      split
      · next heq => rw [heq]
      · rfl
  | published h hkind =>
      rw [out_publishRow]
      split
      · next heq => rw [heq]
      · rfl
  | failed h =>
      rw [out_failRow]
      split
      · next heq => rw [heq]; rfl
      · split
        · next hfull => rw [hfull.2.2.1]; rfl
        · rfl
  | released h =>
      rw [out_releaseRow]
      split
      · next heq => rw [heq]
      · rfl
  | cleared => simp

theorem RowSteps.attempts_out (h : RowSteps op row row') (hclaim : op.owner? = none)
    (hretry : ∀ repo commit, op ≠ .retry repo commit) :
    (row'.out kind).attempts = (row.out kind).attempts := by
  induction h with
  | refl => rfl
  | tail _ hstep ih => exact (hstep.attempts_out hclaim hretry).trans ih

theorem attempts_giveUpRow {store : SqliteControlStore} {kind' : ExactResultKind} :
    ((giveUpRow store kind' row).out kind).attempts = (row.out kind).attempts := by
  rw [out_giveUpRow]
  split
  · next heq => rw [heq]; rfl
  · split
    · next hfull => rw [hfull.2.1]; rfl
    · rfl

/-- Retries of other kinds do not count. -/
theorem grantsSince_retried (kinds : List ExactResultKind) (retried : String × String) :
    grantsSince key kind (kinds.map (.retried retried) ++ history) =
      if retried = key ∧ kind ∈ kinds then 0 else grantsSince key kind history := by
  induction kinds with
  | nil => simp
  | cons reset kinds ih =>
      rw [List.map_cons, List.cons_append, grantsSince, ih]
      by_cases hreset : reset = kind
      · by_cases hkey : retried = key <;> simp [hkey, hreset]
      · simp [hreset, Ne.symm hreset]

theorem mem_retriedKinds (hrow : db.row key = some row) :
    kind ∈ retriedKinds key db ↔ (row.out kind).state = .failed := by
  cases kind <;> simp [retriedKinds, Db.out, hrow]

/-- An admission of a row that is there is not recorded. -/
theorem events_admit_of_some {repo commit : String} {refName : Option String} {now : Int}
    (hrow : db.row (repo, commit) = some row) :
    events (.admitBuild repo commit refName now) db = [] := by
  rcases admitBuild_cases repo commit refName now db with ⟨error, h⟩ | h | ⟨_, missing, h⟩
  · simp [events, h]
  · simp [events, h, hrow]
  · simp [events, h]

theorem events_admit (repo commit : String) (refName : Option String) (now : Int) (db : Db) :
    events (.admitBuild repo commit refName now) db = [] ∨
      events (.admitBuild repo commit refName now) db = [.admitted (repo, commit)] := by
  simp only [events]
  split
  · exact .inr rfl
  · exact .inl rfl

/-- A retry of a row resets its failed kinds. -/
theorem row_retry {repo commit : String} (hrow : db.row key = some row) :
    (exec (.retry repo commit) db).row key =
      some (if key = (repo, commit) then resetRow row else row) := by
  have hkey : row.key = key := Table.key_of_lookup hrow
  simp only [exec, retry, Db.row, Table.lookup_update key_resetRow]
  rw [show Table.lookup BuildRow.key key db.builds = some row from hrow, Option.map_some, hkey]
  by_cases hfailed : anyFailed row = true
  · simp [hfailed]
  · -- Nothing failed, so there is nothing to reset either.
    have hsame : resetRow row = row := by
      simp only [anyFailed, Bool.or_eq_true, decide_eq_true_eq, not_or] at hfailed
      simp [resetRow, resetFailed, hfailed]
    simp [hfailed, hsame]

/-- The attempts column counts on with the history. -/
theorem attempts_exec (op : Op) (hkeys : db.KeysUnique) (hrow : db.row key = some row)
    (hrow' : (exec op db).row key = some row')
    (hattempts : (row.out kind).attempts = grantsSince key kind history) :
    (row'.out kind).attempts = grantsSince key kind (events op db ++ history) := by
  have hsteps : RowSteps op row row' := by
    rcases row_exec_some op hkeys hrow with ⟨_, hnone⟩ | ⟨row'', hrow'', hsteps⟩
    · rw [hrow'] at hnone
      cases hnone
    · rw [hrow'] at hrow''
      rwa [Option.some.inj hrow'']
  -- Only a claim raises an attempt count, and it claims nothing that has used them up.
  cases op with
  | claim store now owner pool lease seen =>
      obtain ⟨row₁, hgave, hleased⟩ := row_claim store now owner pool lease seen hkeys hrow
      have hsame : (row₁.out kind).attempts = grantsSince key kind history := by
        rcases hgave with rfl | ⟨_, rfl⟩
        · exact hattempts
        · exact attempts_giveUpRow.trans hattempts
      simp only [exec] at hrow'
      simp only [events]
      rcases hleased with ⟨hkept, hother⟩ | ⟨claim, hclaim, u, hkey, hpool, _, _, hleasedRow⟩
      · rw [hrow'] at hkept
        rw [Option.some.inj hkept, hsame]
        cases hgranted : (claim store now owner pool lease seen db).2 with
        | none => rfl
        | some granted =>
            have hne := hother granted hgranted
            simp [grantsSince, hne]
      · rw [hrow'] at hleasedRow
        rw [Option.some.inj hleasedRow, Option.mem_def.mp hclaim, out_leaseRow]
        by_cases hkind : kind = pool.kind
        · subst hkind
          simp [grantsSince, hkey, Claim.kind, hpool, hsame, Nat.add_comm]
        · simp [grantsSince, Claim.kind, hpool, hkind, Ne.symm hkind, hsame]
  | retry repo commit =>
      rw [row_retry hrow] at hrow'
      obtain rfl := Option.some.inj hrow'
      simp only [events, grantsSince_retried]
      by_cases hkey : (repo, commit) = key
      · subst hkey
        simp only [true_and, mem_retriedKinds hrow, if_pos, out_resetRow, resetFailed]
        split
        · rfl
        · exact hattempts
      · rw [if_neg (Ne.symm hkey), if_neg (fun h => hkey h.1)]
        exact hattempts
  | admitBuild repo commit refName now =>
      rw [hsteps.attempts_out rfl (by simp), hattempts]
      rcases events_admit repo commit refName now db with h | h
      · rw [h, List.nil_append]
      · have hne : (repo, commit) ≠ key := by
          rintro rfl
          rw [events_admit_of_some hrow] at h
          cases h
        rw [h, List.singleton_append, grantsSince, if_neg hne]
  | _ => exact (hsteps.attempts_out rfl (by simp)).trans hattempts

end Attempts

/-! ## Every reachable row -/

/-- The invariant of the whole database, with the history it is read against. -/
structure DbOk (maxAttempts : Nat) (w : World) : Prop where
  keysUnique : w.db.KeysUnique
  rowOk : ∀ key row, w.db.row key = some row → RowOk maxAttempts row
  attempts_eq : ∀ key row, w.db.row key = some row → ∀ kind,
    (row.out kind).attempts = grantsSince key kind w.history

theorem DbOk.init (maxAttempts : Nat) : DbOk maxAttempts World.init where
  keysUnique := keysUnique_init
  rowOk := by
    intro key row hrow
    cases hrow
  attempts_eq := by
    intro key row hrow
    cases hrow

/-- A row that an admission inserted starts counting at zero. -/
theorem attempts_admitted {db : Db} {key : String × String} {refName : Option String} {now : Int}
    {row : BuildRow} {history : List Event} (hnone : db.row key = none)
    (hrow : (exec (.admitBuild key.1 key.2 refName now) db).row key = some row)
    (kind : ExactResultKind) :
    grantsSince key kind (events (.admitBuild key.1 key.2 refName now) db ++ history) = 0 := by
  rcases admitBuild_cases key.1 key.2 refName now db with ⟨error, h⟩ | h | ⟨hthere, missing, h⟩
  · simp [exec, h, hnone] at hrow
  · simp [events, h, hnone, grantsSince]
  · simp [hnone] at hthere

theorem DbOk.after {maxAttempts : Nat} {w : World} (op : Op)
    (hmax : ∀ m ∈ op.maxAttempts?, m = maxAttempts) (h : DbOk maxAttempts w) :
    DbOk maxAttempts (w.after op) := by
  refine ⟨keysUnique_exec op h.keysUnique, ?_, ?_⟩
  · intro key row' hrow'
    cases hrow : w.db.row key with
    | none =>
        rcases row_exec_none op hrow with hnone | ⟨refName, now, _, hnew⟩
        · rw [World.after, hnone] at hrow'
          cases hrow'
        · rw [World.after, hnew] at hrow'
          obtain rfl := Option.some.inj hrow'
          exact rowOk_newBuild ..
    | some row =>
        rcases row_exec_some op h.keysUnique hrow with ⟨_, hnone⟩ | ⟨row'', hrow'', hsteps⟩
        · rw [World.after, hnone] at hrow'
          cases hrow'
        · rw [World.after, hrow''] at hrow'
          obtain rfl := Option.some.inj hrow'
          exact hsteps.rowOk hmax (h.rowOk key row hrow)
  · intro key row' hrow' kind
    cases hrow : w.db.row key with
    | none =>
        rcases row_exec_none op hrow with hnone | ⟨refName, now, rfl, hnew⟩
        · rw [World.after, hnone] at hrow'
          cases hrow'
        · rw [World.after, hnew] at hrow'
          obtain rfl := Option.some.inj hrow'
          rw [World.after, attempts_admitted hrow hnew kind]
          cases kind <;> rfl
    | some row => exact attempts_exec op h.keysUnique hrow hrow' (h.attempts_eq key row hrow kind)

/-- In every reachable state every build row is in order: a failed Head has a failed Full, a Full is
leased or ready only over a ready Head, an output is stored exactly when it is ready, and the
attempts are the claims granted since the last fresh start and within the limit. -/
theorem build_rows_ok {maxAttempts : Nat} {ops : List Op} {w : World}
    (hrun : Run Step World.init ops w)
    (hmax : ∀ op ∈ ops, ∀ m ∈ op.maxAttempts?, m = maxAttempts) :
    ∀ row ∈ w.db.builds,
      (row.head.state = .failed → row.full.state = .failed) ∧
      (row.full.state = .ready ∨ row.full.lease.isSome → row.head.state = .ready) ∧
      ∀ kind, ((row.out kind).state = .ready ↔ (row.out kind).output.isSome) ∧
        (row.out kind).attempts = grantsSince row.key kind w.history ∧
        (row.out kind).attempts ≤ maxAttempts := by
  have hinv : DbOk maxAttempts w := by
    refine hrun.invariant (DbOk.init maxAttempts) ?_ hmax
    rintro op w w' hop h rfl
    exact h.after op hop
  intro row hmem
  have hrow : w.db.row row.key = some row := Table.lookup_of_mem hinv.keysUnique hmem
  have hok := hinv.rowOk _ row hrow
  refine ⟨hok.full_failed, hok.head_ready, fun kind => ?_⟩
  exact ⟨(hok.columns kind).ready_iff, hinv.attempts_eq _ row hrow kind,
    (hok.columns kind).attempts_le⟩

/-- The run of `takeover`: two grants of the Head, and the second one published. -/
theorem takeover_rows_ok :
    takeover.db.builds.length = 1 ∧ ∀ row ∈ takeover.db.builds,
      (row.head.state = .failed → row.full.state = .failed) ∧
      (row.full.state = .ready ∨ row.full.lease.isSome → row.head.state = .ready) ∧
      ∀ kind, ((row.out kind).state = .ready ↔ (row.out kind).output.isSome) ∧
        (row.out kind).attempts = grantsSince row.key kind takeover.history ∧
        (row.out kind).attempts ≤ 5 := by
  refine ⟨by decide, ?_⟩
  have hadmitted := run_run World.init [.admitBuild "r" takeoverCommit none 0]
  exact build_rows_ok (hadmitted.append (run_run _ _)) (by decide)

end Ripclone.Control
