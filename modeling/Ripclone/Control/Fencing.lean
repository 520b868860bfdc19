import Ripclone.Control.Runs

/-!
# The fence

A claim names its owner in every statement it issues. What that fence buys is proved here for whole
runs: a ready output is never rewritten, and a claim that lost its lease can no longer write at all,
whatever took the lease away and whatever the row went through since.

The second part needs that no later claim carries the same owner, since the fence compares owners
and nothing else. The server numbers its claims per slot and the store prefixes its instance.
-/

namespace Ripclone.Control

open Ripclone.Library

/-- The lease owner stored on a row and kind. -/
def Db.holder (db : Db) (key : String × String) (kind : ExactResultKind) : Option String :=
  (db.out key kind).bind fun columns => columns.lease.map Lease.owner

/-- The output of a row and kind is ready, with this value. -/
def Db.readyWith (db : Db) (key : String × String) (kind : ExactResultKind)
    (output : StoredOutput) : Prop :=
  ∃ columns, db.out key kind = some columns ∧ columns.state = .ready ∧
    columns.output = some output

def Event.granted? : Event → Option Claim
  | .granted claim => some claim
  | _ => none

/-- The owners of the claims granted so far. -/
def grantedOwners (history : List Event) : List String :=
  (history.filterMap Event.granted?).map Claim.owner

/-! ## Ready outputs -/

section Ready

variable {op : Op} {row row' : BuildRow} {kind : ExactResultKind} {db : Db}
  {key : String × String} {output : StoredOutput}

/-- Giving up and failing touch pending outputs only. -/
theorem ownsPending_state {claim : Claim} (h : ownsPending claim row = true) :
    (row.out claim.kind).state = .pending := by
  simp only [ownsPending, Bool.and_eq_true, decide_eq_true_eq] at h
  exact h.2

theorem exhausted_state {store : SqliteControlStore} {now : Int}
    (h : exhausted store now kind row = true) : (row.out kind).state = .pending := by
  simp only [exhausted, Bool.and_eq_true, decide_eq_true_eq] at h
  exact h.1.1

/-- No statement touches the state or the value of a ready output. -/
theorem RowStep.ready_out (h : RowStep op row row') (hready : (row.out kind).state = .ready) :
    (row'.out kind).state = .ready ∧ (row'.out kind).output = (row.out kind).output := by
  have hne : ∀ {k}, (row.out k).state = .pending → kind ≠ k := by
    rintro k hk rfl
    simp [hready] at hk
  have hnotFull : ¬(kind = .full ∧ row.full.state = .pending) := fun h => hne (k := .full) h.2 h.1
  cases h with
  | refName => simp [hready]
  | reset _ _ => simp [resetFailed, hready]
  | gaveUp h =>
      rw [out_giveUpRow, if_neg (hne (exhausted_state h)), if_neg (fun h => hnotFull h.2)]
      exact ⟨hready, rfl⟩
  | leased hstate _ _ =>
      rw [out_leaseRow, if_neg (hne hstate)]
      exact ⟨hready, rfl⟩
  | renewed h =>
      rw [out_renewRow]
      split
      · next heq =>
          rw [heq] at hready
          exact ⟨hready, by rw [heq]⟩
      · exact ⟨hready, rfl⟩
  | published h hkind =>
      rw [out_publishRow, if_neg (hkind ▸ hne (ownsPending_state h))]
      exact ⟨hready, rfl⟩
  | failed h =>
      rw [out_failRow, if_neg (hne (ownsPending_state h)), if_neg (fun h => hnotFull h.2.2)]
      exact ⟨hready, rfl⟩
  | released h =>
      rw [out_releaseRow]
      split
      · next heq =>
          rw [heq] at hready
          exact ⟨hready, by rw [heq]⟩
      · exact ⟨hready, rfl⟩
  | cleared => simp [hready]

theorem RowSteps.ready_out (h : RowSteps op row row') (hready : (row.out kind).state = .ready) :
    (row'.out kind).state = .ready ∧ (row'.out kind).output = (row.out kind).output := by
  induction h with
  | refl => exact ⟨hready, rfl⟩
  | tail _ hstep ih =>
      obtain ⟨hstate, houtput⟩ := hstep.ready_out ih.1
      exact ⟨hstate, houtput.trans ih.2⟩

theorem readyWith_exec (op : Op) (hkeys : db.KeysUnique) (hpurge : op.purges key.1 = false)
    (h : db.readyWith key kind output) : (exec op db).readyWith key kind output := by
  obtain ⟨columns, hout, hstate, houtput⟩ := h
  obtain ⟨row, hrow, rfl⟩ := Option.map_eq_some_iff.mp hout
  rcases row_exec_some op hkeys hrow with ⟨hpurges, _⟩ | ⟨row', hrow', hsteps⟩
  · rw [hpurge] at hpurges
    cases hpurges
  · obtain ⟨hstate', houtput'⟩ := hsteps.ready_out hstate
    exact ⟨row'.out kind, by rw [Db.out, hrow']; rfl, hstate', houtput'.trans houtput⟩

end Ready

/-! ## Lease owners -/

section Owners

variable {op : Op} {row row' : BuildRow} {kind : ExactResultKind} {db : Db}
  {key : String × String} {owner : String}

/-- Only a claim writes an owner: every other statement keeps it or clears it. -/
theorem RowStep.owner_out (h : RowStep op row row') (hop : op.owner? = none)
    (howner : (row'.out kind).lease.map Lease.owner = some owner) :
    (row.out kind).lease.map Lease.owner = some owner := by
  cases h with
  | refName => simpa using howner
  | reset _ _ =>
      rw [out_resetRow, resetFailed] at howner
      split at howner <;> exact howner
  | gaveUp h => cases hop
  | leased _ _ _ => cases hop
  | renewed h =>
      rw [out_renewRow] at howner
      split at howner
      · next heq => simpa [heq, Option.map_map, Function.comp_def] using howner
      · exact howner
  | published h hkind =>
      rw [out_publishRow] at howner
      split at howner
      · next heq => rw [heq]; exact howner
      · exact howner
  | failed h =>
      rw [out_failRow] at howner
      split at howner
      · next heq => rw [heq]; exact howner
      · split at howner
        · next hfull => rw [hfull.2.2.1]; exact howner
        · exact howner
  | released h =>
      rw [out_releaseRow] at howner
      split at howner
      · cases howner
      · exact howner
  | cleared => simp at howner

theorem RowSteps.owner_out (h : RowSteps op row row') (hop : op.owner? = none)
    (howner : (row'.out kind).lease.map Lease.owner = some owner) :
    (row.out kind).lease.map Lease.owner = some owner := by
  induction h with
  | refl => exact howner
  | tail _ hstep ih => exact ih (hstep.owner_out hop howner)

theorem owner_giveUpRow {store : SqliteControlStore} {kind' : ExactResultKind}
    (howner : ((giveUpRow store kind' row).out kind).lease.map Lease.owner = some owner) :
    (row.out kind).lease.map Lease.owner = some owner := by
  rw [out_giveUpRow] at howner
  split at howner
  · cases howner
  · split at howner
    · next hfull => rw [hfull.2.1]; exact howner
    · exact howner

theorem holder_eq (hrow : db.row key = some row) :
    db.holder key kind = (row.out kind).lease.map Lease.owner := by
  simp [Db.holder, Db.out, hrow]

theorem holder_eq_none (hrow : db.row key = none) : db.holder key kind = none := by
  simp [Db.holder, Db.out, hrow]

/-- An owner on a row was there before the operation or is that of the claim it granted. -/
theorem holder_exec (op : Op) (hkeys : db.KeysUnique)
    (h : (exec op db).holder key kind = some owner) :
    db.holder key kind = some owner ∨
      ∃ claim, .granted claim ∈ events op db ∧ claim.owner = owner := by
  cases hrow : db.row key with
  | none =>
      rcases row_exec_none op hrow with hnone | ⟨_, _, _, hnew⟩
      · rw [holder_eq_none hnone] at h
        cases h
      · rw [holder_eq hnew] at h
        cases kind <;> cases h
  | some row =>
      rw [holder_eq hrow]
      by_cases hop : op.owner? = none
      · rcases row_exec_some op hkeys hrow with ⟨_, hnone⟩ | ⟨row', hrow', hsteps⟩
        · rw [holder_eq_none hnone] at h
          cases h
        · rw [holder_eq hrow'] at h
          exact .inl (hsteps.owner_out hop h)
      · cases op with
        | claim store now name pool lease seen =>
            obtain ⟨row₁, hgave, hleased⟩ := row_claim store now name pool lease seen hkeys hrow
            have hkept : (row₁.out kind).lease.map Lease.owner = some owner →
                (row.out kind).lease.map Lease.owner = some owner := by
              rcases hgave with rfl | ⟨_, rfl⟩
              · exact id
              · exact owner_giveUpRow
            rcases hleased with ⟨hrow', _⟩ | ⟨claim, hclaim, u, _, _, hclaimOwner, _, hrow'⟩
            · exact .inl (hkept ((holder_eq hrow').symm.trans h))
            · have hlease := (holder_eq hrow').symm.trans h
              rw [out_leaseRow] at hlease
              split at hlease
              · refine .inr ⟨claim, ?_, hclaimOwner.trans (Option.some.inj hlease)⟩
                simpa [events] using hclaim
              · exact .inl (hkept hlease)
        | _ => exact absurd rfl hop

end Owners

/-! ## Claims that lost their lease -/

/-- A renew, publish, fail or release whose claim's owner is not the stored one does nothing. -/
theorem exec_of_not_holder {op : Op} {db : Db} {claim : Claim} (hkeys : db.KeysUnique)
    (hop : op.claim? = some claim) (hlost : db.holder claim.key claim.kind ≠ some claim.owner) :
    exec op db = db := by
  have howns : ∀ row ∈ db.builds, ownsLease claim row = false := by
    intro row hrow
    by_contra howns
    simp only [ownsLease, Bool.not_eq_false, Bool.and_eq_true, decide_eq_true_eq] at howns
    have hlookup : db.row claim.key = some row := howns.1 ▸ Table.lookup_of_mem hkeys hrow
    exact hlost ((holder_eq hlookup).trans howns.2)
  have hpending : ∀ row ∈ db.builds, ownsPending claim row = false := by
    intro row hrow
    simp [ownsPending, howns row hrow]
  cases op with
  | renew now held lease =>
      obtain rfl := Option.some.inj hop
      simp only [exec, renew, Table.update_eq_self howns]
  | publish held output =>
      obtain rfl := Option.some.inj hop
      rcases publish_cases held output db with ⟨error, h⟩ | h | ⟨_, row, hrow, howns, _⟩
      · simp only [exec, h]
      · simp only [exec, h]
      · rw [hpending row hrow] at howns
        cases howns
  | fail store now held error retryAfter =>
      obtain rfl := Option.some.inj hop
      simp only [exec, fail, Table.update_eq_self hpending]
  | release held =>
      obtain rfl := Option.some.inj hop
      simp only [exec, release, Table.update_eq_self howns]
  | _ => cases hop

section Runs

variable {w w' : World} {ops : List Op}

/-- The primary key constraint holds along every run. -/
theorem keysUnique_run (hrun : Run Step w ops w') (hkeys : w.db.KeysUnique) :
    w'.db.KeysUnique := by
  refine hrun.invariant (I := fun w => w.db.KeysUnique) (P := fun _ => True) hkeys ?_ (by simp)
  rintro op w w' - hkeys rfl
  exact keysUnique_exec op hkeys

theorem keysUnique_init : World.init.db.KeysUnique := List.nodup_nil

theorem grantedOwners_nodup {es es' : List Event} (hsuffix : es <:+ es')
    (h : (grantedOwners es').Nodup) : (grantedOwners es).Nodup :=
  h.sublist ((hsuffix.sublist.filterMap _).map _)

theorem readyWith_run {key : String × String} {kind : ExactResultKind} {output : StoredOutput}
    (hrun : Run Step w ops w') (hkeys : w.db.KeysUnique)
    (hpurge : ∀ op ∈ ops, op.purges key.1 = false) (h : w.db.readyWith key kind output) :
    w'.db.readyWith key kind output := by
  refine (hrun.invariant (I := fun w => w.db.KeysUnique ∧ w.db.readyWith key kind output)
    ⟨hkeys, h⟩ ?_ hpurge).2
  rintro op w w' hop ⟨hkeys, h⟩ rfl
  exact ⟨keysUnique_exec op hkeys, readyWith_exec op hkeys hop h⟩

/-- A granted claim that lost its lease never gets it back. -/
theorem not_holder_run {claim : Claim} (hrun : Run Step w ops w') (hkeys : w.db.KeysUnique)
    (hgranted : .granted claim ∈ w.history) (hdistinct : (grantedOwners w'.history).Nodup)
    (hlost : w.db.holder claim.key claim.kind ≠ some claim.owner) :
    w'.db.holder claim.key claim.kind ≠ some claim.owner := by
  have hinv := hrun.invariant (P := fun _ => True)
    (I := fun w => w.db.KeysUnique ∧ .granted claim ∈ w.history ∧
      ((grantedOwners w.history).Nodup → w.db.holder claim.key claim.kind ≠ some claim.owner))
    ⟨hkeys, hgranted, fun _ => hlost⟩ ?_ (by simp)
  · exact hinv.2.2 hdistinct
  rintro op w w' - ⟨hkeys, hgranted, hlost⟩ rfl
  refine ⟨keysUnique_exec op hkeys, List.mem_append_right _ hgranted, ?_⟩
  intro hdistinct hheld
  rcases holder_exec op hkeys hheld with hbefore | ⟨again, hagain, howner⟩
  · exact hlost (grantedOwners_nodup (List.suffix_append _ _) hdistinct) hbefore
  · -- The owner would stand in the history twice: in the new event and in the old grant.
    have hdisjoint : (grantedOwners (events op w.db) ++ grantedOwners w.history).Nodup := by
      simpa [grantedOwners, World.after] using hdistinct
    have hnew : claim.owner ∈ grantedOwners (events op w.db) := by
      rw [← howner]
      exact List.mem_map_of_mem (List.mem_filterMap.mpr ⟨_, hagain, rfl⟩)
    have hold : claim.owner ∈ grantedOwners w.history :=
      List.mem_map_of_mem (List.mem_filterMap.mpr ⟨_, hgranted, rfl⟩)
    exact (List.nodup_append.mp hdisjoint).2.2 _ hnew _ hold rfl

end Runs

/-- Over every run whose granted claims carry distinct owners: an output that is ready stays ready
with the same value until its repo is purged, and a granted claim whose owner is no longer the one
stored on its row and kind changes nothing any more, neither now nor after any further
operations. -/
theorem ready_kept_and_stale_claims_fenced {before after : List Op} {w w' : World}
    (hrun : Run Step World.init before w) (hrun' : Run Step w after w')
    (hdistinct : (grantedOwners w'.history).Nodup) :
    (∀ key kind output, w.db.readyWith key kind output →
      (∀ op ∈ after, op.purges key.1 = false) → w'.db.readyWith key kind output) ∧
    (∀ claim, .granted claim ∈ w.history →
      w.db.holder claim.key claim.kind ≠ some claim.owner →
      ∀ op : Op, op.claim? = some claim → exec op w'.db = w'.db) := by
  have hkeys := keysUnique_run hrun keysUnique_init
  refine ⟨fun key kind output hready hpurge => readyWith_run hrun' hkeys hpurge hready, ?_⟩
  intro claim hgranted hlost op hop
  have hstill := not_holder_run hrun' hkeys hgranted hdistinct hlost
  exact exec_of_not_holder (keysUnique_run hrun' hkeys) hop hstill

section Takeover

def takeoverCommit : String := "0123456789abcdef0123456789abcdef01234567"

def takeoverArtifact : String := "0123456789abcdef0123456789abcdef0123456789abcdef0123456789abcdef"

def takeoverStore : SqliteControlStore := ⟨"1/", 5, by decide⟩

/-- A claim of the commit's Head, at its `attempts`-th attempt. -/
def takeoverClaim (owner : String) (attempts : Nat) : Claim where
  repo := "r"
  owner := owner
  pool := .head
  build := { newBuild "r" takeoverCommit none 0 1 with
    head := { OutColumns.default with attempts := attempts, lease := some ⟨owner, 60⟩ } }

def takeoverOutput : Output :=
  .head ⟨⟨takeoverArtifact, takeoverArtifact, "", "", takeoverArtifact, takeoverCommit⟩,
    none, [], "", [], []⟩ none

/-- The first claim's lease is reset and the Head claimed again, by a second claim. -/
def takeover : World :=
  let admitted := World.init.run [.admitBuild "r" takeoverCommit none 0]
  let claim (owner : String) : Op := .claim takeoverStore 0 owner .head 60 admitted.db
  admitted.run [claim "head-0-1", .resetLeases, claim "head-0-2",
    .publish (takeoverClaim "1/head-0-2" 2) takeoverOutput]

theorem takeover_fenced :
    ((takeover.run [.retry "r" takeoverCommit, .resetLeases]).db.readyWith ("r", takeoverCommit)
      .head takeoverOutput.stored) ∧
    exec (.publish (takeoverClaim "1/head-0-1" 1) takeoverOutput)
        (takeover.run [.retry "r" takeoverCommit, .resetLeases]).db =
      (takeover.run [.retry "r" takeoverCommit, .resetLeases]).db := by
  have hfenced := ready_kept_and_stale_claims_fenced
    ((run_run World.init [.admitBuild "r" takeoverCommit none 0]).append (run_run _ _))
    (run_run takeover [.retry "r" takeoverCommit, .resetLeases]) (by decide)
  refine ⟨hfenced.1 _ _ _ ⟨_, rfl, rfl, rfl⟩ (by decide), ?_⟩
  refine hfenced.2 (takeoverClaim "1/head-0-1" 1) ?_ (by decide) _ rfl
  exact .tail _ (.head _)

end Takeover

end Ripclone.Control
