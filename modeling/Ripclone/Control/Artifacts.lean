import Ripclone.Control.Fencing

/-!
# Artifact references

What the operations do to `artifact_refs`, and that it has every artifact that a ready output or a
repository's refs name: the row and the references are written in one transaction, and both are
deleted in one, by a purge.
-/

namespace Ripclone.Control

open Ripclone.Library

/-- Whether a publish of this claim is written. -/
def applied (claim : Claim) (output : Output) (db : Db) : Bool :=
  match publish claim output db with
  | .ok (_, published) => published.applied
  | .error _ => false

section Publish

variable {claim : Claim} {output : Output} {db : Db}

/-- A publish that is written finds its row pending and under its lease. -/
theorem publish_of_applied (h : applied claim output db = true) :
    output.kind = claim.kind ∧ (∃ row ∈ db.builds, ownsPending claim row = true) ∧
      exec (.publish claim output) db =
        { db with
          builds := Table.update (ownsPending claim) (publishRow output) db.builds
          artifactRefs := recordRefs claim.repo output.artifacts db.artifactRefs } := by
  rcases publish_cases claim output db with ⟨error, hp⟩ | hp | ⟨hkind, row, hrow, howns, hp⟩
  · simp [applied, hp] at h
  · simp [applied, hp] at h
  · exact ⟨hkind, ⟨row, hrow, howns⟩, by simp only [exec, hp]⟩

theorem publish_of_not_applied (h : applied claim output db = false) :
    exec (.publish claim output) db = db := by
  rcases publish_cases claim output db with ⟨error, hp⟩ | hp | ⟨hkind, row, hrow, howns, hp⟩
  · simp only [exec, hp]
  · simp only [exec, hp]
  · simp [applied, hp] at h

theorem holder_of_applied (hkeys : db.KeysUnique) (h : applied claim output db = true) :
    db.holder claim.key claim.kind = some claim.owner := by
  obtain ⟨-, ⟨row, hrow, howns⟩, -⟩ := publish_of_applied h
  simp only [ownsPending, ownsLease, Bool.and_eq_true, decide_eq_true_eq] at howns
  have hlookup : db.row claim.key = some row := howns.1.1 ▸ Table.lookup_of_mem hkeys hrow
  exact (holder_eq hlookup).trans howns.1.2

end Publish

/-! ## Ready outputs -/

section Ready

variable {op : Op} {row row' : BuildRow} {kind : ExactResultKind} {db : Db}
  {key : String × String} {output : StoredOutput}

/-- Only a publish makes an output ready. -/
theorem RowStep.ready_before (h : RowStep op row row') (hop : ∀ claim out, op ≠ .publish claim out)
    (hready : (row'.out kind).state = .ready) : (row.out kind).state = .ready := by
  cases h with
  | refName => simpa using hready
  | reset hkey hfailed =>
      rw [out_resetRow, resetFailed] at hready
      split at hready
      · cases hready
      · exact hready
  | gaveUp hex =>
      rw [out_giveUpRow] at hready
      split at hready
      · cases hready
      · split at hready
        · cases hready
        · exact hready
  | leased hstate hhead hattempts =>
      rw [out_leaseRow] at hready
      split at hready
      · next heq => exact heq ▸ hready
      · exact hready
  | renewed howns =>
      rw [out_renewRow] at hready
      split at hready
      · next heq => exact heq ▸ hready
      · exact hready
  | published howns hkind => exact absurd rfl (hop _ _)
  | failed howns =>
      rw [out_failRow] at hready
      split at hready
      · simp only [failColumns] at hready
        split at hready <;> cases hready
      · split at hready
        · cases hready
        · exact hready
  | released howns =>
      rw [out_releaseRow] at hready
      split at hready
      · next heq => exact heq ▸ hready
      · exact hready
  | cleared => simpa using hready

theorem RowSteps.ready_before (h : RowSteps op row row')
    (hop : ∀ claim out, op ≠ .publish claim out) (hready : (row'.out kind).state = .ready) :
    (row.out kind).state = .ready := by
  induction h with
  | refl => exact hready
  | tail _ hstep ih => exact ih (hstep.ready_before hop hready)

/-- A ready output after an operation was ready before, or is what the operation published. -/
theorem readyWith_before (op : Op) (hkeys : db.KeysUnique)
    (h : (exec op db).readyWith key kind output) :
    db.readyWith key kind output ∨ ∃ claim out, op = .publish claim out ∧
      applied claim out db = true ∧ key = claim.key ∧ output = out.stored := by
  obtain ⟨columns, hout, hstate, houtput⟩ := h
  obtain ⟨row', hrow', rfl⟩ := Option.map_eq_some_iff.mp hout
  by_cases hop : ∃ claim out, op = .publish claim out
  · obtain ⟨claim, out, rfl⟩ := hop
    cases happlied : applied claim out db with
    | false =>
        rw [publish_of_not_applied happlied] at hrow'
        exact .inl ⟨row'.out kind, by rw [Db.out, hrow']; rfl, hstate, houtput⟩
    | true =>
        obtain ⟨-, -, hexec⟩ := publish_of_applied happlied
        rw [hexec, Db.row, Table.lookup_update (key_publishRow out)] at hrow'
        obtain ⟨row, hrow, hpublished⟩ := Option.map_eq_some_iff.mp hrow'
        have hkey : row.key = key := Table.key_of_lookup hrow
        split at hpublished
        · next howns =>
            subst hpublished
            rw [out_publishRow] at hstate houtput
            split at hstate
            · next hkind =>
                simp only [ownsPending, ownsLease, Bool.and_eq_true, decide_eq_true_eq] at howns
                rw [if_pos hkind] at houtput
                refine .inr ⟨claim, out, rfl, happlied, hkey.symm.trans howns.1.1, ?_⟩
                exact (Option.some.inj houtput).symm
            · next hkind =>
                rw [if_neg hkind] at houtput
                exact .inl ⟨row.out kind, by rw [Db.out, Db.row, hrow]; rfl, hstate, houtput⟩
        · subst hpublished
          exact .inl ⟨row.out kind, by rw [Db.out, Db.row, hrow]; rfl, hstate, houtput⟩
  · have hop' : ∀ claim out, op ≠ .publish claim out := fun claim out heq => hop ⟨claim, out, heq⟩
    cases hrow : db.row key with
    | none =>
        rcases row_exec_none op hrow with hnone | ⟨_, _, _, hnew⟩
        · rw [hnone] at hrow'
          cases hrow'
        · obtain rfl := Option.some.inj (hnew.symm.trans hrow')
          cases kind <;> cases hstate
    | some row =>
        rcases row_exec_some op hkeys hrow with ⟨_, hnone⟩ | ⟨row₁, hrow₁, hsteps⟩
        · rw [hnone] at hrow'
          cases hrow'
        · obtain rfl := Option.some.inj (hrow₁.symm.trans hrow')
          have hbefore := hsteps.ready_before hop' hstate
          refine .inl ⟨row.out kind, by rw [Db.out, hrow]; rfl, hbefore, ?_⟩
          exact (hsteps.ready_out hbefore).2.symm.trans houtput

end Ready

/-! ## References -/

section Refs

variable {op : Op} {db : Db} {repo hash : String} {row : RepoRefs}

theorem mem_recordRefs {hashes : List String} {refs : List (String × String)}
    {named : String × String} :
    named ∈ recordRefs repo hashes refs ↔ named ∈ refs ∨ ∃ hash ∈ hashes, named = (repo, hash) := by
  induction hashes generalizing refs with
  | nil => simp [recordRefs]
  | cons first rest ih =>
      rw [recordRefs, List.foldl_cons, ← recordRefs, ih, Table.mem_insertNew_id]
      simp only [List.mem_cons, exists_eq_or_imp, or_assoc]

theorem setRefs_of_known (h : knowsRepo repo db = true) :
    exec (.setRefs repo row) db =
      { db with
        repoRefs := Table.delete (fun old => old.1 = repo) db.repoRefs ++ [(repo, row)]
        artifactRefs := recordRefs repo row.artifacts db.artifactRefs } := by
  simp [exec, setRefs, h]

theorem setRefs_of_unknown (h : knowsRepo repo db = false) :
    exec (.setRefs repo row) db = db := by
  simp [exec, setRefs, h]

theorem setRefs_written : (setRefs repo row db).2 = knowsRepo repo db := by
  cases h : knowsRepo repo db <;> simp [setRefs, h]

/-- The operations on builds and added repositories alone. -/
def Op.rowsOnly : Op → Bool
  | .admitBuild .. | .retry .. | .claim .. | .renew .. | .fail .. | .release .. | .resetLeases
  | .addRepo .. | .removeRepo .. => true
  | .publish .. | .purgeRepo .. | .setRefs .. | .queueDeletions .. | .dequeueDeletions ..
  | .recordSizes .. => false

/-- They leave everything about artifacts as it is. -/
theorem artifacts_exec_rows (op : Op) (db : Db) (hop : op.rowsOnly = true) :
    (exec op db).artifactRefs = db.artifactRefs ∧ (exec op db).repoRefs = db.repoRefs ∧
      (exec op db).artifactSizes = db.artifactSizes ∧ (exec op db).deletions = db.deletions := by
  cases op with
  | admitBuild repo commit refName now =>
      simp only [exec]
      rcases admitBuild_cases repo commit refName now db with ⟨error, h⟩ | h | ⟨_, missing, h⟩ <;>
        rw [h] <;> exact ⟨rfl, rfl, rfl, rfl⟩
  | claim store now owner pool lease seen =>
      simp only [exec]
      rcases claim_cases store now owner pool lease seen db with
          h | h | ⟨row, _, leaseUntil, _, h⟩ <;>
        rw [h] <;> exact ⟨rfl, rfl, rfl, rfl⟩
  | addRepo repo owner now =>
      simp only [exec, addRepo]
      cases owner with
      | none => exact ⟨rfl, rfl, rfl, rfl⟩
      | some owner => dsimp only; split <;> exact ⟨rfl, rfl, rfl, rfl⟩
  | publish | purgeRepo | setRefs | queueDeletions | dequeueDeletions | recordSizes => cases hop
  | _ => exact ⟨rfl, rfl, rfl, rfl⟩

/-- The operations that write references are publishes, refs writes and purges. -/
theorem refs_exec_other (op : Op) (hpublish : ∀ claim out, op ≠ .publish claim out)
    (hset : ∀ repo row, op ≠ .setRefs repo row) (hpurge : ∀ repo dueAt, op ≠ .purgeRepo repo dueAt) :
    (exec op db).artifactRefs = db.artifactRefs ∧ (exec op db).repoRefs = db.repoRefs := by
  cases hrows : op.rowsOnly with
  | true =>
      obtain ⟨hrefs, hrepoRefs, -⟩ := artifacts_exec_rows op db hrows
      exact ⟨hrefs, hrepoRefs⟩
  | false =>
      cases op with
      | publish claim output => exact absurd rfl (hpublish claim output)
      | setRefs repo row => exact absurd rfl (hset repo row)
      | purgeRepo repo dueAt => exact absurd rfl (hpurge repo dueAt)
      | queueDeletions | dequeueDeletions | recordSizes => exact ⟨rfl, rfl⟩
      | _ => cases hrows

/-- A reference is deleted by a purge of its repo only. -/
theorem artifactRefs_exec (op : Op) (hpurge : op.purges repo = false)
    (h : (repo, hash) ∈ db.artifactRefs) : (repo, hash) ∈ (exec op db).artifactRefs := by
  cases op with
  | publish claim output =>
      cases happlied : applied claim output db with
      | false => rwa [publish_of_not_applied happlied]
      | true =>
          rw [(publish_of_applied happlied).2.2]
          exact mem_recordRefs.mpr (.inl h)
  | setRefs written row =>
      cases hknown : knowsRepo written db with
      | false => rwa [setRefs_of_unknown hknown]
      | true =>
          rw [setRefs_of_known hknown]
          exact mem_recordRefs.mpr (.inl h)
  | purgeRepo purged dueAt =>
      refine Table.mem_delete.mpr ⟨h, ?_⟩
      simpa [Op.purges, eq_comm] using hpurge
  | _ => rwa [(refs_exec_other _ (by simp) (by simp) (by simp)).1]

/-- A refs row was there before and its repo was not purged, or it is what was written. -/
theorem repoRefs_before (op : Op) (h : (repo, row) ∈ (exec op db).repoRefs) :
    (repo, row) ∈ db.repoRefs ∧ op.purges repo = false ∨
    op = .setRefs repo row ∧ knowsRepo repo db = true := by
  cases op with
  | publish claim output =>
      cases happlied : applied claim output db with
      | false =>
          rw [publish_of_not_applied happlied] at h
          exact .inl ⟨h, rfl⟩
      | true =>
          rw [(publish_of_applied happlied).2.2] at h
          exact .inl ⟨h, rfl⟩
  | setRefs written row' =>
      cases hknown : knowsRepo written db with
      | false =>
          rw [setRefs_of_unknown hknown] at h
          exact .inl ⟨h, rfl⟩
      | true =>
          rw [setRefs_of_known hknown] at h
          rcases List.mem_append.mp h with hold | hnew
          · exact .inl ⟨(Table.mem_delete.mp hold).1, rfl⟩
          · obtain ⟨rfl, rfl⟩ := Prod.mk.inj (List.mem_singleton.mp hnew)
            exact .inr ⟨rfl, hknown⟩
  | purgeRepo purged dueAt =>
      obtain ⟨hold, hpurged⟩ := Table.mem_delete.mp h
      exact .inl ⟨hold, by simpa [Op.purges, eq_comm] using hpurged⟩
  | _ =>
      rw [(refs_exec_other _ (by simp) (by simp) (by simp)).2] at h
      exact .inl ⟨h, rfl⟩

end Refs

theorem deletable_iff {db : Db} {hash : String} {now : Int} : deletable hash now db = true ↔
    (∃ queued ∈ db.deletions, queued.hash = hash ∧ queued.dueAt < now) ∧
      ∀ repo, (repo, hash) ∉ db.artifactRefs := by
  simp only [deletable, Bool.and_eq_true, List.any_eq_true, decide_eq_true_eq, Bool.not_eq_true',
    List.any_eq_false]
  refine and_congr_right fun _ => ⟨fun h repo hmem => h _ hmem rfl, fun h mine hmem heq => ?_⟩
  exact h mine.1 (heq ▸ hmem)

/-! ## Everything that is published is recorded -/

/-- The references have every artifact that a ready output or a refs row names. -/
structure Db.Recorded (db : Db) : Prop where
  outputs : ∀ {key kind output}, db.readyWith key kind output →
    ∀ hash ∈ output.artifacts, (key.1, hash) ∈ db.artifactRefs
  refs : ∀ {repo row}, (repo, row) ∈ db.repoRefs →
    ∀ hash ∈ row.artifacts, (repo, hash) ∈ db.artifactRefs

section Recorded

variable {op : Op} {db : Db} {key : String × String} {kind : ExactResultKind}
  {output : StoredOutput}

theorem not_purges_of_readyWith (h : (exec op db).readyWith key kind output) :
    op.purges key.1 = false := by
  by_contra hpurges
  cases op with
  | purgeRepo repo dueAt =>
      have hrepo : repo = key.1 := by simpa [Op.purges] using hpurges
      obtain ⟨columns, hout, -⟩ := h
      rw [Db.out, row_purgeRepo, if_pos hrepo] at hout
      cases hout
  | _ => simp [Op.purges] at hpurges

theorem recorded_empty : Db.empty.Recorded where
  outputs := by
    rintro key kind output ⟨columns, hout, -⟩
    cases hout
  refs := by
    intro repo row h
    cases h

theorem recorded_exec (op : Op) (hkeys : db.KeysUnique) (h : db.Recorded) :
    (exec op db).Recorded where
  outputs := by
    intro key kind output hready hash hmem
    rcases readyWith_before op hkeys hready with
      hbefore | ⟨claim, out, rfl, happlied, rfl, rfl⟩
    · exact artifactRefs_exec op (not_purges_of_readyWith hready) (h.outputs hbefore hash hmem)
    · rw [(publish_of_applied happlied).2.2]
      exact mem_recordRefs.mpr (.inr ⟨hash, hmem, rfl⟩)
  refs := by
    intro repo row hrow hash hmem
    rcases repoRefs_before op hrow with ⟨hbefore, hpurge⟩ | ⟨rfl, hknown⟩
    · exact artifactRefs_exec op hpurge (h.refs hbefore hash hmem)
    · rw [setRefs_of_known hknown]
      exact mem_recordRefs.mpr (.inr ⟨hash, hmem, rfl⟩)

end Recorded

end Ripclone.Control
