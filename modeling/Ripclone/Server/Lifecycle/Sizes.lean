import Ripclone.Server.Lifecycle.Presence

/-!
# Sizes of published artifacts

A publish records the size of each of its artifacts that has none, and then names them. A size is
forgotten only with a sweep's dequeue, and only of an artifact that no repository names and that is
not queued again. Between the look-up of the sizes and the publish nothing names the artifact yet, so
a dequeue then forgets a size that the publish relies on.
-/

namespace Ripclone.Server.Lifecycle

open Ripclone.Library Ripclone.Control

/-- Whether a dequeue of `sweep` leaves the artifact's size. -/
def sizeLeft (sweep : Sweep) (db : Db) (hash : String) : Bool :=
  hash ∉ sweep.settled || db.artifactRefs.any (fun mine => mine.2 = hash) ||
    db.deletions.any fun queued => queued.hash = hash && decide (sweep.now ≤ queued.dueAt)

/-- A dequeue forgets no size that a publish under way has found or recorded. -/
def publishesSized (w : World) : Event → Bool
  | .dequeue k => w.sweeps[k]?.all fun sweep => w.jobs.all fun job => job.writes.all fun write =>
    write.sized.all (sizeLeft sweep w.db)
  | _ => true

/-! ## Recorded sizes -/

section Sizes

variable {op : Op} {db : Db} {hash : String}

theorem sized_iff : sized db hash = true ↔ ∃ size ∈ db.artifactSizes, size.1 = hash := by
  simp [sized]

theorem mem_insertSizes {sizes : List (String × Nat)} {rows : List (String × Nat)} :
    (∃ size ∈ sizes.foldl (fun rows size => Table.insertNew Prod.fst size rows) rows,
      size.1 = hash) ↔ (∃ size ∈ rows, size.1 = hash) ∨ ∃ size ∈ sizes, size.1 = hash := by
  induction sizes generalizing rows with
  | nil => simp
  | cons first rest ih =>
      have hfirst : (∃ size ∈ Table.insertNew Prod.fst first rows, size.1 = hash) ↔
          (∃ size ∈ rows, size.1 = hash) ∨ first.1 = hash := by
        unfold Table.insertNew
        split
        · next hthere =>
            refine ⟨.inl, fun h => h.elim id ?_⟩
            rintro rfl
            simpa using hthere
        · simp [or_and_right, exists_or]
      rw [List.foldl_cons, ih, hfirst]
      simp only [List.mem_cons, exists_eq_or_imp, or_assoc]

theorem sized_recordSizes {sizes : List (String × Nat)} :
    sized (exec (.recordSizes sizes) db) hash = true ↔
      sized db hash = true ∨ ∃ size ∈ sizes, size.1 = hash := by
  rw [sized_iff, sized_iff]
  exact mem_insertSizes

/-- Only a dequeue forgets a size. -/
theorem sized_exec (op : Op) (hop : ∀ hashes now, op ≠ .dequeueDeletions hashes now)
    (h : sized db hash = true) : sized (exec op db) hash = true := by
  cases hrows : op.rowsOnly with
  | true =>
      obtain ⟨-, -, hsizes, -⟩ := artifacts_exec_rows op db hrows
      rwa [sized, hsizes]
  | false =>
      cases op with
      | recordSizes sizes => exact sized_recordSizes.mpr (.inl h)
      | dequeueDeletions hashes now => exact absurd rfl (hop hashes now)
      | publish claim output =>
          cases happlied : applied claim output db with
          | false => rwa [publish_of_not_applied happlied]
          | true =>
              rw [(publish_of_applied happlied).2.2]
              exact h
      | setRefs repo row =>
          cases hknown : knowsRepo repo db with
          | false => rwa [setRefs_of_unknown hknown]
          | true =>
              rw [setRefs_of_known hknown]
              exact h
      | purgeRepo | queueDeletions => exact h
      | _ => cases hrows

/-- A dequeue leaves the sizes that `sizeLeft` says. -/
theorem sized_dequeue {sweep : Sweep} (hleft : sizeLeft sweep db hash = true)
    (h : sized db hash = true) :
    sized (exec (.dequeueDeletions sweep.settled sweep.now) db) hash = true := by
  obtain ⟨size, hsize, rfl⟩ := sized_iff.mp h
  refine sized_iff.mpr ⟨size, Table.mem_delete.mpr ⟨hsize, ?_⟩, rfl⟩
  simp only [sizeLeft, Bool.or_eq_true, decide_eq_true_eq, List.any_eq_true,
    Bool.and_eq_true] at hleft
  rcases hleft with (hout | ⟨mine, hmine, hnamed⟩) | ⟨queued, hqueued, hhash, hdue⟩
  · simp [hout]
  · have hany : (db.artifactRefs.any fun mine => mine.2 = size.1) = true :=
      List.any_eq_true.mpr ⟨mine, hmine, by simpa using hnamed⟩
    simp [hany]
  · -- it is still queued after the dequeue
    have hstays : queued ∈ Table.delete (fun queued => sweep.settled.contains queued.hash &&
        decide (queued.dueAt < sweep.now)) db.deletions := by
      refine Table.mem_delete.mpr ⟨hqueued, ?_⟩
      simp only [Bool.and_eq_false_iff, decide_eq_false_iff_not]
      exact .inr (by omega)
    have hany := List.any_eq_true (p := fun queued : Deletion => decide (queued.hash = size.1)).mpr
      ⟨queued, hstays, decide_eq_true hhash⟩
    simp only [hany, Bool.not_true, Bool.and_false]

end Sizes

/-! ## Publishes and sizes -/

/-- What a publish named that had found or recorded its size is named and sized, and what a publish
under way has found or recorded is sized. -/
structure World.Sized (w : World) : Prop where
  named : ∀ {repo hash}, (repo, hash) ∈ w.sizedRefs →
    (repo, hash) ∈ w.db.artifactRefs ∧ sized w.db hash = true
  writes : ∀ {i : Nat} {job : Job} {write : Write} {hash : String}, w.jobs[i]? = some job →
    write ∈ job.writes → hash ∈ write.sized → sized w.db hash = true

section Steps

variable {w w' : World} {e : Event} {hash : String}

/-- A size that is recorded stays, but for a dequeue that forgets it. -/
theorem sized_moves (h : Moves w e w') (hsized : sized w.db hash = true)
    (hleft : ∀ k sweep, e = .dequeue k → w.sweeps[k]? = some sweep →
      sizeLeft sweep w.db hash = true) : sized w'.db hash = true := by
  have hother : ∀ op : Op, w'.control = w.control.after op →
      (∀ hashes now, op ≠ .dequeueDeletions hashes now) → sized w'.db hash = true := by
    intro op hafter hop
    rw [World.db, hafter]
    exact sized_exec op hop hsized
  cases h with
  | @control op hplain =>
      refine hother op rfl ?_
      rintro hashes now rfl
      cases hplain
  | unclaimed hnone => exact hother _ rfl (by simp)
  | claimed hfresh hclaim => exact hother _ rfl (by simp)
  | sizes hjob hwrite hsizes => exact hother _ rfl (by simp)
  | publish hjob hwrite hrunning hwork hplan => exact hother _ rfl (by simp)
  | setRefs hjob hwrite hrunning hplan => exact hother _ rfl (by simp)
  | queue hjob hstage => exact hother _ rfl (by simp)
  | purge hpurge => exact hother _ rfl (by simp)
  | dequeue hsweep hended => exact sized_dequeue (hleft _ _ rfl hsweep) hsized
  | _ => exact hsized

/-- What a publish under way knows to be sized it knew before, or it is sized now. -/
theorem write_moves (h : Moves w e w') {i : Nat} {job' : Job} {write' : Write}
    (hjob' : w'.jobs[i]? = some job') (hwrite' : write' ∈ job'.writes) (hhash : hash ∈ write'.sized) :
    (∃ (job : Job) (write : Write), w.jobs[i]? = some job ∧ write ∈ job.writes ∧ hash ∈ write.sized) ∨
      sized w'.db hash = true := by
  have hkept : w.jobs[i]? = some job' →
      (∃ (job : Job) (write : Write), w.jobs[i]? = some job ∧ write ∈ job.writes ∧
        hash ∈ write.sized) ∨ sized w'.db hash = true :=
    fun hjob => .inl ⟨job', write', hjob, hwrite', hhash⟩
  -- A step of one job whose writes were there before.
  have hset : ∀ {j : Nat} {old new : Job}, w.jobs[j]? = some old → w'.jobs = w.jobs.set j new →
      (∀ write ∈ new.writes, write ∈ old.writes ∨ ∀ hash ∈ write.sized,
        (∃ write ∈ old.writes, hash ∈ write.sized) ∨ sized w'.db hash = true) →
      (∃ (job : Job) (write : Write), w.jobs[i]? = some job ∧ write ∈ job.writes ∧
        hash ∈ write.sized) ∨ sized w'.db hash = true := by
    intro j old new hold hjobs hwrites
    rw [hjobs] at hjob'
    rcases Table.getElem?_set_cases hjob' with ⟨rfl, rfl⟩ | ⟨-, hother⟩
    · rcases hwrites write' hwrite' with hmem | hnew
      · exact .inl ⟨old, write', hold, hmem, hhash⟩
      · rcases hnew hash hhash with ⟨write, hwrite, hsized⟩ | hsized
        · exact .inl ⟨old, write, hold, hwrite, hsized⟩
        · exact .inr hsized
    · exact hkept hother
  have hnew : ∀ {work : Work}, w'.jobs = w.jobs ++ [.new work] →
      (∃ (job : Job) (write : Write), w.jobs[i]? = some job ∧ write ∈ job.writes ∧
        hash ∈ write.sized) ∨ sized w'.db hash = true := by
    intro work hjobs
    rw [hjobs] at hjob'
    rcases Table.getElem?_concat_cases hjob' with ⟨-, rfl⟩ | hold
    · cases hwrite'
    · exact hkept hold
  cases h with
  | claimed hfresh hclaim => exact hnew rfl
  | refs => exact hnew rfl
  | @job j je old new hjob hexec =>
      refine hset hjob rfl fun write hwrite => ?_
      cases je with
      | unsized plan =>
          simp only [World.jobExec] at hexec
          split at hexec
          · obtain rfl := Option.some.inj hexec
            rcases List.mem_append.mp hwrite with hold | hfound
            · exact .inl hold
            · obtain rfl := List.mem_singleton.mp hfound
              exact .inr fun hash hmem => .inr (List.mem_filter.mp hmem).2
          · cases hexec
      | _ =>
          left
          simp only [World.jobExec] at hexec
          grind
  | store hjob hstarted hstores => exact hset hjob rfl fun write hwrite => .inl hwrite
  | @sizes j n sizes old write hjob hwrite hsizes =>
      refine hset hjob rfl fun other hother => ?_
      rcases List.mem_or_eq_of_mem_set hother with hold | rfl
      · exact .inl hold
      · refine .inr fun hash hmem => ?_
        rcases List.mem_append.mp hmem with hrecorded | hknown
        · obtain ⟨size, hsize, rfl⟩ := List.mem_map.mp hrecorded
          exact .inr (sized_recordSizes.mpr (.inr ⟨size, hsize, rfl⟩))
        · exact .inl ⟨write, List.mem_of_getElem? hwrite, hknown⟩
  | publish hjob hwrite hrunning hwork hplan => exact hset hjob rfl (by simp)
  | @setRefs j n old write row hjob hwrite hrunning hplan =>
      refine hset hjob rfl fun other hother => .inl ?_
      unfold Job.wroteRefs at hother
      split at hother
      · exact List.mem_of_mem_eraseIdx hother
      · cases hother
  | queue hjob hstage => exact hset hjob rfl fun write hwrite => .inl hwrite
  | _ => exact hkept hjob'

/-- A reference is deleted by a purge of its repo only. -/
theorem artifactRefs_moves (h : Moves w e w') {repo : String}
    (hnamed : (repo, hash) ∈ w.db.artifactRefs)
    (hpurge : ∀ n purge, e = .purge n → w.purges[n]? = some purge → purge.repo ≠ repo) :
    (repo, hash) ∈ w'.db.artifactRefs := by
  have hother : ∀ op : Op, w'.control = w.control.after op → op.purges repo = false →
      (repo, hash) ∈ w'.db.artifactRefs := by
    intro op hafter hop
    rw [World.db, hafter]
    exact artifactRefs_exec op hop hnamed
  cases h with
  | @control op hplain =>
      refine hother op rfl ?_
      cases op <;> first | rfl | cases hplain
  | unclaimed hnone => exact hother _ rfl rfl
  | claimed hfresh hclaim => exact hother _ rfl rfl
  | sizes hjob hwrite hsizes => exact hother _ rfl rfl
  | publish hjob hwrite hrunning hwork hplan => exact hother _ rfl rfl
  | setRefs hjob hwrite hrunning hplan => exact hother _ rfl rfl
  | queue hjob hstage => exact hother _ rfl rfl
  | purge hfound =>
      refine hother _ rfl ?_
      simpa [Op.purges] using hpurge _ _ rfl hfound
  | dequeue hsweep hended => exact hother _ rfl rfl
  | _ => exact hnamed

theorem mem_recordSized {repo : String} {write : Write} {written : Bool} {named : String × String}
    (h : named ∈ World.recordSized repo write written) :
    written = true ∧ named.1 = repo ∧ named.2 ∈ write.plan.artifacts ∧ named.2 ∈ write.sized := by
  unfold World.recordSized at h
  split at h
  · next hwritten =>
      obtain ⟨hash, hmem, rfl⟩ := List.mem_map.mp h
      obtain ⟨hartifact, hsized⟩ := List.mem_filter.mp hmem
      exact ⟨hwritten, rfl, hartifact, by simpa using hsized⟩
  · cases h

theorem sizedInv_moves (h : w.Sized) (hm : Moves w e w') (hkept : publishesSized w e = true) :
    w'.Sized := by
  have hwrites : ∀ {i : Nat} {job : Job} {write : Write} {hash : String}, w.jobs[i]? = some job →
      write ∈ job.writes → hash ∈ write.sized → sized w'.db hash = true := by
    intro i job write hash hjob hwrite hhash
    refine sized_moves hm (h.writes hjob hwrite hhash) fun k sweep he hsweep => ?_
    subst he
    simp only [publishesSized, hsweep, Option.all_some, List.all_eq_true] at hkept
    exact hkept job (List.mem_of_getElem? hjob) write hwrite hash hhash
  -- A pair that was named and sized, in a step that does not purge its repo.
  have hnamed : ∀ {repo hash : String}, (repo, hash) ∈ w.sizedRefs →
      (∀ n purge, e = .purge n → w.purges[n]? = some purge → purge.repo ≠ repo) →
      (repo, hash) ∈ w'.db.artifactRefs ∧ sized w'.db hash = true := by
    intro repo hash hmem hpurge
    obtain ⟨hrefs, hsized⟩ := h.named hmem
    refine ⟨artifactRefs_moves hm hrefs hpurge, sized_moves hm hsized fun k sweep _ _ => ?_⟩
    have hany : (w.db.artifactRefs.any fun mine => mine.2 = hash) = true :=
      List.any_eq_true.mpr ⟨_, hrefs, by simp⟩
    simp [sizeLeft, hany]
  refine ⟨?_, fun hjob' hwrite' hhash => ?_⟩
  · intro repo hash hmem
    cases hm with
    | @publish i n job write claim output hjob hwrite hrunning hwork hplan =>
        rcases List.mem_append.mp hmem with hnew | hold
        · obtain ⟨happlied, hrepo, hartifact, hsized⟩ := mem_recordSized hnew
          refine ⟨?_, hwrites hjob (List.mem_of_getElem? hwrite) hsized⟩
          show (repo, hash) ∈ (exec (.publish claim output) w.db).artifactRefs
          rw [(publish_of_applied happlied).2.2]
          refine mem_recordRefs.mpr (.inr ⟨hash, ?_, Prod.ext hrepo rfl⟩)
          rwa [hplan] at hartifact
        · exact hnamed hold (by simp)
    | @setRefs i n job write row hjob hwrite hrunning hplan =>
        rcases List.mem_append.mp hmem with hnew | hold
        · obtain ⟨hwritten, hrepo, hartifact, hsized⟩ := mem_recordSized hnew
          refine ⟨?_, hwrites hjob (List.mem_of_getElem? hwrite) hsized⟩
          show (repo, hash) ∈ (exec (.setRefs job.work.repo row) w.db).artifactRefs
          rw [setRefs_of_known (setRefs_written ▸ hwritten)]
          refine mem_recordRefs.mpr (.inr ⟨hash, ?_, Prod.ext hrepo rfl⟩)
          rwa [hplan] at hartifact
        · exact hnamed hold (by simp)
    | purge hpurge =>
        obtain ⟨hold, hne⟩ := List.mem_filter.mp hmem
        refine hnamed hold fun n purge he hpurge' heq => ?_
        obtain rfl := Event.purge.inj he
        obtain rfl := Option.some.inj (hpurge.symm.trans hpurge')
        simp [heq] at hne
    | _ => exact hnamed hmem (by simp)
  · rcases write_moves hm hjob' hwrite' hhash with ⟨job, write, hjob, hwrite, hknown⟩ | hsized
    · exact hwrites hjob hwrite hknown
    · exact hsized

end Steps

/-! ## Whole runs -/

section Runs

variable {grace : Nat} {clock : Int} {events : List Event} {w : World}

/-- In every run in which no dequeue forgets a size that a publish under way has found or recorded, every
artifact a publish has named that had found or recorded its size is named and sized from then on, until
its repo is purged. -/
theorem published_sized (hrun : Run (StepWhen publishesSized) (World.init grace clock) events w)
    {repo hash : String} (hmem : (repo, hash) ∈ w.sizedRefs) :
    (repo, hash) ∈ w.db.artifactRefs ∧ sized w.db hash = true := by
  have hinv : w.Sized := hrun.invariant (P := fun _ => True) ⟨by simp [World.init],
    by simp [World.init]⟩ (fun _ h ⟨hkept, hstep⟩ => sizedInv_moves h (exec_moves hstep) hkept)
    (by simp)
  exact hinv.named hmem

/-- A repository is added, and its tags are sized and published. -/
def sizedEvents : List Event :=
  [.control (.addRepo "r" none 0), .refs "r"] ++ pinEvents 0 storedArtifact ++
    [.store 0 storedArtifact, .job 0 (.unsized (.refs tagsRow)), .sizes 0 0 [(storedArtifact, 1)],
      .publish 0 0]

theorem published_tags_sized : ∃ w,
    Run (StepWhen publishesSized) (World.init 2400 0) sizedEvents w ∧
      ("r", storedArtifact) ∈ w.sizedRefs ∧ sized w.db storedArtifact = true := by
  have hrun := run_runWhen publishesSized (World.init 2400 0) sizedEvents (by decide)
  have hmem : ("r", storedArtifact) ∈
      ((World.init 2400 0).runWhen publishesSized sizedEvents).sizedRefs := by decide
  exact ⟨_, hrun, hmem, (published_sized hrun hmem).2⟩

/-- The repository is purged and added again, and a sweep begins. -/
def purgedSizedEvents : List Event :=
  sizedEvents ++ [.job 0 .discard, .queue 0, .release 0, .pins (.drain 0 storedArtifact),
    .pins (.unpin 0), .purgeBegin "r", .purge 0, .control (.addRepo "r" none 0), .tick 1, .sweep]

/-- The sweep deletes the artifact; a refs publish stores it again and finds its size recorded; the
sweep takes it off the queue and forgets the size; and the row is written. -/
def storedAgainEvents : List Event :=
  [.mark 0 storedArtifact, .check storedArtifact, .remove storedArtifact, .done storedArtifact,
    .collect 0 storedArtifact, .refs "r"] ++ pinEvents 1 storedArtifact ++
    [.store 1 storedArtifact, .job 1 (.unsized (.refs tagsRow)), .dequeue 0, .publish 1 0]

theorem size_forgotten : ∃ events w,
    Run Step (World.init 0 0) events w ∧ ("r", storedArtifact) ∈ w.sizedRefs ∧
      ("r", storedArtifact) ∈ w.db.artifactRefs ∧ sized w.db storedArtifact = false := by
  let purged := (World.init 0 0).runWhen (fun _ _ => true) purgedSizedEvents
  have hpurged := run_runWhen (fun _ _ => true) (World.init 0 0) purgedSizedEvents (by decide)
  have hdue : dueDeletions 1 1000 purged.db = [storedArtifact] := by
    have hqueued : purged.db.deletions = [⟨storedArtifact, 0⟩] := by decide
    simp [dueDeletions, hqueued]
  have hsweep : purged.sweeps[0]? = some ⟨1, false, [], [], [], false, false⟩ := by decide
  have hread := due_step (p := fun _ _ => true) rfl hsweep rfl hdue
  let reading := purged.setSweep 0 ⟨1, true, [storedArtifact], [], [], false, false⟩
  have hstored := run_runWhen (fun _ _ => true) reading storedAgainEvents (by decide)
  refine ⟨_, _, run_step ((hpurged.snoc hread).append hstored), ?_, ?_, ?_⟩
  · decide
  · decide
  · decide

end Runs

end Ripclone.Server.Lifecycle
