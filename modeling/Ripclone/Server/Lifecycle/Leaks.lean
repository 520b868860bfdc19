import Ripclone.Server.Lifecycle.Sizes

/-!
# No artifact is left behind

What is in storage is named by a repository, queued for deletion, or of a job that will yet name or
queue it. It changes hands when a job publishes or queues what it stored, when a purge queues what
the repository named, and when a sweep that has looked at it takes it off the queue: what is queued
again since is due no earlier than the sweep's `now`, so the dequeue leaves it.

The code keeps this but for three cases, which the results exclude and a run shows one of: a purge
that read the clock long before it is written, a build whose task panics after its lease was lost,
and a store that goes on after its job has read what to queue.
-/

namespace Ripclone.Server.Lifecycle

open Ripclone.Library Ripclone.Control

/-- The artifacts a sweep has looked at. -/
def Sweep.looked (sweep : Sweep) : List String := sweep.done ++ sweep.settled

/-- Whether the job has yet to queue the artifact. -/
def Job.collects (job : Job) (hash : String) : Bool :=
  match job.stage with
  | .running | .settled _ => true
  | .discarding hashes _ => hash ∈ hashes
  | .ended => false

/-- A purge queues what a sweep has looked at for the sweep's `now` or later; a build that panics
after its lease was lost has stored nothing; and a store takes effect before its job has queued the
artifact, or read its pins without it. -/
def leavesNothing (w : World) : Event → Bool
  | .purge n => w.purges[n]?.all fun purge =>
    (onlyNamedBy purge.repo w.db.artifactRefs).all fun hash => w.sweeps.all fun sweep =>
      hash ∉ sweep.looked || decide (sweep.now ≤ purge.dueAt)
  | .job i .abandon => w.jobs[i]?.all fun job => job.started.isEmpty
  | .store i hash => w.jobs[i]?.all fun job => job.collects hash
  | _ => true

/-- What a step puts on the deletion queue, and for when. -/
def World.queues (w : World) : Event → Option (List String × Int)
  | .queue i => w.jobs[i]?.bind fun job =>
    match job.stage with
    | .discarding hashes dueAt => some (hashes, dueAt)
    | _ => none
  | .purge n => w.purges[n]?.map fun purge =>
    (onlyNamedBy purge.repo w.db.artifactRefs, purge.dueAt)
  | _ => none

/-! ## The deletion queue -/

section Queue

variable {deletions : List Deletion} {queued : Deletion} {hash : String} {dueAt : Int}

/-- An artifact queued again keeps the later due time. -/
theorem queueDeletion_mono (dueAt : Int) (hash : String) (h : queued ∈ deletions) :
    ∃ queued' ∈ queueDeletion dueAt deletions hash,
      queued'.hash = queued.hash ∧ queued.dueAt ≤ queued'.dueAt := by
  unfold queueDeletion
  split
  · by_cases hhash : queued.hash = hash
    · refine ⟨{ queued with dueAt := max dueAt queued.dueAt }, ?_, rfl, le_max_right _ _⟩
      exact List.mem_map.mpr ⟨queued, h, by simp [hhash]⟩
    · exact ⟨queued, List.mem_map.mpr ⟨queued, h, by simp [hhash]⟩, rfl, le_rfl⟩
  · exact ⟨queued, List.mem_append_left _ h, rfl, le_rfl⟩

theorem mem_queueDeletion : ∃ queued ∈ queueDeletion dueAt deletions hash,
    queued.hash = hash ∧ dueAt ≤ queued.dueAt := by
  unfold queueDeletion
  split
  · next hany =>
      obtain ⟨queued, hmem, hhash⟩ := List.any_eq_true.mp hany
      refine ⟨{ queued with dueAt := max dueAt queued.dueAt }, ?_, by simpa using hhash,
        le_max_left _ _⟩
      exact List.mem_map.mpr ⟨queued, hmem, by simp [show queued.hash = hash by simpa using hhash]⟩
  · exact ⟨⟨hash, dueAt⟩, by simp, rfl, le_rfl⟩

theorem queueDeletions_mono {hashes : List String} (h : queued ∈ deletions) :
    ∃ queued' ∈ hashes.foldl (queueDeletion dueAt) deletions,
      queued'.hash = queued.hash ∧ queued.dueAt ≤ queued'.dueAt := by
  induction hashes generalizing deletions queued with
  | nil => exact ⟨queued, h, rfl, le_rfl⟩
  | cons first rest ih =>
      obtain ⟨next, hnext, hhash, hle⟩ := queueDeletion_mono dueAt first h
      obtain ⟨last, hlast, hhash', hle'⟩ := ih hnext
      exact ⟨last, hlast, hhash'.trans hhash, hle.trans hle'⟩

theorem mem_queueDeletions (dueAt : Int) (deletions : List Deletion) {hashes : List String}
    (h : hash ∈ hashes) : ∃ queued ∈ hashes.foldl (queueDeletion dueAt) deletions,
      queued.hash = hash ∧ dueAt ≤ queued.dueAt := by
  induction hashes generalizing deletions with
  | nil => cases h
  | cons first rest ih =>
      rcases List.mem_cons.mp h with rfl | hrest
      · obtain ⟨next, hnext, hhash, hle⟩ := mem_queueDeletion
        obtain ⟨last, hlast, hhash', hle'⟩ := queueDeletions_mono hnext
        exact ⟨last, hlast, hhash'.trans hhash, hle.trans hle'⟩
      · exact ih _ hrest

theorem queueDeletion_before (h : queued ∈ queueDeletion dueAt deletions hash) :
    queued ∈ deletions ∧ queued.hash ≠ hash ∨ queued.hash = hash ∧ dueAt ≤ queued.dueAt := by
  unfold queueDeletion at h
  split at h
  · obtain ⟨old, hold, rfl⟩ := List.mem_map.mp h
    split
    · next heq => exact .inr ⟨by simpa using heq, le_max_left _ _⟩
    · next hne => exact .inl ⟨hold, by simpa using hne⟩
  · next hany =>
      rcases List.mem_append.mp h with hold | hnew
      · refine .inl ⟨hold, fun heq => hany ?_⟩
        exact List.any_eq_true.mpr ⟨queued, hold, by simpa using heq⟩
      · obtain rfl := List.mem_singleton.mp hnew
        exact .inr ⟨rfl, le_rfl⟩

/-- An entry of the queue is of an artifact queued now, due no earlier than asked, or was there
before. -/
theorem queueDeletions_before {hashes : List String}
    (h : queued ∈ hashes.foldl (queueDeletion dueAt) deletions) :
    queued ∈ deletions ∧ queued.hash ∉ hashes ∨ queued.hash ∈ hashes ∧ dueAt ≤ queued.dueAt := by
  induction hashes generalizing deletions with
  | nil => exact .inl ⟨h, List.not_mem_nil⟩
  | cons first rest ih =>
      rcases ih h with ⟨hfirst, hrest⟩ | ⟨hrest, hle⟩
      · rcases queueDeletion_before hfirst with ⟨hold, hne⟩ | ⟨heq, hle⟩
        · exact .inl ⟨hold, by simp [hne, hrest]⟩
        · exact .inr ⟨by simp [heq], hle⟩
      · exact .inr ⟨List.mem_cons_of_mem _ hrest, hle⟩

end Queue

/-! ## Whose an artifact is -/

/-- The artifact is queued, for no earlier than the `now` of any sweep that has looked at it. -/
def QueuedPast (w : World) (hash : String) : Prop :=
  ∃ queued ∈ w.db.deletions, queued.hash = hash ∧ ∀ {k : Nat} {sweep : Sweep},
    w.sweeps[k]? = some sweep → hash ∈ sweep.looked → sweep.now ≤ queued.dueAt

/-- The database keeps track of the artifact. -/
def Tracked (w : World) (hash : String) : Prop := Refers w.db hash ∨ QueuedPast w hash

/-- A job at this stage will yet name or queue the artifact, if it pinned it. -/
def Stage.Accounts (hash : String) : Stage → Prop
  | .running => True
  | .settled keep => hash ∉ keep
  | .discarding hashes _ => hash ∈ hashes
  | .ended => False

def Job.Accounts (job : Job) (hash : String) : Prop :=
  hash ∈ job.started ∧ job.stage.Accounts hash

structure World.NoLeak (w : World) : Prop where
  owned : ∀ hash ∈ w.storage, Tracked w hash ∨
    ∃ (i : Nat) (job : Job), w.jobs[i]? = some job ∧ job.Accounts hash
  /-- What a job is about to queue it pins, and no sweep has looked at it that began since. -/
  queues : ∀ {i : Nat} {job : Job} {hashes : List String} {dueAt : Int}, w.jobs[i]? = some job →
    job.stage = .discarding hashes dueAt → ∀ hash ∈ hashes, hash ∈ w.held i ∧
      ∀ {k : Nat} {sweep : Sweep}, w.sweeps[k]? = some sweep → hash ∈ sweep.looked →
        sweep.now ≤ dueAt
  removed : ∀ f ∈ w.flights, f.stage = .removed → f.hash ∉ w.storage

section Steps

variable {w w' : World} {e : Event} {hash : String}

/-- What a sweep has looked at it had looked at before, or its deletion in flight ends now. -/
theorem looked_moves (h : Moves w e w') {k : Nat} {sweep' : Sweep}
    (hsweep' : w'.sweeps[k]? = some sweep') (hlooked : hash ∈ sweep'.looked) :
    ∃ sweep, w.sweeps[k]? = some sweep ∧ sweep.now = sweep'.now ∧ (hash ∈ sweep.looked ∨
      ∃ f ∈ w.flights, f.hash = hash ∧ w'.control = w.control ∧
        (f.stage = .removed ∨ deletable hash sweep.now w.db = false)) := by
  have hset : ∀ {j : Nat} {old new : Sweep}, w.sweeps[j]? = some old →
      w'.sweeps = w.sweeps.set j new → new.now = old.now →
      (∀ hash ∈ new.looked, hash ∈ old.looked ∨ ∃ f ∈ w.flights, f.hash = hash ∧
        w'.control = w.control ∧ (f.stage = .removed ∨ deletable hash old.now w.db = false)) →
      ∃ sweep, w.sweeps[k]? = some sweep ∧ sweep.now = sweep'.now ∧ (hash ∈ sweep.looked ∨
        ∃ f ∈ w.flights, f.hash = hash ∧ w'.control = w.control ∧
          (f.stage = .removed ∨ deletable hash sweep.now w.db = false)) := by
    intro j old new hold hsweeps hnow hmem
    rw [hsweeps] at hsweep'
    rcases Table.getElem?_set_cases hsweep' with ⟨rfl, rfl⟩ | ⟨-, hother⟩
    · exact ⟨old, hold, hnow.symm, hmem hash hlooked⟩
    · exact ⟨sweep', hother, rfl, .inl hlooked⟩
  -- A deletion of the sweep ends, with a result.
  have hends : ∀ {f : Flight} {old : Sweep}, f ∈ w.flights → w.sweeps[f.sweep]? = some old →
      w'.sweeps = w.sweeps.set f.sweep { old with done := f.hash :: old.done } →
      w'.control = w.control → (f.stage = .removed ∨ deletable f.hash old.now w.db = false) →
      ∃ sweep, w.sweeps[k]? = some sweep ∧ sweep.now = sweep'.now ∧ (hash ∈ sweep.looked ∨
        ∃ f ∈ w.flights, f.hash = hash ∧ w'.control = w.control ∧
          (f.stage = .removed ∨ deletable hash sweep.now w.db = false)) := by
    intro f old hf hold hsweeps hcontrol hresult
    refine hset hold hsweeps rfl fun hash hmem => ?_
    rcases List.mem_cons.mp (show hash ∈ f.hash :: old.looked from hmem) with rfl | hbefore
    · exact .inr ⟨f, hf, rfl, hcontrol, hresult⟩
    · exact .inl hbefore
  cases h with
  | sweep =>
      rcases Table.getElem?_concat_cases hsweep' with ⟨-, rfl⟩ | hold
      · cases hlooked
      · exact ⟨sweep', hold, rfl, .inl hlooked⟩
  | due hold hended => exact hset hold rfl rfl fun _ => .inl
  | skip hold => exact hset hold rfl rfl fun _ => .inl
  | mark hold hdue hbegin => exact hset hold rfl rfl fun _ => .inl
  | keeps hflight hold hmarked hdeletable =>
      obtain ⟨hmem, rfl⟩ := mem_of_flight hflight
      exact hends hmem hold rfl rfl (.inr hdeletable)
  | done hflight hold hremoved =>
      obtain ⟨hmem, rfl⟩ := mem_of_flight hflight
      exact hends hmem hold rfl rfl (.inl hremoved)
  | @collect j collected old hold hdone =>
      refine hset hold rfl rfl fun hash hmem => .inl ?_
      rcases List.mem_append.mp hmem with hleft | hsettled
      · exact List.mem_append_left _ (List.mem_of_mem_erase hleft)
      · rcases List.mem_cons.mp hsettled with rfl | hbefore
        · exact List.mem_append_left _ hdone
        · exact List.mem_append_right _ hbefore
  | fail hflight hold => exact hset hold rfl rfl fun _ => .inl
  | dequeue hold hended => exact hset hold rfl rfl (by simp [Sweep.looked])
  | _ => exact ⟨sweep', hsweep', rfl, .inl hlooked⟩

/-- What a step does to the deletion queue: nothing, queue artifacts, or take off it what a sweep has
settled that is due. -/
theorem queue_moves (h : Moves w e w') :
    w.queues e = none ∧ w'.db.deletions = w.db.deletions ∨
    (∃ hashes dueAt, w.queues e = some (hashes, dueAt) ∧ w'.sweeps = w.sweeps ∧
      w'.db.deletions = hashes.foldl (queueDeletion dueAt) w.db.deletions) ∨
    ∃ k sweep, e = .dequeue k ∧ w.sweeps[k]? = some sweep ∧ sweep.ended = false ∧
      w'.db.deletions = Table.delete (fun queued => sweep.settled.contains queued.hash &&
        decide (queued.dueAt < sweep.now)) w.db.deletions := by
  have hrows : ∀ op : Op, w'.control = w.control.after op → op.rowsOnly = true →
      w'.db.deletions = w.db.deletions := by
    intro op hafter hop
    rw [World.db, hafter]
    exact (artifacts_exec_rows op w.db hop).2.2.2
  cases h with
  | @control op hplain =>
      refine .inl ⟨rfl, hrows op rfl ?_⟩
      cases op <;> first | rfl | cases hplain
  | unclaimed hnone => exact .inl ⟨rfl, hrows _ rfl rfl⟩
  | claimed hfresh hclaim => exact .inl ⟨rfl, hrows _ rfl rfl⟩
  | sizes hjob hwrite hsizes => exact .inl ⟨rfl, rfl⟩
  | @publish i n job write claim output hjob hwrite hrunning hwork hplan =>
      refine .inl ⟨rfl, ?_⟩
      show (exec (.publish claim output) w.db).deletions = w.db.deletions
      cases happlied : applied claim output w.db with
      | false => rw [publish_of_not_applied happlied]
      | true => rw [(publish_of_applied happlied).2.2]
  | @setRefs i n job write row hjob hwrite hrunning hplan =>
      refine .inl ⟨rfl, ?_⟩
      show (exec (.setRefs job.work.repo row) w.db).deletions = w.db.deletions
      cases hknown : knowsRepo job.work.repo w.db with
      | false => rw [setRefs_of_unknown hknown]
      | true => rw [setRefs_of_known hknown]
  | @queue i job hashes dueAt hjob hstage =>
      exact .inr (.inl ⟨hashes, dueAt, by simp [World.queues, hjob, hstage], rfl, rfl⟩)
  | @purge n purge hpurge =>
      exact .inr (.inl ⟨onlyNamedBy purge.repo w.db.artifactRefs, purge.dueAt,
        by simp [World.queues, hpurge], rfl, rfl⟩)
  | @dequeue k sweep hsweep hended => exact .inr (.inr ⟨k, sweep, rfl, hsweep, hended, rfl⟩)
  | _ => exact .inl ⟨rfl, rfl⟩

/-- A queued artifact stays queued, for no earlier, unless a sweep that has looked at it takes it off
the queue. -/
theorem deletions_moves (h : Moves w e w') {queued : Deletion} (hqueued : queued ∈ w.db.deletions)
    (hlooked : ∀ {k : Nat} {sweep : Sweep}, w.sweeps[k]? = some sweep →
      queued.hash ∈ sweep.looked → sweep.now ≤ queued.dueAt) :
    ∃ queued' ∈ w'.db.deletions, queued'.hash = queued.hash ∧ queued.dueAt ≤ queued'.dueAt := by
  rcases queue_moves h with ⟨-, hsame⟩ | ⟨hashes, dueAt, -, -, hqueue⟩ |
    ⟨k, sweep, -, hsweep, -, hdequeue⟩
  · exact ⟨queued, hsame ▸ hqueued, rfl, le_rfl⟩
  · rw [hqueue]
    exact queueDeletions_mono hqueued
  · refine ⟨queued, ?_, rfl, le_rfl⟩
    rw [hdequeue]
    refine Table.mem_delete.mpr ⟨hqueued, ?_⟩
    by_cases hsettled : queued.hash ∈ sweep.settled
    · have hle := hlooked hsweep (List.mem_append_right _ hsettled)
      simp only [Bool.and_eq_false_iff, decide_eq_false_iff_not]
      exact .inr (by omega)
    · simp [hsettled]

theorem mem_onlyNamedBy {repo : String} {refs : List (String × String)}
    (h : (repo, hash) ∈ refs) (honly : ∀ other, (other, hash) ∈ refs → other = repo) :
    hash ∈ onlyNamedBy repo refs := by
  refine List.mem_map.mpr ⟨(repo, hash), List.mem_filter.mpr ⟨h, ?_⟩, rfl⟩
  simp only [decide_true, Bool.true_and, Bool.not_eq_true', List.any_eq_false, Bool.and_eq_true,
    decide_eq_true_eq, not_and, not_not]
  rintro ⟨other, named⟩ hmem rfl
  exact honly other hmem

/-- A purge leaves what it unnames to another repository or to the queue. -/
theorem purge_tracked {n : Nat} {purge : Purge} (h : Moves w (.purge n) w')
    (hleaves : leavesNothing w (.purge n) = true) (hpurge : w.purges[n]? = some purge)
    (hrepo : (purge.repo, hash) ∈ w.db.artifactRefs) : Tracked w' hash := by
  by_cases hother : ∃ other, other ≠ purge.repo ∧ (other, hash) ∈ w.db.artifactRefs
  · obtain ⟨other, hne, hnamed⟩ := hother
    refine .inl ⟨other, artifactRefs_moves h hnamed fun m purge' he hpurge' heq => hne ?_⟩
    obtain rfl := Event.purge.inj he
    obtain rfl := Option.some.inj (hpurge.symm.trans hpurge')
    exact heq.symm
  · have honly : hash ∈ onlyNamedBy purge.repo w.db.artifactRefs := by
      refine mem_onlyNamedBy hrepo fun other hnamed => ?_
      by_contra hne
      exact hother ⟨other, hne, hnamed⟩
    cases h with
    | @purge _ purge' hpurge' =>
        obtain rfl := Option.some.inj (hpurge.symm.trans hpurge')
        obtain ⟨queued, hqueued, hhash, hle⟩ :=
          mem_queueDeletions purge.dueAt w.db.deletions honly
        refine .inr ⟨queued, hqueued, hhash, fun {k sweep} hsweep hlooked => ?_⟩
        simp only [leavesNothing, hpurge, Option.all_some, List.all_eq_true, Bool.or_eq_true,
          decide_eq_true_eq] at hleaves
        have hnow := (hleaves hash honly sweep (List.mem_of_getElem? hsweep)).resolve_left
          (not_not.mpr hlooked)
        exact le_trans hnow hle

/-- What the database keeps track of it keeps track of, unless it is removed from storage. -/
theorem tracked_moves (h : Moves w e w') (hleaves : leavesNothing w e = true)
    (htracked : Tracked w hash)
    (hflight : ∀ f ∈ w.flights, f.hash = hash → f.stage ≠ .removed) : Tracked w' hash := by
  rcases htracked with ⟨repo, hrepo⟩ | ⟨queued, hqueued, rfl, hpast⟩
  · by_cases hpurged : ∃ n purge, e = .purge n ∧ w.purges[n]? = some purge ∧ purge.repo = repo
    · obtain ⟨n, purge, rfl, hpurge, rfl⟩ := hpurged
      exact purge_tracked h hleaves hpurge hrepo
    · refine .inl ⟨repo, artifactRefs_moves h hrepo ?_⟩
      intro n purge he hpurge heq
      exact hpurged ⟨n, purge, he, hpurge, heq⟩
  · by_cases hrefers : Refers w.db queued.hash ∧ w'.control = w.control
    · obtain ⟨⟨repo, hrepo⟩, hcontrol⟩ := hrefers
      exact .inl ⟨repo, by rwa [World.db, hcontrol]⟩
    · obtain ⟨queued', hqueued', hhash, hle⟩ := deletions_moves h hqueued hpast
      refine .inr ⟨queued', hqueued', hhash, fun {k sweep'} hsweep' hlooked => ?_⟩
      obtain ⟨sweep, hsweep, hnow, hbefore | ⟨f, hf, hfhash, hcontrol, hstage | hkept⟩⟩ :=
        looked_moves h hsweep' hlooked
      · have := hpast hsweep hbefore
        omega
      · exact absurd hstage (hflight f hf hfhash)
      · -- it was kept though no repository names it: it is due later
        have hunnamed : ∀ repo, (repo, queued.hash) ∉ w.db.artifactRefs :=
          fun repo hrepo => hrefers ⟨⟨repo, hrepo⟩, hcontrol⟩
        have hlate : ¬ queued.dueAt < sweep.now := by
          intro hdue
          have htrue := deletable_iff.mpr ⟨⟨queued, hqueued, rfl, hdue⟩, hunnamed⟩
          rw [hkept] at htrue
          cases htrue
        omega

/-! ## Jobs -/

/-- What a step may do to the stage of a job. -/
inductive StageStep (w : World) (e : Event) (w' : World) (i : Nat) (job : Job) : Stage → Prop
  | same : StageStep w e w' i job job.stage
  | settle : StageStep w e w' i job (.settled [])
  | published {keep : List String} (hrunning : job.stage = .running)
      (hkeep : ∀ hash ∈ keep, Refers w'.db hash) : StageStep w e w' i job (.settled keep)
  | discard {keep : List String} (he : e = .job i .discard) (hstage : job.stage = .settled keep) :
      StageStep w e w' i job (.discarding ((w.held i).filter fun hash => hash ∉ keep) w.clock)
  | queued {hashes : List String} {dueAt : Int} (hstage : job.stage = .discarding hashes dueAt)
      (hdeletions : w'.db.deletions = hashes.foldl (queueDeletion dueAt) w.db.deletions)
      (hsweeps : w'.sweeps = w.sweeps) : StageStep w e w' i job .ended
  | abandon (he : e = .job i .abandon) : StageStep w e w' i job .ended

section Stages

variable {i : Nat} {job job' : Job}

theorem jobExec_stage {e : JobEvent} (h : w.jobExec i job e = some job') :
    StageStep w (.job i e) w' i job job'.stage := by
  cases e with
  | read key =>
      simp only [World.jobExec] at h
      split at h
      · split at h
        · exact Option.some.inj h ▸ .same
        · cases h
      · cases h
  | readRefs | start | found | unsized =>
      simp only [World.jobExec] at h
      split at h
      · exact Option.some.inj h ▸ .same
      · cases h
  | settle =>
      simp only [World.jobExec] at h
      split at h
      · exact Option.some.inj h ▸ .settle
      · cases h
  | discard =>
      simp only [World.jobExec] at h
      split at h
      · next keep hstage => exact Option.some.inj h ▸ .discard rfl hstage
      · cases h
  | abandon =>
      simp only [World.jobExec] at h
      split at h
      · split at h
        · cases h
        · exact Option.some.inj h ▸ .abandon rfl
      · cases h

/-- A job is there after every step with all it began to store, at a stage it may come to. -/
theorem stage_moves (h : Moves w e w') (hjob : w.jobs[i]? = some job) :
    ∃ job', w'.jobs[i]? = some job' ∧ (∀ hash ∈ job.started, hash ∈ job'.started) ∧
      StageStep w e w' i job job'.stage := by
  -- A step of one job leaves the others, and one that adds a job leaves all.
  have hset : ∀ {j : Nat} {old new : Job}, w.jobs[j]? = some old → w'.jobs = w.jobs.set j new →
      (∀ hash ∈ old.started, hash ∈ new.started) → StageStep w e w' j old new.stage →
      ∃ job', w'.jobs[i]? = some job' ∧ (∀ hash ∈ job.started, hash ∈ job'.started) ∧
        StageStep w e w' i job job'.stage := by
    intro j old new hold hjobs hstarted hstep
    rw [hjobs]
    by_cases heq : j = i
    · obtain rfl := heq
      obtain rfl := Option.some.inj (hold.symm.trans hjob)
      exact ⟨new, List.getElem?_set_self (List.getElem?_eq_some_iff.mp hold).1, hstarted, hstep⟩
    · exact ⟨job, by rwa [List.getElem?_set_ne heq], fun _ => id, .same⟩
  have hconcat : ∀ {new : Job}, w'.jobs = w.jobs ++ [new] →
      ∃ job', w'.jobs[i]? = some job' ∧ (∀ hash ∈ job.started, hash ∈ job'.started) ∧
        StageStep w e w' i job job'.stage := by
    intro new hjobs
    refine ⟨job, ?_, fun _ => id, .same⟩
    rw [hjobs, List.getElem?_append_left (List.getElem?_eq_some_iff.mp hjob).1]
    exact hjob
  cases h with
  | claimed hfresh hclaim => exact hconcat rfl
  | refs => exact hconcat rfl
  | @job j e old new hold hexec =>
      have hstep : JobStep w w j old new := jobExec_jobStep rfl hexec
      exact hset hold rfl hstep.startedKept (jobExec_stage hexec)
  | store hold hstarted hstores => exact hset hold rfl (fun _ => id) .same
  | sizes hold hwrite hsizes => exact hset hold rfl (fun _ => id) .same
  | @publish j n old write claim output hold hwrite hrunning hwork hplan =>
      refine hset hold rfl (fun _ => id) (.published hrunning fun hash hmem => ?_)
      split at hmem
      · next happlied =>
          refine ⟨claim.repo, ?_⟩
          show (claim.repo, hash) ∈ (exec (.publish claim output) w.db).artifactRefs
          rw [(publish_of_applied happlied).2.2]
          exact mem_recordRefs.mpr (.inr ⟨hash, hmem, rfl⟩)
      · cases hmem
  | @setRefs j n old write row hold hwrite hrunning hplan =>
      have hstep : JobStep w w j old (old.wroteRefs n (setRefs old.work.repo row w.db).2 row) :=
        wroteRefs_jobStep hrunning
      refine hset hold rfl hstep.startedKept ?_
      unfold Job.wroteRefs
      split
      · exact .same
      · refine .published hrunning fun hash hmem => ?_
        rw [setRefs_written] at hmem
        split at hmem
        · next hknown =>
            refine ⟨old.work.repo, ?_⟩
            show (old.work.repo, hash) ∈ (exec (.setRefs old.work.repo row) w.db).artifactRefs
            rw [setRefs_of_known hknown]
            exact mem_recordRefs.mpr (.inr ⟨hash, hmem, rfl⟩)
        · cases hmem
  | queue hold hstage => exact hset hold rfl (fun _ => id) (.queued hstage rfl rfl)
  | _ => exact ⟨job, hjob, fun _ => id, .same⟩

/-- What a job accounts for it still does after a step, or has left to the database. -/
theorem accounts_moves (hok : w.Ok) (h : Moves w e w') (hleaves : leavesNothing w e = true)
    (hleak : w.NoLeak) (hjob : w.jobs[i]? = some job) (haccounts : job.Accounts hash) :
    Tracked w' hash ∨ ∃ job', w'.jobs[i]? = some job' ∧ job'.Accounts hash := by
  obtain ⟨job', hjob', hkept, hstep⟩ := stage_moves h hjob
  obtain ⟨hstarted, hstage⟩ := haccounts
  have hstill : job'.stage.Accounts hash →
      Tracked w' hash ∨ ∃ job', w'.jobs[i]? = some job' ∧ job'.Accounts hash :=
    fun hstage' => .inr ⟨job', hjob', hkept hash hstarted, hstage'⟩
  generalize job'.stage = stage' at hstep hstill
  cases hstep with
  | same => exact hstill hstage
  | settle => exact hstill List.not_mem_nil
  | @published keep hrunning hkeep =>
      by_cases hmem : hash ∈ keep
      · exact .inl (.inl (hkeep hash hmem))
      · exact hstill hmem
  | @discard keep he hsettled =>
      refine hstill (List.mem_filter.mpr ⟨?_, ?_⟩)
      · exact hok.held hjob (hok.alive hjob (by simp [hsettled])) hstarted
      · rw [hsettled] at hstage
        simpa [Stage.Accounts] using hstage
  | @queued hashes dueAt hdiscarding hdeletions hsweeps =>
      rw [hdiscarding] at hstage
      obtain ⟨queued, hqueued, hhash, hle⟩ := mem_queueDeletions dueAt w.db.deletions hstage
      refine .inl (.inr ⟨queued, hdeletions ▸ hqueued, hhash, fun {k sweep} hsweep hlooked => ?_⟩)
      rw [hsweeps] at hsweep
      exact le_trans ((hleak.queues hjob hdiscarding hash hstage).2 hsweep hlooked) hle
  | abandon he =>
      -- a build that panics so has stored nothing
      subst he
      simp only [leavesNothing, hjob, Option.all_some, List.isEmpty_iff] at hleaves
      rw [hleaves] at hstarted
      cases hstarted

/-- What a job is about to queue it already pinned, or it reads its pins now. -/
theorem discarding_moves (hok : w.Ok) (h : Moves w e w') (hjob' : w'.jobs[i]? = some job')
    {hashes : List String} {dueAt : Int} (hstage' : job'.stage = .discarding hashes dueAt) :
    (∃ job, w.jobs[i]? = some job ∧ job.stage = .discarding hashes dueAt) ∨
      e = .job i .discard ∧ (∀ hash ∈ hashes, hash ∈ w.held i) ∧ dueAt = w.clock := by
  rcases job_moves hok h hjob' with ⟨job, hjob, -⟩ | ⟨-, work, rfl, -⟩
  · obtain ⟨same, hsame, -, hstep⟩ := stage_moves h hjob
    obtain rfl := Option.some.inj (hsame.symm.trans hjob')
    rw [hstage'] at hstep
    generalize hstage : Stage.discarding hashes dueAt = stage at hstep
    cases hstep with
    | same => exact .inl ⟨job, hjob, rfl⟩
    | discard he hsettled =>
        obtain ⟨rfl, rfl⟩ := Stage.discarding.inj hstage
        exact .inr ⟨he, fun hash hmem => (List.mem_filter.mp hmem).1, rfl⟩
    | _ => cases hstage
  · cases hstage'

end Stages

/-- What is in storage was there before, or a job that has pinned it stores it now. -/
theorem storage_before (h : Moves w e w') (hstored : hash ∈ w'.storage) :
    hash ∈ w.storage ∨ ∃ i job, e = .store i hash ∧ w.jobs[i]? = some job ∧ hash ∈ job.started ∧
      job.stores = true := by
  cases h with
  | @store i stored job hjob hstarted hstores =>
      rcases List.mem_cons.mp hstored with rfl | hbefore
      · exact .inr ⟨i, job, rfl, hjob, hstarted, hstores⟩
      · exact .inl hbefore
  | remove hflight hmarked => exact .inl (List.mem_filter.mp hstored).1
  | late hlate => exact .inl (List.mem_filter.mp hstored).1
  | _ => exact .inl hstored

/-- A job that stores an artifact in time accounts for it. -/
theorem accounts_of_collects {job : Job} (hstarted : hash ∈ job.started)
    (hstores : job.stores = true) (hcollects : job.collects hash = true) : job.Accounts hash := by
  refine ⟨hstarted, ?_⟩
  unfold Job.stores at hstores
  unfold Job.collects at hcollects
  generalize job.stage = stage at hstores hcollects
  cases stage with
  | running => trivial
  | settled keep =>
      have hnone : keep = [] := by simpa using hstores
      simp [Stage.Accounts, hnone]
  | discarding hashes dueAt => simpa [Stage.Accounts] using hcollects
  | ended => cases hcollects

theorem noLeak_init (grace : Nat) (clock : Int) : (World.init grace clock).NoLeak where
  owned := by simp [World.init]
  queues := by simp [World.init]
  removed := by simp [World.init]

theorem owned_moves (hok : w.Ok) (h : Moves w e w') (hleaves : leavesNothing w e = true)
    (hleak : w.NoLeak) (hstored : hash ∈ w'.storage) : Tracked w' hash ∨
      ∃ (i : Nat) (job : Job), w'.jobs[i]? = some job ∧ job.Accounts hash := by
  have haccounts : ∀ {i : Nat} {job : Job}, w.jobs[i]? = some job → job.Accounts hash →
      Tracked w' hash ∨ ∃ (i : Nat) (job : Job), w'.jobs[i]? = some job ∧ job.Accounts hash := by
    intro i job hjob hmine
    rcases accounts_moves hok h hleaves hleak hjob hmine with htracked | ⟨job', hjob', hmine'⟩
    · exact .inl htracked
    · exact .inr ⟨i, job', hjob', hmine'⟩
  rcases storage_before h hstored with hbefore | ⟨i, job, rfl, hjob, hstarted, hstores⟩
  · rcases hleak.owned hash hbefore with htracked | ⟨i, job, hjob, hmine⟩
    · refine .inl (tracked_moves h hleaves htracked fun f hf hhash hremoved => ?_)
      exact hleak.removed f hf hremoved (hhash ▸ hbefore)
    · exact haccounts hjob hmine
  · have hcollects : job.collects hash = true := by simpa [leavesNothing, hjob] using hleaves
    exact haccounts hjob (accounts_of_collects hstarted hstores hcollects)

theorem queues_moves (hok : w.Ok) (h : Moves w e w') (hleak : w.NoLeak) {i : Nat} {job' : Job}
    {hashes : List String} {dueAt : Int} (hjob' : w'.jobs[i]? = some job')
    (hstage' : job'.stage = .discarding hashes dueAt) (hmem : hash ∈ hashes) :
    hash ∈ w'.held i ∧ ∀ {k : Nat} {sweep : Sweep}, w'.sweeps[k]? = some sweep →
      hash ∈ sweep.looked → sweep.now ≤ dueAt := by
  have hok' := ok_moves hok h
  rcases discarding_moves hok h hjob' hstage' with ⟨job, hjob, hstage⟩ | ⟨rfl, hheld, rfl⟩
  · obtain ⟨hheld, hpast⟩ := hleak.queues hjob hstage hash hmem
    have halive' := hok'.alive hjob' (by simp [hstage'])
    refine ⟨((alive_moves hok h hjob).1 halive').2 hash hheld, fun {k sweep'} hsweep' hlooked => ?_⟩
    obtain ⟨sweep, hsweep, hnow, hbefore | ⟨f, hf, rfl, -⟩⟩ := looked_moves h hsweep' hlooked
    · exact hnow ▸ hpast hsweep hbefore
    · exact absurd (hok.guarded hf) (hok.not_guarded hheld)
  · cases h with
    | job hjob hexec => exact ⟨hheld hash hmem, fun hsweep _ => hok.clock hsweep⟩

/-- A deletion whose request has taken effect was in flight with it, or it takes effect now. -/
theorem removed_before (h : Moves w e w') {f : Flight} (hf : f ∈ w'.flights)
    (hremoved : f.stage = .removed) : f ∈ w.flights ∨ e = .remove f.hash := by
  have hset : ∀ {hash : String} {stage : FlightStage}, f ∈ (w.setFlight hash stage).flights →
      f ∈ w.flights ∨ f.hash = hash ∧ f.stage = stage := by
    intro hash stage hmem
    obtain ⟨old, hold, heq⟩ := List.mem_map.mp hmem
    split at heq
    · next hhash => exact .inr (heq ▸ ⟨hhash, rfl⟩)
    · exact .inl (heq ▸ hold)
  cases h with
  | mark hsweep hdue hbegin =>
      rcases List.mem_cons.mp hf with rfl | hold
      · cases hremoved
      · exact .inl hold
  | deletes hflight hsweep hmarked hdeletable =>
      rcases hset hf with hold | ⟨-, hstage⟩
      · exact .inl hold
      · rw [hstage] at hremoved
        cases hremoved
  | remove hflight hmarked =>
      rcases hset hf with hold | ⟨hhash, -⟩
      · exact .inl hold
      · exact .inr (hhash ▸ rfl)
  | keeps hflight hsweep hmarked hdeletable => exact .inl (List.mem_filter.mp hf).1
  | done hflight hsweep hstage => exact .inl (List.mem_filter.mp hf).1
  | fail hflight hsweep => exact .inl (List.mem_filter.mp hf).1
  | drop hflight => exact .inl (List.mem_filter.mp hf).1
  | _ => exact .inl hf

/-- What a deletion has removed from storage is not stored again while it is in flight. -/
theorem removed_moves (hok : w.Ok) (h : Moves w e w') (hleaves : leavesNothing w e = true)
    (hleak : w.NoLeak) {f : Flight} (hf : f ∈ w'.flights) (hremoved : f.stage = .removed) :
    f.hash ∉ w'.storage := by
  intro hstored
  rcases removed_before h hf hremoved with hold | rfl
  · rcases storage_before h hstored with hbefore | ⟨i, job, rfl, hjob, hstarted, -⟩
    · exact hleak.removed f hold hremoved hbefore
    · have hcollects : job.collects f.hash = true := by simpa [leavesNothing, hjob] using hleaves
      have hstage : job.stage ≠ .ended := by
        intro hended
        simp [Job.collects, hended] at hcollects
      have hheld := hok.held hjob (hok.alive hjob hstage) hstarted
      exact hok.not_guarded hheld (hok.guarded hold)
  · cases h with
    | remove hflight hmarked =>
        obtain ⟨-, hne⟩ := List.mem_filter.mp hstored
        simp at hne

theorem noLeak_moves (hok : w.Ok) (h : Moves w e w') (hleaves : leavesNothing w e = true)
    (hleak : w.NoLeak) : w'.NoLeak where
  owned := fun _ hstored => owned_moves hok h hleaves hleak hstored
  queues := fun hjob' hstage' _ hmem => queues_moves hok h hleak hjob' hstage' hmem
  removed := fun _ hf hremoved => removed_moves hok h hleaves hleak hf hremoved

/-! ## Artifacts queued again -/

/-- Sweep `k` has looked at the artifact, and if it is queued, then for no earlier than the sweep's
`now`; or the sweep has ended. -/
def World.Requeued (w : World) (k : Nat) (hash : String) : Prop :=
  ∃ sweep, w.sweeps[k]? = some sweep ∧ (sweep.ended = true ∨ hash ∈ sweep.looked ∧
    ∀ queued ∈ w.db.deletions, queued.hash = hash → sweep.now ≤ queued.dueAt)

/-- What a sweep has looked at it has looked at until it ends. -/
theorem sweep_moves (hash : String) (h : Moves w e w') {k : Nat} {sweep : Sweep}
    (hsweep : w.sweeps[k]? = some sweep) :
    ∃ sweep', w'.sweeps[k]? = some sweep' ∧ sweep'.now = sweep.now ∧
      (sweep.ended = true → sweep'.ended = true) ∧
      (hash ∈ sweep.looked → hash ∈ sweep'.looked ∨ sweep'.ended = true) := by
  have hset : ∀ {j : Nat} {old new : Sweep}, w.sweeps[j]? = some old →
      w'.sweeps = w.sweeps.set j new → new.now = old.now → (old.ended = true → new.ended = true) →
      (hash ∈ old.looked → hash ∈ new.looked ∨ new.ended = true) →
      ∃ sweep', w'.sweeps[k]? = some sweep' ∧ sweep'.now = sweep.now ∧
        (sweep.ended = true → sweep'.ended = true) ∧
        (hash ∈ sweep.looked → hash ∈ sweep'.looked ∨ sweep'.ended = true) := by
    intro j old new hold hsweeps hnow hended hlooked
    rw [hsweeps]
    by_cases heq : j = k
    · obtain rfl := heq
      obtain rfl := Option.some.inj (hold.symm.trans hsweep)
      exact ⟨new, List.getElem?_set_self (List.getElem?_eq_some_iff.mp hold).1, hnow, hended, hlooked⟩
    · exact ⟨sweep, by rwa [List.getElem?_set_ne heq], rfl, id, .inl⟩
  cases h with
  | sweep =>
      refine ⟨sweep, ?_, rfl, id, .inl⟩
      rw [List.getElem?_append_left (List.getElem?_eq_some_iff.mp hsweep).1]
      exact hsweep
  | due hold hended => exact hset hold rfl rfl id .inl
  | skip hold => exact hset hold rfl rfl id .inl
  | mark hold hdue hbegin => exact hset hold rfl rfl id .inl
  | keeps hflight hold hmarked hdeletable =>
      exact hset hold rfl rfl id fun hmem => .inl (List.mem_cons_of_mem _ hmem)
  | done hflight hold hremoved =>
      exact hset hold rfl rfl id fun hmem => .inl (List.mem_cons_of_mem _ hmem)
  | @collect j collected old hold hdone =>
      refine hset hold rfl rfl id fun hmem => .inl ?_
      by_cases heq : hash = collected
      · exact List.mem_append_right _ (heq ▸ List.mem_cons_self)
      · rcases List.mem_append.mp hmem with hleft | hright
        · exact List.mem_append_left _ ((List.mem_erase_of_ne heq).mpr hleft)
        · exact List.mem_append_right _ (List.mem_cons_of_mem _ hright)
  | fail hflight hold => exact hset hold rfl rfl id .inl
  | dequeue hold hended => exact hset hold rfl rfl (fun _ => rfl) fun _ => .inr rfl
  | _ => exact ⟨sweep, hsweep, rfl, id, .inl⟩

/-- What is queued that a sweep has looked at is due no earlier than the sweep's `now`. -/
theorem queued_past (hleaves : leavesNothing w e = true) (hleak : w.NoLeak) {k : Nat}
    {sweep : Sweep} {hashes : List String} {dueAt : Int} (hsweep : w.sweeps[k]? = some sweep)
    (hlooked : hash ∈ sweep.looked) (hqueues : w.queues e = some (hashes, dueAt))
    (hmem : hash ∈ hashes) : sweep.now ≤ dueAt := by
  cases e with
  | queue i =>
      obtain ⟨job, hjob, hstage⟩ := Option.bind_eq_some_iff.mp hqueues
      split at hstage
      · next hashes' dueAt' hdiscarding =>
          obtain ⟨rfl, rfl⟩ := Prod.mk.inj (Option.some.inj hstage)
          exact (hleak.queues hjob hdiscarding hash hmem).2 hsweep hlooked
      · cases hstage
  | purge n =>
      obtain ⟨purge, hpurge, heq⟩ := Option.map_eq_some_iff.mp hqueues
      obtain ⟨rfl, rfl⟩ := Prod.mk.inj heq
      simp only [leavesNothing, hpurge, Option.all_some, List.all_eq_true, Bool.or_eq_true,
        decide_eq_true_eq] at hleaves
      exact (hleaves hash hmem sweep (List.mem_of_getElem? hsweep)).resolve_left (not_not.mpr hlooked)
  | _ => cases hqueues

theorem requeued_moves (h : Moves w e w') (hleaves : leavesNothing w e = true) (hleak : w.NoLeak)
    {k : Nat} (hrequeued : w.Requeued k hash) : w'.Requeued k hash := by
  obtain ⟨sweep, hsweep, hended | ⟨hlooked, hpast⟩⟩ := hrequeued
  · obtain ⟨sweep', hsweep', -, hkept, -⟩ := sweep_moves hash h hsweep
    exact ⟨sweep', hsweep', .inl (hkept hended)⟩
  · obtain ⟨sweep', hsweep', hnow, -, hstill⟩ := sweep_moves hash h hsweep
    refine ⟨sweep', hsweep', (hstill hlooked).symm.imp_right fun hlooked' => ⟨hlooked', ?_⟩⟩
    intro queued hqueued heq
    rw [hnow]
    rcases queue_moves h with ⟨-, hsame⟩ | ⟨hashes, dueAt, hqueues, -, hqueue⟩ | ⟨_, _, -, -, -, hdequeue⟩
    · exact hpast queued (hsame ▸ hqueued) heq
    · rw [hqueue] at hqueued
      rcases queueDeletions_before hqueued with ⟨hold, -⟩ | ⟨hmem, hle⟩
      · exact hpast queued hold heq
      · exact le_trans (queued_past hleaves hleak hsweep hlooked hqueues (heq ▸ hmem)) hle
    · rw [hdequeue] at hqueued
      exact hpast queued (Table.mem_delete.mp hqueued).1 heq

/-- What is queued after a sweep looked at it is queued again in its sense. -/
theorem requeued_of_queues (h : Moves w e w') (hleaves : leavesNothing w e = true)
    (hleak : w.NoLeak) {k : Nat} {sweep : Sweep} {hashes : List String} {dueAt : Int}
    (hsweep : w.sweeps[k]? = some sweep) (hlooked : hash ∈ sweep.looked)
    (hqueues : w.queues e = some (hashes, dueAt)) (hmem : hash ∈ hashes) : w'.Requeued k hash := by
  have hnow := queued_past hleaves hleak hsweep hlooked hqueues hmem
  rcases queue_moves h with ⟨hnone, -⟩ | ⟨hashes', dueAt', hqueues', hsweeps, hqueue⟩ | ⟨_, _, rfl, -⟩
  · rw [hnone] at hqueues
    cases hqueues
  · rw [hqueues] at hqueues'
    obtain ⟨rfl, rfl⟩ := Prod.mk.inj (Option.some.inj hqueues')
    refine ⟨sweep, hsweeps ▸ hsweep, .inr ⟨hlooked, fun queued hqueued heq => ?_⟩⟩
    rw [hqueue] at hqueued
    rcases queueDeletions_before hqueued with ⟨-, hnot⟩ | ⟨-, hle⟩
    · exact absurd (heq ▸ hmem) hnot
    · exact le_trans hnow hle
  · cases hqueues

end Steps

/-! ## Whole runs -/

section Runs

variable {grace : Nat} {clock : Int} {events : List Event} {w : World}

theorem noLeak_of_run (hrun : Run (StepWhen leavesNothing) (World.init grace clock) events w) :
    w.Ok ∧ w.NoLeak :=
  hrun.invariant (P := fun _ => True) (I := fun w => w.Ok ∧ w.NoLeak)
    ⟨ok_init grace clock, noLeak_init grace clock⟩
    (fun _ h hstep =>
      have hm := exec_moves hstep.2
      ⟨ok_moves h.1 hm, noLeak_moves h.1 hm hstep.1 h.2⟩)
    (by simp)

/-- An artifact queued again after a sweep looked at it stays so until the sweep ends. -/
theorem requeued_of_run {w' : World} {events' : List Event} {k : Nat} {hash : String}
    (hrun : Run (StepWhen leavesNothing) w events' w') (hok : w.Ok) (hleak : w.NoLeak)
    (hrequeued : w.Requeued k hash) : w'.Requeued k hash := by
  have hinv := hrun.invariant (P := fun _ => True)
    (I := fun w => w.Ok ∧ w.NoLeak ∧ w.Requeued k hash) ⟨hok, hleak, hrequeued⟩ ?_ (by simp)
  · exact hinv.2.2
  · rintro e w w' - ⟨hok, hleak, hrequeued⟩ ⟨hleaves, hstep⟩
    have hm := exec_moves hstep
    exact ⟨ok_moves hok hm, noLeak_moves hok hm hleaves hleak,
      requeued_moves hm hleaves hleak hrequeued⟩

/-- In every run whose steps leave nothing behind, whenever no job is at work all of storage is named
or queued; and what is queued again after a sweep looked at it, the sweep's dequeue leaves on the
queue. -/
theorem nothing_left_behind
    (hrun : Run (StepWhen leavesNothing) (World.init grace clock) events w) :
    ((∀ job ∈ w.jobs, job.stage = .ended) → ∀ hash ∈ w.storage,
      (∃ repo, (repo, hash) ∈ w.db.artifactRefs) ∨ ∃ queued ∈ w.db.deletions, queued.hash = hash) ∧
    ∀ {e : Event} {again later swept : World} {events' : List Event} {k : Nat} {sweep : Sweep}
      {hashes : List String} {dueAt : Int} {hash : String},
      w.sweeps[k]? = some sweep → hash ∈ sweep.looked →
      w.queues e = some (hashes, dueAt) → hash ∈ hashes → StepWhen leavesNothing w e again →
      Run (StepWhen leavesNothing) again events' later → Step later (.dequeue k) swept →
      ∀ queued ∈ later.db.deletions, queued.hash = hash → queued ∈ swept.db.deletions := by
  obtain ⟨hok, hleak⟩ := noLeak_of_run hrun
  constructor
  · intro hended hash hstored
    rcases hleak.owned hash hstored with (hrefers | ⟨queued, hqueued, hhash, -⟩) | ⟨i, job, hjob, haccounts⟩
    · exact .inl hrefers
    · exact .inr ⟨queued, hqueued, hhash⟩
    · have hstage := haccounts.2
      rw [hended job (List.mem_of_getElem? hjob)] at hstage
      cases hstage
  · intro e again later swept events' k sweep hashes dueAt hash hsweep hlooked hqueues hmem hagain
      hlater hswept queued hqueued heq
    have hm := exec_moves hagain.2
    have hrequeued := requeued_of_queues hm hagain.1 hleak hsweep hlooked hqueues hmem
    obtain ⟨sweep', hsweep', hpast⟩ := requeued_of_run hlater (ok_moves hok hm)
      (noLeak_moves hok hm hagain.1 hleak) hrequeued
    have hdequeue : Moves later (.dequeue k) swept := exec_moves hswept
    cases hdequeue with
    | dequeue hsame hended =>
        obtain rfl := Option.some.inj (hsweep'.symm.trans hsame)
        rcases hpast with hover | ⟨-, hpast⟩
        · rw [hover] at hended
          cases hended
        · refine Table.mem_delete.mpr ⟨hqueued, ?_⟩
          have hle := hpast queued hqueued heq
          simp only [Bool.and_eq_false_iff, decide_eq_false_iff_not]
          exact .inr (by omega)

/-- A Head stores an artifact and fails, and its artifact is queued. -/
def failedHeadEvents : List Event :=
  [admitEvent, claimEvent "head-0-1"] ++ pinEvents 0 storedArtifact ++
    [.store 0 storedArtifact, .job 0 .settle, .job 0 .discard, .queue 0,
      .control (.release (takeoverClaim "1/head-0-1" 1)), .release 0,
      .pins (.drain 0 storedArtifact), .pins (.unpin 0), .tick 1, .sweep]

/-- A sweep deletes it, and before the sweep's dequeue the next Head stores it again and fails. -/
def failedAgainEvents : List Event :=
  [.mark 0 storedArtifact, .check storedArtifact, .remove storedArtifact, .done storedArtifact,
    claimEvent "head-0-2"] ++ pinEvents 1 storedArtifact ++
    [.store 1 storedArtifact, .job 1 .settle, .job 1 .discard]

theorem failed_heads_queued : ∃ events w again later swept,
    Run (StepWhen leavesNothing) (World.init 0 0) events w ∧
    StepWhen leavesNothing w (.queue 1) again ∧
    Run (StepWhen leavesNothing) again [.collect 0 storedArtifact] later ∧
    Step later (.dequeue 0) swept ∧ storedArtifact ∈ later.storage ∧
    (∃ queued ∈ later.db.deletions, queued.hash = storedArtifact) ∧
    ⟨storedArtifact, 1⟩ ∈ swept.db.deletions := by
  let failed := (World.init 0 0).runWhen leavesNothing failedHeadEvents
  have hfailed := run_runWhen leavesNothing (World.init 0 0) failedHeadEvents (by decide)
  have hdue : dueDeletions 1 1000 failed.db = [storedArtifact] := by
    have hqueued : failed.db.deletions = [⟨storedArtifact, 0⟩] := by decide
    simp [dueDeletions, hqueued]
  have hsweep : failed.sweeps[0]? = some ⟨1, false, [], [], [], false, false⟩ := by decide
  have hread := due_step (p := leavesNothing) rfl hsweep rfl hdue
  let reading := failed.setSweep 0 ⟨1, true, [storedArtifact], [], [], false, false⟩
  have hrun := (hfailed.snoc hread).append
    (run_runWhen leavesNothing reading failedAgainEvents (by decide))
  let w := reading.runWhen leavesNothing failedAgainEvents
  have hagain := step_runWhen leavesNothing w (.queue 1) (by decide)
  have hlater := run_runWhen leavesNothing (w.runWhen leavesNothing [.queue 1])
    [.collect 0 storedArtifact] (by decide)
  let later := (w.runWhen leavesNothing [.queue 1]).runWhen leavesNothing [.collect 0 storedArtifact]
  have hswept := step_runWhen leavesNothing later (.dequeue 0) (by decide)
  have hlooked : w.sweeps[0]? = some ⟨1, true, [], [storedArtifact], [], false, false⟩ := by decide
  have hqueues : w.queues (.queue 1) = some ([storedArtifact], 1) := by decide
  refine ⟨_, w, _, later, _, hrun, hagain, hlater, hswept.2, by decide, ?_, ?_⟩
  · have hsettled := (nothing_left_behind ((hrun.snoc hagain).append hlater)).1 (by decide)
      storedArtifact (by decide)
    rcases hsettled with ⟨repo, hrepo⟩ | hqueued
    · have hnone : later.db.artifactRefs = [] := by decide
      rw [hnone] at hrepo
      cases hrepo
    · exact hqueued
  · exact (nothing_left_behind hrun).2 hlooked List.mem_cons_self hqueues List.mem_cons_self hagain
      hlater hswept.2 _ (by decide) rfl

/-- A Head fails and its pins are read and queued; then the tags publish that it dropped pins and
stores an artifact. -/
def lateEvents : List Event :=
  [admitEvent, claimEvent "head-0-1", .job 0 .settle, .job 0 .discard, .queue 0] ++
    pinEvents 0 storedArtifact ++ [.store 0 storedArtifact]

theorem late_store_left_behind : ∃ events w,
    Run Step (World.init 0 0) events w ∧ (∀ job ∈ w.jobs, job.stage = .ended) ∧
      ∃ hash ∈ w.storage, (∀ repo, (repo, hash) ∉ w.db.artifactRefs) ∧
        ∀ queued ∈ w.db.deletions, queued.hash ≠ hash := by
  have hrun := run_runWhen (fun _ _ => true) (World.init 0 0) lateEvents (by decide)
  refine ⟨_, _, run_step hrun, by decide, storedArtifact, by decide, ?_, by decide⟩
  have hnone : ((World.init 0 0).runWhen (fun _ _ => true) lateEvents).db.artifactRefs = [] := by
    decide
  simp [hnone]

end Runs

end Ripclone.Server.Lifecycle
