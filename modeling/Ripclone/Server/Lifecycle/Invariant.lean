import Ripclone.Server.Lifecycle.Moves

/-!
# What the parties always agree on

The invariant that every claim about artifacts rests on: pins and deletions are apart, what a job has
stored it still pins, every deletion in flight has the guard of its artifact, and the database is as
the control store keeps it.
-/

namespace Ripclone.Server.Lifecycle

open Ripclone.Library Ripclone.Control

structure World.Ok (w : World) : Prop where
  pins : w.pins.Ok
  keys : w.db.KeysUnique
  owners : (grantedOwners w.control.history).Nodup
  sets : w.pins.sets.length = w.jobs.length
  granted : ∀ {i : Nat} {job : Job} {claim : Claim}, w.jobs[i]? = some job →
    job.work = .build claim → .granted claim ∈ w.control.history
  /-- A job that has not ended has its pins. -/
  alive : ∀ {i : Nat} {job : Job}, w.jobs[i]? = some job → job.stage ≠ .ended → w.alive i = true
  /-- A job that has its pins has pinned what it began to store. -/
  held : ∀ {i : Nat} {job : Job} {hash : String}, w.jobs[i]? = some job → w.alive i = true →
    hash ∈ job.started → hash ∈ w.held i
  started : ∀ {i : Nat} {job : Job} {hash : String}, w.jobs[i]? = some job →
    hash ∈ job.relied → hash ∈ job.started
  fits : ∀ {i : Nat} {job : Job} {write : Write}, w.jobs[i]? = some job → write ∈ job.writes →
    World.fits job write.plan = true
  /-- A deletion in flight has the guard of its artifact. -/
  guards : w.flights.map Flight.hash = w.pins.guards
  clock : ∀ {k : Nat} {sweep : Sweep}, w.sweeps[k]? = some sweep → sweep.now ≤ w.clock

/-! ## Jobs -/

/-- What a step may do to a job. -/
structure JobStep (w w' : World) (i : Nat) (job job' : Job) : Prop where
  work : job'.work = job.work
  stage : job'.stage ≠ .ended → job.stage ≠ .ended ∨ w.alive i = true
  started : ∀ hash ∈ job'.started, hash ∈ job.started ∨ hash ∈ w.held i
  startedKept : ∀ hash ∈ job.started, hash ∈ job'.started
  relied : ∀ hash ∈ job'.relied, hash ∈ job.relied ∨ hash ∈ job.started ∧ hash ∈ w'.storage
  reliedKept : ∀ hash ∈ job.relied, hash ∈ job'.relied
  rows : ∀ hash ∈ job'.rows, hash ∈ job.rows ∨ ∃ claim key, job.work = .build claim ∧
    key.1 = claim.repo ∧ hash ∈ readyArtifacts key w.db
  rowsKept : ∀ hash ∈ job.rows, hash ∈ job'.rows
  refsKept : ∀ hash ∈ job.refs, hash ∈ job'.refs
  writes : ∀ write ∈ job'.writes, (∃ old ∈ job.writes, old.plan = write.plan) ∨
    World.fits job write.plan = true

section Jobs

variable {w w' : World} {i : Nat} {job job' : Job} {e : Event}

theorem JobStep.refl : JobStep w w' i job job where
  work := rfl
  stage := .inl
  started := fun _ => .inl
  startedKept := fun _ => id
  relied := fun _ => .inl
  reliedKept := fun _ => id
  rows := fun _ => .inl
  rowsKept := fun _ => id
  refsKept := fun _ => id
  writes := fun write h => .inl ⟨write, h, rfl⟩

/-- A step that changes only the stage of a job that has not ended, and its writes. -/
theorem JobStep.settled {writes : List Write} {stage : Stage}
    (hstage : stage ≠ .ended → job.stage ≠ .ended ∨ w.alive i = true)
    (hwrites : ∀ write ∈ writes, ∃ old ∈ job.writes, old.plan = write.plan) :
    JobStep w w' i job { job with writes := writes, stage := stage } :=
  { (JobStep.refl : JobStep w w' i job job) with
    stage := hstage
    writes := fun write h => .inl (hwrites write h) }

/-- A step that adds to what the job relies on. -/
theorem JobStep.stored {hash : String} (hstarted : hash ∈ job.started)
    (hstored : hash ∈ w'.storage) :
    JobStep w w' i job { job with relied := hash :: job.relied } := by
  refine { (JobStep.refl : JobStep w w' i job job) with relied := ?_, reliedKept := ?_ }
  · intro other hmem
    rcases List.mem_cons.mp hmem with rfl | hold
    · exact .inr ⟨hstarted, hstored⟩
    · exact .inl hold
  · exact fun other hmem => List.mem_cons_of_mem _ hmem

theorem JobStep.sized {n : Nat} {write : Write} {sized : List String}
    (hwrite : job.writes[n]? = some write) :
    JobStep w w' i job { job with writes := job.writes.set n { write with sized := sized } } := by
  refine { (JobStep.refl : JobStep w w' i job job) with writes := ?_ }
  intro other hmem
  rcases List.mem_or_eq_of_mem_set hmem with hold | rfl
  · exact .inl ⟨other, hold, rfl⟩
  · exact .inl ⟨write, List.mem_of_getElem? hwrite, rfl⟩

theorem jobExec_jobStep {e : JobEvent} (hstorage : w'.storage = w.storage)
    (h : w.jobExec i job e = some job') : JobStep w w' i job job' := by
  cases e with
  -- Each step of a job changes one of its lists, and only the read and the start add to what it may name.
  | read key =>
      simp only [World.jobExec] at h
      split at h
      · next claim hwork =>
          split at h
          · next hkey =>
              obtain rfl := Option.some.inj h
              refine { (JobStep.refl : JobStep w w' i job job) with rows := ?_, rowsKept := ?_ }
              · intro hash hmem
                rcases List.mem_append.mp hmem with hold | hnew
                · exact .inl hold
                · exact .inr ⟨claim, key, hwork, hkey.2, hnew⟩
              · exact fun hash hmem => List.mem_append_left _ hmem
          · cases h
      · cases h
  | readRefs =>
      simp only [World.jobExec] at h
      split at h
      · obtain rfl := Option.some.inj h
        exact { (JobStep.refl : JobStep w w' i job job) with
          refsKept := fun hash hmem => List.mem_append_left _ hmem }
      · cases h
  | start hash =>
      simp only [World.jobExec] at h
      split at h
      · next hheld =>
          obtain rfl := Option.some.inj h
          refine { (JobStep.refl : JobStep w w' i job job) with started := ?_, startedKept := ?_ }
          · intro other hmem
            rcases List.mem_cons.mp hmem with rfl | hold
            · exact .inr hheld
            · exact .inl hold
          · exact fun other hmem => List.mem_cons_of_mem _ hmem
      · cases h
  | found hash =>
      simp only [World.jobExec] at h
      split at h
      · next hfound => exact Option.some.inj h ▸ .stored hfound.1 (hstorage ▸ hfound.2)
      · cases h
  | unsized plan =>
      simp only [World.jobExec] at h
      split at h
      · next hfits =>
          obtain rfl := Option.some.inj h
          refine { (JobStep.refl : JobStep w w' i job job) with writes := ?_ }
          intro write hmem
          rcases List.mem_append.mp hmem with hold | hnew
          · exact .inl ⟨write, hold, rfl⟩
          · obtain rfl := List.mem_singleton.mp hnew
            exact .inr hfits.2
      · cases h
  | settle =>
      simp only [World.jobExec] at h
      split at h
      · next halive =>
          obtain rfl := Option.some.inj h
          exact .settled (fun _ => .inr halive) (by simp)
      · cases h
  | discard =>
      simp only [World.jobExec] at h
      split at h
      · next keep hstage =>
          obtain rfl := Option.some.inj h
          exact .settled (fun _ => .inl (by simp [hstage])) fun write h => ⟨write, h, rfl⟩
      · cases h
  | abandon =>
      simp only [World.jobExec] at h
      split at h
      · split at h
        · cases h
        · obtain rfl := Option.some.inj h
          exact .settled (fun hne => absurd rfl hne) (by simp)
      · cases h

theorem wroteRefs_jobStep {n : Nat} {written : Bool} {row : RepoRefs}
    (hrunning : job.stage = .running) : JobStep w w' i job (job.wroteRefs n written row) := by
  unfold Job.wroteRefs
  split
  · exact .settled (fun _ => .inl (by simp [hrunning]))
      fun write h => ⟨write, List.mem_of_mem_eraseIdx h, rfl⟩
  · exact .settled (fun _ => .inl (by simp [hrunning])) (by simp)

/-- A job after a step was there before, or is new. -/
theorem job_moves (hok : w.Ok) (h : Moves w e w') (hjob' : w'.jobs[i]? = some job') :
    (∃ job, w.jobs[i]? = some job ∧ JobStep w w' i job job') ∨
      w'.alive i = true ∧ ∃ work, job' = .new work ∧
        ∀ claim, work = .build claim → .granted claim ∈ w'.control.history := by
  have hset : ∀ {j : Nat} {old new : Job}, w.jobs[j]? = some old → w'.jobs = w.jobs.set j new →
      JobStep w w' j old new → ∃ job, w.jobs[i]? = some job ∧ JobStep w w' i job job' := by
    intro j old new hold hjobs hstep
    rw [hjobs] at hjob'
    rcases Table.getElem?_set_cases hjob' with ⟨rfl, rfl⟩ | ⟨-, hother⟩
    · exact ⟨old, hold, hstep⟩
    · exact ⟨job', hother, .refl⟩
  have hnew : ∀ {work : Work}, w'.jobs = w.jobs ++ [.new work] →
      w'.pins.sets = w.pins.sets ++ [⟨[], .idle⟩] →
      (∀ claim, work = .build claim → .granted claim ∈ w'.control.history) →
      (∃ job, w.jobs[i]? = some job ∧ JobStep w w' i job job') ∨
        w'.alive i = true ∧ ∃ work, job' = .new work ∧
          ∀ claim, work = .build claim → .granted claim ∈ w'.control.history := by
    intro work hjobs hsets hgranted
    rw [hjobs] at hjob'
    rcases Table.getElem?_concat_cases hjob' with ⟨rfl, rfl⟩ | hold
    · refine .inr ⟨?_, work, rfl, hgranted⟩
      rw [World.alive, hsets, ← hok.sets, List.getElem?_concat_length]
      rfl
    · exact .inl ⟨job', hold, .refl⟩
  cases h with
  | job hjob hexec => exact .inl (hset hjob rfl (jobExec_jobStep rfl hexec))
  | store hjob hstarted hstores => exact .inl (hset hjob rfl (.stored hstarted List.mem_cons_self))
  | sizes hjob hwrite hsizes => exact .inl (hset hjob rfl (.sized hwrite))
  | publish hjob hwrite hrunning hwork hplan =>
      exact .inl (hset hjob rfl (.settled (fun _ => .inl (by simp [hrunning])) (by simp)))
  | setRefs hjob hwrite hrunning hplan =>
      exact .inl (hset hjob rfl (wroteRefs_jobStep hrunning))
  | queue hjob hstage =>
      exact .inl (hset hjob rfl (.settled (fun hne => absurd rfl hne)
        fun write h => ⟨write, h, rfl⟩))
  | claimed hfresh hclaim =>
      refine hnew rfl rfl fun granted hwork => ?_
      obtain rfl := Work.build.inj hwork
      refine List.mem_append_left _ ?_
      simp only [events]
      rw [show w.control.db = w.db from rfl, hclaim]
      exact List.mem_singleton_self _
  | refs => exact hnew rfl rfl (by simp)
  | _ => exact .inl ⟨job', hjob', .refl⟩

end Jobs

/-! ## The database -/

section Database

variable {w w' : World} {e : Event} {op : Op} {db : Db}

/-- Only a claim grants one. -/
theorem grants_of_owner_none (h : op.owner? = none) : grantedOwners (events op db) = [] := by
  cases op with
  | claim store now owner pool lease seen => cases h
  | admitBuild repo commit refName now =>
      simp only [events, grantedOwners]
      split <;> rfl
  | retry repo commit =>
      simp only [events, grantedOwners, List.filterMap_map, List.map_eq_nil_iff]
      exact List.filterMap_eq_nil_iff.mpr fun _ _ => rfl
  | _ => rfl

theorem grantedOwners_append (es es' : List Control.Event) :
    grantedOwners (es ++ es') = grantedOwners es ++ grantedOwners es' := by
  simp [grantedOwners]

theorem owner_of_claim {store : SqliteControlStore} {now : Int} {owner : String} {pool : Pool}
    {lease : Nat} {seen : Db} {claim : Claim}
    (h : (Control.claim store now owner pool lease seen db).2 = some claim) :
    claim.owner = leaseOwner store owner := by
  rcases claim_cases store now owner pool lease seen db with hc | hc | ⟨row, _, leaseUntil, _, hc⟩
  · simp [hc] at h
  · simp [hc] at h
  · obtain rfl : _ = claim := by simpa [hc] using h
    rfl

/-- A step issues one statement of the store, or none. -/
theorem control_moves (h : Moves w e w') :
    w'.control = w.control ∨ ∃ op, w'.control = w.control.after op ∧
      (grantedOwners (events op w.db) = [] ∨
        ∃ owner, grantedOwners (events op w.db) = [owner] ∧
          owner ∉ grantedOwners w.control.history) := by
  have hplain : ∀ op : Op, w'.control = w.control.after op → op.owner? = none →
      w'.control = w.control ∨ ∃ op, w'.control = w.control.after op ∧
        (grantedOwners (events op w.db) = [] ∨
          ∃ owner, grantedOwners (events op w.db) = [owner] ∧
            owner ∉ grantedOwners w.control.history) :=
    fun op hafter hop => .inr ⟨op, hafter, .inl (grants_of_owner_none hop)⟩
  cases h with
  | @control op h =>
      refine hplain op rfl ?_
      cases op <;> first | rfl | cases h
  | unclaimed hnone =>
      refine .inr ⟨_, rfl, .inl ?_⟩
      simp only [events, hnone]
      rfl
  | claimed hfresh hclaim =>
      refine .inr ⟨_, rfl, .inr ⟨_, ?_, hfresh⟩⟩
      simp only [events, hclaim]
      exact congrArg (fun owner => [owner]) (owner_of_claim hclaim)
  | sizes hjob hwrite hsizes => exact hplain _ rfl rfl
  | publish hjob hwrite hrunning hwork hplan => exact hplain _ rfl rfl
  | setRefs hjob hwrite hrunning hplan => exact hplain _ rfl rfl
  | queue hjob hstage => exact hplain _ rfl rfl
  | purge hpurge => exact hplain _ rfl rfl
  | dequeue hsweep hended => exact hplain _ rfl rfl
  | _ => exact .inl rfl

theorem keys_moves (h : Moves w e w') (hkeys : w.db.KeysUnique) : w'.db.KeysUnique := by
  rcases control_moves h with hsame | ⟨op, hafter, -⟩
  · rwa [World.db, hsame]
  · rw [World.db, hafter]
    exact keysUnique_exec op hkeys

theorem history_moves (h : Moves w e w') : w.control.history <:+ w'.control.history := by
  rcases control_moves h with hsame | ⟨op, hafter, -⟩
  · exact hsame ▸ List.suffix_rfl
  · rw [hafter]
    exact List.suffix_append _ _

theorem owners_moves (h : Moves w e w') (howners : (grantedOwners w.control.history).Nodup) :
    (grantedOwners w'.control.history).Nodup := by
  rcases control_moves h with hsame | ⟨op, hafter, hgrants⟩
  · rwa [hsame]
  · rw [hafter]
    show (grantedOwners (events op w.db ++ w.control.history)).Nodup
    rw [grantedOwners_append]
    rcases hgrants with hnone | ⟨owner, hone, hfresh⟩
    · rwa [hnone]
    · rw [hone]
      exact List.nodup_cons.mpr ⟨hfresh, howners⟩

end Database

/-! ## Pins and deletions in flight -/

section Pins

variable {w w' : World} {e : Event} {i : Nat} {hash : String} {f : Flight}

theorem mem_of_flight (h : w.flight hash = some f) : f ∈ w.flights ∧ f.hash = hash :=
  ⟨List.mem_of_find?_eq_some h, by simpa using List.find?_some h⟩

theorem World.Ok.guarded (h : w.Ok) (hf : f ∈ w.flights) : f.hash ∈ w.pins.guards :=
  h.guards ▸ List.mem_map_of_mem hf

/-- What a set holds has no guard. -/
theorem World.Ok.not_guarded (h : w.Ok) (hheld : hash ∈ w.held i) : hash ∉ w.pins.guards := by
  intro hguard
  unfold World.held at hheld
  cases hset : w.pins.sets[i]? with
  | none => simp [hset] at hheld
  | some set =>
      have hholds : set.holds hash = true := by
        simp only [hset, Option.map_some, Option.getD_some] at hheld
        simp [Pins.PinSet.holds, hheld]
      obtain ⟨n, hn⟩ := h.pins.pinned_of_holds (List.mem_of_getElem? hset) hholds
      rw [h.pins.apart ((h.pins.deleting hash).mpr hguard)] at hn
      cases hn

/-- A deletion in flight is of an artifact that no job with pins relies on. -/
theorem World.Ok.not_relied (h : w.Ok) {job : Job} (hjob : w.jobs[i]? = some job)
    (halive : w.alive i = true) (hrelied : hash ∈ job.relied) (hf : f ∈ w.flights) :
    f.hash ≠ hash := by
  intro heq
  have hheld := h.held hjob halive (h.started hjob hrelied)
  exact h.not_guarded hheld (heq ▸ h.guarded hf)

theorem exec_endDelete (hguard : hash ∈ w.pins.guards) :
    w.pins.exec (.endDelete hash) = some (w.endFlight hash).pins := by
  simp only [Pins.System.exec, hguard, if_true]
  rfl

/-- A step takes one step of the pins, or none. -/
theorem pins_moves (hok : w.Ok) (h : Moves w e w') :
    w'.pins = w.pins ∨ ∃ step, w.pins.exec step = some w'.pins ∧
      ∀ i, step = .dropSet i → e = .release i := by
  have hends : ∀ {hash : String} {f : Flight}, w.flight hash = some f →
      w'.pins = (w.endFlight hash).pins →
      w'.pins = w.pins ∨ ∃ step, w.pins.exec step = some w'.pins ∧
        ∀ i, step = .dropSet i → e = .release i := by
    intro hash f hflight hpins
    obtain ⟨hmem, rfl⟩ := mem_of_flight hflight
    exact .inr ⟨.endDelete f.hash, hpins ▸ exec_endDelete (hok.guarded hmem), by simp⟩
  cases h with
  | claimed hfresh hclaim => exact .inr ⟨.newSet, rfl, by simp⟩
  | refs => exact .inr ⟨.newSet, rfl, by simp⟩
  | @pins step pins he hexec =>
      refine .inr ⟨step, hexec, ?_⟩
      rintro i rfl
      cases he
  | @release j job pins hjob hended hexec =>
      refine .inr ⟨.dropSet j, hexec, fun i heq => ?_⟩
      obtain rfl := Pins.Event.dropSet.inj heq
      rfl
  | @mark k hash sweep state hsweep hdue hbegin =>
      refine .inr ⟨.beginDelete hash, ?_, by simp⟩
      simp only [Pins.System.exec, hbegin]
  | @keeps hash f sweep hflight hsweep hmarked hdeletable =>
      obtain ⟨-, rfl⟩ := mem_of_flight hflight
      exact hends hflight rfl
  | @done hash f sweep hflight hsweep hremoved =>
      obtain ⟨-, rfl⟩ := mem_of_flight hflight
      exact hends hflight rfl
  | fail hflight hsweep => exact hends hflight rfl
  | drop hflight => exact hends hflight rfl
  | _ => exact .inl rfl

/-- A job that has its pins had them before, with all it held; it has them until they are
dropped. -/
theorem alive_moves (hok : w.Ok) (h : Moves w e w') {job : Job} (hjob : w.jobs[i]? = some job) :
    (w'.alive i = true → w.alive i = true ∧ ∀ hash ∈ w.held i, hash ∈ w'.held i) ∧
    (e ≠ .release i → w.alive i = true → w'.alive i = true) := by
  rcases pins_moves hok h with hsame | ⟨step, hexec, hdrop⟩
  · unfold World.alive World.held
    rw [hsame]
    exact ⟨fun halive => ⟨halive, fun _ => id⟩, fun _ => id⟩
  · have hlt : i < w.pins.sets.length := by
      rw [hok.sets]
      exact (List.getElem?_eq_some_iff.mp hjob).1
    have hset : w.pins.sets[i]? = some w.pins.sets[i] := List.getElem?_eq_getElem hlt
    obtain ⟨set', hset', hback, hforth⟩ := Pins.alive_exec hexec hset
    simp only [World.alive, World.held, hset, hset', Option.any_some, Option.map_some,
      Option.getD_some]
    exact ⟨hback, fun he => hforth fun hstep => he (hdrop i hstep)⟩

theorem sets_moves (hok : w.Ok) (h : Moves w e w') : w'.pins.sets.length = w'.jobs.length := by
  have hsets := hok.sets
  cases h with
  | claimed hfresh hclaim =>
      simpa [World.newJob, World.after] using hsets
  | refs => simpa [World.newJob] using hsets
  | @pins step pins he hexec =>
      have hlength : pins.sets.length = w.pins.sets.length := by
        cases step <;> first | exact (Pins.onSet_frame hexec).2 | cases he
      exact hlength.trans hsets
  | release hjob hended hexec => exact (Pins.onSet_frame hexec).2.trans hsets
  | job hjob hexec => simpa [World.setJob] using hsets
  | store hjob hstarted hstores => simpa [World.setJob] using hsets
  | sizes hjob hwrite hsizes => simpa [World.setJob, World.after] using hsets
  | publish hjob hwrite hrunning hwork hplan => simpa [World.setJob, World.after] using hsets
  | setRefs hjob hwrite hrunning hplan => simpa [World.setJob, World.after] using hsets
  | queue hjob hstage => simpa [World.setJob, World.after] using hsets
  | _ => exact hsets

/-- The guards that are left when a deletion ends are those of the deletions that are left. -/
theorem guards_endFlight (hok : w.Ok) (hash : String) :
    (w.endFlight hash).flights.map Flight.hash = (w.endFlight hash).pins.guards := by
  show (w.flights.filter fun f => f.hash ≠ hash).map Flight.hash = w.pins.guards.erase hash
  rw [hok.pins.guards.erase_eq_filter, ← hok.guards, List.filter_map]
  congr 1
  refine List.filter_congr fun f _ => ?_
  simp [bne, BEq.beq]

theorem guards_setFlight (hok : w.Ok) (hash : String) (stage : FlightStage) :
    (w.setFlight hash stage).flights.map Flight.hash = w.pins.guards := by
  rw [← hok.guards, World.setFlight, List.map_map]
  refine List.map_congr_left fun f _ => ?_
  simp only [Function.comp_apply]
  split <;> rfl

theorem guards_moves (hok : w.Ok) (h : Moves w e w') :
    w'.flights.map Flight.hash = w'.pins.guards := by
  have hguards := hok.guards
  cases h with
  | @pins step pins he hexec =>
      have hsame : pins.guards = w.pins.guards := by
        cases step <;> first | exact (Pins.onSet_frame hexec).1 | cases he
      exact hguards.trans hsame.symm
  | release hjob hended hexec => exact hguards.trans (Pins.onSet_frame hexec).1.symm
  | mark hsweep hdue hbegin => exact congrArg _ hguards
  | @deletes hash f sweep hflight hsweep hmarked hdeletable => exact guards_setFlight hok hash _
  | @keeps hash f sweep hflight hsweep hmarked hdeletable => exact guards_endFlight hok f.hash
  | @remove hash f hflight hmarked => exact guards_setFlight hok hash _
  | @done hash f sweep hflight hsweep hremoved => exact guards_endFlight hok f.hash
  | @fail hash f sweep hflight hsweep => exact guards_endFlight hok hash
  | @drop hash f hflight => exact guards_endFlight hok hash
  | _ => exact hguards

theorem pinsOk_moves (hok : w.Ok) (h : Moves w e w') : w'.pins.Ok := by
  rcases pins_moves hok h with hsame | ⟨step, hexec, -⟩
  · exact hsame ▸ hok.pins
  · exact Pins.ok_exec hok.pins hexec

end Pins

/-! ## Every step -/

section Steps

variable {w w' : World} {e : Event}

/-- A sweep's `now` is no later than the clock. -/
theorem clock_moves (hok : w.Ok) (h : Moves w e w') {k : Nat} {sweep : Sweep}
    (hsweep : w'.sweeps[k]? = some sweep) : sweep.now ≤ w'.clock := by
  have hset : ∀ {j : Nat} {old new : Sweep}, w.sweeps[j]? = some old →
      w'.sweeps = w.sweeps.set j new → new.now = old.now → w'.clock = w.clock →
      sweep.now ≤ w'.clock := by
    intro j old new hold hsweeps hnow hclock
    rw [hsweeps] at hsweep
    rw [hclock]
    rcases Table.getElem?_set_cases hsweep with ⟨-, rfl⟩ | ⟨-, hother⟩
    · exact hnow ▸ hok.clock hold
    · exact hok.clock hother
  cases h with
  | @tick seconds =>
      have hle := hok.clock hsweep
      show sweep.now ≤ w.clock + seconds
      omega
  | sweep =>
      rcases Table.getElem?_concat_cases hsweep with ⟨-, rfl⟩ | hold
      · exact le_rfl
      · exact hok.clock hold
  | due hold hended => exact hset hold rfl rfl rfl
  | skip hold => exact hset hold rfl rfl rfl
  | mark hold hdue hbegin => exact hset hold rfl rfl rfl
  | keeps hflight hold hmarked hdeletable => exact hset hold rfl rfl rfl
  | done hflight hold hremoved => exact hset hold rfl rfl rfl
  | collect hold hdone => exact hset hold rfl rfl rfl
  | fail hflight hold => exact hset hold rfl rfl rfl
  | dequeue hold hended => exact hset hold rfl rfl rfl
  | _ => exact hok.clock hsweep

theorem fits_mono {job job' : Job} (plan : Plan) (hwork : job'.work = job.work)
    (hrelied : ∀ hash ∈ job.relied, hash ∈ job'.relied) (hrows : ∀ hash ∈ job.rows, hash ∈ job'.rows)
    (hrefs : ∀ hash ∈ job.refs, hash ∈ job'.refs) (h : World.fits job plan = true) :
    World.fits job' plan = true := by
  cases plan with
  | output output =>
      simp only [World.fits, hwork] at h ⊢
      split
      · next claim hbuild =>
          simp only [hbuild, List.all_eq_true, decide_eq_true_eq] at h ⊢
          intro hash hmem
          exact List.mem_append.mpr ((List.mem_append.mp (h hash hmem)).imp (hrelied _) (hrows _))
      · next repo hbuild => simp [hbuild] at h
  | refs row =>
      simp only [World.fits, List.all_eq_true, decide_eq_true_eq] at h ⊢
      intro hash hmem
      exact List.mem_append.mpr ((List.mem_append.mp (h hash hmem)).imp (hrelied _) (hrefs _))

theorem ok_init (grace : Nat) (clock : Int) : (World.init grace clock).Ok where
  pins := Pins.ok_init
  keys := keysUnique_init
  owners := List.nodup_nil
  sets := rfl
  granted := by simp [World.init]
  alive := by simp [World.init]
  held := by simp [World.init]
  started := by simp [World.init]
  fits := by simp [World.init]
  guards := rfl
  clock := by simp [World.init]

theorem ok_moves (hok : w.Ok) (h : Moves w e w') : w'.Ok where
  pins := pinsOk_moves hok h
  keys := keys_moves h hok.keys
  owners := owners_moves h hok.owners
  sets := sets_moves hok h
  granted := by
    intro i job' claim hjob' hwork
    rcases job_moves hok h hjob' with ⟨job, hjob, hstep⟩ | ⟨-, work, rfl, hgranted⟩
    · exact (history_moves h).subset (hok.granted hjob (hstep.work ▸ hwork))
    · exact hgranted claim hwork
  alive := by
    intro i job' hjob' hstage
    rcases job_moves hok h hjob' with ⟨job, hjob, hstep⟩ | ⟨hnew, work, rfl, -⟩
    · have hbefore : w.alive i = true := (hstep.stage hstage).elim (hok.alive hjob) id
      refine (alive_moves hok h hjob).2 ?_ hbefore
      rintro rfl
      cases h with
      | release hended hstage' hexec =>
          obtain rfl := Option.some.inj (hjob'.symm.trans hended)
          exact hstage hstage'
    · exact hnew
  held := by
    intro i job' hash hjob' halive hstarted
    rcases job_moves hok h hjob' with ⟨job, hjob, hstep⟩ | ⟨-, work, rfl, -⟩
    · obtain ⟨hbefore, hheld⟩ := (alive_moves hok h hjob).1 halive
      rcases hstep.started hash hstarted with hold | hnew
      · exact hheld hash (hok.held hjob hbefore hold)
      · exact hheld hash hnew
    · cases hstarted
  started := by
    intro i job' hash hjob' hrelied
    rcases job_moves hok h hjob' with ⟨job, hjob, hstep⟩ | ⟨-, work, rfl, -⟩
    · rcases hstep.relied hash hrelied with hold | ⟨hnew, -⟩
      · exact hstep.startedKept hash (hok.started hjob hold)
      · exact hstep.startedKept hash hnew
    · cases hrelied
  fits := by
    intro i job' write hjob' hwrite
    rcases job_moves hok h hjob' with ⟨job, hjob, hstep⟩ | ⟨-, work, rfl, -⟩
    · have hmono := fits_mono write.plan hstep.work hstep.reliedKept hstep.rowsKept
        hstep.refsKept
      rcases hstep.writes write hwrite with ⟨old, hold, hplan⟩ | hfits
      · exact hmono (hplan ▸ hok.fits hjob hold)
      · exact hmono hfits
    · cases hwrite
  guards := guards_moves hok h
  clock := clock_moves hok h

end Steps

end Ripclone.Server.Lifecycle
