import Ripclone.Server.Lifecycle

/-!
# What a step can do

`Moves` lists the steps of the system, each with the conditions under which it is taken and the state
it leads to. Invariants are proved over it and do not unfold `exec` again.
-/

namespace Ripclone.Server.Lifecycle

open Ripclone.Library Ripclone.Control

inductive Moves (w : World) : Event → World → Prop
  | tick {seconds : Nat} : Moves w (.tick seconds) { w with clock := w.clock + seconds }
  | control {op : Op} (hplain : plain op = true) : Moves w (.control op) (w.after op)
  | unclaimed {store now owner pool lease seen}
      (hnone : (Control.claim store now owner pool lease seen w.db).2 = none) :
      Moves w (.claim store now owner pool lease seen)
        (w.after (.claim store now owner pool lease seen))
  | claimed {store now owner pool lease seen} {claim : Claim}
      (hfresh : leaseOwner store owner ∉ grantedOwners w.control.history)
      (hclaim : (Control.claim store now owner pool lease seen w.db).2 = some claim) :
      Moves w (.claim store now owner pool lease seen)
        ((w.after (.claim store now owner pool lease seen)).newJob (.build claim))
  | refs {repo : String} : Moves w (.refs repo) (w.newJob (.refs repo))
  | job {i : Nat} {e : JobEvent} {job job' : Job} (hjob : w.jobs[i]? = some job)
      (hexec : w.jobExec i job e = some job') : Moves w (.job i e) (w.setJob i job')
  | pins {e : Pins.Event} {pins : Pins.System} (he : pinning e = true)
      (hexec : w.pins.exec e = some pins) : Moves w (.pins e) { w with pins := pins }
  | store {i : Nat} {hash : String} {job : Job} (hjob : w.jobs[i]? = some job)
      (hstarted : hash ∈ job.started) (hstores : job.stores = true) :
      Moves w (.store i hash)
        { w.setJob i { job with relied := hash :: job.relied } with storage := hash :: w.storage }
  | sizes {i n : Nat} {sizes : List (String × Nat)} {job : Job} {write : Write}
      (hjob : w.jobs[i]? = some job) (hwrite : job.writes[n]? = some write)
      (hsizes : ∀ size ∈ sizes, size.1 ∈ write.plan.artifacts) :
      Moves w (.sizes i n sizes)
        ((w.after (.recordSizes sizes)).setJob i
          { job with
            writes := job.writes.set n { write with sized := sizes.map Prod.fst ++ write.sized } })
  | publish {i n : Nat} {job : Job} {write : Write} {claim : Claim} {output : Output}
      (hjob : w.jobs[i]? = some job) (hwrite : job.writes[n]? = some write)
      (hrunning : job.stage = .running) (hwork : job.work = .build claim)
      (hplan : write.plan = .output output) :
      Moves w (.publish i n)
        { (w.after (.publish claim output)).setJob i
            { job with
              writes := []
              stage := .settled
                (if Control.applied claim output w.db then output.artifacts else []) } with
          storedRefs := World.recordStored claim.repo write.plan (Control.applied claim output w.db) ++
            w.storedRefs
          sizedRefs := World.recordSized claim.repo write (Control.applied claim output w.db) ++
            w.sizedRefs }
  | setRefs {i n : Nat} {job : Job} {write : Write} {row : RepoRefs}
      (hjob : w.jobs[i]? = some job) (hwrite : job.writes[n]? = some write)
      (hrunning : job.stage = .running) (hplan : write.plan = .refs row) :
      Moves w (.publish i n)
        { (w.after (.setRefs job.work.repo row)).setJob i
            (job.wroteRefs n (setRefs job.work.repo row w.db).2 row) with
          storedRefs := World.recordStored job.work.repo write.plan
            (setRefs job.work.repo row w.db).2 ++ w.storedRefs
          sizedRefs := World.recordSized job.work.repo write (setRefs job.work.repo row w.db).2 ++
            w.sizedRefs }
  | queue {i : Nat} {job : Job} {hashes : List String} {dueAt : Int}
      (hjob : w.jobs[i]? = some job) (hstage : job.stage = .discarding hashes dueAt) :
      Moves w (.queue i)
        ((w.after (.queueDeletions hashes dueAt)).setJob i { job with stage := .ended })
  | release {i : Nat} {job : Job} {pins : Pins.System} (hjob : w.jobs[i]? = some job)
      (hended : job.stage = .ended) (hexec : w.pins.exec (.dropSet i) = some pins) :
      Moves w (.release i) { w with pins := pins }
  | purgeBegin {repo : String} :
      Moves w (.purgeBegin repo)
        { w with
          purges := w.purges ++ [⟨repo, saturatingAdd w.clock (durationSecs w.grace)⟩] }
  | purge {n : Nat} {purge : Purge} (hpurge : w.purges[n]? = some purge) :
      Moves w (.purge n)
        { w.after (.purgeRepo purge.repo purge.dueAt) with
          purges := w.purges.eraseIdx n
          storedRefs := w.storedRefs.filter fun named => named.1 ≠ purge.repo
          sizedRefs := w.sizedRefs.filter fun named => named.1 ≠ purge.repo }
  | sweep :
      Moves w .sweep
        { w with sweeps := w.sweeps ++ [⟨w.clock, false, [], [], [], false, false⟩] }
  | due {k : Nat} {sweep : Sweep} (hsweep : w.sweeps[k]? = some sweep) (hended : sweep.ended = false) :
      Moves w (.due k)
        (w.setSweep k { sweep with read := true, due := dueDeletions sweep.now 1000 w.db })
  | skip {k : Nat} {hash : String} {sweep : Sweep} (hsweep : w.sweeps[k]? = some sweep) :
      Moves w (.mark k hash) (w.setSweep k { sweep with due := sweep.due.erase hash })
  | mark {k : Nat} {hash : String} {sweep : Sweep} {state : Pins.State}
      (hsweep : w.sweeps[k]? = some sweep) (hdue : hash ∈ sweep.due)
      (hbegin : w.pins.state.beginDelete hash = some state) :
      Moves w (.mark k hash)
        { w.setSweep k { sweep with due := sweep.due.erase hash } with
          pins := { w.pins with state := state, guards := hash :: w.pins.guards }
          flights := ⟨hash, k, .marked⟩ :: w.flights }
  | deletes {hash : String} {f : Flight} {sweep : Sweep} (hflight : w.flight hash = some f)
      (hsweep : w.sweeps[f.sweep]? = some sweep) (hmarked : f.stage = .marked)
      (hdeletable : deletable hash sweep.now w.db = true) :
      Moves w (.check hash) (w.setFlight hash .deleting)
  | keeps {hash : String} {f : Flight} {sweep : Sweep} (hflight : w.flight hash = some f)
      (hsweep : w.sweeps[f.sweep]? = some sweep) (hmarked : f.stage = .marked)
      (hdeletable : deletable hash sweep.now w.db = false) :
      Moves w (.check hash) (w.doneFlight f sweep)
  | remove {hash : String} {f : Flight} (hflight : w.flight hash = some f)
      (hmarked : f.stage ≠ .marked) :
      Moves w (.remove hash) ((w.setFlight hash .removed).removeStored hash)
  | done {hash : String} {f : Flight} {sweep : Sweep} (hflight : w.flight hash = some f)
      (hsweep : w.sweeps[f.sweep]? = some sweep) (hremoved : f.stage = .removed) :
      Moves w (.done hash) (w.doneFlight f sweep)
  | collect {k : Nat} {hash : String} {sweep : Sweep} (hsweep : w.sweeps[k]? = some sweep)
      (hdone : hash ∈ sweep.done) :
      Moves w (.collect k hash)
        (w.setSweep k
          { sweep with done := sweep.done.erase hash, settled := hash :: sweep.settled })
  | fail {hash : String} {f : Flight} {sweep : Sweep} (hflight : w.flight hash = some f)
      (hsweep : w.sweeps[f.sweep]? = some sweep) :
      Moves w (.fail hash) ((w.endFlight hash).setSweep f.sweep { sweep with failed := true })
  | drop {hash : String} {f : Flight} (hflight : w.flight hash = some f) :
      Moves w (.drop hash)
        { w.endFlight hash with
          late := if f.stage = .deleting then hash :: w.late else w.late }
  | dequeue {k : Nat} {sweep : Sweep} (hsweep : w.sweeps[k]? = some sweep)
      (hended : sweep.ended = false) :
      Moves w (.dequeue k)
        ((w.after (.dequeueDeletions sweep.settled sweep.now)).setSweep k
          { sweep with done := [], settled := [], due := [], ended := true })
  | late {hash : String} (hlate : hash ∈ w.late) : Moves w (.late hash) (w.removeStored hash)

section Inversion

variable {w w' : World}

theorem claim_moves {store : SqliteControlStore} {now : Int} {owner : String} {pool : Pool}
    {lease : Nat} {seen : Db}
    (h : w.exec (.claim store now owner pool lease seen) = some w') :
    Moves w (.claim store now owner pool lease seen) w' := by
  simp only [World.exec] at h
  split at h
  · cases h
  · next hfresh =>
      split at h
      · next hnone => exact Option.some.inj h ▸ .unclaimed hnone
      · next claim hclaim => exact Option.some.inj h ▸ .claimed hfresh hclaim

theorem publish_moves {i n : Nat} (h : w.exec (.publish i n) = some w') :
    Moves w (.publish i n) w' := by
  obtain ⟨job, hjob, h⟩ := Option.bind_eq_some_iff.mp h
  obtain ⟨write, hwrite, h⟩ := Option.bind_eq_some_iff.mp h
  split at h
  · next hrunning =>
      unfold World.publishExec at h
      split at h
      · next output hplan =>
          split at h
          · next claim hwork => exact Option.some.inj h ▸ .publish hjob hwrite hrunning hwork hplan
          · cases h
      · next row hplan => exact Option.some.inj h ▸ .setRefs hjob hwrite hrunning hplan
  · cases h

theorem check_moves {hash : String} (h : w.exec (.check hash) = some w') :
    Moves w (.check hash) w' := by
  obtain ⟨f, hflight, h⟩ := Option.bind_eq_some_iff.mp h
  obtain ⟨sweep, hsweep, h⟩ := Option.bind_eq_some_iff.mp h
  split at h
  · next hmarked =>
      split at h
      · next hdeletable =>
          exact Option.some.inj h ▸ .deletes hflight hsweep hmarked.1 hdeletable
      · next hdeletable =>
          exact Option.some.inj h ▸ .keeps hflight hsweep hmarked.1 (by simpa using hdeletable)
  · cases h

theorem mark_moves {k : Nat} {hash : String} (h : w.exec (.mark k hash) = some w') :
    Moves w (.mark k hash) w' := by
  obtain ⟨sweep, hsweep, h⟩ := Option.bind_eq_some_iff.mp h
  split at h
  · next hdue =>
      dsimp only at h
      split at h
      · exact Option.some.inj h ▸ .skip hsweep
      · next state hbegin => exact Option.some.inj h ▸ .mark hsweep hdue.1 hbegin
  · cases h

theorem exec_moves {e : Event} (h : w.exec e = some w') : Moves w e w' := by
  -- The guards of each event, as the step has them.
  cases e with
  | tick seconds => exact Option.some.inj h ▸ .tick
  | control op =>
      simp only [World.exec] at h
      split at h
      · next hplain => exact Option.some.inj h ▸ .control hplain
      · cases h
  | claim store now owner pool lease seen => exact claim_moves h
  | refs repo => exact Option.some.inj h ▸ .refs
  | job i e =>
      obtain ⟨job, hjob, h⟩ := Option.bind_eq_some_iff.mp h
      obtain ⟨job', hexec, h⟩ := Option.bind_eq_some_iff.mp h
      exact Option.some.inj h ▸ .job hjob hexec
  | pins e =>
      simp only [World.exec] at h
      split at h
      · next he =>
          obtain ⟨pins, hexec, rfl⟩ := Option.map_eq_some_iff.mp h
          exact .pins he hexec
      · cases h
  | store i hash =>
      obtain ⟨job, hjob, h⟩ := Option.bind_eq_some_iff.mp h
      split at h
      · next hstarted => exact Option.some.inj h ▸ .store hjob hstarted.1 hstarted.2
      · cases h
  | sizes i n sizes =>
      obtain ⟨job, hjob, h⟩ := Option.bind_eq_some_iff.mp h
      obtain ⟨write, hwrite, h⟩ := Option.bind_eq_some_iff.mp h
      split at h
      · next hsizes =>
          exact Option.some.inj h ▸ .sizes hjob hwrite (by simpa using hsizes)
      · cases h
  | publish i n => exact publish_moves h
  | queue i =>
      obtain ⟨job, hjob, h⟩ := Option.bind_eq_some_iff.mp h
      split at h
      · next hashes dueAt hstage => exact Option.some.inj h ▸ .queue hjob hstage
      · cases h
  | release i =>
      obtain ⟨job, hjob, h⟩ := Option.bind_eq_some_iff.mp h
      split at h
      · next hended =>
          obtain ⟨pins, hexec, rfl⟩ := Option.map_eq_some_iff.mp h
          exact .release hjob hended hexec
      · cases h
  | purgeBegin repo => exact Option.some.inj h ▸ .purgeBegin
  | purge n =>
      obtain ⟨purge, hpurge, h⟩ := Option.bind_eq_some_iff.mp h
      exact Option.some.inj h ▸ .purge hpurge
  | sweep => exact Option.some.inj h ▸ .sweep
  | due k =>
      obtain ⟨sweep, hsweep, h⟩ := Option.bind_eq_some_iff.mp h
      split at h
      · cases h
      · next hread => exact Option.some.inj h ▸ .due hsweep (by grind)
  | mark k hash => exact mark_moves h
  | check hash => exact check_moves h
  | remove hash =>
      obtain ⟨f, hflight, h⟩ := Option.bind_eq_some_iff.mp h
      split at h
      · cases h
      · next hmarked => exact Option.some.inj h ▸ .remove hflight hmarked
  | done hash =>
      obtain ⟨f, hflight, h⟩ := Option.bind_eq_some_iff.mp h
      obtain ⟨sweep, hsweep, h⟩ := Option.bind_eq_some_iff.mp h
      split at h
      · next hremoved => exact Option.some.inj h ▸ .done hflight hsweep hremoved.1
      · cases h
  | collect k hash =>
      obtain ⟨sweep, hsweep, h⟩ := Option.bind_eq_some_iff.mp h
      split at h
      · next hdone => exact Option.some.inj h ▸ .collect hsweep hdone.1
      · cases h
  | fail hash =>
      obtain ⟨f, hflight, h⟩ := Option.bind_eq_some_iff.mp h
      obtain ⟨sweep, hsweep, h⟩ := Option.bind_eq_some_iff.mp h
      exact Option.some.inj h ▸ .fail hflight hsweep
  | drop hash =>
      obtain ⟨f, hflight, h⟩ := Option.bind_eq_some_iff.mp h
      obtain ⟨sweep, hsweep, h⟩ := Option.bind_eq_some_iff.mp h
      split at h
      · exact Option.some.inj h ▸ .drop hflight
      · cases h
  | dequeue k =>
      obtain ⟨sweep, hsweep, h⟩ := Option.bind_eq_some_iff.mp h
      split at h
      · next hready => exact Option.some.inj h ▸ .dequeue hsweep (by grind)
      · cases h
  | late hash =>
      simp only [World.exec] at h
      split at h
      · next hlate => exact Option.some.inj h ▸ .late hlate
      · cases h

end Inversion

end Ripclone.Server.Lifecycle
