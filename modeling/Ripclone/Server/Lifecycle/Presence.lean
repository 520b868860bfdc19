import Ripclone.Server.Lifecycle.Invariant

/-!
# Published artifacts are in storage

A sweep deletes an artifact under its guard and after it has seen that no repository names it. Until
the guard is dropped no job pins the artifact, so no publish names it that relies on its own pins; and
a build that takes the artifact over from a row of its repo publishes only while that row is there,
since its lease is gone with the first purge.

Two things break this. A sweep that stops at a failed deletion drops the guards of the others while
their storage requests are under way; and a refs publish takes artifacts over from a row that a purge
may have deleted since, without a lease that would tell. The results are for the runs in which these
do not happen, and each comes with a run in which they do.
-/

namespace Ripclone.Server.Lifecycle

open Ripclone.Library Ripclone.Control

/-- The artifact is stored of some ready output. -/
def Names (w : World) (hash : String) : Prop :=
  ∃ key kind output, w.db.readyWith key kind output ∧ hash ∈ output.storedArtifacts

/-- The artifact was stored of some publish of a repository that was not purged since. -/
def Stores (w : World) (hash : String) : Prop := ∃ repo, (repo, hash) ∈ w.storedRefs

/-- Some repository names the artifact. -/
def Refers (db : Db) (hash : String) : Prop := ∃ repo, (repo, hash) ∈ db.artifactRefs

/-! ## The conditions -/

/-- A sweep that stopped drops no deletion whose storage request is under way. -/
def noneUnderWay (w : World) : Event → Bool
  | .drop hash => (w.flight hash).all fun f => f.stage ≠ .deleting
  | _ => true

/-- A refs row that is written takes over only artifacts that were stored of a publish of its
repository, which was not purged since. -/
def carriesNamed (w : World) : Event → Bool
  | .publish i n => w.jobs[i]?.all fun job => job.writes[n]?.all fun write =>
    match write.plan with
    | .refs row => row.artifacts.all fun hash =>
      hash ∈ job.relied || (job.work.repo, hash) ∈ w.storedRefs
    | .output _ => true
  | _ => true

/-! ## What a step publishes -/

/-- The statement a step issues: a publish or a refs write of a running job, or another one. -/
inductive Issues (w : World) : Event → Op → Prop
  | publish {i n : Nat} {job : Job} {write : Write} {claim : Claim} {output : Output}
      (hjob : w.jobs[i]? = some job) (hwrite : job.writes[n]? = some write)
      (hrunning : job.stage = .running) (hwork : job.work = .build claim)
      (hplan : write.plan = .output output) : Issues w (.publish i n) (.publish claim output)
  | setRefs {i n : Nat} {job : Job} {write : Write} {row : RepoRefs}
      (hjob : w.jobs[i]? = some job) (hwrite : job.writes[n]? = some write)
      (hrunning : job.stage = .running) (hplan : write.plan = .refs row) :
      Issues w (.publish i n) (.setRefs job.work.repo row)
  | other {e : Event} {op : Op} (hpublish : ∀ claim out, op ≠ .publish claim out)
      (hset : ∀ repo row, op ≠ .setRefs repo row) : Issues w e op

section Steps

variable {w w' : World} {e : Event} {hash : String} {N : World → String → Prop}

theorem issues_moves (h : Moves w e w') :
    w'.control = w.control ∨ ∃ op, w'.control = w.control.after op ∧ Issues w e op := by
  cases h with
  | @control op hplain =>
      refine .inr ⟨op, rfl, .other ?_ ?_⟩
      · rintro claim out rfl
        cases hplain
      · rintro repo row rfl
        cases hplain
  | unclaimed hnone => exact .inr ⟨_, rfl, .other (by simp) (by simp)⟩
  | claimed hfresh hclaim => exact .inr ⟨_, rfl, .other (by simp) (by simp)⟩
  | sizes hjob hwrite hsizes => exact .inr ⟨_, rfl, .other (by simp) (by simp)⟩
  | publish hjob hwrite hrunning hwork hplan =>
      exact .inr ⟨_, rfl, .publish hjob hwrite hrunning hwork hplan⟩
  | setRefs hjob hwrite hrunning hplan =>
      exact .inr ⟨_, rfl, .setRefs hjob hwrite hrunning hplan⟩
  | queue hjob hstage => exact .inr ⟨_, rfl, .other (by simp) (by simp)⟩
  | purge hpurge => exact .inr ⟨_, rfl, .other (by simp) (by simp)⟩
  | dequeue hsweep hended => exact .inr ⟨_, rfl, .other (by simp) (by simp)⟩
  | _ => exact .inl rfl

/-- An artifact leaves storage when a deletion that is past its check takes effect. -/
theorem storage_moves (h : Moves w e w') (hstored : hash ∈ w.storage) :
    hash ∈ w'.storage ∨ (∃ f ∈ w.flights, f.hash = hash ∧ f.stage ≠ .marked) ∨ hash ∈ w.late := by
  have hremoved : ∀ {removed : String}, hash ≠ removed → hash ∈ (w.removeStored removed).storage :=
    fun hne => List.mem_filter.mpr ⟨hstored, by simpa using hne⟩
  cases h with
  | store hjob hstarted hstores => exact .inl (List.mem_cons_of_mem _ hstored)
  | @remove removed f hflight hmarked =>
      obtain ⟨hmem, hhash⟩ := mem_of_flight hflight
      by_cases heq : hash = removed
      · exact .inr (.inl ⟨f, hmem, hhash.trans heq.symm, hmarked⟩)
      · exact .inl (hremoved heq)
  | @late removed hlate =>
      by_cases heq : hash = removed
      · exact .inr (.inr (heq ▸ hlate))
      · exact .inl (hremoved heq)
  | _ => exact .inl hstored

/-- A deletion past its check was past it before, or has found the artifact deletable now. -/
theorem flight_moves (h : Moves w e w') {f' : Flight} (hf' : f' ∈ w'.flights)
    (hstage : f'.stage ≠ .marked) :
    ∃ f ∈ w.flights, f.hash = f'.hash ∧
      (f.stage ≠ .marked ∨ w'.control = w.control ∧ ∃ now, deletable f.hash now w.db = true) := by
  have hkept : f' ∈ w.flights → ∃ f ∈ w.flights, f.hash = f'.hash ∧
      (f.stage ≠ .marked ∨ w'.control = w.control ∧ ∃ now, deletable f.hash now w.db = true) :=
    fun hmem => ⟨f', hmem, rfl, .inl hstage⟩
  have hset : ∀ {hash : String} {stage : FlightStage}, f' ∈ (w.setFlight hash stage).flights →
      ∃ f ∈ w.flights, f.hash = f'.hash ∧ (f' = f ∨ f.hash = hash) := by
    intro hash stage hmem
    obtain ⟨f, hf, rfl⟩ := List.mem_map.mp hmem
    split
    · next heq => exact ⟨f, hf, rfl, .inr heq⟩
    · exact ⟨f, hf, rfl, .inl rfl⟩
  cases h with
  | mark hsweep hdue hbegin =>
      rcases List.mem_cons.mp hf' with rfl | hold
      · exact absurd rfl hstage
      · exact hkept hold
  | deletes hflight hsweep hmarked hdeletable =>
      obtain ⟨f, hf, hhash, rfl | heq⟩ := hset hf'
      · exact hkept hf
      · exact ⟨f, hf, hhash, .inr ⟨rfl, _, heq ▸ hdeletable⟩⟩
  | @remove hash f₀ hflight hmarked =>
      obtain ⟨f, hf, hhash, rfl | heq⟩ := hset hf'
      · exact hkept hf
      · obtain ⟨hmem, hhash₀⟩ := mem_of_flight hflight
        exact ⟨f₀, hmem, hhash₀.trans (heq.symm.trans hhash), .inl hmarked⟩
  | keeps hflight hsweep hmarked hdeletable => exact hkept (List.mem_filter.mp hf').1
  | done hflight hsweep hremoved => exact hkept (List.mem_filter.mp hf').1
  | fail hflight hsweep => exact hkept (List.mem_filter.mp hf').1
  | drop hflight => exact hkept (List.mem_filter.mp hf').1
  | _ => exact hkept hf'

theorem late_moves (h : Moves w e w') (hclear : noneUnderWay w e = true) : w'.late = w.late := by
  cases h with
  | drop hflight =>
      simp only [noneUnderWay, hflight, Option.all_some, decide_eq_true_eq] at hclear
      exact if_neg hclear
  | _ => rfl

/-! ## What storage keeps -/

/-- Storage has every artifact of `N` and every artifact a job with pins relies on, and no deletion
that is past its check is of one. -/
structure Keeps (N : World → String → Prop) (w : World) : Prop where
  present : ∀ {hash}, N w hash → hash ∈ w.storage
  spared : ∀ {f}, f ∈ w.flights → f.stage ≠ .marked → ¬ N w f.hash
  relied : ∀ {i : Nat} {job : Job} {hash}, w.jobs[i]? = some job → w.alive i = true →
    hash ∈ job.relied → hash ∈ w.storage
  late : w.late = []

/-- A step keeps it when whatever it adds to `N` is relied on by a job with pins. -/
theorem Keeps.moves (hok : w.Ok) (h : Keeps N w) (hm : Moves w e w') (hclear : noneUnderWay w e = true)
    (hrefers : ∀ {hash}, N w hash → Refers w.db hash)
    (hnew : ∀ {hash}, N w' hash → N w hash ∨
      ∃ (i : Nat) (job : Job), w.jobs[i]? = some job ∧ w.alive i = true ∧ hash ∈ job.relied) :
    Keeps N w' where
  present := by
    intro hash hN
    rcases hnew hN with hbefore | ⟨i, job, hjob, halive, hrelied⟩
    · rcases storage_moves hm (h.present hbefore) with hthere | ⟨f, hf, rfl, hstage⟩ | hlate
      · exact hthere
      · exact absurd hbefore (h.spared hf hstage)
      · simp [h.late] at hlate
    · rcases storage_moves hm (h.relied hjob halive hrelied) with hthere | ⟨f, hf, hhash, -⟩ | hlate
      · exact hthere
      · exact absurd hhash (hok.not_relied hjob halive hrelied hf)
      · simp [h.late] at hlate
  spared := by
    intro f' hf' hstage hN
    obtain ⟨f, hf, hhash, hpast⟩ := flight_moves hm hf' hstage
    rw [← hhash] at hN
    rcases hnew hN with hbefore | ⟨i, job, hjob, halive, hrelied⟩
    · rcases hpast with hchecked | ⟨-, now, hdeletable⟩
      · exact h.spared hf hchecked hbefore
      · obtain ⟨repo, hrepo⟩ := hrefers hbefore
        exact (deletable_iff.mp hdeletable).2 repo hrepo
    · exact hok.not_relied hjob halive hrelied hf rfl
  relied := by
    intro i job' hash hjob' halive' hrelied'
    rcases job_moves hok hm hjob' with ⟨job, hjob, hstep⟩ | ⟨-, work, rfl, -⟩
    · rcases hstep.relied hash hrelied' with hrelied | ⟨-, hstored⟩
      · have halive := ((alive_moves hok hm hjob).1 halive').1
        rcases storage_moves hm (h.relied hjob halive hrelied) with hthere | ⟨f, hf, hhash, -⟩ | hlate
        · exact hthere
        · exact absurd hhash (hok.not_relied hjob halive hrelied hf)
        · simp [h.late] at hlate
      · exact hstored
    · cases hrelied'
  late := (late_moves hm hclear).trans h.late

end Steps

/-! ## What a build takes over -/

/-- The database has every reference, and what a build that has its lease took over from rows of its
repo is still stored of a ready output of the repo. -/
structure World.Named (w : World) : Prop where
  ok : w.Ok
  recorded : w.db.Recorded
  taken : ∀ {i : Nat} {job : Job} {claim : Claim} {hash : String}, w.jobs[i]? = some job →
    job.work = .build claim → w.db.holder claim.key claim.kind = some claim.owner →
    hash ∈ job.rows → ∃ key kind output, key.1 = claim.repo ∧ w.db.readyWith key kind output ∧
      hash ∈ output.storedArtifacts

section Taken

variable {w w' : World} {e : Event} {hash : String}

theorem readyWith_of_readyArtifacts {key : String × String} {db : Db}
    (h : hash ∈ readyArtifacts key db) :
    ∃ kind output, db.readyWith key kind output ∧ hash ∈ output.storedArtifacts := by
  obtain ⟨kind, -, hkind⟩ := List.mem_flatMap.mp h
  split at hkind
  · next columns hout =>
      split at hkind
      · next hready =>
          cases houtput : columns.output with
          | none => simp [houtput] at hkind
          | some output =>
              exact ⟨kind, output, ⟨columns, hout, hready, houtput⟩, by simpa [houtput] using hkind⟩
      · cases hkind
  · cases hkind

/-- A claim that has its lease had it before, and its repo was not purged since. -/
theorem holder_moves (hok : w.Ok) (h : Moves w e w') {claim : Claim}
    (hgranted : .granted claim ∈ w.control.history)
    (hholder : w'.db.holder claim.key claim.kind = some claim.owner) :
    w.db.holder claim.key claim.kind = some claim.owner ∧
      ∀ {key kind output}, key.1 = claim.repo → w.db.readyWith key kind output →
        w'.db.readyWith key kind output := by
  have howners := owners_moves h hok.owners
  rcases control_moves h with hsame | ⟨op, hafter, -⟩
  · rw [World.db, hsame] at hholder
    refine ⟨hholder, fun _ hready => ?_⟩
    rwa [World.db, hsame]
  · rw [World.db, hafter] at hholder
    change (exec op w.db).holder claim.key claim.kind = some claim.owner at hholder
    refine ⟨?_, fun {key kind output} hkey hready => ?_⟩
    · rcases holder_exec op hok.keys hholder with hbefore | ⟨again, hagain, howner⟩
      · exact hbefore
      · -- no other claim was granted with this owner
        rw [hafter] at howners
        have hdisjoint : (grantedOwners (events op w.db) ++
            grantedOwners w.control.history).Nodup := by
          rwa [← grantedOwners_append]
        have hnew : claim.owner ∈ grantedOwners (events op w.db) :=
          howner ▸ List.mem_map_of_mem (List.mem_filterMap.mpr ⟨_, hagain, rfl⟩)
        have hold : claim.owner ∈ grantedOwners w.control.history :=
          List.mem_map_of_mem (List.mem_filterMap.mpr ⟨_, hgranted, rfl⟩)
        exact absurd rfl ((List.nodup_append.mp hdisjoint).2.2 _ hnew _ hold)
    · rw [World.db, hafter]
      refine readyWith_exec op hok.keys ?_ hready
      by_contra hpurges
      have hrow : (exec op w.db).row claim.key = none := by
        cases op with
        | purgeRepo repo dueAt =>
            have hrepo : repo = claim.key.1 := by
              rw [show claim.key.1 = claim.repo from rfl, ← hkey]
              simpa [Op.purges] using hpurges
            rw [row_purgeRepo, if_pos hrepo]
        | _ => simp [Op.purges] at hpurges
      rw [holder_eq_none hrow] at hholder
      cases hholder

theorem named_init (grace : Nat) (clock : Int) : (World.init grace clock).Named where
  ok := ok_init grace clock
  recorded := recorded_empty
  taken := by simp [World.init]

theorem named_moves (h : w.Named) (hm : Moves w e w') : w'.Named where
  ok := ok_moves h.ok hm
  recorded := by
    rcases control_moves hm with hsame | ⟨op, hafter, -⟩
    · rw [World.db, hsame]
      exact h.recorded
    · rw [World.db, hafter]
      exact recorded_exec op h.ok.keys h.recorded
  taken := by
    intro i job' claim hash hjob' hwork' hholder' hrows'
    rcases job_moves h.ok hm hjob' with ⟨job, hjob, hstep⟩ | ⟨-, work, rfl, -⟩
    · have hwork : job.work = .build claim := hstep.work ▸ hwork'
      obtain ⟨hholder, hkept⟩ := holder_moves h.ok hm (h.ok.granted hjob hwork) hholder'
      rcases hstep.rows hash hrows' with hrows | ⟨claim', key, hwork₁, hkey, hread⟩
      · obtain ⟨key, kind, output, hkey, hready, hmem⟩ := h.taken hjob hwork hholder hrows
        exact ⟨key, kind, output, hkey, hkept hkey hready, hmem⟩
      · obtain rfl := Work.build.inj (hwork₁.symm.trans hwork)
        obtain ⟨kind, output, hready, hmem⟩ := readyWith_of_readyArtifacts hread
        exact ⟨key, kind, output, hkey, hkept hkey hready, hmem⟩
    · cases hrows'

theorem World.Named.refers (h : w.Named) (hnames : Names w hash) : Refers w.db hash := by
  obtain ⟨key, kind, output, hready, hmem⟩ := hnames
  exact ⟨key.1, h.recorded.outputs hready hash (output.artifacts_of_stored hmem)⟩

/-- What is stored of a build's publish was stored of a ready output before, or it relies on it. -/
theorem World.Named.published (h : w.Named) {i n : Nat} {job : Job} {write : Write} {claim : Claim}
    {output : Output} (hjob : w.jobs[i]? = some job) (hwrite : job.writes[n]? = some write)
    (hrunning : job.stage = .running) (hwork : job.work = .build claim)
    (hplan : write.plan = .output output) (happlied : applied claim output w.db = true)
    (hmem : hash ∈ output.storedArtifacts) :
    Names w hash ∨ w.alive i = true ∧ hash ∈ job.relied := by
  have hfits := h.ok.fits hjob (List.mem_of_getElem? hwrite)
  simp only [World.fits, hplan, hwork, List.all_eq_true, decide_eq_true_eq] at hfits
  rcases List.mem_append.mp (hfits hash hmem) with hrelied | hrows
  · exact .inr ⟨h.ok.alive hjob (by simp [hrunning]), hrelied⟩
  · have hholder := holder_of_applied h.ok.keys happlied
    obtain ⟨key, kind, stored, -, hready, hnamed⟩ := h.taken hjob hwork hholder hrows
    exact .inl ⟨key, kind, stored, hready, hnamed⟩

/-- What is stored of ready outputs after a step was so before, or a job with pins relies on it. -/
theorem names_moves (h : w.Named) (hm : Moves w e w') (hnames : Names w' hash) :
    Names w hash ∨
      ∃ (i : Nat) (job : Job), w.jobs[i]? = some job ∧ w.alive i = true ∧ hash ∈ job.relied := by
  obtain ⟨key, kind, output, hready, hmem⟩ := hnames
  rcases issues_moves hm with hsame | ⟨op, hafter, hissues⟩
  · rw [World.db, hsame] at hready
    exact .inl ⟨key, kind, output, hready, hmem⟩
  · rw [World.db, hafter] at hready
    rcases readyWith_before op h.ok.keys hready with
      hbefore | ⟨claim, out, rfl, happlied, rfl, rfl⟩
    · exact .inl ⟨key, kind, output, hbefore, hmem⟩
    · cases hissues with
      | publish hjob hwrite hrunning hwork hplan =>
          rcases h.published hjob hwrite hrunning hwork hplan happlied hmem with
            hbefore | ⟨halive, hrelied⟩
          · exact .inl hbefore
          · exact .inr ⟨_, _, hjob, halive, hrelied⟩
      | other hpublish hset => exact absurd rfl (hpublish _ _)

end Taken

/-! ## What was stored of publishes -/

/-- `refs` are references of the database, and have all that is stored of its ready outputs and of its
refs. -/
structure StoredIn (db : Db) (refs : List (String × String)) : Prop where
  recorded : ∀ {repo hash}, (repo, hash) ∈ refs → (repo, hash) ∈ db.artifactRefs
  outputs : ∀ {key kind output}, db.readyWith key kind output →
    ∀ hash ∈ output.storedArtifacts, (key.1, hash) ∈ refs
  rows : ∀ {repo row}, (repo, row) ∈ db.repoRefs → ∀ hash ∈ row.artifacts, (repo, hash) ∈ refs

section Stored

variable {w w' : World} {e : Event} {hash : String} {db : Db}
  {refs refs' : List (String × String)}

/-- An operation keeps it when the references it drops are of a repo it purges, and those it adds are
recorded and have what is stored of a publish. -/
theorem StoredIn.exec (op : Op) (hkeys : db.KeysUnique) (h : StoredIn db refs)
    (hkept : ∀ {repo hash}, (repo, hash) ∈ refs → op.purges repo = false → (repo, hash) ∈ refs')
    (hnew : ∀ {repo hash}, (repo, hash) ∈ refs' → (repo, hash) ∈ refs ∧ op.purges repo = false ∨
      (repo, hash) ∈ (exec op db).artifactRefs)
    (hpublish : ∀ {claim out}, op = .publish claim out → applied claim out db = true →
      ∀ hash ∈ out.storedArtifacts, (claim.repo, hash) ∈ refs')
    (hset : ∀ {repo row}, op = .setRefs repo row → knowsRepo repo db = true →
      ∀ hash ∈ row.artifacts, (repo, hash) ∈ refs') : StoredIn (exec op db) refs' where
  recorded := by
    intro repo hash hmem
    rcases hnew hmem with ⟨hold, hpurges⟩ | hthere
    · exact artifactRefs_exec op hpurges (h.recorded hold)
    · exact hthere
  outputs := by
    intro key kind output hready hash hmem
    rcases readyWith_before op hkeys hready with hbefore | ⟨claim, out, hop, happlied, rfl, rfl⟩
    · exact hkept (h.outputs hbefore hash hmem) (not_purges_of_readyWith hready)
    · exact hpublish hop happlied hash hmem
  rows := by
    intro repo row hrow hash hmem
    rcases repoRefs_before op hrow with ⟨hbefore, hpurges⟩ | ⟨hop, hknown⟩
    · exact hkept (h.rows hbefore hash hmem) hpurges
    · exact hset hop hknown hash hmem

theorem mem_recordStored {repo : String} {plan : Plan} {written : Bool} {named : String × String} :
    named ∈ World.recordStored repo plan written ↔
      written = true ∧ named.1 = repo ∧ named.2 ∈ plan.storedArtifacts := by
  unfold World.recordStored
  split
  · next hwritten =>
      simp only [hwritten, true_and, List.mem_map]
      constructor
      · rintro ⟨hash, hmem, rfl⟩
        exact ⟨rfl, hmem⟩
      · rintro ⟨rfl, hmem⟩
        exact ⟨named.2, hmem, rfl⟩
  · next hwritten => simp [hwritten]

theorem storedIn_init (grace : Nat) (clock : Int) :
    StoredIn (World.init grace clock).db (World.init grace clock).storedRefs where
  recorded := by
    intro repo hash h
    cases h
  outputs := by
    rintro key kind output ⟨columns, hout, -⟩
    cases hout
  rows := by
    intro repo row h
    cases h

theorem storedIn_moves (hkeys : w.db.KeysUnique) (h : StoredIn w.db w.storedRefs)
    (hm : Moves w e w') : StoredIn w'.db w'.storedRefs := by
  -- A statement that neither publishes nor purges, and leaves what was stored as it was.
  have hother : ∀ op : Op, w'.control = w.control.after op → w'.storedRefs = w.storedRefs →
      (∀ repo, op.purges repo = false) → (∀ claim out, op ≠ .publish claim out) →
      (∀ repo row, op ≠ .setRefs repo row) → StoredIn w'.db w'.storedRefs := by
    intro op hafter hrefs hpurges hpublish hset
    rw [World.db, hafter, hrefs]
    exact h.exec op hkeys (fun hmem _ => hmem) (fun hmem => .inl ⟨hmem, hpurges _⟩)
      (fun hop => absurd hop (hpublish _ _)) (fun hop => absurd hop (hset _ _))
  cases hm with
  | @control op hplain =>
      refine hother op rfl rfl (fun repo => ?_) ?_ ?_
      · cases op <;> first | rfl | cases hplain
      · rintro claim out rfl
        cases hplain
      · rintro repo row rfl
        cases hplain
  | unclaimed hnone => exact hother _ rfl rfl (fun _ => rfl) (by simp) (by simp)
  | claimed hfresh hclaim => exact hother _ rfl rfl (fun _ => rfl) (by simp) (by simp)
  | sizes hjob hwrite hsizes => exact hother _ rfl rfl (fun _ => rfl) (by simp) (by simp)
  | queue hjob hstage => exact hother _ rfl rfl (fun _ => rfl) (by simp) (by simp)
  | dequeue hsweep hended => exact hother _ rfl rfl (fun _ => rfl) (by simp) (by simp)
  | @publish i n job write claim output hjob hwrite hrunning hwork hplan =>
      refine h.exec (.publish claim output) hkeys (fun hmem _ => List.mem_append_right _ hmem) ?_ ?_
        (by simp)
      · intro repo hash hmem
        rcases List.mem_append.mp hmem with hadded | hold
        · obtain ⟨happlied, hrepo, hstored⟩ := mem_recordStored.mp hadded
          rw [hplan] at hstored
          refine .inr ?_
          show (repo, hash) ∈ (exec (.publish claim output) w.db).artifactRefs
          rw [(publish_of_applied happlied).2.2]
          exact mem_recordRefs.mpr
            (.inr ⟨hash, StoredOutput.artifacts_of_stored hstored, Prod.ext hrepo rfl⟩)
        · exact .inl ⟨hold, rfl⟩
      · intro claim' out hop happlied hash hmem
        obtain ⟨rfl, rfl⟩ := Op.publish.inj hop
        exact List.mem_append_left _ (mem_recordStored.mpr ⟨happlied, rfl, by rwa [hplan]⟩)
  | @setRefs i n job write row hjob hwrite hrunning hplan =>
      refine h.exec (.setRefs job.work.repo row) hkeys
        (fun hmem _ => List.mem_append_right _ hmem) ?_ (by simp) ?_
      · intro repo hash hmem
        rcases List.mem_append.mp hmem with hadded | hold
        · obtain ⟨hwritten, hrepo, hstored⟩ := mem_recordStored.mp hadded
          rw [hplan] at hstored
          refine .inr ?_
          show (repo, hash) ∈ (exec (.setRefs job.work.repo row) w.db).artifactRefs
          rw [setRefs_of_known (setRefs_written ▸ hwritten)]
          exact mem_recordRefs.mpr (.inr ⟨hash, hstored, Prod.ext hrepo rfl⟩)
        · exact .inl ⟨hold, rfl⟩
      · intro repo' row' hop hknown hash hmem
        obtain ⟨rfl, rfl⟩ := Op.setRefs.inj hop
        exact List.mem_append_left _
          (mem_recordStored.mpr ⟨setRefs_written ▸ hknown, rfl, by rwa [hplan]⟩)
  | @purge n purge hpurge =>
      refine h.exec (.purgeRepo purge.repo purge.dueAt) hkeys ?_ ?_ (by simp) (by simp)
      · intro repo hash hmem hpurges
        refine List.mem_filter.mpr ⟨hmem, decide_eq_true fun heq => ?_⟩
        simp [Op.purges, show repo = purge.repo from heq] at hpurges
      · intro repo hash hmem
        obtain ⟨hold, hne⟩ := List.mem_filter.mp hmem
        have hother : repo ≠ purge.repo := by simpa using hne
        exact .inl ⟨hold, by simpa [Op.purges] using hother.symm⟩
  | _ => exact h

/-- What is stored of publishes after a step was so before, or a job with pins relies on it, when no
refs row takes over what is of no publish of its repository. -/
theorem stores_moves (h : w.Named) (hstored : StoredIn w.db w.storedRefs) (hm : Moves w e w')
    (hcarries : carriesNamed w e = true) (hstores : Stores w' hash) :
    Stores w hash ∨
      ∃ (i : Nat) (job : Job), w.jobs[i]? = some job ∧ w.alive i = true ∧ hash ∈ job.relied := by
  obtain ⟨repo, hmem⟩ := hstores
  cases hm with
  | @publish i n job write claim output hjob hwrite hrunning hwork hplan =>
      rcases List.mem_append.mp hmem with hadded | hold
      · obtain ⟨happlied, -, hnamed⟩ := mem_recordStored.mp hadded
        rw [hplan] at hnamed
        rcases h.published hjob hwrite hrunning hwork hplan happlied hnamed with
          ⟨key, kind, stored, hready, hbefore⟩ | ⟨halive, hrelied⟩
        · exact .inl ⟨key.1, hstored.outputs hready hash hbefore⟩
        · exact .inr ⟨i, job, hjob, halive, hrelied⟩
      · exact .inl ⟨repo, hold⟩
  | @setRefs i n job write row hjob hwrite hrunning hplan =>
      rcases List.mem_append.mp hmem with hadded | hold
      · obtain ⟨-, -, hnamed⟩ := mem_recordStored.mp hadded
        rw [hplan] at hnamed
        simp only [carriesNamed, hjob, hwrite, hplan, Option.all_some, List.all_eq_true,
          Bool.or_eq_true, decide_eq_true_eq] at hcarries
        rcases hcarries hash hnamed with hrelied | hbefore
        · exact .inr ⟨i, job, hjob, h.ok.alive hjob (by simp [hrunning]), hrelied⟩
        · exact .inl ⟨_, hbefore⟩
      · exact .inl ⟨repo, hold⟩
  | purge hpurge => exact .inl ⟨repo, (List.mem_filter.mp hmem).1⟩
  | _ => exact .inl ⟨repo, hmem⟩

end Stored

/-! ## Given runs -/

section Given

def storedArtifact : String := takeoverArtifact

def otherArtifact : String := "fedcba9876543210fedcba9876543210fedcba9876543210fedcba9876543210"

/-- Job `i` pins an artifact and begins to store it. -/
def pinEvents (i : Nat) (hash : String) : List Event :=
  [.pins (.pin i hash), .pins (.count i), .pins (.hold i), .job i (.start hash)]

/-- A claim for a pool, whose poll has seen the commit admitted. -/
def pollEvent (owner : String) (pool : Pool) : Event :=
  .claim takeoverStore 0 owner pool 60
    (Control.World.init.run [.admitBuild "r" takeoverCommit none 0]).db

/-- A claim of the commit's Head. -/
def claimEvent (owner : String) : Event := pollEvent owner .head

def admitEvent : Event := .control (.admitBuild "r" takeoverCommit none 0)

/-- A sweep deletes an artifact that it has read, and takes it off the queue. -/
def deleteEvents (hash : String) : List Event :=
  [.mark 0 hash, .check hash, .remove hash, .done hash, .collect 0 hash, .dequeue 0]

/-- What a database says of an output, as far as its artifacts are concerned. -/
theorem readyWith_of_out {db : Db} {key : String × String} {kind : ExactResultKind}
    (named stored : List String) (h : (db.out key kind).map (fun columns =>
      (columns.state, columns.output.map fun output => (output.artifacts, output.storedArtifacts))) =
        some (.ready, some (named, stored))) :
    ∃ output, db.readyWith key kind output ∧
      (output.artifacts, output.storedArtifacts) = (named, stored) := by
  obtain ⟨columns, hout, hpair⟩ := Option.map_eq_some_iff.mp h
  obtain ⟨hstate, hartifacts⟩ := Prod.mk.inj hpair
  obtain ⟨output, houtput, hlists⟩ := Option.map_eq_some_iff.mp hartifacts
  rw [← hlists]
  exact ⟨output, ⟨columns, hout, hstate, houtput⟩, rfl⟩

end Given

/-! ## Whole runs -/

section Runs

variable {grace : Nat} {clock : Int} {events : List Event} {w : World}

/-- In every run in which no sweep drops a deletion whose storage request is under way, whatever is
stored of a ready output is in storage. -/
theorem ready_outputs_stored
    (hrun : Run (StepWhen noneUnderWay) (World.init grace clock) events w)
    {key : String × String} {kind : ExactResultKind} {output : StoredOutput}
    (hready : w.db.readyWith key kind output) :
    ∀ hash ∈ output.storedArtifacts, hash ∈ w.storage := by
  have hinv := hrun.invariant (P := fun _ => True) (I := fun w => w.Named ∧ Keeps Names w)
    ⟨named_init grace clock, ?_⟩ ?_ (by simp)
  · exact fun hash hmem => hinv.2.present ⟨key, kind, output, hready, hmem⟩
  · refine ⟨?_, by simp [World.init], by simp [World.init], rfl⟩
    rintro hash ⟨key, kind, output, ⟨columns, hout, -⟩, -⟩
    cases hout
  · rintro e w w' - ⟨hnamed, hkeeps⟩ ⟨hclear, hstep⟩
    have hm := exec_moves hstep
    exact ⟨named_moves hnamed hm,
      hkeeps.moves hnamed.ok hm hclear hnamed.refers (names_moves hnamed hm)⟩

def tailCommit : String := "89abcdef0123456789abcdef0123456789abcdef"

/-- A claim of a commit's Files, as far as its fence is concerned. -/
def filesClaim (owner commit : String) : Claim :=
  ⟨"r", owner, .files, newBuild "r" commit none 0 1⟩

/-- A Files whose bundle has two frames. -/
def filesOutput (manifest commit : String) : Output :=
  .files ⟨⟨manifest, manifest, "", "", "", commit⟩, ["bundle"],
    [⟨"raw-0", "frame-0", 3, 5⟩, ⟨"raw-1", "frame-1", 4, 6⟩], none⟩

/-- A Files stores its table and its bundle and publishes both. The Files of the next commit reads that
row, stores a table of its own and takes the bundle over. -/
def publishedEvents : List Event :=
  [admitEvent, .control (.admitBuild "r" tailCommit none 0), pollEvent "files-0-1" .files] ++
    pinEvents 0 storedArtifact ++ pinEvents 0 "bundle" ++
    [.store 0 storedArtifact, .store 0 "bundle",
      .job 0 (.unsized (.output (filesOutput storedArtifact takeoverCommit))), .publish 0 0,
      .control (.release (filesClaim "1/files-0-1" takeoverCommit)), pollEvent "files-0-2" .files,
      .job 1 (.read ("r", takeoverCommit))] ++
    pinEvents 1 otherArtifact ++
    [.store 1 otherArtifact, .job 1 (.unsized (.output (filesOutput otherArtifact tailCommit))),
      .publish 1 0]

/-- The bundle that the second Files took over is in storage, and the frames it names are not. -/
theorem published_files_stored : ∃ w output,
    Run (StepWhen noneUnderWay) (World.init 2400 0) publishedEvents w ∧
      w.db.readyWith ("r", tailCommit) .files output ∧ "bundle" ∈ w.storage ∧
      "frame-0" ∈ output.artifacts ∧ "frame-0" ∉ w.storage := by
  have hrun := run_runWhen noneUnderWay (World.init 2400 0) publishedEvents (by decide)
  obtain ⟨output, hready, hlists⟩ := readyWith_of_out
    [otherArtifact, "bundle", "frame-0", "frame-1"] [otherArtifact, "bundle"]
    (show (((World.init 2400 0).runWhen noneUnderWay publishedEvents).db.out
      ("r", tailCommit) .files).map _ = _ by decide)
  obtain ⟨hnamed, hstored⟩ := Prod.mk.inj hlists
  refine ⟨_, output, hrun, hready, ready_outputs_stored hrun hready _ (by simp [hstored]), ?_, ?_⟩
  · simp [hnamed]
  · decide

/-- A Head that failed leaves two artifacts in the queue, and a sweep begins. -/
def failedEvents : List Event :=
  [admitEvent, claimEvent "head-0-1"] ++ pinEvents 0 storedArtifact ++ pinEvents 0 otherArtifact ++
    [.store 0 storedArtifact, .store 0 otherArtifact, .job 0 .settle, .job 0 .discard, .queue 0,
      .control (.release (takeoverClaim "1/head-0-1" 1)), .release 0,
      .pins (.drain 0 storedArtifact), .pins (.unpin 0), .pins (.drain 0 otherArtifact),
      .pins (.unpin 0), .tick 1, .sweep]

/-- One of two deletions fails, and the sweep drops the other while its request is under way. The next
Head finds the artifact in storage and publishes it, and then the request takes effect. -/
def droppedEvents : List Event :=
  [.mark 0 storedArtifact, .mark 0 otherArtifact, .check storedArtifact, .check otherArtifact,
    .fail otherArtifact, .drop storedArtifact, claimEvent "head-0-2"] ++
    pinEvents 1 storedArtifact ++
    [.job 1 (.found storedArtifact), .job 1 (.unsized (.output takeoverOutput)), .publish 1 0,
      .late storedArtifact]

theorem dropped_deletion_takes_effect : ∃ events w output,
    Run Step (World.init 0 0) events w ∧ w.db.readyWith ("r", takeoverCommit) .head output ∧
      ∃ hash ∈ output.storedArtifacts, hash ∉ w.storage := by
  let swept := (World.init 0 0).runWhen (fun _ _ => true) failedEvents
  have hswept := run_runWhen (fun _ _ => true) (World.init 0 0) failedEvents (by decide)
  have hdue : dueDeletions 1 1000 swept.db = [storedArtifact, otherArtifact] := by
    have hqueued : swept.db.deletions = [⟨otherArtifact, 0⟩, ⟨storedArtifact, 0⟩] := by decide
    have hle : ¬ otherArtifact ≤ storedArtifact := by decide
    simp [dueDeletions, hqueued, List.mergeSort, hle]
  have hsweep : swept.sweeps[0]? = some ⟨1, false, [], [], [], false, false⟩ := by decide
  have hread := due_step (p := fun _ _ => true) rfl hsweep rfl hdue
  let reading :=
    swept.setSweep 0 ⟨1, true, [storedArtifact, otherArtifact], [], [], false, false⟩
  have hdropped := run_runWhen (fun _ _ => true) reading droppedEvents (by decide)
  obtain ⟨output, hready, hlists⟩ := readyWith_of_out [storedArtifact] [storedArtifact]
    (show ((reading.runWhen (fun _ _ => true) droppedEvents).db.out
      ("r", takeoverCommit) .head).map _ = _ by decide)
  refine ⟨_, _, output, run_step ((hswept.snoc hread).append hdropped), hready, storedArtifact, ?_, ?_⟩
  · simp [(Prod.mk.inj hlists).2]
  · decide

/-- In every run in which besides every refs row that is written takes over only what was stored of a
publish of its repository, which was not purged since, whatever a repository's refs name is in
storage. -/
theorem refs_stored
    (hrun : Run (StepWhen fun w e => noneUnderWay w e && carriesNamed w e)
      (World.init grace clock) events w)
    {repo : String} {row : RepoRefs} (hrow : (repo, row) ∈ w.db.repoRefs) :
    ∀ hash ∈ row.artifacts, hash ∈ w.storage := by
  have hinv := hrun.invariant (P := fun _ => True)
    (I := fun w => w.Named ∧ StoredIn w.db w.storedRefs ∧ Keeps Stores w)
    ⟨named_init grace clock, storedIn_init grace clock, ?_⟩ ?_ (by simp)
  · exact fun hash hmem => hinv.2.2.present ⟨repo, hinv.2.1.rows hrow hash hmem⟩
  · refine ⟨?_, by simp [World.init], by simp [World.init], rfl⟩
    rintro hash ⟨repo, hrepo⟩
    cases hrepo
  · rintro e w w' - ⟨hnamed, hstored, hkeeps⟩ ⟨hmeets, hstep⟩
    obtain ⟨hclear, hcarries⟩ := (Bool.and_eq_true _ _).mp hmeets
    have hm := exec_moves hstep
    refine ⟨named_moves hnamed hm, storedIn_moves hnamed.ok.keys hstored hm, ?_⟩
    exact hkeeps.moves hnamed.ok hm hclear
      (fun hrefs => hrefs.imp fun repo hmem => hstored.recorded hmem)
      (stores_moves hnamed hstored hm hcarries)

def tagsRow : RepoRefs := ⟨storedArtifact, 1, 1, "tags", none, none⟩

/-- The row with branches, whose tags are the row's. -/
def branchesRow : RepoRefs :=
  { tagsRow with
    branches := some ⟨otherArtifact, 1, "refs", none, none, none, "", [],
      ⟨storedArtifact, 1, 1, "tags"⟩⟩ }

/-- A repository is added and its tags published. Then a second refs publish reads the row and stores
its branches. -/
def refsEvents : List Event :=
  [.control (.addRepo "r" none 0), .refs "r"] ++ pinEvents 0 storedArtifact ++
    [.store 0 storedArtifact, .job 0 (.unsized (.refs tagsRow)), .publish 0 0, .job 0 .discard,
      .queue 0, .release 0, .pins (.drain 0 storedArtifact), .pins (.unpin 0),
      .refs "r", .job 1 .readRefs] ++ pinEvents 1 otherArtifact ++
    [.store 1 otherArtifact, .job 1 (.unsized (.refs branchesRow))]

theorem refreshed_refs_stored : ∃ w,
    Run (StepWhen fun w e => noneUnderWay w e && carriesNamed w e) (World.init 2400 0)
      (refsEvents ++ [.publish 1 0]) w ∧ ("r", branchesRow) ∈ w.db.repoRefs ∧
      storedArtifact ∈ w.storage := by
  have hrun := run_runWhen (fun w e => noneUnderWay w e && carriesNamed w e) (World.init 2400 0)
    (refsEvents ++ [.publish 1 0]) (by decide)
  have hrow : ("r", branchesRow) ∈ ((World.init 2400 0).runWhen
      (fun w e => noneUnderWay w e && carriesNamed w e)
      (refsEvents ++ [.publish 1 0])).db.repoRefs := by decide
  exact ⟨_, hrun, hrow, refs_stored hrun hrow _ (by decide)⟩

/-- The repository is purged and added again before the second publish writes its row. -/
def purgedEvents : List Event :=
  refsEvents ++ [.purgeBegin "r", .purge 0, .control (.addRepo "r" none 0), .tick 1, .sweep]

/-- A sweep deletes the tags that the row took over, and the row is written. -/
theorem purged_refs_written : ∃ events w row,
    Run Step (World.init 0 0) events w ∧ ("r", row) ∈ w.db.repoRefs ∧
      ∃ hash ∈ row.artifacts, hash ∉ w.storage := by
  let purged := (World.init 0 0).runWhen (fun _ _ => true) purgedEvents
  have hpurged := run_runWhen (fun _ _ => true) (World.init 0 0) purgedEvents (by decide)
  have hdue : dueDeletions 1 1000 purged.db = [storedArtifact] := by
    have hqueued : purged.db.deletions = [⟨storedArtifact, 0⟩] := by decide
    simp [dueDeletions, hqueued]
  have hsweep : purged.sweeps[0]? = some ⟨1, false, [], [], [], false, false⟩ := by decide
  have hread := due_step (p := fun _ _ => true) rfl hsweep rfl hdue
  let reading := purged.setSweep 0 ⟨1, true, [storedArtifact], [], [], false, false⟩
  have hwritten := run_runWhen (fun _ _ => true) reading
    (deleteEvents storedArtifact ++ [.publish 1 0]) (by decide)
  refine ⟨_, _, branchesRow, run_step ((hpurged.snoc hread).append hwritten), ?_, storedArtifact, ?_, ?_⟩
  · decide
  · decide
  · decide

end Runs

end Ripclone.Server.Lifecycle
