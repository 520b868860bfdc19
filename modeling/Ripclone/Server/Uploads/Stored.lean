import Ripclone.Library.Table
import Ripclone.Server.Uploads
import Ripclone.Storage.S3.Whole

/-!
# What `finish` lists is stored

Every hash that was started has a task, which `finish` has yet to take, waits for, or saw succeed. So when it
returns, the bucket has what it lists, but for what was started after its last look at the tasks.
-/

namespace Ripclone.Upload

open Ripclone.Library

variable {pfx : String} {etag sha256 : Bytes → String} {s s' : System} {j k b t : Nat} {job job' : Job}
  {uploads uploads' : Uploads}

/-! ## The bucket's uploads -/

/-- An upload is still of the same file, and as far as it was if it had succeeded. -/
def Kept (bucket bucket' : S3.Uploading) (t : Nat) : Prop :=
  ∀ task, bucket.tasks[t]? = some task → ∃ task', bucket'.tasks[t]? = some task' ∧ task'.hash = task.hash ∧
    task'.released = task.released ∧ (task.phase = .done true → task'.phase = .done true)

theorem Kept.refl (bucket : S3.Uploading) (t : Nat) : Kept bucket bucket t :=
  fun task htask => ⟨task, htask, rfl, rfl, id⟩

/-- Another upload changes. -/
theorem kept_set {bucket bucket' : S3.Uploading} {u : Nat} {task : S3.Task}
    (htasks : bucket'.tasks = bucket.tasks.set u task) (hne : t ≠ u) : Kept bucket bucket' t := by
  intro found hfound
  refine ⟨found, ?_, rfl, rfl, id⟩
  rw [htasks, List.getElem?_set_ne (Ne.symm hne)]
  exact hfound

theorem kept_concat {bucket bucket' : S3.Uploading} {task : S3.Task}
    (htasks : bucket'.tasks = bucket.tasks ++ [task]) : Kept bucket bucket' t := by
  intro found hfound
  refine ⟨found, ?_, rfl, rfl, id⟩
  rw [htasks, List.getElem?_append_left (List.getElem?_eq_some_iff.mp hfound).1]
  exact hfound

theorem tasks_sent (bucket : S3.Uploading) (u : Nat) (task : S3.Task) (sends : S3.Sends) (phase : S3.Phase) :
    (bucket.sent pfx etag u task sends phase).tasks = bucket.tasks.set u { task with phase } := by
  cases sends <;> rfl

/-- An upload is cancelled or let go only by name. -/
theorem kept_step {bucket bucket' : S3.Uploading} {event : S3.Event}
    (h : S3.Uploading.Step pfx etag sha256 bucket event bucket') (hcancel : event ≠ .cancel t)
    (hrelease : event ≠ .release t) : Kept bucket bucket' t := by
  cases h with
  | upload hhash => exact kept_concat rfl
  | send htask hrequest => exact Kept.refl bucket t
  | @step u task sends phase htask hstep hpossible =>
      by_cases heq : t = u
      · subst heq
        intro found hfound
        obtain rfl := Option.some.inj (htask.symm.trans hfound)
        refine ⟨{ task with phase := phase }, ?_, rfl, rfl, ?_⟩
        · rw [tasks_sent, List.getElem?_set_self (List.getElem?_eq_some_iff.mp htask).1]
        · -- An upload that ended has no step.
          intro hdone
          rw [hdone] at hstep
          cases hstep
      · exact kept_set (tasks_sent bucket u task sends phase) heq
  | @cancel u task htask => exact kept_set rfl fun heq => hcancel (heq ▸ rfl)
  | @release u task htask => exact kept_set rfl fun heq => hrelease (heq ▸ rfl)
  | deliver hsent => exact Kept.refl bucket t
  | delete hunpinned => exact Kept.refl bucket t

theorem sound_releaseUpload {bucket : S3.Uploading} (h : bucket.Sound pfx sha256) (t : Nat) :
    (releaseUpload bucket t).Sound pfx sha256 := by
  unfold releaseUpload
  split
  · next task htask =>
      have hstep : S3.Uploading.Step pfx (fun _ => "") sha256 bucket (.release t) _ := .release htask
      exact S3.sound_step h hstep
  · exact h

theorem sound_cancelUpload {bucket : S3.Uploading} (h : bucket.Sound pfx sha256) (t : Nat) :
    (cancelUpload bucket t).Sound pfx sha256 := by
  unfold cancelUpload
  split
  · next task htask =>
      have hstep : S3.Uploading.Step pfx (fun _ => "") sha256 bucket (.cancel t) _ := .cancel htask
      exact S3.sound_step h hstep
  · exact h

/-- A new upload is one of the bucket's, which nobody waits for if its build is over. -/
theorem sound_beginUpload {bucket : S3.Uploading} (h : bucket.Sound pfx sha256) {hash : String} {data : Bytes}
    (hhash : sha256 data = hash) (buildOver : Bool) : (beginUpload bucket hash data buildOver).Sound pfx sha256 := by
  have hstep : S3.Uploading.Step pfx (fun _ => "") sha256 bucket (.upload hash data) _ := .upload hhash
  have hsound := S3.sound_step h hstep
  cases buildOver with
  | false => exact hsound
  | true =>
      have hreleased := sound_releaseUpload hsound bucket.tasks.length
      rw [releaseUpload, List.getElem?_concat_length] at hreleased
      simp only [List.set_append_right _ _ (Nat.le_refl _), Nat.sub_self, List.set_cons_zero] at hreleased
      exact hreleased

/-! ## The invariant -/

def Job.holding (job : Job) : Bool := job.stage = .running || job.stage = .putting

def Finish.joined : Finish → List Nat
  | .joining tasks => tasks
  | _ => []

/-- A task's upload is of its file, pinned while its build runs, and done if the task says so. -/
structure JobOk (sha256 : Bytes → String) (s : System) (job : Job) : Prop where
  hash : sha256 job.data = job.hash
  build : ∃ uploads, s.builds[job.build]? = some uploads
  started : job.stage = .putting ∨ job.stage = .ended true → ∃ t, job.upload = some t
  upload : ∀ t, job.upload = some t → ∃ task, s.bucket.tasks[t]? = some task ∧ task.hash = job.hash ∧
    (task.released = true → s.buildOver job.build = true) ∧ (job.stage = .ended true → task.phase = .done true)

/-- Whatever was started has a task that is not lost from sight. -/
structure BuildOk (s : System) (b : Nat) (uploads : Uploads) : Prop where
  started : ∀ hash ∈ uploads.started, ∃ (j : Nat) (job : Job), s.jobs[j]? = some job ∧ job.build = b ∧
    job.hash = hash ∧ (j ∈ uploads.tasks ∨ j ∈ uploads.finish.joined ∨ job.stage = .ended true ∨
      uploads.finish = .returned none)
  joined : ∀ j ∈ uploads.tasks ++ uploads.finish.joined, ∃ job, s.jobs[j]? = some job
  listed : ∀ listed, uploads.finish = .returned (some listed) → listed ⊆ uploads.started

structure System.Ok (pfx : String) (sha256 : Bytes → String) (s : System) : Prop where
  bucket : s.bucket.Sound pfx sha256
  slots : s.slots.Ok
  count : s.slots.free + s.slots.handed.length + s.jobs.countP Job.holding = uploadSlots
  queued : ∀ j, s.slots.Has j ↔ ∃ job, s.jobs[j]? = some job ∧ job.stage = .queued
  jobs : ∀ (j : Nat) (job : Job), s.jobs[j]? = some job → JobOk sha256 s job
  apart : ∀ (j k : Nat) (job job' : Job) (t : Nat), s.jobs[j]? = some job → s.jobs[k]? = some job' →
    job.upload = some t → job'.upload = some t → j = k
  builds : ∀ (b : Nat) (uploads : Uploads), s.builds[b]? = some uploads → BuildOk s b uploads

theorem ok_init : init.Ok pfx sha256 where
  bucket := S3.sound_empty
  slots := Semaphore.ok_new _
  count := rfl
  queued := by
    intro j
    constructor
    · rintro (h | h) <;> cases h
    · rintro ⟨job, hjob, _⟩
      cases hjob
  jobs := by
    intro j job hjob
    cases hjob
  apart := by
    intro j k job job' t hjob
    cases hjob
  builds := by
    intro b uploads huploads
    cases huploads

/-! ### What a step leaves as it was -/

/-- The builds that are over are known as such. -/
def BuildsKept (s s' : System) : Prop :=
  ∀ (b : Nat) (uploads : Uploads), s.builds[b]? = some uploads → ∃ uploads', s'.builds[b]? = some uploads' ∧
    (uploads.ended = true → uploads'.ended = true)

/-- The tasks are of the same files, and those that succeeded did. -/
def JobsKept (s s' : System) : Prop :=
  ∀ (j : Nat) (job : Job), s.jobs[j]? = some job → ∃ job', s'.jobs[j]? = some job' ∧ job'.build = job.build ∧
    job'.hash = job.hash ∧ (job.stage = .ended true → job'.stage = .ended true)

theorem buildOver_kept (h : BuildsKept s s') (hover : s.buildOver b = true) : s'.buildOver b = true := by
  unfold System.buildOver at hover ⊢
  cases hbuild : s.builds[b]? with
  | none =>
      rw [hbuild] at hover
      cases hover
  | some uploads =>
      obtain ⟨uploads', huploads', hended⟩ := h b uploads hbuild
      rw [hbuild] at hover
      rw [huploads']
      exact hended hover

theorem JobOk.mono (h : JobOk sha256 s job) (hbuilds : BuildsKept s s')
    (hkept : ∀ t, job.upload = some t → Kept s.bucket s'.bucket t) : JobOk sha256 s' job where
  hash := h.hash
  build := by
    obtain ⟨uploads, huploads⟩ := h.build
    obtain ⟨uploads', huploads', _⟩ := hbuilds _ _ huploads
    exact ⟨uploads', huploads'⟩
  started := h.started
  upload := by
    intro t ht
    obtain ⟨task, htask, hhash, hreleased, hdone⟩ := h.upload t ht
    obtain ⟨task', htask', hhash', hreleased', hdone'⟩ := hkept t ht task htask
    refine ⟨task', htask', hhash'.trans hhash, fun h' => ?_, fun hstage => hdone' (hdone hstage)⟩
    exact buildOver_kept hbuilds (hreleased (hreleased' ▸ h'))

theorem BuildOk.mono (h : BuildOk s b uploads) (hjobs : JobsKept s s') : BuildOk s' b uploads where
  started := by
    intro hash hhash
    obtain ⟨j, job, hjob, hbuild, hsame, hplace⟩ := h.started hash hhash
    obtain ⟨job', hjob', hbuild', hhash', hdone⟩ := hjobs j job hjob
    refine ⟨j, job', hjob', hbuild'.trans hbuild, hhash'.trans hsame, ?_⟩
    exact hplace.imp_right (Or.imp_right (Or.imp_left hdone))
  joined := by
    intro j hj
    obtain ⟨job, hjob⟩ := h.joined j hj
    obtain ⟨job', hjob', _⟩ := hjobs j job hjob
    exact ⟨job', hjob'⟩
  listed := h.listed

theorem jobsKept_set (hjob : s.jobs[j]? = some job) (hjobs : s'.jobs = s.jobs.set j job')
    (hsame : job'.build = job.build ∧ job'.hash = job.hash)
    (hdone : job.stage = .ended true → job'.stage = .ended true) : JobsKept s s' := by
  intro k found hfound
  by_cases heq : k = j
  · subst heq
    obtain rfl := Option.some.inj (hjob.symm.trans hfound)
    refine ⟨job', ?_, hsame.1, hsame.2, hdone⟩
    rw [hjobs, List.getElem?_set_self (List.getElem?_eq_some_iff.mp hjob).1]
  · refine ⟨found, ?_, rfl, rfl, id⟩
    rw [hjobs, List.getElem?_set_ne (Ne.symm heq)]
    exact hfound

theorem buildsKept_set (huploads : s.builds[b]? = some uploads) (hbuilds : s'.builds = s.builds.set b uploads')
    (hended : uploads.ended = true → uploads'.ended = true) : BuildsKept s s' := by
  intro c found hfound
  by_cases heq : c = b
  · subst heq
    obtain rfl := Option.some.inj (huploads.symm.trans hfound)
    refine ⟨uploads', ?_, hended⟩
    rw [hbuilds, List.getElem?_set_self (List.getElem?_eq_some_iff.mp huploads).1]
  · refine ⟨found, ?_, id⟩
    rw [hbuilds, List.getElem?_set_ne (Ne.symm heq)]
    exact hfound

theorem buildsKept_refl (hbuilds : s'.builds = s.builds) : BuildsKept s s' :=
  fun b uploads huploads => ⟨uploads, by rw [hbuilds, huploads], id⟩

/-- A step of one task. -/
theorem System.Ok.setJob (h : s.Ok pfx sha256) (hjob : s.jobs[j]? = some job) {bucket : S3.Uploading}
    {slots : Semaphore} (hsame : job'.build = job.build ∧ job'.hash = job.hash)
    (hdone : job.stage = .ended true → job'.stage = .ended true) (hbucket : bucket.Sound pfx sha256)
    (hkept : ∀ t, job.upload ≠ some t → (∃ task, s.bucket.tasks[t]? = some task) → Kept s.bucket bucket t)
    (hslots : slots.Ok) (hhas : ∀ k, slots.Has k ↔ (k = j ∧ job'.stage = .queued) ∨ (k ≠ j ∧ s.slots.Has k))
    (hcount : slots.free + slots.handed.length + (if job'.holding then 1 else 0) =
      s.slots.free + s.slots.handed.length + (if job.holding then 1 else 0))
    (hok : JobOk sha256 { s with bucket := bucket } job')
    (hupload : ∀ t, job'.upload = some t → job.upload = some t ∨ s.bucket.tasks[t]? = none) :
    System.Ok pfx sha256 { s with bucket := bucket, slots := slots, jobs := s.jobs.set j job' } where
  bucket := hbucket
  slots := hslots
  count := by
    have hreplaced := Table.countP_replaced Job.holding job' hjob
    have hbefore := h.count
    dsimp only
    omega
  queued := by
    intro k
    rw [hhas]
    dsimp only
    by_cases heq : k = j
    · subst heq
      rw [List.getElem?_set_self (List.getElem?_eq_some_iff.mp hjob).1]
      simp
    · rw [List.getElem?_set_ne (Ne.symm heq), h.queued]
      simp [heq]
  jobs := by
    intro k found hfound
    have hbuilds : BuildsKept s { s with bucket := bucket, slots := slots, jobs := s.jobs.set j job' } :=
      buildsKept_refl rfl
    rcases Table.getElem?_set_cases hfound with ⟨rfl, rfl⟩ | ⟨hne, hbefore⟩
    · exact hok.mono (buildsKept_refl rfl) fun t _ => Kept.refl _ t
    · apply (h.jobs k found hbefore).mono hbuilds
      intro t ht
      obtain ⟨task, htask, _⟩ := (h.jobs k found hbefore).upload t ht
      exact hkept t (fun hmine => hne (h.apart k j found job t hbefore hjob ht hmine)) ⟨task, htask⟩
  apart := by
    intro k l found other t hfound hother hk hl
    -- An upload that the task has now it had before, or is new.
    have hnew : ∀ m mine, m ≠ j → s.jobs[m]? = some mine → mine.upload = some t → job'.upload ≠ some t := by
      intro m mine hne hmine hm hj
      rcases hupload t hj with hold | hnone
      · exact hne (h.apart m j mine job t hmine hjob hm hold)
      · obtain ⟨task, htask, _⟩ := (h.jobs m mine hmine).upload t hm
        rw [hnone] at htask
        cases htask
    rcases Table.getElem?_set_cases hfound with ⟨rfl, rfl⟩ | ⟨hne, hbefore⟩
    · rcases Table.getElem?_set_cases hother with ⟨rfl, rfl⟩ | ⟨hne', hbefore'⟩
      · rfl
      · exact absurd hk (hnew l other hne' hbefore' hl)
    · rcases Table.getElem?_set_cases hother with ⟨rfl, rfl⟩ | ⟨hne', hbefore'⟩
      · exact absurd hl (hnew k found hne hbefore hk)
      · exact h.apart k l found other t hbefore hbefore' hk hl
  builds := fun b uploads huploads => (h.builds b uploads huploads).mono (jobsKept_set hjob rfl hsame hdone)

/-- A step of one build. -/
theorem System.Ok.setBuild (h : s.Ok pfx sha256) (huploads : s.builds[b]? = some uploads)
    (hended : uploads.ended = true → uploads'.ended = true) (hok : BuildOk s b uploads') :
    (s.setBuild b uploads').Ok pfx sha256 where
  bucket := h.bucket
  slots := h.slots
  count := h.count
  queued := h.queued
  jobs := fun j job hjob => (h.jobs j job hjob).mono (buildsKept_set huploads rfl hended) fun t _ => Kept.refl _ t
  apart := h.apart
  builds := by
    intro c found hfound
    have hjobs : JobsKept s (s.setBuild b uploads') := fun j job hjob => ⟨job, hjob, rfl, rfl, id⟩
    rcases Table.getElem?_set_cases hfound with ⟨rfl, rfl⟩ | ⟨_, hbefore⟩
    · exact hok.mono hjobs
    · exact (h.builds c found hbefore).mono hjobs

theorem countP_mapIdx {p : Job → Bool} {f : Nat → Job → Job} (hsame : ∀ j job, p (f j job) = p job)
    (jobs : List Job) : (jobs.mapIdx f).countP p = jobs.countP p := by
  induction jobs generalizing f with
  | nil => rfl
  | cons job rest ih =>
      rw [List.mapIdx_cons, List.countP_cons, List.countP_cons, hsame, ih fun j => hsame (j + 1)]

/-- To be dropped changes nothing else of a task. -/
theorem abortIf_eq (job : Job) (p : Job → Bool) : ∃ aborted, job.abortIf p = { job with aborted := aborted } := by
  unfold Job.abortIf
  split
  · exact ⟨true, rfl⟩
  · exact ⟨job.aborted, rfl⟩

theorem abortAll_getElem? {p : Nat → Job → Bool} (hjob : (s.abortAll p).jobs[j]? = some job') :
    ∃ job aborted, s.jobs[j]? = some job ∧ job' = { job with aborted := aborted } := by
  rw [System.abortAll, List.getElem?_mapIdx] at hjob
  obtain ⟨job, hbefore, rfl⟩ := Option.map_eq_some_iff.mp hjob
  obtain ⟨aborted, heq⟩ := abortIf_eq job (p j)
  exact ⟨job, aborted, hbefore, heq⟩

/-- A task that is dropped stays as it is until it stops. -/
theorem System.Ok.abortAll (h : s.Ok pfx sha256) (p : Nat → Job → Bool) : (s.abortAll p).Ok pfx sha256 where
  bucket := h.bucket
  slots := h.slots
  count := by
    have hsame : ∀ (j : Nat) (job : Job), Job.holding (job.abortIf (p j)) = job.holding := by
      intro j job
      obtain ⟨aborted, heq⟩ := abortIf_eq job (p j)
      rw [heq]
      rfl
    show _ + (s.jobs.mapIdx _).countP Job.holding = _
    rw [countP_mapIdx hsame]
    exact h.count
  queued := by
    intro j
    refine (h.queued j).trans ?_
    constructor
    · rintro ⟨job, hjob, hstage⟩
      obtain ⟨aborted, heq⟩ := abortIf_eq job (p j)
      refine ⟨job.abortIf (p j), ?_, by rw [heq]; exact hstage⟩
      rw [System.abortAll, List.getElem?_mapIdx, hjob]
      rfl
    · rintro ⟨job', hjob', hstage⟩
      obtain ⟨job, aborted, hjob, rfl⟩ := abortAll_getElem? hjob'
      exact ⟨job, hjob, hstage⟩
  jobs := by
    intro j job' hjob'
    obtain ⟨job, aborted, hjob, rfl⟩ := abortAll_getElem? hjob'
    obtain ⟨hhash, hbuild, hstarted, hupload⟩ := h.jobs j job hjob
    exact ⟨hhash, hbuild, hstarted, hupload⟩
  apart := by
    intro j k mine other t hmine hother hj hk
    obtain ⟨job, aborted, hjob, rfl⟩ := abortAll_getElem? hmine
    obtain ⟨job', aborted', hjob', rfl⟩ := abortAll_getElem? hother
    exact h.apart j k job job' t hjob hjob' hj hk
  builds := by
    intro b uploads huploads
    apply (h.builds b uploads huploads).mono
    intro j job hjob
    obtain ⟨aborted, heq⟩ := abortIf_eq job (p j)
    refine ⟨job.abortIf (p j), ?_, by rw [heq], by rw [heq], fun hdone => by rw [heq]; exact hdone⟩
    rw [System.abortAll, List.getElem?_mapIdx, hjob]
    rfl

/-! ### The steps of a task -/

/-- A task goes on, with its slot or without. -/
theorem System.Ok.setStage (h : s.Ok pfx sha256) (hjob : s.jobs[j]? = some job) {slots : Semaphore}
    {stage : Stage} (hbefore : job.stage ≠ .ended true) (hputting : stage ≠ .putting)
    (hended : stage = .ended true → ∃ t task, job.upload = some t ∧ s.bucket.tasks[t]? = some task ∧
      task.phase = .done true)
    (hslots : slots.Ok) (hhas : ∀ k, slots.Has k ↔ (k = j ∧ stage = .queued) ∨ (k ≠ j ∧ s.slots.Has k))
    (hcount : slots.free + slots.handed.length + (if stage = .running then 1 else 0) =
      s.slots.free + s.slots.handed.length + (if job.holding then 1 else 0)) :
    System.Ok pfx sha256 { s with slots := slots, jobs := s.jobs.set j { job with stage := stage } } := by
  obtain ⟨hhash, hbuild, hstarted, hupload⟩ := h.jobs j job hjob
  have hmine : ({ job with stage := stage } : Job).build = job.build ∧
      ({ job with stage := stage } : Job).hash = job.hash := ⟨rfl, rfl⟩
  apply h.setJob hjob hmine (fun hdone => absurd hdone hbefore) h.bucket (fun t _ _ => Kept.refl _ t) hslots hhas
  · simpa [Job.holding, hputting] using hcount
  · refine ⟨hhash, hbuild, ?_, ?_⟩
    · rintro (hstage | hstage)
      · exact absurd hstage hputting
      · obtain ⟨t, _, ht, _⟩ := hended hstage
        exact ⟨t, ht⟩
    · intro t ht
      obtain ⟨task, htask, hsame, hreleased, _⟩ := hupload t ht
      refine ⟨task, htask, hsame, hreleased, fun hstage => ?_⟩
      obtain ⟨u, found, hu, hfound, hdone⟩ := hended hstage
      obtain rfl := Option.some.inj (ht.symm.trans hu)
      obtain rfl := Option.some.inj (htask.symm.trans hfound)
      exact hdone
  · exact fun t ht => .inl ht

/-- A task in a stage other than `queued` does not wait for a slot. -/
theorem System.Ok.not_has (h : s.Ok pfx sha256) (hjob : s.jobs[j]? = some job) (hstage : job.stage ≠ .queued) :
    ¬ s.slots.Has j := by
  intro hhas
  obtain ⟨found, hfound, hqueued⟩ := (h.queued j).mp hhas
  obtain rfl := Option.some.inj (hjob.symm.trans hfound)
  exact hstage hqueued

theorem ok_acquire (h : s.Ok pfx sha256) (hjob : s.jobs[j]? = some job) (hstage : job.stage = .spawned) :
    System.Ok pfx sha256 { s with
      slots := (s.slots.acquire j).1
      jobs := s.jobs.set j { job with stage := if (s.slots.acquire j).2 then .running else .queued } } := by
  have hnew : ¬ s.slots.Has j := h.not_has hjob (by rw [hstage]; exact Stage.noConfusion)
  obtain ⟨hfree, hhanded⟩ := @Semaphore.count_acquire s.slots j
  apply h.setStage hjob
  · rw [hstage]
    exact Stage.noConfusion
  · split <;> exact Stage.noConfusion
  · split <;> exact Stage.noConfusion
  · exact h.slots.acquire hnew
  · intro k
    rw [Semaphore.has_acquire]
    have hne : s.slots.Has k → k ≠ j := fun hk heq => hnew (heq ▸ hk)
    cases (s.slots.acquire j).2 <;> simp <;> tauto
  · have hidle : job.holding = false := by rw [Job.holding, hstage]; rfl
    rw [hhanded, hidle]
    cases htaken : (s.slots.acquire j).2 <;> simp [htaken] at hfree ⊢ <;> omega

theorem ok_resumed (h : s.Ok pfx sha256) (hjob : s.jobs[j]? = some job) (hhanded : j ∈ s.slots.handed) :
    System.Ok pfx sha256 { s with
      slots := s.slots.resume j
      jobs := s.jobs.set j { job with stage := .running } } := by
  have hqueued : job.stage = .queued := by
    obtain ⟨found, hfound, hqueued⟩ := (h.queued j).mp (.inr hhanded)
    obtain rfl := Option.some.inj (hjob.symm.trans hfound)
    exact hqueued
  apply h.setStage hjob
  · rw [hqueued]
    exact Stage.noConfusion
  · exact Stage.noConfusion
  · exact fun hended => Stage.noConfusion hended
  · exact h.slots.resume j
  · intro k
    rw [Semaphore.has_resume h.slots hhanded]
    simp
    tauto
  · have hcount := Semaphore.count_resume hhanded
    have hidle : job.holding = false := by rw [Job.holding, hqueued]; rfl
    rw [hidle]
    simp only [if_true, Bool.false_eq_true, if_false]
    show s.slots.free + _ + 1 = _
    omega

/-- A task that ends gives its slot back. -/
theorem ok_endJob (h : s.Ok pfx sha256) (hjob : s.jobs[j]? = some job) (hholding : job.holding = true) {ok : Bool}
    (hended : ok = true → ∃ t task, job.upload = some t ∧ s.bucket.tasks[t]? = some task ∧
      task.phase = .done true) : (endJob s j job ok).Ok pfx sha256 := by
  have hstage : job.stage = .running ∨ job.stage = .putting := by
    simpa [Job.holding] using hholding
  have hnot : ¬ s.slots.Has j := by
    apply h.not_has hjob
    rcases hstage with hstage | hstage <;> rw [hstage] <;> exact Stage.noConfusion
  apply h.setStage hjob
  · rcases hstage with hstage | hstage <;> rw [hstage] <;> exact Stage.noConfusion
  · exact Stage.noConfusion
  · exact fun hok => hended (Stage.ended.inj hok)
  · exact h.slots.release
  · intro k
    rw [Semaphore.has_release]
    have hne : s.slots.Has k → k ≠ j := fun hk heq => hnot (heq ▸ hk)
    simp
    tauto
  · rw [Semaphore.count_release, hholding]
    simp

/-- The bucket goes on; an upload that a task still waits for may fail. -/
theorem System.Ok.setBucket (h : s.Ok pfx sha256) {bucket : S3.Uploading} (hbucket : bucket.Sound pfx sha256)
    (hkept : ∀ (j : Nat) (job : Job) (t : Nat), s.jobs[j]? = some job → job.upload = some t →
      JobOk sha256 s job → JobOk sha256 { s with bucket := bucket } job) :
    System.Ok pfx sha256 { s with bucket := bucket } where
  bucket := hbucket
  slots := h.slots
  count := h.count
  queued := h.queued
  jobs := by
    intro j job hjob
    have hok := h.jobs j job hjob
    cases hupload : job.upload with
    | some t => exact hkept j job t hjob hupload hok
    | none =>
        obtain ⟨hhash, hbuild, hstarted, _⟩ := hok
        refine ⟨hhash, hbuild, hstarted, fun t ht => ?_⟩
        rw [hupload] at ht
        cases ht
  apart := h.apart
  builds := fun b uploads huploads => (h.builds b uploads huploads).mono fun j job hjob =>
    ⟨job, hjob, rfl, rfl, id⟩

theorem ok_bucket (h : s.Ok pfx sha256) {event : S3.Event} {bucket : S3.Uploading}
    (hstep : S3.Uploading.Step pfx etag sha256 s.bucket event bucket)
    (hcancel : ∀ t, event = .cancel t → ∀ job ∈ s.jobs, job.upload ≠ some t)
    (hrelease : ∀ t, event = .release t → ∀ job ∈ s.jobs, job.upload ≠ some t) :
    System.Ok pfx sha256 { s with bucket := bucket } := by
  apply h.setBucket (S3.sound_step h.bucket hstep)
  intro j job t hjob ht hok
  refine hok.mono (buildsKept_refl (by rfl)) fun u hu => ?_
  have hmem := List.mem_of_getElem? hjob
  exact kept_step hstep (fun heq => hcancel u heq job hmem hu) (fun heq => hrelease u heq job hmem hu)

theorem ok_check (h : s.Ok pfx sha256) (hjob : s.jobs[j]? = some job) (hstage : job.stage = .running)
    (huploads : s.builds[job.build]? = some uploads) : (check s j job uploads).Ok pfx sha256 := by
  have hholding : job.holding = true := by rw [Job.holding, hstage]; rfl
  obtain ⟨hhash, hbuild, hstarted, hupload⟩ := h.jobs j job hjob
  unfold check
  split
  · exact ok_endJob h hjob hholding fun hok => Bool.noConfusion hok
  · have hnot : ¬ s.slots.Has j := h.not_has hjob (by rw [hstage]; exact Stage.noConfusion)
    have hbegun := sound_beginUpload h.bucket hhash uploads.ended
    have hmine : ({ job with stage := .putting, upload := some s.bucket.tasks.length } : Job).build = job.build ∧
        ({ job with stage := .putting, upload := some s.bucket.tasks.length } : Job).hash = job.hash := ⟨rfl, rfl⟩
    apply h.setJob hjob hmine _ hbegun (fun t _ _ => kept_concat rfl) h.slots
    · intro k
      have hne : s.slots.Has k → k ≠ j := fun hk heq => hnot (heq ▸ hk)
      simp
      tauto
    · rw [hholding]
      rfl
    · refine ⟨hhash, hbuild, fun _ => ⟨_, rfl⟩, fun t ht => ?_⟩
      obtain rfl := Option.some.inj ht
      refine ⟨_, List.getElem?_concat_length, rfl, fun hended => ?_, fun hdone => Stage.noConfusion hdone⟩
      show ((s.builds[job.build]?.map Uploads.ended).getD false) = true
      rw [huploads]
      exact hended
    · intro t ht
      obtain rfl := Option.some.inj ht
      exact .inr (List.getElem?_eq_none (Nat.le_refl _))
    · intro hdone
      rw [hstage] at hdone
      cases hdone

/-- A task that is dropped while it uploads drops its upload. -/
theorem ok_cancelUpload (h : s.Ok pfx sha256) (hjob : s.jobs[j]? = some job) (hstage : job.stage = .putting)
    (hupload : job.upload = some t) : System.Ok pfx sha256 { s with bucket := cancelUpload s.bucket t } := by
  apply h.setBucket (sound_cancelUpload h.bucket t)
  intro k other u hother hu hok
  by_cases heq : u = t
  · subst heq
    obtain rfl := h.apart k j other job u hother hjob hu hupload
    obtain rfl := Option.some.inj (hjob.symm.trans hother)
    obtain ⟨hhash, hbuild, hstarted, htask⟩ := hok
    refine ⟨hhash, hbuild, hstarted, fun v hv => ?_⟩
    obtain rfl := Option.some.inj (hu.symm.trans hv)
    obtain ⟨task, hfound, hsame, hreleased, _⟩ := htask u hu
    refine ⟨{ task with phase := .done false }, ?_, hsame, hreleased, fun hdone => ?_⟩
    · simp only [cancelUpload, hfound]
      exact List.getElem?_set_self (List.getElem?_eq_some_iff.mp hfound).1
    · rw [hstage] at hdone
      cases hdone
  · refine hok.mono (buildsKept_refl (by rfl)) fun v hv => ?_
    obtain rfl := Option.some.inj (hu.symm.trans hv)
    dsimp only
    unfold cancelUpload
    split
    · exact kept_set rfl heq
    · exact Kept.refl _ u

theorem ok_abort (h : s.Ok pfx sha256) (hjob : s.jobs[j]? = some job) : (abortJob s j job).Ok pfx sha256 := by
  unfold abortJob
  cases hstage : job.stage with
  | spawned =>
      have hnot : ¬ s.slots.Has j := h.not_has hjob (by rw [hstage]; exact Stage.noConfusion)
      have hidle : job.holding = false := by rw [Job.holding, hstage]; rfl
      apply h.setStage hjob (by rw [hstage]; exact Stage.noConfusion) Stage.noConfusion
        (fun hended => by cases hended) h.slots
      · intro k
        have hne : s.slots.Has k → k ≠ j := fun hk heq => hnot (heq ▸ hk)
        simp
        tauto
      · rw [hidle]
        rfl
  | queued =>
      have hidle : job.holding = false := by rw [Job.holding, hstage]; rfl
      apply h.setStage hjob (by rw [hstage]; exact Stage.noConfusion) Stage.noConfusion
        (fun hended => by cases hended) (h.slots.abandon j)
      · intro k
        rw [Semaphore.has_abandon h.slots]
        simp
        tauto
      · rw [Semaphore.count_abandon, hidle]
        rfl
  | running =>
      have hholding : job.holding = true := by rw [Job.holding, hstage]; rfl
      exact ok_endJob h hjob hholding fun hok => Bool.noConfusion hok
  | putting =>
      have hholding : job.holding = true := by rw [Job.holding, hstage]; rfl
      obtain ⟨t, ht⟩ := (h.jobs j job hjob).started (.inl hstage)
      simp only [ht, Option.map_some, Option.getD_some]
      exact ok_endJob (ok_cancelUpload h hjob hstage ht) hjob hholding fun hok => Bool.noConfusion hok
  | ended ok => exact h

/-! ### The steps of a build -/

theorem ok_new (h : s.Ok pfx sha256) :
    System.Ok pfx sha256 { s with builds := s.builds ++ [⟨[], [], false, .notCalled, false⟩] } where
  bucket := h.bucket
  slots := h.slots
  count := h.count
  queued := h.queued
  jobs := by
    intro j job hjob
    refine (h.jobs j job hjob).mono (fun b uploads huploads => ⟨uploads, ?_, id⟩) fun t _ => Kept.refl _ t
    rw [List.getElem?_append_left (List.getElem?_eq_some_iff.mp huploads).1]
    exact huploads
  apart := h.apart
  builds := by
    intro b uploads huploads
    rcases Table.getElem?_concat_cases huploads with ⟨_, rfl⟩ | hbefore
    · refine ⟨?_, ?_, ?_⟩
      · intro hash hhash
        cases hhash
      · intro j hj
        cases hj
      · intro listed hlisted
        cases hlisted
    · exact (h.builds b uploads hbefore).mono fun j job hjob => ⟨job, hjob, rfl, rfl, id⟩

theorem jobsKept_concat {new : Job} (hjobs : s'.jobs = s.jobs ++ [new]) : JobsKept s s' := by
  intro j job hjob
  refine ⟨job, ?_, rfl, rfl, id⟩
  rw [hjobs, List.getElem?_append_left (List.getElem?_eq_some_iff.mp hjob).1]
  exact hjob

theorem ok_start (h : s.Ok pfx sha256) (huploads : s.builds[b]? = some uploads) {hash : String} {data : Bytes}
    (hhash : sha256 data = hash) : (start s b uploads hash data).Ok pfx sha256 := by
  unfold start
  split
  · exact h
  set s' : System := { s with
    jobs := s.jobs ++ [⟨b, hash, data, .spawned, none, false⟩]
    builds := s.builds.set b { uploads with
      started := uploads.started ++ [hash]
      tasks := uploads.tasks ++ [s.jobs.length] } } with hs'
  -- The new task is the last one, so every other keeps its number.
  have hjobs : JobsKept s s' := jobsKept_concat rfl
  have hbuilds : BuildsKept s s' := buildsKept_set huploads rfl id
  refine ⟨h.bucket, h.slots, ?_, ?_, ?_, ?_, ?_⟩
  · show _ + (s.jobs ++ [_]).countP Job.holding = _
    rw [List.countP_append]
    exact h.count
  · intro j
    refine (h.queued j).trans ⟨?_, ?_⟩
    · rintro ⟨job, hjob, hstage⟩
      refine ⟨job, ?_, hstage⟩
      rw [hs', List.getElem?_append_left (List.getElem?_eq_some_iff.mp hjob).1]
      exact hjob
    · rintro ⟨job, hjob, hstage⟩
      rcases Table.getElem?_concat_cases hjob with ⟨_, rfl⟩ | hbefore
      · cases hstage
      · exact ⟨job, hbefore, hstage⟩
  · intro j job hjob
    rcases Table.getElem?_concat_cases hjob with ⟨_, rfl⟩ | hbefore
    · obtain ⟨uploads', huploads', _⟩ := hbuilds b uploads huploads
      refine ⟨hhash, ⟨uploads', huploads'⟩, ?_, ?_⟩
      · rintro (hstage | hstage) <;> cases hstage
      · intro t ht
        cases ht
    · exact (h.jobs j job hbefore).mono hbuilds fun t _ => Kept.refl _ t
  · intro j k job job' t hjob hjob' hj hk
    rcases Table.getElem?_concat_cases hjob with ⟨_, rfl⟩ | hbefore
    · cases hj
    rcases Table.getElem?_concat_cases hjob' with ⟨_, rfl⟩ | hbefore'
    · cases hk
    exact h.apart j k job job' t hbefore hbefore' hj hk
  · intro c found hfound
    rcases Table.getElem?_set_cases hfound with ⟨rfl, rfl⟩ | ⟨_, hbefore⟩
    · have hok := (h.builds c uploads huploads).mono hjobs
      have hnew : s'.jobs[s.jobs.length]? = some ⟨c, hash, data, .spawned, none, false⟩ :=
        List.getElem?_concat_length
      refine ⟨?_, ?_, ?_⟩
      · intro other hother
        rcases List.mem_append.mp hother with hold | hmine
        · obtain ⟨j, job, hjob, hbuild, hsame, hplace⟩ := hok.started other hold
          exact ⟨j, job, hjob, hbuild, hsame, hplace.imp_left (List.mem_append_left _)⟩
        · obtain rfl := List.mem_singleton.mp hmine
          exact ⟨_, _, hnew, rfl, rfl, .inl (List.mem_append_right _ (List.mem_singleton_self _))⟩
      · intro j hj
        rcases List.mem_append.mp hj with hj | hj
        · rcases List.mem_append.mp hj with hold | hmine
          · exact hok.joined j (List.mem_append_left _ hold)
          · obtain rfl := List.mem_singleton.mp hmine
            exact ⟨_, hnew⟩
        · exact hok.joined j (List.mem_append_right _ hj)
      · exact fun listed hlisted => List.Subset.trans (hok.listed listed hlisted) (List.subset_append_left _ _)
    · exact (h.builds c found hbefore).mono hjobs

/-- `finish` takes the tasks, and waits for them. -/
theorem ok_take (h : s.Ok pfx sha256) (huploads : s.builds[b]? = some uploads)
    (hfinish : uploads.finish = .looking) :
    (s.setBuild b { uploads with
      tasks := []
      finish := if uploads.tasks = [] then .listing else .joining uploads.tasks }).Ok pfx sha256 := by
  have hok := h.builds b uploads huploads
  have hjoined : (if uploads.tasks = [] then Finish.listing else .joining uploads.tasks).joined = uploads.tasks := by
    split
    · next hnone => rw [hnone]; rfl
    · rfl
  refine h.setBuild huploads id ⟨?_, ?_, ?_⟩
  · intro hash hhash
    obtain ⟨j, job, hjob, hbuild, hsame, hplace⟩ := hok.started hash hhash
    refine ⟨j, job, hjob, hbuild, hsame, .inr ?_⟩
    rw [hfinish] at hplace
    rcases hplace with htask | hnone | hdone | hreturned
    · refine .inl ?_
      show j ∈ Finish.joined _
      rw [hjoined]
      exact htask
    · cases hnone
    · exact .inr (.inl hdone)
    · cases hreturned
  · intro j hj
    rcases List.mem_append.mp hj with hnone | hj
    · cases hnone
    · have htask : j ∈ Finish.joined _ := hj
      rw [hjoined] at htask
      exact hok.joined j (List.mem_append_left _ htask)
  · intro listed hlisted
    split at hlisted <;> cases hlisted

/-- Nothing is listed by a `finish` that fails. -/
theorem BuildOk.fails (h : BuildOk s b uploads) : BuildOk s b { uploads with finish := .returned none } where
  started := by
    intro hash hhash
    obtain ⟨j, job, hjob, hbuild, hsame, _⟩ := h.started hash hhash
    exact ⟨j, job, hjob, hbuild, hsame, .inr (.inr (.inr rfl))⟩
  joined := by
    intro j hj
    rcases List.mem_append.mp hj with hj | hj
    · exact h.joined j (List.mem_append_left _ hj)
    · cases hj
  listed := by
    intro listed hlisted
    cases hlisted

theorem ok_join (h : s.Ok pfx sha256) (huploads : s.builds[b]? = some uploads) {tasks : List Nat}
    (hfinish : uploads.finish = .joining tasks) (hjob : s.jobs[j]? = some job) {ok : Bool}
    (hstage : job.stage = .ended ok) : (join s b uploads tasks j ok).Ok pfx sha256 := by
  have hok := h.builds b uploads huploads
  have hjoined : uploads.finish.joined = tasks := by rw [hfinish]; rfl
  unfold join
  split
  · next hsuccess =>
      refine h.setBuild huploads id ⟨?_, ?_, ?_⟩
      · intro hash hhash
        obtain ⟨k, other, hother, hbuild, hsame, hplace⟩ := hok.started hash hhash
        refine ⟨k, other, hother, hbuild, hsame, ?_⟩
        rw [hjoined] at hplace
        rcases hplace with htask | hmine | hdone | hreturned
        · exact .inl htask
        · by_cases heq : k = j
          · subst heq
            obtain rfl := Option.some.inj (hjob.symm.trans hother)
            exact .inr (.inr (.inl (hsuccess ▸ hstage)))
          · exact .inr (.inl ((List.mem_erase_of_ne heq).mpr hmine))
        · exact .inr (.inr (.inl hdone))
        · rw [hfinish] at hreturned
          cases hreturned
      · intro k hk
        rcases List.mem_append.mp hk with hk | hk
        · exact hok.joined k (List.mem_append_left _ hk)
        · exact hok.joined k (List.mem_append_right _ (hjoined ▸ List.mem_of_mem_erase hk))
      · intro listed hlisted
        cases hlisted
  · apply System.Ok.abortAll
    exact h.setBuild huploads id hok.fails

/-- `finish` goes on without a task to wait for. -/
theorem System.Ok.goOn (h : s.Ok pfx sha256) (huploads : s.builds[b]? = some uploads) {finish : Finish}
    (hjoined : uploads.finish.joined = []) (hreturned : uploads.finish ≠ .returned none)
    (hnone : finish.joined = [])
    (hlisted : ∀ listed, finish = .returned (some listed) → listed ⊆ uploads.started) :
    (s.setBuild b { uploads with finish := finish }).Ok pfx sha256 := by
  have hok := h.builds b uploads huploads
  refine h.setBuild huploads id ⟨?_, ?_, hlisted⟩
  · intro hash hhash
    obtain ⟨j, job, hjob, hbuild, hsame, hplace⟩ := hok.started hash hhash
    refine ⟨j, job, hjob, hbuild, hsame, ?_⟩
    rw [hjoined] at hplace
    rcases hplace with htask | hmine | hdone | hback
    · exact .inl htask
    · cases hmine
    · exact .inr (.inr (.inl hdone))
    · exact absurd hback hreturned
  · intro j hj
    rw [hnone, List.append_nil] at hj
    exact hok.joined j (List.mem_append_left _ hj)

theorem ok_drop (h : s.Ok pfx sha256) (huploads : s.builds[b]? = some uploads) :
    (drop s b uploads).Ok pfx sha256 := by
  have hok := h.builds b uploads huploads
  apply System.Ok.abortAll
  refine h.setBuild huploads id ?_
  cases hfinish : uploads.finish with
  | returned uploaded =>
      dsimp only
      rw [← hfinish]
      exact hok
  | _ => exact hok.fails

/-- Letting uploads go leaves them as far as they are. -/
theorem releaseAll_getElem? {bucket : S3.Uploading} {task : S3.Task} (ts : List Nat)
    (htask : bucket.tasks[t]? = some task) : ∃ task', (ts.foldl releaseUpload bucket).tasks[t]? = some task' ∧
      task'.hash = task.hash ∧ task'.phase = task.phase ∧ (t ∉ ts → task'.released = task.released) := by
  induction ts generalizing bucket task with
  | nil => exact ⟨task, htask, rfl, rfl, fun _ => rfl⟩
  | cons u rest ih =>
      have hfirst : ∃ task', (releaseUpload bucket u).tasks[t]? = some task' ∧ task'.hash = task.hash ∧
          task'.phase = task.phase ∧ (t ≠ u → task'.released = task.released) := by
        unfold releaseUpload
        split
        · next found hfound =>
            by_cases heq : t = u
            · subst heq
              obtain rfl := Option.some.inj (hfound.symm.trans htask)
              refine ⟨{ found with released := true }, ?_, rfl, rfl, fun hne => absurd rfl hne⟩
              exact List.getElem?_set_self (List.getElem?_eq_some_iff.mp htask).1
            · refine ⟨task, ?_, rfl, rfl, fun _ => rfl⟩
              dsimp only
              rw [List.getElem?_set_ne (Ne.symm heq)]
              exact htask
        · exact ⟨task, htask, rfl, rfl, fun _ => rfl⟩
      obtain ⟨first, hfirst, hhash, hphase, hreleased⟩ := hfirst
      obtain ⟨last, hlast, hhash', hphase', hreleased'⟩ := ih hfirst
      refine ⟨last, hlast, hhash'.trans hhash, hphase'.trans hphase, fun hnot => ?_⟩
      rw [List.mem_cons, not_or] at hnot
      exact (hreleased' hnot.2).trans (hreleased hnot.1)

theorem sound_releaseAll {bucket : S3.Uploading} (h : bucket.Sound pfx sha256) (ts : List Nat) :
    (ts.foldl releaseUpload bucket).Sound pfx sha256 := by
  induction ts generalizing bucket with
  | nil => exact h
  | cons t rest ih => exact ih (sound_releaseUpload h t)

theorem mem_uploadsOf : t ∈ s.uploadsOf b ↔ ∃ job ∈ s.jobs, job.build = b ∧ job.upload = some t := by
  simp only [System.uploadsOf, List.mem_filterMap, List.mem_filter, decide_eq_true_eq]
  constructor
  · rintro ⟨job, ⟨hmem, hbuild⟩, ht⟩
    exact ⟨job, hmem, hbuild, ht⟩
  · rintro ⟨job, hmem, hbuild, ht⟩
    exact ⟨job, ⟨hmem, hbuild⟩, ht⟩

theorem ok_release (h : s.Ok pfx sha256) (huploads : s.builds[b]? = some uploads) :
    System.Ok pfx sha256 { s with
      bucket := (s.uploadsOf b).foldl releaseUpload s.bucket
      builds := s.builds.set b { uploads with ended := true } } := by
  set s' : System := { s with
    bucket := (s.uploadsOf b).foldl releaseUpload s.bucket
    builds := s.builds.set b { uploads with ended := true } } with hs'
  have hbuilds : BuildsKept s s' := buildsKept_set huploads rfl fun _ => rfl
  have hjobs : JobsKept s s' := fun j job hjob => ⟨job, hjob, rfl, rfl, id⟩
  have hover : s'.buildOver b = true := by
    rw [hs', System.buildOver, List.getElem?_set_self (List.getElem?_eq_some_iff.mp huploads).1]
    rfl
  refine ⟨sound_releaseAll h.bucket _, h.slots, h.count, h.queued, ?_, h.apart, ?_⟩
  · intro j job hjob
    obtain ⟨hhash, ⟨mine, hmine⟩, hstarted, hupload⟩ := h.jobs j job hjob
    obtain ⟨mine', hmine', _⟩ := hbuilds _ _ hmine
    refine ⟨hhash, ⟨mine', hmine'⟩, hstarted, fun t ht => ?_⟩
    obtain ⟨task, htask, hsame, hreleased, hdone⟩ := hupload t ht
    obtain ⟨task', htask', hsame', hphase, hreleased'⟩ := releaseAll_getElem? (s.uploadsOf b) htask
    refine ⟨task', htask', hsame'.trans hsame, fun h' => ?_, fun hstage => hphase.trans (hdone hstage)⟩
    by_cases hmem : t ∈ s.uploadsOf b
    · -- Only one task has the upload, so it is one of the build that is over.
      obtain ⟨other, hother, hbuild, ht'⟩ := mem_uploadsOf.mp hmem
      obtain ⟨k, hk⟩ := List.getElem?_of_mem hother
      obtain rfl := h.apart j k job other t hjob hk ht ht'
      obtain rfl := Option.some.inj (hjob.symm.trans hk)
      rw [hbuild]
      exact hover
    · exact buildOver_kept hbuilds (hreleased (hreleased' hmem ▸ h'))
  · intro c found hfound
    rcases Table.getElem?_set_cases hfound with ⟨rfl, rfl⟩ | ⟨_, hbefore⟩
    · have hok := (h.builds c uploads huploads).mono hjobs
      exact ⟨hok.started, hok.joined, hok.listed⟩
    · exact (h.builds c found hbefore).mono hjobs

/-! ### Runs -/

theorem ok_step {event : Event} (h : s.Ok pfx sha256) (hstep : Step pfx etag sha256 s event s') :
    s'.Ok pfx sha256 := by
  cases hstep with
  | new => exact ok_new h
  | start huploads hended hhash => exact ok_start h huploads hhash
  | acquire hjob hstage => exact ok_acquire h hjob hstage
  | resumed hjob hhanded => exact ok_resumed h hjob hhanded
  | check hjob hstage huploads => exact ok_check h hjob hstage huploads
  | @put j t job task ok hjob hstage hupload htask hphase =>
      apply ok_endJob h hjob (by rw [Job.holding, hstage]; rfl)
      rintro rfl
      exact ⟨t, task, hupload, htask, hphase⟩
  | abort hjob haborted => exact ok_abort h hjob
  | bucket hstep hcancel hrelease => exact ok_bucket h hstep hcancel hrelease
  | finish huploads hfinish =>
      apply h.goOn huploads _ _ rfl (fun listed hlisted => by cases hlisted)
      · rw [hfinish]
        rfl
      · rw [hfinish]
        exact Finish.noConfusion
  | take huploads hfinish => exact ok_take h huploads hfinish
  | join huploads hfinish hj hjob hstage => exact ok_join h huploads hfinish hjob hstage
  | again huploads hfinish =>
      apply h.goOn huploads _ _ rfl (fun listed hlisted => by cases hlisted)
      · rw [hfinish]
        rfl
      · rw [hfinish]
        exact Finish.noConfusion
  | @list b uploads huploads hfinish =>
      apply h.goOn huploads _ _ rfl
      · intro listed hlisted
        obtain rfl := Option.some.inj (Finish.returned.inj hlisted)
        exact List.Subset.refl _
      · rw [hfinish]
        rfl
      · rw [hfinish]
        exact Finish.noConfusion
  | cancel huploads =>
      have hok := h.builds _ _ huploads
      exact h.setBuild huploads id ⟨hok.started, hok.joined, hok.listed⟩
  | drop huploads => exact ok_drop h huploads
  | release huploads => exact ok_release h huploads

theorem ok_run {events : List Event} (hrun : Run (Step pfx etag sha256) init events s) : s.Ok pfx sha256 := by
  refine hrun.invariant (I := System.Ok pfx sha256) (P := fun _ => True) ok_init ?_ (by simp)
  intro event s s' _ h hstep
  exact ok_step h hstep

/-! ## A wait ends -/

/-- The `finish` of build `b` waits for task `j`: it joins the task, or it joins one that waits for a slot,
and `j` was handed a slot or has one. -/
def System.WaitsFor (s : System) (b j : Nat) : Prop :=
  ∃ uploads, s.builds[b]? = some uploads ∧ (j ∈ uploads.finish.joined ∨
    (∃ k ∈ uploads.finish.joined, ∃ job, s.jobs[k]? = some job ∧ job.stage = .queued) ∧
      (j ∈ s.slots.handed ∨ ∃ job, s.jobs[j]? = some job ∧ job.holding = true))

/-- A step that the `finish` of build `b` waits for: its own, one of a task that it waits for, or of the
task's upload. -/
def System.Awaits (s : System) (b : Nat) : Event → Prop
  | .join build _ | .again build => build = b
  | .acquire j | .resumed j | .check j | .put j => s.WaitsFor b j
  | .bucket (.step t) => ∃ j job, s.jobs[j]? = some job ∧ job.upload = some t ∧ s.WaitsFor b j
  | _ => False

/-- Something that the `finish` of build `b` waits for can go on. An upload sends a PUT only if it waits for a
slot of the server-wide limit on PUTs, which it is granted. -/
def System.CanGoOn (pfx : String) (etag sha256 : Bytes → String) (s : System) (b : Nat) : Prop :=
  ∃ event s', s.Awaits b event ∧ Step pfx etag sha256 s event s' ∧
    ∀ t, event = .bucket (.step t) → ∃ task, s.bucket.tasks[t]? = some task ∧
      S3.Uploading.GoesOn pfx etag task.phase.awaitsSlot s.bucket t s'.bucket

theorem System.CanGoOn.of_step {b : Nat} (event : Event) {s' : System} (hawaits : s.Awaits b event)
    (hstep : Step pfx etag sha256 s event s') (hown : ∀ t, event ≠ .bucket (.step t)) :
    s.CanGoOn pfx etag sha256 b :=
  ⟨event, s', hawaits, hstep, fun t ht => absurd ht (hown t)⟩

/-- A task with a slot can go on. -/
theorem System.Ok.holding_step (h : s.Ok pfx sha256) {b : Nat} (hwaits : s.WaitsFor b j)
    (hjob : s.jobs[j]? = some job) (hholding : job.holding = true) : s.CanGoOn pfx etag sha256 b := by
  have hok := h.jobs j job hjob
  have hstage : job.stage = .running ∨ job.stage = .putting := by
    simpa [Job.holding] using hholding
  rcases hstage with hstage | hstage
  · obtain ⟨uploads, huploads⟩ := hok.build
    exact .of_step (.check j) hwaits (.check hjob hstage huploads) fun _ => Event.noConfusion
  · obtain ⟨t, ht⟩ := hok.started (.inl hstage)
    obtain ⟨task, htask, _⟩ := hok.upload t ht
    by_cases hdone : ∃ ok, task.phase = .done ok
    · obtain ⟨ok, hphase⟩ := hdone
      exact .of_step (.put j) hwaits (.put hjob hstage ht htask hphase) fun _ => Event.noConfusion
    · obtain ⟨bucket, hgoes⟩ := S3.can_step h.bucket htask fun ok hphase => hdone ⟨ok, hphase⟩
      refine ⟨.bucket (.step t), _, ⟨j, job, hjob, ht, hwaits⟩, .bucket hgoes.step ?_ ?_, ?_⟩
      · intro u hu
        cases hu
      · intro u hu
        cases hu
      · rintro u ⟨⟩
        exact ⟨task, htask, hgoes⟩

/-- A task that waits for a slot was handed one, or others have them all, and can go on. -/
theorem System.Ok.queued_step (h : s.Ok pfx sha256) {b : Nat} {uploads : Uploads}
    (huploads : s.builds[b]? = some uploads) (hjoined : j ∈ uploads.finish.joined)
    (hjob : s.jobs[j]? = some job) (hstage : job.stage = .queued) : s.CanGoOn pfx etag sha256 b := by
  have hqueued : ∃ k ∈ uploads.finish.joined, ∃ job, s.jobs[k]? = some job ∧ job.stage = .queued :=
    ⟨j, hjoined, job, hjob, hstage⟩
  have hhanded : ∀ k ∈ s.slots.handed, s.CanGoOn pfx etag sha256 b := by
    intro k hk
    obtain ⟨other, hother, _⟩ := (h.queued k).mp (.inr hk)
    have hwaits : s.WaitsFor b k := ⟨uploads, huploads, .inr ⟨hqueued, .inl hk⟩⟩
    exact .of_step (.resumed k) hwaits (.resumed hother hk) fun _ => Event.noConfusion
  rcases (h.queued j).mpr ⟨job, hjob, hstage⟩ with hwaiting | hmine
  · have hfree := h.slots.free (List.ne_nil_of_mem hwaiting)
    have hcount := h.count
    cases hnone : s.slots.handed with
    | cons k rest => exact hhanded k (hnone ▸ List.mem_cons_self)
    | nil =>
        rw [hfree, hnone] at hcount
        have hpos : 0 < s.jobs.countP Job.holding := by
          rw [List.length_nil, Nat.zero_add] at hcount
          rw [hcount]
          decide
        obtain ⟨other, hother, hholding⟩ := List.countP_pos_iff.mp hpos
        obtain ⟨k, hk⟩ := List.getElem?_of_mem hother
        exact h.holding_step ⟨uploads, huploads, .inr ⟨hqueued, .inr ⟨other, hk, hholding⟩⟩⟩ hk hholding
  · exact hhanded j hmine

/-- In every run of any number of builds: when a build's `finish` has returned and its pins are held, each hash
that was started is in the bucket, with the bytes it is the hash of, unless its task was started after the last
look at the tasks. No more uploads run than there are slots. And while a `finish` waits, something that it waits
for can go on, be it with a slot for a PUT. -/
theorem finish_stored {events : List Event} (hrun : Run (Step pfx etag sha256) init events s) :
    (∀ (b : Nat) (uploads : Uploads) (listed : List String), s.builds[b]? = some uploads →
      uploads.finish = .returned (some listed) → uploads.ended = false → listed ⊆ uploads.started ∧
      ∀ hash ∈ uploads.started,
        (∃ j ∈ uploads.tasks, ∃ job, s.jobs[j]? = some job ∧ job.hash = hash) ∨
          ∃ object, s.bucket.bucket.objects (S3.key pfx hash) = some object ∧ sha256 object = hash) ∧
    s.jobs.countP Job.holding ≤ uploadSlots ∧
    (∀ (b : Nat) (uploads : Uploads) (tasks : List Nat), s.builds[b]? = some uploads →
      uploads.finish = .joining tasks → s.CanGoOn pfx etag sha256 b) := by
  have h : s.Ok pfx sha256 := ok_run hrun
  refine ⟨?_, ?_, ?_⟩
  · intro b uploads listed huploads hfinish hended
    have hok := h.builds b uploads huploads
    refine ⟨hok.listed listed hfinish, fun hash hhash => ?_⟩
    obtain ⟨j, job, hjob, hbuild, rfl, hplace⟩ := hok.started hash hhash
    rw [hfinish] at hplace
    rcases hplace with htask | hmine | hdone | hreturned
    · exact .inl ⟨j, htask, job, hjob, rfl⟩
    · cases hmine
    · -- Its upload succeeded, and is pinned since.
      have hjobOk := h.jobs j job hjob
      obtain ⟨t, ht⟩ := hjobOk.started (.inr hdone)
      obtain ⟨task, htask, hsame, hreleased, hphase⟩ := hjobOk.upload t ht
      have hheld : task.released = false := by
        by_contra hnot
        have hover := hreleased (by simpa using hnot)
        rw [System.buildOver, hbuild, huploads] at hover
        rw [Option.map_some, Option.getD_some, hended] at hover
        cases hover
      have hfits := (h.bucket.tasks task (List.mem_of_getElem? htask)).2
      rw [hphase hdone, hsame] at hfits
      obtain ⟨object, hobject⟩ := Option.ne_none_iff_exists'.mp (hfits hheld)
      exact .inr ⟨object, hobject, h.bucket.bucket.objects _ _ hobject⟩
    · cases hreturned
  · have hcount := h.count
    omega
  · intro b uploads tasks huploads hfinish
    cases tasks with
    | nil =>
        exact .of_step (.again b) rfl (.again huploads hfinish) fun _ => Event.noConfusion
    | cons j rest =>
        have hjoined : j ∈ uploads.finish.joined := by
          rw [hfinish]
          exact List.mem_cons_self
        have hwaits : s.WaitsFor b j := ⟨uploads, huploads, .inl hjoined⟩
        obtain ⟨job, hjob⟩ := (h.builds b uploads huploads).joined j (List.mem_append_right _ hjoined)
        cases hstage : job.stage with
        | spawned =>
            exact .of_step (.acquire j) hwaits (.acquire hjob hstage) fun _ => Event.noConfusion
        | queued => exact h.queued_step huploads hjoined hjob hstage
        | running => exact h.holding_step hwaits hjob (by rw [Job.holding, hstage]; rfl)
        | putting => exact h.holding_step hwaits hjob (by rw [Job.holding, hstage]; rfl)
        | ended ok =>
            exact .of_step (.join b j) rfl
              (.join huploads hfinish List.mem_cons_self hjob hstage) fun _ => Event.noConfusion

section TwoBuilds

/-- The SHA-256 of three bytes. -/
def abcHash : String := "039058c6f2c0cb492c533b0a4d14ef77cc0f78abccced5287d84a1a2011cfb81"

def abcData : Bytes := [1, 2, 3]

def abcSha256 (_ : Bytes) : String := abcHash

abbrev SampleStep : System → Event → System → Prop := Step "" S3.sampleEtag abcSha256

def noUploads : Uploads := ⟨[], [], false, .notCalled, false⟩

/-- A build that has started the artifact's task `j`. -/
def startedUploads (j : Nat) : Uploads := ⟨[abcHash], [j], false, .notCalled, false⟩

def twoBuilds : System := { init with builds := [noUploads, noUploads] }

def oneTask : System :=
  { twoBuilds with
    jobs := [⟨0, abcHash, abcData, .spawned, none, false⟩]
    builds := [startedUploads 0, noUploads] }

/-- Each build has spawned a task for the artifact. -/
def twoTasks : System :=
  { twoBuilds with
    jobs := [⟨0, abcHash, abcData, .spawned, none, false⟩, ⟨1, abcHash, abcData, .spawned, none, false⟩]
    builds := [startedUploads 0, startedUploads 1] }

theorem abc_started : ∃ events, Run SampleStep init events twoTasks := by
  have hfirst : start twoBuilds 0 noUploads abcHash abcData = oneTask := if_neg (by decide)
  have hsecond : start oneTask 1 noUploads abcHash abcData = twoTasks := if_neg (by decide)
  have hone : SampleStep twoBuilds (.start 0 abcHash abcData) oneTask := by
    rw [← hfirst]
    exact .start rfl rfl rfl
  have htwo : SampleStep oneTask (.start 1 abcHash abcData) twoTasks := by
    rw [← hsecond]
    exact .start rfl rfl rfl
  exact ⟨_, (((Run.nil.snoc .new).snoc .new).snoc hone).snoc htwo⟩

/-- Both are about to send it in a single PUT when the first build's `finish` waits for its task. That task
goes on, and `finish` looks again and lists the artifact. -/
theorem abc_listed :
    (∃ events s, Run SampleStep init events s ∧
      s.builds = [⟨[abcHash], [], false, .joining [0], false⟩, startedUploads 1]) ∧
    ∃ events s, Run SampleStep init events s ∧
      s.builds = [⟨[abcHash], [], false, .returned (some [abcHash]), false⟩, startedUploads 1] := by
  obtain ⟨events, hrun⟩ := abc_started
  have hslots := (hrun.snoc (e := .acquire 0) (.acquire rfl rfl)).snoc (e := .acquire 1) (.acquire rfl rfl)
  have hrunning := (hslots.snoc (e := .check 0) (.check rfl rfl rfl)).snoc (e := .check 1) (.check rfl rfl rfl)
  have hstat := hrunning.snoc (e := .bucket (.step 0))
    (.bucket (.step rfl (.stat true) (by exact trivial)) (fun _ h => by cases h) (fun _ h => by cases h))
  have hstats := hstat.snoc (e := .bucket (.step 1))
    (.bucket (.step rfl (.stat true) (by exact trivial)) (fun _ h => by cases h) (fun _ h => by cases h))
  have htaken := (hstats.snoc (e := .finish 0) (.finish rfl rfl)).snoc (e := .take 0) (.take rfl rfl)
  refine ⟨⟨_, _, htaken, rfl⟩, ?_⟩
  have hput := htaken.snoc (e := .bucket (.step 0))
    (.bucket (.step rfl .put (by exact trivial)) (fun _ h => by cases h) (fun _ h => by cases h))
  have hdone := hput.snoc (e := .put 0) (.put rfl rfl rfl rfl rfl)
  have hjoined := hdone.snoc (e := .join 0 0) (.join rfl rfl (List.mem_singleton_self 0) rfl rfl)
  have hagain := (hjoined.snoc (e := .again 0) (.again rfl rfl)).snoc (e := .take 0) (.take rfl rfl)
  exact ⟨_, _, hagain.snoc (e := .list 0) (.list rfl rfl), rfl⟩

theorem abc_stored :
    (∃ events s, Run SampleStep init events s ∧ s.CanGoOn "" S3.sampleEtag abcSha256 0) ∧
    ∃ events s, Run SampleStep init events s ∧
      ∃ object, s.bucket.bucket.objects (S3.key "" abcHash) = some object ∧ abcSha256 object = abcHash := by
  obtain ⟨⟨events, s, hwaiting, hjoining⟩, later, s', hrun, hbuilds⟩ := abc_listed
  constructor
  · obtain ⟨_, _, hgoes⟩ := finish_stored hwaiting
    exact ⟨events, s, hwaiting, hgoes 0 _ [0] (congrArg (fun builds => builds[0]?) hjoining) rfl⟩
  · obtain ⟨hstored, _⟩ := finish_stored hrun
    obtain ⟨_, hhash⟩ := hstored 0 _ [abcHash] (congrArg (fun builds => builds[0]?) hbuilds) rfl rfl
    rcases hhash abcHash List.mem_cons_self with ⟨j, hj, _⟩ | hobject
    · cases hj
    · exact ⟨later, s', hrun, hobject⟩

end TwoBuilds

end Ripclone.Upload
