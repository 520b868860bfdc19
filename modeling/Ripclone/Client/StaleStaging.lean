import Ripclone.Client.Staging

/-!
# What the passes remove

No pass removes the staging directory of a clone that runs: its marker is locked, or not whole yet.

A pass looks at a marker through the file it opened, and removes the directory by its name. In
between the marker may go, with the directory, and the name may come back as the target of another
clone. So a pass removes only directories with a marker as long as no clone is published onto the
name of a staging directory while its marker is on the way out.
-/

namespace Ripclone.Client.Staging

open Ripclone.Library

section Passes

variable {s t : System} {clone clone' : Clone} {e : Event} {i : Nat} {name : Name}

theorem System.of_removes (h : s.removes e = some name) : ∃ (i : Nat) (clone : Clone) (inode : Nat),
    s.clones[i]? = some clone ∧ clone.pc = .cleaning (.stale name inode) ∧ name ∈ s.dirs := by
  cases e with
  | removeDir i =>
      simp only [System.removes] at h
      split at h
      · next clone there inode hpass =>
          obtain ⟨hclone, hpc⟩ := System.of_passOf hpass
          obtain ⟨hthere, hname⟩ := Option.ite_none_right_eq_some.mp h
          obtain rfl := Option.some.inj hname
          exact ⟨i, clone, inode, hclone, hpc, hthere⟩
      · cases h
  | _ => cases h

/-- A clone that runs has its marker locked, if it is whole. -/
theorem System.Ok.running_locked (h : s.Ok) {inode : Nat} (hclone : s.clones[i]? = some clone)
    (hrunning : clone.running = true) (hmarker : clone.marker = some inode)
    (hwhole : s.contentsOf inode = markerText) : s.lockOf inode = some i := by
  have hmem := List.mem_of_getElem? hclone
  have hmarked : clone.unmarked = false := by
    by_contra hunmarked
    exact h.part clone hmem (by simpa using hunmarked) inode hmarker hwhole
  apply h.holds hclone
  cases hpc : clone.pc with
  | cleaning pass => simp [Clone.running, hpc] at hrunning
  | ended => simp [Clone.running, hpc] at hrunning
  | made =>
      rw [h.unmade clone hmem hpc] at hmarker
      cases hmarker
  | created => simp [Clone.unmarked, hpc] at hmarked
  | locked => simp [Clone.unmarked, hpc] at hmarked
  | discarding => simp [Clone.unmarked, hpc] at hmarked
  | _ => simpa [Clone.holding, hpc] using hmarker

/-- A pass leaves the staging of every clone that runs. -/
theorem System.Ok.running_kept (h : s.Ok) (hremoves : s.removes e = some name)
    (hclone : clone ∈ s.clones) (hrunning : clone.running = true) : clone.staging ≠ some name := by
  intro hstaging
  obtain ⟨p, pass, inode, hpass, hpc, _⟩ := System.of_removes hremoves
  obtain ⟨j, hj⟩ := List.mem_iff_getElem?.mp hclone
  have hmem := List.mem_of_getElem? hpass
  obtain ⟨owner, howner, hname, hinode⟩ := h.handles pass hmem
    (show pass.handle = some (name, inode) by rw [Clone.handle, hpc])
  obtain ⟨k, hk⟩ := List.mem_iff_getElem?.mp howner
  -- The marker the pass has open is the running clone's own.
  obtain rfl := h.names hk hj hname hstaging
  obtain rfl := Option.some.inj (hj.symm.trans hk)
  have hwhole := h.whole pass hmem inode (by rw [Clone.checked, hpc]; rfl)
  have hmine := h.running_locked hj hrunning hinode hwhole
  rw [h.holds hpass (show pass.holding = some inode by rw [Clone.holding, hpc])] at hmine
  obtain rfl := Option.some.inj hmine
  obtain rfl := Option.some.inj (hj.symm.trans hpass)
  simp [Clone.running, hpc] at hrunning

/-- Whether a clone that is published leaves alone the names of markers on the way out: no pass has
a marker of the target's name open that is unlinked, and nobody who found that directory gone is
about to unlink it. -/
def System.Careful (s : System) : Event → Prop
  | .publish i => ∀ clone ∈ s.clones[i]?, ∀ other ∈ s.clones,
      (∀ inode, other.judging = some (clone.target, inode) → (clone.target, inode) ∈ s.markers) ∧
      other.unlinks ≠ some clone.target
  | _ => True

structure System.Tidy (s : System) : Prop where
  linked : ∀ clone ∈ s.clones, ∀ {name : Name} {inode : Nat}, clone.judging = some (name, inode) →
    name ∈ s.dirs → (name, inode) ∈ s.markers
  gone : ∀ clone ∈ s.clones, ∀ {name : Name}, clone.unlinks = some name → name ∉ s.dirs

theorem tidy_init (dirs : List Name) : (System.init dirs).Tidy := by
  constructor <;> simp [System.init]

/-- A step of one clone that makes no directory. -/
theorem System.Tidy.keep (h : s.Tidy) (hclone : s.clones[i]? = some clone)
    (hclones : t.clones = s.clones.set i clone') (hdirs : t.dirs ⊆ s.dirs)
    (hmarkers : ∀ entry ∈ s.markers, entry.1 ∈ t.dirs → entry ∈ t.markers)
    (hjudging : ∀ entry, clone'.judging = some entry → clone.judging = some entry ∨
      entry ∈ s.markers)
    (hunlinks : ∀ name, clone'.unlinks = some name → clone.unlinks = some name ∨ name ∉ t.dirs) :
    t.Tidy := by
  have hmem := List.mem_of_getElem? hclone
  constructor
  · intro other hother name inode hentry hthere
    rw [hclones] at hother
    apply hmarkers (name, inode) _ hthere
    rcases List.mem_or_eq_of_mem_set hother with hold | rfl
    · exact h.linked other hold hentry (hdirs hthere)
    · rcases hjudging _ hentry with hbefore | hlinked
      · exact h.linked clone hmem hbefore (hdirs hthere)
      · exact hlinked
  · intro other hother name hname hthere
    rw [hclones] at hother
    rcases List.mem_or_eq_of_mem_set hother with hold | rfl
    · exact h.gone other hold hname (hdirs hthere)
    · rcases hunlinks name hname with hbefore | hgone
      · exact h.gone clone hmem hbefore (hdirs hthere)
      · exact hgone hthere

/-- A step of one clone that makes a directory. -/
theorem System.Tidy.addDir (h : s.Tidy) (hclones : t.clones = s.clones.set i clone')
    (hdirs : t.dirs ⊆ name :: s.dirs)
    (hmarkers : t.markers = s.markers) (hjudging : clone'.judging = none) (hunlinks : clone'.unlinks = none)
    (hlinked : ∀ other ∈ s.clones, ∀ inode, other.judging = some (name, inode) →
      (name, inode) ∈ s.markers)
    (hgone : ∀ other ∈ s.clones, other.unlinks ≠ some name) : t.Tidy := by
  constructor
  · intro other hother there inode hentry hthere
    rw [hclones] at hother
    rw [hmarkers]
    rcases List.mem_or_eq_of_mem_set hother with hold | rfl
    · rcases List.mem_cons.mp (hdirs hthere) with rfl | hbefore
      · exact hlinked other hold inode hentry
      · exact h.linked other hold hentry hbefore
    · rw [hjudging] at hentry
      cases hentry
  · intro other hother there hname hthere
    rw [hclones] at hother
    rcases List.mem_or_eq_of_mem_set hother with hold | rfl
    · rcases List.mem_cons.mp (hdirs hthere) with rfl | hbefore
      · exact hgone other hold hname
      · exact h.gone other hold hname hbefore
    · rw [hunlinks] at hname
      cases hname

/-- Nobody has to do with a name that is new. -/
theorem System.Ok.fresh (h : s.Ok) (hfresh : name ∉ s.used) {other : Clone}
    (hother : other ∈ s.clones) :
    (∀ inode, other.handle ≠ some (name, inode)) ∧ other.unlinks ≠ some name := by
  have hhandle : ∀ inode, other.handle ≠ some (name, inode) := by
    intro inode hhandle
    obtain ⟨owner, howner, hname, _⟩ := h.handles other hother hhandle
    exact System.staging_of_used hfresh howner hname
  refine ⟨hhandle, fun hunlinks => ?_⟩
  unfold Clone.unlinks at hunlinks
  split at hunlinks
  · next there inode hpc =>
      obtain rfl := Option.some.inj hunlinks
      exact hhandle inode (by rw [Clone.handle, hpc])
  · exact System.staging_of_used hfresh hother hunlinks
  · cases hunlinks

/-- A step that neither opens a marker nor makes or unlinks anything. -/
theorem System.Tidy.keepAll (h : s.Tidy) (hclone : s.clones[i]? = some clone)
    (hclones : t.clones = s.clones.set i clone') (hdirs : t.dirs ⊆ s.dirs)
    (hmarkers : s.markers ⊆ t.markers)
    (hjudging : ∀ entry, clone'.judging = some entry → clone.judging = some entry)
    (hunlinks : clone'.unlinks = none) : t.Tidy := by
  refine h.keep hclone hclones hdirs (fun entry hentry _ => hmarkers hentry)
    (fun entry hentry => .inl (hjudging entry hentry)) ?_
  intro name hname
  rw [hunlinks] at hname
  cases hname

theorem System.dirs_rmDir : (s.rmDir name).dirs ⊆ s.dirs := List.filter_subset_self _

/-- The marker of a directory that is gone is removed. -/
theorem System.Tidy.keep_rmMarker (h : s.Tidy) (hclone : clone ∈ s.clones)
    (hunlinks : clone.unlinks = some name) :
    ∀ entry ∈ s.markers, entry.1 ∈ s.dirs → entry ∈ (s.rmMarker name).markers := by
  intro entry hentry hthere
  refine List.mem_filter.mpr ⟨hentry, decide_eq_true ?_⟩
  intro hname
  exact h.gone clone hclone hunlinks (hname ▸ hthere)

theorem tidy_read (h : s.Tidy) (hstep : s.exec (.read i name) = some t) : t.Tidy := by
  obtain ⟨⟨clone, pass⟩, hpass, hs'⟩ := Option.bind_eq_some_iff.mp hstep
  obtain ⟨hclone, _⟩ := System.of_passOf hpass
  obtain ⟨_, hs'⟩ := Option.ite_none_right_eq_some.mp hs'
  obtain rfl := Option.some.inj hs'
  exact h.keep hclone rfl (List.Subset.refl _) (fun _ hentry _ => hentry) (fun _ => .inl)
    (fun _ => .inl)

theorem tidy_openMarker (h : s.Tidy) (hstep : s.exec (.openMarker i name) = some t) : t.Tidy := by
  simp only [System.exec] at hstep
  split at hstep
  · next clone hpass =>
      obtain ⟨hclone, _⟩ := System.of_passOf hpass
      obtain ⟨_, hopen⟩ := Option.ite_none_right_eq_some.mp hstep
      obtain ⟨inode, hmarker, hs'⟩ := Option.bind_eq_some_iff.mp hopen
      obtain rfl := Option.some.inj hs'
      refine h.keep hclone rfl (List.Subset.refl _) (fun _ hentry _ => hentry) ?_
        (fun _ hname => nomatch hname)
      intro entry hentry
      obtain rfl := Option.some.inj hentry
      exact .inr (System.of_markerAt hmarker)
  · cases hstep

theorem tidy_tryLock (h : s.Tidy) (hstep : s.exec (.tryLock i) = some t) : t.Tidy := by
  simp only [System.exec] at hstep
  split at hstep
  · next clone name inode hpass =>
      obtain ⟨hclone, hpc⟩ := System.of_passOf hpass
      split at hstep
      · obtain rfl := Option.some.inj hstep
        refine h.keepAll hclone rfl (List.Subset.refl _) (List.Subset.refl _) ?_ rfl
        intro entry hentry
        rw [Clone.judging, hpc]
        exact hentry
      · obtain rfl := Option.some.inj hstep
        exact h.keepAll hclone rfl (List.Subset.refl _) (List.Subset.refl _)
          (fun _ hentry => nomatch hentry) rfl
  · cases hstep

theorem tidy_readMarker (h : s.Tidy) (hstep : s.exec (.readMarker i) = some t) : t.Tidy := by
  simp only [System.exec] at hstep
  split at hstep
  · next clone name inode hpass =>
      obtain ⟨hclone, hpc⟩ := System.of_passOf hpass
      split at hstep
      · obtain rfl := Option.some.inj hstep
        refine h.keepAll hclone rfl (List.Subset.refl _) (List.Subset.refl _) ?_ rfl
        intro entry hentry
        rw [Clone.judging, hpc]
        exact hentry
      · obtain rfl := Option.some.inj hstep
        exact h.keepAll hclone rfl (List.Subset.refl _) (List.Subset.refl _)
          (fun _ hentry => nomatch hentry) rfl
  · cases hstep

theorem tidy_removeDir (h : s.Tidy) (hstep : s.exec (.removeDir i) = some t) : t.Tidy := by
  simp only [System.exec] at hstep
  split at hstep
  · next clone name inode hpass =>
      obtain ⟨hclone, _⟩ := System.of_passOf hpass
      obtain ⟨_, hs'⟩ := Option.ite_none_right_eq_some.mp hstep
      obtain rfl := Option.some.inj hs'
      refine h.keep hclone rfl System.dirs_rmDir (fun _ hentry _ => hentry) (fun _ hentry => nomatch hentry) ?_
      intro there hthere
      obtain rfl := Option.some.inj hthere
      exact .inr fun hmem => of_decide_eq_true (List.mem_filter.mp hmem).2 rfl
  · cases hstep

theorem tidy_removeDirFails (h : s.Tidy) (hstep : s.exec (.removeDirFails i) = some t) :
    t.Tidy := by
  simp only [System.exec] at hstep
  split at hstep
  · next clone name inode hpass =>
      obtain ⟨hclone, _⟩ := System.of_passOf hpass
      obtain rfl := Option.some.inj hstep
      exact h.keepAll hclone rfl (List.Subset.refl _) (List.Subset.refl _) (fun _ hentry => nomatch hentry) rfl
  · cases hstep

theorem tidy_removeMarker (h : s.Tidy) (hstep : s.exec (.removeMarker i) = some t) : t.Tidy := by
  simp only [System.exec] at hstep
  split at hstep
  · next clone name inode hpass =>
      obtain ⟨hclone, hpc⟩ := System.of_passOf hpass
      obtain rfl := Option.some.inj hstep
      have hunlinks : clone.unlinks = some name := by rw [Clone.unlinks, hpc]
      exact h.keep hclone rfl (List.Subset.refl _)
        (h.keep_rmMarker (List.mem_of_getElem? hclone) hunlinks) (fun _ hentry => nomatch hentry)
        (fun _ hname => nomatch hname)
  · cases hstep

theorem tidy_makeDir {random : Name} (hok : s.Ok) (h : s.Tidy)
    (hstep : s.exec (.makeDir i random) = some t) : t.Tidy := by
  obtain ⟨clone, _, hs'⟩ := Option.bind_eq_some_iff.mp hstep
  obtain ⟨hfresh, hs'⟩ := Option.ite_none_right_eq_some.mp hs'
  obtain rfl := Option.some.inj hs'
  refine h.addDir rfl (List.Subset.refl _) rfl rfl rfl ?_ ?_
  · intro other hother inode hjudging
    exact absurd (Clone.handle_of_judging hjudging) ((hok.fresh hfresh hother).1 inode)
  · intro other hother
    exact (hok.fresh hfresh hother).2

theorem tidy_publish (h : s.Tidy) (hcareful : s.Careful (.publish i))
    (hstep : s.exec (.publish i) = some t) : t.Tidy := by
  obtain ⟨clone, hfound, hs'⟩ := Option.bind_eq_some_iff.mp hstep
  obtain ⟨hclone, _⟩ := System.of_cloneAt hfound
  obtain ⟨name, _, hs'⟩ := Option.bind_eq_some_iff.mp hs'
  obtain ⟨_, hs'⟩ := Option.ite_none_right_eq_some.mp hs'
  obtain rfl := Option.some.inj hs'
  have hothers := hcareful clone hclone
  refine h.addDir rfl (List.cons_subset_cons _ System.dirs_rmDir) rfl rfl rfl ?_ ?_
  · intro other hother
    exact (hothers other hother).1
  · intro other hother
    exact (hothers other hother).2

theorem tidy_look (h : s.Tidy) (hstep : s.exec (.look i) = some t) : t.Tidy := by
  obtain ⟨clone, hfound, hs'⟩ := Option.bind_eq_some_iff.mp hstep
  obtain ⟨hclone, _⟩ := System.of_cloneAt hfound
  obtain ⟨name, hname, hs'⟩ := Option.bind_eq_some_iff.mp hs'
  obtain rfl := Option.some.inj hs'
  by_cases hthere : name ∈ s.dirs
  · simp only [hthere, if_true]
    exact h.keepAll hclone rfl (List.Subset.refl _) (List.Subset.refl _)
      (fun _ hentry => nomatch hentry) rfl
  · simp only [hthere, if_false]
    refine h.keep hclone rfl (List.Subset.refl _) (fun _ hentry _ => hentry)
      (fun _ hentry => nomatch hentry) ?_
    intro other hother
    obtain rfl := Option.some.inj (hname.symm.trans hother)
    exact .inr hthere

theorem tidy_unlink (h : s.Tidy) (hstep : s.exec (.unlink i) = some t) : t.Tidy := by
  obtain ⟨clone, hfound, hs'⟩ := Option.bind_eq_some_iff.mp hstep
  obtain ⟨hclone, hpc⟩ := System.of_cloneAt hfound
  obtain ⟨name, hname, hs'⟩ := Option.bind_eq_some_iff.mp hs'
  obtain rfl := Option.some.inj hs'
  have hunlinks : clone.unlinks = some name := by
    rw [Clone.unlinks, hpc]
    exact hname
  exact h.keep hclone rfl (List.Subset.refl _)
    (h.keep_rmMarker (List.mem_of_getElem? hclone) hunlinks) (fun _ hentry => nomatch hentry)
    (fun _ hother => nomatch hother)

/-- Every step of a run that is careful keeps the markers of the directories that passes judge. -/
theorem tidy_exec (hok : s.Ok) (h : s.Tidy) (hcareful : s.Careful e) (hstep : s.exec e = some t) :
    t.Tidy := by
  cases e with
  | start target =>
      obtain rfl := Option.some.inj hstep
      constructor
      · intro clone hclone name inode hjudging
        rcases List.mem_append.mp hclone with hold | hnew
        · exact h.linked clone hold hjudging
        · obtain rfl := List.mem_singleton.mp hnew
          cases hjudging
      · intro clone hclone name hunlinks
        rcases List.mem_append.mp hclone with hold | hnew
        · exact h.gone clone hold hunlinks
        · obtain rfl := List.mem_singleton.mp hnew
          cases hunlinks
  | read i name => exact tidy_read h hstep
  | openMarker i name => exact tidy_openMarker h hstep
  | tryLock i => exact tidy_tryLock h hstep
  | readMarker i => exact tidy_readMarker h hstep
  | removeDir i => exact tidy_removeDir h hstep
  | removeDirFails i => exact tidy_removeDirFails h hstep
  | removeMarker i => exact tidy_removeMarker h hstep
  | makeDir i random => exact tidy_makeDir hok h hstep
  | publish i => exact tidy_publish h hcareful hstep
  | look i => exact tidy_look h hstep
  | unlink i => exact tidy_unlink h hstep
  -- The other steps remove nothing and look at nothing, so what a pass knows stays as it is.
  | createMarker i =>
      obtain ⟨clone, hfound, hs'⟩ := Option.bind_eq_some_iff.mp hstep
      obtain ⟨hclone, _⟩ := System.of_cloneAt hfound
      obtain ⟨name, _, hs'⟩ := Option.bind_eq_some_iff.mp hs'
      obtain ⟨_, hs'⟩ := Option.ite_none_right_eq_some.mp hs'
      obtain rfl := Option.some.inj hs'
      exact h.keepAll hclone rfl (List.Subset.refl _) (List.subset_cons_self _ _)
        (fun _ hentry => nomatch hentry) rfl
  | lock i =>
      obtain ⟨clone, hfound, hs'⟩ := Option.bind_eq_some_iff.mp hstep
      obtain ⟨hclone, _⟩ := System.of_cloneAt hfound
      obtain ⟨inode, _, hs'⟩ := Option.bind_eq_some_iff.mp hs'
      obtain ⟨_, hs'⟩ := Option.ite_none_right_eq_some.mp hs'
      obtain rfl := Option.some.inj hs'
      exact h.keepAll hclone rfl (List.Subset.refl _) (List.Subset.refl _)
        (fun _ hentry => nomatch hentry) rfl
  | write i =>
      obtain ⟨clone, hfound, hs'⟩ := Option.bind_eq_some_iff.mp hstep
      obtain ⟨hclone, _⟩ := System.of_cloneAt hfound
      obtain ⟨inode, _, hs'⟩ := Option.bind_eq_some_iff.mp hs'
      obtain rfl := Option.some.inj hs'
      exact h.keepAll hclone rfl (List.Subset.refl _) (List.Subset.refl _)
        (fun _ hentry => nomatch hentry) rfl
  | writeFails i written =>
      obtain ⟨clone, hfound, hs'⟩ := Option.bind_eq_some_iff.mp hstep
      obtain ⟨hclone, _⟩ := System.of_cloneAt hfound
      obtain ⟨inode, _, hs'⟩ := Option.bind_eq_some_iff.mp hs'
      obtain ⟨_, hs'⟩ := Option.ite_none_right_eq_some.mp hs'
      obtain rfl := Option.some.inj hs'
      exact h.keepAll hclone rfl (List.Subset.refl _) (List.Subset.refl _)
        (fun _ hentry => nomatch hentry) rfl
  | discard i =>
      obtain ⟨clone, hfound, hs'⟩ := Option.bind_eq_some_iff.mp hstep
      obtain ⟨hclone, _⟩ := System.of_cloneAt hfound
      obtain ⟨name, _, hs'⟩ := Option.bind_eq_some_iff.mp hs'
      obtain rfl := Option.some.inj hs'
      exact h.keepAll hclone rfl System.dirs_rmDir (List.Subset.refl _)
        (fun _ hentry => nomatch hentry) rfl
  | dropDir i =>
      obtain ⟨clone, hfound, hs'⟩ := Option.bind_eq_some_iff.mp hstep
      obtain ⟨hclone, _⟩ := System.of_cloneAt hfound
      obtain ⟨name, _, hs'⟩ := Option.bind_eq_some_iff.mp hs'
      obtain rfl := Option.some.inj hs'
      exact h.keepAll hclone rfl System.dirs_rmDir (List.Subset.refl _)
        (fun _ hentry => nomatch hentry) rfl
  | die i =>
      obtain ⟨clone, hclone, hs'⟩ := Option.bind_eq_some_iff.mp hstep
      obtain rfl := Option.some.inj hs'
      exact h.keepAll hclone rfl (List.Subset.refl _) (List.Subset.refl _)
        (fun _ hentry => nomatch hentry) rfl
  | createFails i | lockFails i | fail i | dropDirFails i | unlock i =>
      obtain ⟨clone, hfound, hs'⟩ := Option.bind_eq_some_iff.mp hstep
      obtain ⟨hclone, _⟩ := System.of_cloneAt hfound
      obtain rfl := Option.some.inj hs'
      exact h.keepAll hclone rfl (List.Subset.refl _) (List.Subset.refl _)
        (fun _ hentry => nomatch hentry) rfl

/-- A name has one marker. -/
theorem System.Ok.markerAt_of_mem (h : s.Ok) {inode : Nat} (hentry : (name, inode) ∈ s.markers) :
    s.markerAt name = some inode := by
  cases hmarker : s.markerAt name with
  | none =>
      have hnone := Option.map_eq_none_iff.mp hmarker
      have := List.find?_eq_none.mp hnone (name, inode) hentry
      simp at this
  | some other =>
      obtain ⟨a, ha, haName, haInode⟩ := h.entries (System.of_markerAt hmarker)
      obtain ⟨b, hb, hbName, hbInode⟩ := h.entries hentry
      obtain ⟨j, hj⟩ := List.mem_iff_getElem?.mp ha
      obtain ⟨k, hk⟩ := List.mem_iff_getElem?.mp hb
      obtain rfl := h.names hj hk haName hbName
      obtain rfl := Option.some.inj (hj.symm.trans hk)
      exact haInode.symm.trans hbInode

/-- One system call, where no clone is published onto a name whose marker is on the way out. -/
def CarefulStep (s : System) (e : Event) (s' : System) : Prop := Step s e s' ∧ s.Careful e

variable {dirs : List Name} {events : List Event}

theorem ok_run (hrun : Run Step (System.init dirs) events s) : s.Ok :=
  hrun.invariant (ok_init dirs) (fun _ hok hstep => ok_exec hok hstep) (fun _ _ => trivial)

theorem tidy_run (hrun : Run CarefulStep (System.init dirs) events s) : s.Ok ∧ s.Tidy :=
  hrun.invariant (I := fun s => s.Ok ∧ s.Tidy) ⟨ok_init dirs, tidy_init dirs⟩
    (fun _ h hstep => ⟨ok_exec h.1 hstep.1, tidy_exec h.1 h.2 hstep.2 hstep.1⟩) (fun _ _ => trivial)

/-- In every interleaving, no pass removes the staging directory of a clone that runs; and in every
careful one, what a pass removes has a whole marker beside it. -/
theorem passes_remove_stale (hrun : Run Step (System.init dirs) events s) :
    (∀ e name, s.removes e = some name → ∀ clone ∈ s.clones, clone.running = true →
      clone.staging ≠ some name) ∧
    (Run CarefulStep (System.init dirs) events s → ∀ e name, s.removes e = some name →
      ∃ inode, s.markerAt name = some inode ∧ s.contentsOf inode = markerText) := by
  refine ⟨fun e name hremoves clone hclone => (ok_run hrun).running_kept hremoves hclone, ?_⟩
  intro hcareful e name hremoves
  obtain ⟨hok, htidy⟩ := tidy_run hcareful
  obtain ⟨i, clone, inode, hclone, hpc, hthere⟩ := System.of_removes hremoves
  have hmem := List.mem_of_getElem? hclone
  have hjudging : clone.judging = some (name, inode) := by rw [Clone.judging, hpc]
  have hchecked : clone.checked = some inode := by rw [Clone.checked, hpc]
  exact ⟨inode, hok.markerAt_of_mem (htidy.linked clone hmem hjudging hthere),
    hok.whole clone hmem inode hchecked⟩

/-- A clone dies while another runs, and the next one for its target removes what it left. -/
def deadEvents : List Event :=
  [.start ['a'], .makeDir 0 ['x'], .createMarker 0, .lock 0, .write 0, .start ['a'], .makeDir 1 ['y'],
    .createMarker 1, .lock 1, .write 1, .die 0, .start ['a'], .read 2 (stagingName ['a'] ['x']),
    .openMarker 2 (stagingName ['a'] ['x']), .tryLock 2, .readMarker 2]

theorem dead_staging_removed : ∃ s, Run CarefulStep (System.init []) deadEvents s ∧
    s.removes (.removeDir 2) = some (stagingName ['a'] ['x']) ∧
    (∃ clone ∈ s.clones, clone.running = true ∧ clone.staging = some (stagingName ['a'] ['y'])) ∧
    ∃ inode, s.markerAt (stagingName ['a'] ['x']) = some inode ∧
      s.contentsOf inode = markerText := by
  have hruns : (deadEvents.foldlM System.exec (System.init [])).any (fun s =>
      s.removes (.removeDir 2) = some (stagingName ['a'] ['x']) ∧
      s.clones.any fun clone => clone.running && clone.staging = some (stagingName ['a'] ['y'])) =
        true := by
    decide
  obtain ⟨s, hs, hstate⟩ := (Option.any_eq_true _ _).mp hruns
  obtain ⟨hremoves, hother⟩ := of_decide_eq_true hstate
  obtain ⟨clone, hclone, hruns⟩ := List.any_eq_true.mp hother
  obtain ⟨hrunning, hstaging⟩ := (Bool.and_eq_true _ _).mp hruns
  have hrun : Run Step (System.init []) deadEvents s := Run.of_foldlM hs
  have hcareful : Run CarefulStep (System.init []) deadEvents s := by
    have hcareful : ∀ e ∈ deadEvents, ∀ s : System, s.Careful e := by
      simp [deadEvents, System.Careful]
    exact hrun.mono_mem fun s e s' he hstep => ⟨hstep, hcareful e he s⟩
  exact ⟨s, hcareful, hremoves, ⟨clone, hclone, hrunning, of_decide_eq_true hstaging⟩,
    (passes_remove_stale hrun).2 hcareful _ _ hremoves⟩

/-- A pass has the marker of a clone open that is then published and removes the marker. Another
clone is published onto the name of the staging directory that was. -/
def reusedEvents : List Event :=
  [.start ['a'], .makeDir 0 ['x'], .createMarker 0, .lock 0, .write 0, .start ['a'],
    .read 1 (stagingName ['a'] ['x']), .openMarker 1 (stagingName ['a'] ['x']), .publish 0,
    .dropDir 0, .look 0, .unlink 0, .unlock 0, .start (stagingName ['a'] ['x']), .makeDir 2 ['y'],
    .createMarker 2, .lock 2, .write 2, .publish 2, .tryLock 1, .readMarker 1]

/-- The pass goes on to remove that clone, which has no marker. -/
theorem reused_name_removed : ∃ s, Run Step (System.init []) reusedEvents s ∧
    s.removes (.removeDir 1) = some (stagingName ['a'] ['x']) ∧
    s.markerAt (stagingName ['a'] ['x']) = none := by
  have hruns : (reusedEvents.foldlM System.exec (System.init [])).any (fun s =>
      s.removes (.removeDir 1) = some (stagingName ['a'] ['x']) ∧
      s.markerAt (stagingName ['a'] ['x']) = none) = true := by
    decide
  obtain ⟨s, hs, hstate⟩ := (Option.any_eq_true _ _).mp hruns
  exact ⟨s, Run.of_foldlM hs, of_decide_eq_true hstate⟩

end Passes

end Ripclone.Client.Staging
