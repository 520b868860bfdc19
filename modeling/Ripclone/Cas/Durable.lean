import Ripclone.Cas

/-!
# What a durable store keeps

Whatever builds do in it at once, and wherever a crash comes, an object's path leads to nothing or to all
the bytes of its hash. An object whose `install` came to its end is there until it is deleted, after a crash
too, unless a build found a directory that another one was still about to sync. An object that a build found
in place, and kept, is one that another build may still be about to sync.
-/

namespace Ripclone.Cas

open Ripclone.Library

variable (hashes : Hashes)

/-- An object's bytes have its name as their hash. -/
def Named (key : String × String) (data : Bytes) : Prop := hashes.forObjectId key.2 data = key.2

/-- What holds of the store between any two calls. -/
structure Store.Ok (s : Store) : Prop where
  intact : s.disk.Intact (Named hashes)
  stored : ∀ hash ∈ s.stored,
    s.disk.Present (objectKey hash) ∧ s.disk.dirs (objectKey hash).1 = some true
  atRisk : ∀ hash ∈ s.atRisk, s.disk.Present (objectKey hash)
  raced : s.raced = false → s.atRisk = []

/-- What build `t` may rely on, but for its file `touched`. -/
structure Keeps (touched : Option Nat) (t : Nat) (s s' : Store) : Prop where
  own : ∀ (file : Nat) (f : DiskFile Bytes), touched ≠ some file → s.disk.files[file]? = some f →
    f.owner = t → s.disk.Unlinked file → s'.disk.files[file]? = some f ∧ s'.disk.Unlinked file
  dirs : ∀ dir, s.disk.dirs dir ≠ none → s'.disk.dirs dir ≠ none
  synced : ∀ dir, s.disk.dirs dir = some true → s'.disk.dirs dir = some true
  pins : ∀ hash, (t, hash) ∈ s.pins → (t, hash) ∈ s'.pins
  present : ∀ hash, (t, hash) ∈ s.pins → s.disk.Present (objectKey hash) → s'.disk.Present (objectKey hash)
  entry : ∀ hash, (t, hash) ∈ s.pins → s.disk.entries (objectKey hash) ≠ none →
    s'.disk.entries (objectKey hash) ≠ none
  raced : s.raced = true → s'.raced = true

/-! ## What a build knows -/

/-- The build has a file that no name leads to, with these bytes. -/
def Own (t file : Nat) (data : Bytes) (synced : Bool) (s : Store) : Prop :=
  s.disk.files[file]? = some ⟨t, data, synced⟩ ∧ s.disk.Unlinked file

def Pinned (t : Nat) (hash : String) (s : Store) : Prop := (t, hash) ∈ s.pins

/-- The object's directory is there, and on disk if no build was too fast. -/
def DirReady (hash : String) (s : Store) : Prop :=
  s.disk.dirs (objectKey hash).1 ≠ none ∧ (s.raced = false → s.disk.dirs (objectKey hash).1 = some true)

/-- The others do not change it. -/
def Stable (t : Nat) (K : Store → Prop) : Prop := ∀ s s', K s → Keeps none t s s' → K s'

section Stable

variable {t file : Nat} {hash : String} {data : Bytes} {synced : Bool} {touched : Option Nat} {s s' : Store}
  {K L : Store → Prop}

theorem Own.keeps (h : Own t file data synced s) (hkeeps : Keeps touched t s s') (hne : touched ≠ some file) :
    Own t file data synced s' :=
  hkeeps.own file _ hne h.1 rfl h.2

theorem Pinned.keeps (h : Pinned t hash s) (hkeeps : Keeps touched t s s') : Pinned t hash s' :=
  hkeeps.pins hash h

theorem DirReady.keeps (h : DirReady hash s) (hkeeps : Keeps touched t s s') : DirReady hash s' := by
  refine ⟨hkeeps.dirs _ h.1, fun hraced => hkeeps.synced _ (h.2 ?_)⟩
  cases hbefore : s.raced with
  | false => rfl
  | true =>
      rw [hkeeps.raced hbefore] at hraced
      cases hraced

theorem Stable.and (hK : Stable t K) (hL : Stable t L) : Stable t fun s => K s ∧ L s :=
  fun s s' h hkeeps => ⟨hK s s' h.1 hkeeps, hL s s' h.2 hkeeps⟩

theorem Stable.true : Stable t fun _ => True := fun _ _ _ _ => trivial

theorem Stable.imp {p : Prop} (hK : Stable t K) : Stable t fun s => p → K s :=
  fun s s' h hkeeps hp => hK s s' (h hp) hkeeps

theorem Stable.all {α : Type} {p : α → Prop} {L : α → Store → Prop} (hL : ∀ a, Stable t (L a)) :
    Stable t fun s => ∀ a, p a → L a s :=
  fun s s' h hkeeps a ha => hL a s s' (h a ha) hkeeps

theorem Stable.own : Stable t (Own t file data synced) := fun _ _ h hkeeps => h.keeps hkeeps (by simp)

theorem Stable.pinned : Stable t (Pinned t hash) := fun _ _ h hkeeps => h.keeps hkeeps

theorem Stable.dirReady : Stable t (DirReady hash) := fun _ _ h hkeeps => h.keeps hkeeps

theorem Stable.present : Stable t fun s => Pinned t hash s ∧ s.disk.Present (objectKey hash) :=
  fun _ _ h hkeeps => ⟨h.1.keeps hkeeps, hkeeps.present hash h.1 h.2⟩

theorem Stable.entry : Stable t fun s => Pinned t hash s ∧ s.disk.entries (objectKey hash) ≠ none :=
  fun _ _ h hkeeps => ⟨h.1.keeps hkeeps, hkeeps.entry hash h.1 h.2⟩

end Stable

/-! ## What a call does -/

section Steps

variable {hashes} {t : Nat} {s s' : Store}

theorem Keeps.refl (s : Store) (touched : Option Nat) (t : Nat) : Keeps touched t s s :=
  ⟨fun _ _ _ hfile _ hun => ⟨hfile, hun⟩, fun _ h => h, fun _ h => h, fun _ h => h, fun _ _ h => h,
    fun _ _ h => h, fun h => h⟩

/-- The directories, the names and the pins stay. -/
theorem Keeps.of_files {touched : Option Nat} (hdirs : s'.disk.dirs = s.disk.dirs)
    (hentries : s'.disk.entries = s.disk.entries) (holder : s'.disk.older = s.disk.older)
    (hpins : s'.pins = s.pins) (hraced : s.raced = true → s'.raced = true)
    (hfiles : ∀ (file : Nat) (f : DiskFile Bytes), touched ≠ some file → s.disk.files[file]? = some f →
      f.owner = t → s'.disk.files[file]? = some f) : Keeps touched t s s' := by
  have hrefers (key : String × String) (file : Nat) : s'.disk.Refers key file ↔ s.disk.Refers key file := by
    rw [Disk.Refers, Disk.Refers, hentries, holder]
  refine ⟨?_, ?_, ?_, ?_, ?_, ?_, ?_⟩
  · intro file f hne hfile howner hun
    exact ⟨hfiles file f hne hfile howner, fun key hkey => hun key ((hrefers key file).mp hkey)⟩
  · rw [hdirs]
    exact fun _ h => h
  · rw [hdirs]
    exact fun _ h => h
  · rw [hpins]
    exact fun _ h => h
  · intro hash _ h
    rwa [Disk.Present, hentries, holder]
  · rw [hentries]
    exact fun _ _ h => h
  · exact hraced

/-- Nothing a file has to do with changed. -/
theorem Store.Ok.of_disk (h : s.Ok hashes) (hdisk : s'.disk = s.disk) (hstored : s'.stored = s.stored)
    (hrisk : s'.atRisk = s.atRisk) (hraced : s'.raced = false → s.raced = false) : s'.Ok hashes := by
  refine ⟨hdisk ▸ h.intact, ?_, ?_, ?_⟩
  · rw [hstored, hdisk]
    exact h.stored
  · rw [hrisk, hdisk]
    exact h.atRisk
  · rw [hrisk]
    exact fun hfalse => h.raced (hraced hfalse)

theorem Store.Ok.lt_length (h : s.Ok hashes) {key : String × String} {file : Nat}
    (hrefers : s.disk.Refers key file) : file < s.disk.files.length := by
  obtain ⟨f, hfile, _⟩ := h.intact key file hrefers
  exact (List.getElem?_eq_some_iff.mp hfile).1

theorem create_step (h : s.Ok hashes) :
    Store.Ok hashes { s with disk := s.disk.create t [] } ∧
      (∀ other, Keeps none other s { s with disk := s.disk.create t [] }) ∧
      Own t s.disk.files.length [] false { s with disk := s.disk.create t [] } := by
  refine ⟨⟨h.intact.create t [], h.stored, h.atRisk, h.raced⟩, fun other => ?_, ?_, ?_⟩
  · refine .of_files rfl rfl rfl rfl id fun file f _ hfile _ => ?_
    dsimp only [Disk.create]
    rw [List.getElem?_append_left (List.getElem?_eq_some_iff.mp hfile).1]
    exact hfile
  · dsimp only [Disk.create]
    rw [List.getElem?_concat_length]
  · exact fun key hrefers => Nat.lt_irrefl _ (h.lt_length hrefers)

/-- A build changes its file. -/
theorem change_step {file : Nat} {data : Bytes} {synced : Bool} {g : DiskFile Bytes → DiskFile Bytes}
    (h : s.Ok hashes) (hown : Own t file data synced s) :
    Store.Ok hashes { s with disk := s.disk.change file g } ∧
      (∀ other, other ≠ t → Keeps none other s { s with disk := s.disk.change file g }) ∧
      Keeps (some file) t s { s with disk := s.disk.change file g } ∧
      (Store.disk { s with disk := s.disk.change file g }).files[file]? = some (g ⟨t, data, synced⟩) ∧
      (Store.disk { s with disk := s.disk.change file g }).Unlinked file := by
  refine ⟨⟨h.intact.change hown.2, h.stored, h.atRisk, h.raced⟩, ?_, ?_, ?_, hown.2⟩
  · intro other hother
    refine .of_files rfl rfl rfl rfl id fun j f _ hfile howner => ?_
    have hne : file ≠ j := by
      rintro rfl
      obtain rfl := Option.some.inj (hown.1.symm.trans hfile)
      exact hother howner.symm
    dsimp only [Disk.change]
    rw [List.getElem?_modify_ne g s.disk.files hne]
    exact hfile
  · refine .of_files rfl rfl rfl rfl id fun j f hne hfile _ => ?_
    dsimp only [Disk.change]
    rw [List.getElem?_modify_ne g s.disk.files fun heq => hne (congrArg some heq)]
    exact hfile
  · dsimp only [Disk.change]
    rw [List.getElem?_modify_eq, hown.1]
    rfl

/-- A build gives its file, whose bytes are on disk, the name that is their hash. -/
theorem rename_step {file : Nat} {data : Bytes} {key : String × String} (h : s.Ok hashes)
    (hown : Own t file data true s) (hnamed : Named hashes key data) :
    Store.Ok hashes { s with disk := s.disk.setEntry key (some file) } ∧
      (∀ other, other ≠ t → Keeps none other s { s with disk := s.disk.setEntry key (some file) }) ∧
      Keeps (some file) t s { s with disk := s.disk.setEntry key (some file) } := by
  have hkeeps (touched : Option Nat) (other : Nat) (hapart : ∀ (j : Nat) (f : DiskFile Bytes), touched ≠ some j →
      s.disk.files[j]? = some f → f.owner = other → j ≠ file) :
      Keeps touched other s { s with disk := s.disk.setEntry key (some file) } := by
    refine ⟨?_, fun _ hdir => hdir, fun _ hdir => hdir, fun _ hpin => hpin, ?_, ?_, fun hraced => hraced⟩
    · intro j f hne hfile howner hun
      refine ⟨hfile, fun key' hrefers => ?_⟩
      rcases Disk.refers_of_setEntry hrefers with hold | ⟨_, hnew⟩
      · exact hun key' hold
      · exact hapart j f hne hfile howner (Option.some.inj hnew).symm
    · exact fun hash _ hpresent => hpresent.link key file
    · intro hash _ hentry
      dsimp only [Disk.setEntry]
      by_cases hkey : objectKey hash = key
      · rw [hkey, Function.update_self]
        exact Option.some_ne_none file
      · rw [Function.update_of_ne hkey]
        exact hentry
  refine ⟨⟨h.intact.link hown.1 rfl hnamed, ?_, ?_, h.raced⟩, ?_, ?_⟩
  · exact fun hash hstored => ⟨(h.stored hash hstored).1.link key file, (h.stored hash hstored).2⟩
  · exact fun hash hrisk => (h.atRisk hash hrisk).link key file
  · intro other hother
    refine hkeeps none other fun j f _ hfile howner => ?_
    rintro rfl
    obtain rfl := Option.some.inj (hown.1.symm.trans hfile)
    exact hother howner.symm
  · refine hkeeps (some file) t fun j f hne _ _ => ?_
    rintro rfl
    exact hne rfl

theorem makeDir_step (h : s.Ok hashes) (dir : String) :
    Store.Ok hashes { s with disk := s.disk.makeDir dir } ∧
      (∀ other, Keeps none other s { s with disk := s.disk.makeDir dir }) ∧
      (Store.disk { s with disk := s.disk.makeDir dir }).dirs dir ≠ none := by
  have hsynced : ∀ d, s.disk.dirs d = some true → (s.disk.makeDir dir).dirs d = some true := by
    intro d hd
    dsimp only [Disk.makeDir]
    by_cases hdir : d = dir
    · subst hdir
      rw [Function.update_self, hd]
      rfl
    · rw [Function.update_of_ne hdir]
      exact hd
  refine ⟨⟨h.intact, ?_, h.atRisk, h.raced⟩, fun other => ⟨?_, ?_, hsynced, ?_, ?_, ?_, ?_⟩, ?_⟩
  · exact fun hash hstored => ⟨(h.stored hash hstored).1, hsynced _ (h.stored hash hstored).2⟩
  · exact fun _ _ _ hfile _ hun => ⟨hfile, hun⟩
  · intro d hd
    dsimp only [Disk.makeDir]
    by_cases hdir : d = dir
    · rw [hdir, Function.update_self]
      exact Option.some_ne_none _
    · rw [Function.update_of_ne hdir]
      exact hd
  · exact fun _ hpin => hpin
  · exact fun _ _ hpresent => hpresent
  · exact fun _ _ hentry => hentry
  · exact fun hraced => hraced
  · dsimp only [Disk.makeDir]
    rw [Function.update_self]
    exact Option.some_ne_none _

theorem syncRoot_step (h : s.Ok hashes) :
    Store.Ok hashes { s with disk := s.disk.syncDirs } ∧
      (∀ other, Keeps none other s { s with disk := s.disk.syncDirs }) ∧
      ∀ dir, s.disk.dirs dir ≠ none → s.disk.syncDirs.dirs dir = some true := by
  have hall : ∀ dir, s.disk.dirs dir ≠ none → s.disk.syncDirs.dirs dir = some true := by
    intro dir hdir
    obtain ⟨synced, hsynced⟩ := Option.ne_none_iff_exists'.mp hdir
    dsimp only [Disk.syncDirs]
    rw [hsynced]
    rfl
  have hsome {dir : String} (hdir : s.disk.dirs dir = some true) : s.disk.dirs dir ≠ none := by
    rw [hdir]
    exact Option.some_ne_none _
  refine ⟨⟨h.intact, ?_, h.atRisk, h.raced⟩, fun other => ⟨?_, ?_, ?_, ?_, ?_, ?_, ?_⟩, hall⟩
  · exact fun hash hstored => ⟨(h.stored hash hstored).1, hall _ (hsome (h.stored hash hstored).2)⟩
  · exact fun _ _ _ hfile _ hun => ⟨hfile, hun⟩
  · intro dir hdir
    show s.disk.syncDirs.dirs dir ≠ none
    rw [hall dir hdir]
    exact Option.some_ne_none _
  · exact fun dir hdir => hall dir (hsome hdir)
  · exact fun _ hpin => hpin
  · exact fun _ _ hpresent => hpresent
  · exact fun _ _ hentry => hentry
  · exact fun hraced => hraced

theorem syncDir_step (h : s.Ok hashes) (dir : String) :
    Store.Ok hashes { s with disk := s.disk.syncEntries dir } ∧
      ∀ other, Keeps none other s { s with disk := s.disk.syncEntries dir } := by
  refine ⟨⟨h.intact.syncEntries dir, ?_, ?_, h.raced⟩, fun other => ⟨?_, ?_, ?_, ?_, ?_, ?_, ?_⟩⟩
  · exact fun hash hstored => ⟨(h.stored hash hstored).1.syncEntries dir, (h.stored hash hstored).2⟩
  · exact fun hash hrisk => (h.atRisk hash hrisk).syncEntries dir
  · exact fun file _ _ hfile _ hun => ⟨hfile, hun.mono fun _ hrefers => Disk.refers_of_sync hrefers⟩
  · exact fun _ hdir => hdir
  · exact fun _ hdir => hdir
  · exact fun _ hpin => hpin
  · exact fun _ _ hpresent => hpresent.syncEntries dir
  · exact fun _ _ hentry => hentry
  · exact fun hraced => hraced

theorem deletes_step (h : s.Ok hashes) (hdeletes : Deletes s s') : s'.Ok hashes ∧ ∀ t, Keeps none t s s' := by
  obtain ⟨hash, hunpinned, rfl⟩ := hdeletes
  have hkey {other : String} (hne : other ≠ hash) : objectKey other ≠ objectKey hash :=
    fun heq => hne (congrArg Prod.snd heq)
  have hpinned {t : Nat} {other : String} (hpin : (t, other) ∈ s.pins) : other ≠ hash := by
    rintro rfl
    exact hunpinned t hpin
  refine ⟨⟨h.intact.unlink _, ?_, ?_, ?_⟩, fun t => ⟨?_, fun _ hdir => hdir, fun _ hdir => hdir,
    fun _ hpin => hpin, ?_, ?_, fun hraced => hraced⟩⟩
  · intro other hstored
    obtain ⟨hmem, hne⟩ := List.mem_filter.mp hstored
    obtain ⟨hpresent, hdir⟩ := h.stored other hmem
    exact ⟨hpresent.unlink (hkey (of_decide_eq_true hne)), hdir⟩
  · intro other hrisk
    obtain ⟨hmem, hne⟩ := List.mem_filter.mp hrisk
    exact (h.atRisk other hmem).unlink (hkey (of_decide_eq_true hne))
  · intro hraced
    dsimp only
    rw [h.raced hraced, List.filter_nil]
  · intro file f _ hfile _ hun
    refine ⟨hfile, hun.mono fun key hrefers => ?_⟩
    rcases Disk.refers_of_setEntry hrefers with hold | ⟨_, hnew⟩
    · exact hold
    · cases hnew
  · exact fun other hpin hpresent => hpresent.unlink (hkey (hpinned hpin))
  · intro other hpin hentry
    dsimp only [Disk.setEntry]
    rw [Function.update_of_ne (hkey (hpinned hpin))]
    exact hentry

theorem crashes_step (h : s.Ok hashes) (hcrashes : Crashes s s') : s'.Ok hashes := by
  obtain ⟨hcrash, _, hstored, hrisk, _⟩ := hcrashes
  refine ⟨h.intact.crash hcrash, ?_, ?_, fun _ => hrisk⟩
  · intro hash hmem
    obtain ⟨hpresent, hdir⟩ := h.stored hash (hstored ▸ hmem)
    exact ⟨hpresent.crash hcrash hdir, hcrash.synced _ hdir⟩
  · intro hash hmem
    rw [hrisk] at hmem
    cases hmem

end Steps

end Ripclone.Cas
