import Mathlib.Data.List.Basic
import Mathlib.Logic.Function.Basic

/-!
# A disk that may crash

Files have numbers, and directories name them. What is written to a file, what a directory names and the
directories themselves are on disk only once they are synced. A crash keeps what is synced. Of a file that
is not, it keeps whatever it likes. A name leads after it to one of the files it has led to since its
directory was last synced, and a directory that is not synced itself may be gone with all its names.

`Intact` says of the files that a crash could bring to light, and of those that can be seen, that they are
synced and are what their names promise. `Present` says of a name that no crash loses it.
-/

namespace Ripclone.Library

variable {D N V : Type}

structure DiskFile (V : Type) where
  /-- Who writes it. -/
  owner : Nat
  data : V
  synced : Bool
  deriving DecidableEq, Repr

structure Disk (D N V : Type) where
  files : List (DiskFile V)
  /-- The directories there are, and whether they are synced. -/
  dirs : D → Option Bool
  /-- The file a name leads to. -/
  entries : D × N → Option Nat
  /-- What it has led to since its directory was last synced, without what it leads to now. -/
  older : D × N → List (Option Nat)

namespace Disk

def empty : Disk D N V := ⟨[], fun _ => none, fun _ => none, fun _ => []⟩

variable (disk : Disk D N V)

def create (owner : Nat) (data : V) : Disk D N V :=
  { disk with files := disk.files ++ [⟨owner, data, false⟩] }

def change (i : Nat) (f : DiskFile V → DiskFile V) : Disk D N V :=
  { disk with files := disk.files.modify i f }

section

variable [DecidableEq D]

def makeDir (d : D) : Disk D N V :=
  { disk with dirs := Function.update disk.dirs d (some ((disk.dirs d).getD false)) }

/-- Sync the directory that names `d` and the others. -/
def syncDirs : Disk D N V := { disk with dirs := fun d => (disk.dirs d).map fun _ => true }

/-- Sync the names in `d`. -/
def syncEntries (d : D) : Disk D N V :=
  { disk with older := fun key => if key.1 = d then [] else disk.older key }

end

section

variable [DecidableEq D] [DecidableEq N]

/-- Let a name lead to a file, or to none. -/
def setEntry (key : D × N) (file : Option Nat) : Disk D N V :=
  { disk with
    entries := Function.update disk.entries key file
    older := Function.update disk.older key (disk.entries key :: disk.older key) }

end

/-- What a crash may leave. -/
structure Crash (before after : Disk D N V) : Prop where
  files : ∀ (i : Nat) (f : DiskFile V), before.files[i]? = some f → ∃ g : DiskFile V,
    after.files[i]? = some g ∧ (f.synced = true → g.data = f.data) ∧ g.synced = true
  length : after.files.length = before.files.length
  synced : ∀ d, before.dirs d = some true → after.dirs d = some true
  dirs : ∀ d, after.dirs d = none ∨ after.dirs d = some true ∧ before.dirs d ≠ none
  entries : ∀ key, after.dirs key.1 ≠ none → after.entries key ∈ before.entries key :: before.older key
  gone : ∀ key, after.dirs key.1 = none → after.entries key = none
  older : ∀ key, after.older key = []

/-- The name leads to the file, or a crash could make it so. -/
def Refers (key : D × N) (i : Nat) : Prop := some i ∈ disk.entries key :: disk.older key

/-- No name leads to the file. -/
def Unlinked (i : Nat) : Prop := ∀ key, ¬ disk.Refers key i

/-- Whatever a name may lead to is on disk and is what it promises. -/
def Intact (promise : D × N → V → Prop) : Prop :=
  ∀ key i, disk.Refers key i → ∃ f, disk.files[i]? = some f ∧ f.synced = true ∧ promise key f.data

/-- The name leads to a file, whatever a crash does that spares its directory. -/
def Present (key : D × N) : Prop := none ∉ disk.entries key :: disk.older key

variable {disk} {promise : D × N → V → Prop} {key : D × N} {i : Nat}

theorem Intact.file (h : disk.Intact promise) (hentry : disk.entries key = some i) :
    ∃ f, disk.files[i]? = some f ∧ f.synced = true ∧ promise key f.data :=
  h key i (List.mem_cons.mpr (.inl hentry.symm))

theorem Present.entry (h : disk.Present key) : ∃ i, disk.entries key = some i := by
  cases hentry : disk.entries key with
  | none => exact absurd (List.mem_cons.mpr (.inl hentry.symm)) h
  | some i => exact ⟨i, rfl⟩

theorem Unlinked.mono {disk' : Disk D N V} (h : disk.Unlinked i)
    (hsub : ∀ key, disk'.Refers key i → disk.Refers key i) : disk'.Unlinked i :=
  fun key hrefers => h key (hsub key hrefers)

/-- A file without a name may change. -/
theorem Intact.change {f : DiskFile V → DiskFile V} (h : disk.Intact promise) (hi : disk.Unlinked i) :
    (disk.change i f).Intact promise := by
  intro key j hrefers
  obtain ⟨file, hfile, hsynced, hpromise⟩ := h key j hrefers
  have hne : i ≠ j := by
    rintro rfl
    exact hi key hrefers
  refine ⟨file, ?_, hsynced, hpromise⟩
  dsimp only [Disk.change]
  rw [List.getElem?_modify_ne f disk.files hne]
  exact hfile

theorem Intact.create (h : disk.Intact promise) (owner : Nat) (data : V) :
    (disk.create owner data).Intact promise := by
  intro key j hrefers
  obtain ⟨file, hfile, hrest⟩ := h key j hrefers
  refine ⟨file, ?_, hrest⟩
  dsimp only [Disk.create]
  rw [List.getElem?_append_left (List.getElem?_eq_some_iff.mp hfile).1]
  exact hfile

theorem Intact.makeDir [DecidableEq D] (h : disk.Intact promise) (d : D) : (disk.makeDir d).Intact promise := h

theorem Intact.syncDirs [DecidableEq D] (h : disk.Intact promise) : disk.syncDirs.Intact promise := h

section Sync

variable [DecidableEq D]

theorem refers_of_sync {d : D} (h : (disk.syncEntries d).Refers key i) : disk.Refers key i := by
  rcases List.mem_cons.mp h with hentry | holder
  · exact List.mem_cons.mpr (.inl hentry)
  · dsimp only [Disk.syncEntries] at holder
    split at holder
    · cases holder
    · exact List.mem_cons.mpr (.inr holder)

theorem Intact.syncEntries (h : disk.Intact promise) (d : D) : (disk.syncEntries d).Intact promise :=
  fun key i hrefers => h key i (refers_of_sync hrefers)

theorem Present.syncEntries (h : disk.Present key) (d : D) : (disk.syncEntries d).Present key := by
  intro hnone
  apply h
  rcases List.mem_cons.mp hnone with hentry | holder
  · exact List.mem_cons.mpr (.inl hentry)
  · dsimp only [Disk.syncEntries] at holder
    split at holder
    · cases holder
    · exact List.mem_cons.mpr (.inr holder)

/-- A name that leads to a file when its directory is synced. -/
theorem present_of_sync (hentry : disk.entries key = some i) : (disk.syncEntries key.1).Present key := by
  intro hnone
  rcases List.mem_cons.mp hnone with hnone | holder
  · exact absurd (hnone.trans hentry) (by simp)
  · dsimp only [Disk.syncEntries] at holder
    rw [if_pos rfl] at holder
    cases holder

end Sync

section Entry

variable [DecidableEq D] [DecidableEq N] {key' : D × N} {file : Option Nat}

theorem refers_of_setEntry (h : (disk.setEntry key file).Refers key' i) :
    disk.Refers key' i ∨ key' = key ∧ file = some i := by
  by_cases hkey : key' = key
  · subst hkey
    rw [Refers, Disk.setEntry] at h
    dsimp only at h
    rw [Function.update_self, Function.update_self] at h
    rcases List.mem_cons.mp h with hnew | hold
    · exact .inr ⟨rfl, hnew.symm⟩
    · exact .inl hold
  · rw [Refers, Disk.setEntry] at h
    dsimp only at h
    rw [Function.update_of_ne hkey, Function.update_of_ne hkey] at h
    exact .inl h

/-- A name leads to a synced file that is what it promises. -/
theorem Intact.link {f : DiskFile V} (h : disk.Intact promise) (hfile : disk.files[i]? = some f)
    (hsynced : f.synced = true) (hpromise : promise key f.data) : (disk.setEntry key (some i)).Intact promise := by
  intro key' j hrefers
  rcases refers_of_setEntry hrefers with hold | ⟨rfl, hnew⟩
  · exact h key' j hold
  · obtain rfl := Option.some.inj hnew
    exact ⟨f, hfile, hsynced, hpromise⟩

theorem Intact.unlink (h : disk.Intact promise) (key : D × N) : (disk.setEntry key none).Intact promise := by
  intro key' j hrefers
  rcases refers_of_setEntry hrefers with hold | ⟨_, hnew⟩
  · exact h key' j hold
  · cases hnew

theorem Present.link (h : disk.Present key') (key : D × N) (i : Nat) :
    (disk.setEntry key (some i)).Present key' := by
  rw [Present, Disk.setEntry]
  dsimp only
  by_cases hkey : key' = key
  · subst hkey
    rw [Function.update_self, Function.update_self]
    intro hnone
    rcases List.mem_cons.mp hnone with hnew | hold
    · cases hnew
    · exact h hold
  · rw [Function.update_of_ne hkey, Function.update_of_ne hkey]
    exact h

theorem Present.unlink (h : disk.Present key') (hkey : key' ≠ key) : (disk.setEntry key none).Present key' := by
  rw [Present, Disk.setEntry]
  dsimp only
  rw [Function.update_of_ne hkey, Function.update_of_ne hkey]
  exact h

end Entry

section AfterCrash

variable {after : Disk D N V}

theorem refers_of_crash (hcrash : Crash disk after) (h : after.Refers key i) : disk.Refers key i := by
  rcases List.mem_cons.mp h with hentry | holder
  · by_cases hdir : after.dirs key.1 = none
    · rw [hcrash.gone key hdir] at hentry
      cases hentry
    · rw [Refers, hentry]
      exact hcrash.entries key hdir
  · rw [hcrash.older key] at holder
    cases holder

theorem Intact.crash (h : disk.Intact promise) (hcrash : Crash disk after) : after.Intact promise := by
  intro key i hrefers
  obtain ⟨f, hfile, hsynced, hpromise⟩ := h key i (refers_of_crash hcrash hrefers)
  obtain ⟨g, hafter, hdata, hsynced'⟩ := hcrash.files i f hfile
  refine ⟨g, hafter, hsynced', ?_⟩
  rw [hdata hsynced]
  exact hpromise

theorem Present.crash (h : disk.Present key) (hcrash : Crash disk after) (hdir : disk.dirs key.1 = some true) :
    after.Present key := by
  have hkept : after.dirs key.1 ≠ none := by
    rw [hcrash.synced key.1 hdir]
    exact Option.some_ne_none _
  intro hnone
  rw [hcrash.older key, List.mem_singleton] at hnone
  exact h (hnone ▸ hcrash.entries key hkept)

end AfterCrash

/-! ## The worst crash -/

/-- Only the directories that are synced are left. -/
def onlySynced (disk : Disk D N V) : Disk D N V where
  files := disk.files.map fun f => { f with synced := true }
  dirs d := if disk.dirs d = some true then some true else none
  entries key := if disk.dirs key.1 = some true then disk.entries key else none
  older _ := []

theorem crash_onlySynced (disk : Disk D N V) : Crash disk disk.onlySynced := by
  refine ⟨?_, ?_, ?_, ?_, ?_, ?_, fun _ => rfl⟩
  · intro i f hfile
    refine ⟨{ f with synced := true }, ?_, fun _ => rfl, rfl⟩
    show (disk.files.map _)[i]? = _
    rw [List.getElem?_map, hfile]
    rfl
  · exact List.length_map _
  · intro d hd
    exact if_pos hd
  · intro d
    by_cases hd : disk.dirs d = some true
    · right
      exact ⟨if_pos hd, hd ▸ Option.some_ne_none true⟩
    · left
      exact if_neg hd
  · intro key hkey
    have hsynced : disk.dirs key.1 = some true := by
      by_contra hd
      exact hkey (if_neg hd)
    exact List.mem_cons.mpr (.inl (if_pos hsynced))
  · intro key hkey
    have hgone : disk.dirs key.1 ≠ some true := by
      intro hd
      have hkept : disk.onlySynced.dirs key.1 = some true := if_pos hd
      rw [hkey] at hkept
      cases hkept
    exact if_neg hgone

end Disk

end Ripclone.Library
