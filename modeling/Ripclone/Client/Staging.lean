import Ripclone.Library.Run
import Ripclone.Library.Table

/-!
# Staging directories and their markers

A clone builds in a staging directory next to its target and renames it onto the target. Beside the
staging directory stands a marker file that the clone keeps locked. A clone that dies leaves both
behind, unlocked, and every later clone into the same parent removes such directories before it
makes its own.

Here are any number of clones with targets in one parent. A directory is its name; a marker is an
entry of the parent and the file it leads to, which stays open after the entry is removed. A step is
one system call of one clone.
-/

namespace Ripclone.Client.Staging

open Ripclone.Library

/-! ## The protocol -/

/-- The name of an entry of the parent directory. -/
abbrev Name := List Char

/-- What a whole marker holds. -/
def markerText : List Char := ['r', 'i', 'p', 'c', 'l', 'o', 'n', 'e', '\n']

/-- What the names of a target's staging directories start with. -/
def stagingStart (target : Name) : Name := target ++ ".ripclone-".toList

def stagingEnd : Name := ".tmp".toList

/-- A name `tempfile` makes of a target and random letters. -/
def stagingName (target random : Name) : Name := stagingStart target ++ random ++ stagingEnd

/-- Whether a pass for the target looks at the name. It looks at staging directories of other
targets too, when the target's name starts theirs. -/
def isStagingName (target name : Name) : Bool :=
  (stagingStart target).isPrefixOf name &&
    let rest := name.drop (stagingStart target).length
    stagingEnd.isSuffixOf rest && stagingEnd.length < rest.length

/-- A marker file, with or without an entry. -/
structure Inode where
  contents : List Char
  /-- The clone with the `flock`. -/
  lock : Option Nat
  deriving DecidableEq, Repr

/-- Where a pass of `cleanup_stale_install_dirs` is. -/
inductive Pass where
  | idle
  | opened (name : Name) (inode : Nat)
  | locked (name : Name) (inode : Nat)
  /-- The marker is whole: the directory is to be removed. -/
  | stale (name : Name) (inode : Nat)
  /-- The directory is removed: so is the marker. -/
  | removed (name : Name) (inode : Nat)
  deriving DecidableEq, Repr

inductive Pc where
  /-- In its pass. -/
  | cleaning (pass : Pass)
  /-- The staging directory is made. -/
  | made
  /-- The marker is made and open. -/
  | created
  /-- The marker is locked and empty. -/
  | locked
  | installing
  /-- The clone failed before its staging was marked: only the directory is removed. -/
  | discarding
  /-- The clone is published or has failed: its `StagedTempDir` is dropped. -/
  | dropping
  /-- The directory's own drop is done. Does the directory exist? -/
  | dropped
  | unlinking
  | unlocking
  /-- The clone has returned, or its process has died. -/
  | ended
  deriving DecidableEq, Repr

structure Clone where
  target : Name
  /-- The directories the pass has read from the parent. -/
  seen : List Name
  staging : Option Name
  marker : Option Nat
  pc : Pc
  deriving DecidableEq, Repr

structure System where
  /-- The directories in the parent. -/
  dirs : List Name
  /-- The markers in the parent, by the staging directory they are for. -/
  markers : List (Name × Nat)
  inodes : List Inode
  clones : List Clone
  deriving DecidableEq, Repr

/-- Before the first clone, with whatever else is in the parent. -/
def System.init (dirs : List Name) : System := ⟨dirs, [], [], []⟩

inductive Event where
  | start (target : Name)
  /-- A pass reads a directory's entry. It may do so long before it looks at the marker. -/
  | read (i : Nat) (name : Name)
  | openMarker (i : Nat) (name : Name)
  | tryLock (i : Nat)
  | readMarker (i : Nat)
  | removeDir (i : Nat)
  | removeDirFails (i : Nat)
  | removeMarker (i : Nat)
  | makeDir (i : Nat) (random : Name)
  | createMarker (i : Nat)
  | createFails (i : Nat)
  | lock (i : Nat)
  | lockFails (i : Nat)
  | write (i : Nat)
  /-- Only some of the text is written. -/
  | writeFails (i : Nat) (written : Nat)
  | discard (i : Nat)
  /-- The staging directory is renamed onto the target. -/
  | publish (i : Nat)
  | fail (i : Nat)
  | dropDir (i : Nat)
  | dropDirFails (i : Nat)
  | look (i : Nat)
  | unlink (i : Nat)
  | unlock (i : Nat)
  /-- The process dies. What it has open is closed. -/
  | die (i : Nat)
  deriving DecidableEq, Repr

namespace System

def setClone (s : System) (i : Nat) (clone : Clone) : System :=
  { s with clones := s.clones.set i clone }

def cloneAt (s : System) (i : Nat) (pc : Pc) : Option Clone :=
  (s.clones[i]?).filter fun clone => clone.pc = pc

/-- The pass the clone is in. -/
def passOf (s : System) (i : Nat) : Option (Clone × Pass) :=
  match s.clones[i]? with
  | some clone =>
    match clone.pc with
    | .cleaning pass => some (clone, pass)
    | _ => none
  | none => none

def lockOf (s : System) (inode : Nat) : Option Nat := (s.inodes[inode]?).bind Inode.lock

def contentsOf (s : System) (inode : Nat) : List Char :=
  ((s.inodes[inode]?).map Inode.contents).getD []

/-- The marker beside a directory of that name. -/
def markerAt (s : System) (name : Name) : Option Nat :=
  (s.markers.find? fun entry => entry.1 = name).map Prod.snd

def lockInode (s : System) (inode : Nat) (i : Nat) : System :=
  { s with inodes := s.inodes.modify inode fun file => { file with lock := some i } }

/-- Every file the clone has open is closed. -/
def unlockAll (s : System) (i : Nat) : System :=
  { s with inodes := s.inodes.map fun file =>
      if file.lock = some i then { file with lock := none } else file }

def writeInode (s : System) (inode : Nat) (text : List Char) : System :=
  { s with inodes := s.inodes.modify inode fun file => { file with contents := text } }

def rmDir (s : System) (name : Name) : System :=
  { s with dirs := s.dirs.filter fun dir => dir ≠ name }

def rmMarker (s : System) (name : Name) : System :=
  { s with markers := s.markers.filter fun entry => entry.1 ≠ name }

/-- The names used so far. -/
def used (s : System) : List Name :=
  s.dirs ++ s.clones.map Clone.target ++ s.clones.filterMap Clone.staging

/-- The pass goes on with the next entry: the marker is closed. -/
def nextEntry (s : System) (i : Nat) (clone : Clone) : System :=
  (s.unlockAll i).setClone i { clone with pc := .cleaning .idle }

def exec (s : System) : Event → Option System
  | .start target =>
    some { s with clones := s.clones ++ [⟨target, [], none, none, .cleaning .idle⟩] }
  | .read i name => do
    let (clone, _) ← s.passOf i
    if name ∈ s.dirs then return s.setClone i { clone with seen := name :: clone.seen } else none
  | .openMarker i name =>
    match s.passOf i with
    | some (clone, .idle) =>
      if name ∈ clone.seen ∧ isStagingName clone.target name then do
        let inode ← s.markerAt name
        return s.setClone i { clone with pc := .cleaning (.opened name inode) }
      else none
    | _ => none
  | .tryLock i =>
    match s.passOf i with
    | some (clone, .opened name inode) =>
      if s.lockOf inode = none then
        some ((s.lockInode inode i).setClone i { clone with pc := .cleaning (.locked name inode) })
      else some (s.nextEntry i clone)
    | _ => none
  | .readMarker i =>
    match s.passOf i with
    | some (clone, .locked name inode) =>
      if s.contentsOf inode = markerText then
        some (s.setClone i { clone with pc := .cleaning (.stale name inode) })
      else some (s.nextEntry i clone)
    | _ => none
  | .removeDir i =>
    match s.passOf i with
    | some (clone, .stale name inode) =>
      if name ∈ s.dirs then
        some ((s.rmDir name).setClone i { clone with pc := .cleaning (.removed name inode) })
      else none
    | _ => none
  | .removeDirFails i =>
    match s.passOf i with
    | some (clone, .stale _ _) => some (s.nextEntry i clone)
    | _ => none
  | .removeMarker i =>
    match s.passOf i with
    | some (clone, .removed name _) => some ((s.rmMarker name).nextEntry i clone)
    | _ => none
  | .makeDir i random => do
    let clone ← s.cloneAt i (.cleaning .idle)
    let name := stagingName clone.target random
    if name ∉ s.used then
      return { s.setClone i { clone with staging := some name, pc := .made } with
        dirs := name :: s.dirs }
    else none
  | .createMarker i => do
    let clone ← s.cloneAt i .made
    let name ← clone.staging
    if s.markerAt name = none then
      return { s.setClone i { clone with marker := some s.inodes.length, pc := .created } with
        markers := (name, s.inodes.length) :: s.markers, inodes := s.inodes ++ [⟨[], none⟩] }
    else none
  | .createFails i => do
    let clone ← s.cloneAt i .made
    return s.setClone i { clone with pc := .discarding }
  | .lock i => do
    let clone ← s.cloneAt i .created
    let inode ← clone.marker
    if s.lockOf inode = none then
      return (s.lockInode inode i).setClone i { clone with pc := .locked }
    else none
  | .lockFails i => do
    let clone ← s.cloneAt i .created
    return s.setClone i { clone with pc := .discarding }
  | .write i => do
    let clone ← s.cloneAt i .locked
    let inode ← clone.marker
    return (s.writeInode inode markerText).setClone i { clone with pc := .installing }
  | .writeFails i written => do
    let clone ← s.cloneAt i .locked
    let inode ← clone.marker
    if written < markerText.length then
      -- The marker is closed before the directory is removed.
      return ((s.writeInode inode (markerText.take written)).unlockAll i).setClone i
        { clone with pc := .discarding }
    else none
  | .discard i => do
    let clone ← s.cloneAt i .discarding
    let name ← clone.staging
    return (s.rmDir name).setClone i { clone with pc := .ended }
  | .publish i => do
    let clone ← s.cloneAt i .installing
    let name ← clone.staging
    if name ∈ s.dirs then
      return { (s.rmDir name).setClone i { clone with pc := .dropping } with
        dirs := clone.target :: (s.rmDir name).dirs }
    else none
  | .fail i => do
    let clone ← s.cloneAt i .installing
    return s.setClone i { clone with pc := .dropping }
  | .dropDir i => do
    let clone ← s.cloneAt i .dropping
    let name ← clone.staging
    return (s.rmDir name).setClone i { clone with pc := .dropped }
  | .dropDirFails i => do
    let clone ← s.cloneAt i .dropping
    return s.setClone i { clone with pc := .dropped }
  | .look i => do
    let clone ← s.cloneAt i .dropped
    let name ← clone.staging
    return s.setClone i { clone with pc := if name ∈ s.dirs then .unlocking else .unlinking }
  | .unlink i => do
    let clone ← s.cloneAt i .unlinking
    let name ← clone.staging
    return (s.rmMarker name).setClone i { clone with pc := .unlocking }
  | .unlock i => do
    let clone ← s.cloneAt i .unlocking
    return (s.unlockAll i).setClone i { clone with pc := .ended }
  | .die i => do
    let clone ← s.clones[i]?
    return (s.unlockAll i).setClone i { clone with pc := .ended }

end System

/-- One system call of one clone. -/
def Step (s : System) (e : Event) (s' : System) : Prop := s.exec e = some s'

/-- A clone that has a staging directory and is not over. -/
def Clone.running (clone : Clone) : Bool :=
  match clone.pc with
  | .cleaning _ | .ended => false
  | _ => true

/-- The directory that a step of a pass removes. -/
def System.removes (s : System) : Event → Option Name
  | .removeDir i =>
    match s.passOf i with
    | some (_, .stale name _) => if name ∈ s.dirs then some name else none
    | _ => none
  | _ => none

/-! ## What holds in every state -/

namespace Clone

def cleaning (clone : Clone) : Bool :=
  match clone.pc with
  | .cleaning _ => true
  | _ => false

/-- The marker a pass has open. -/
def handle (clone : Clone) : Option (Name × Nat) :=
  match clone.pc with
  | .cleaning (.opened name inode) | .cleaning (.locked name inode)
  | .cleaning (.stale name inode) | .cleaning (.removed name inode) => some (name, inode)
  | _ => none

/-- The marker whose directory a pass may yet remove. -/
def judging (clone : Clone) : Option (Name × Nat) :=
  match clone.pc with
  | .cleaning (.opened name inode) | .cleaning (.locked name inode)
  | .cleaning (.stale name inode) => some (name, inode)
  | _ => none

/-- The marker that was read and found whole. -/
def checked (clone : Clone) : Option Nat :=
  match clone.pc with
  | .cleaning (.stale _ inode) | .cleaning (.removed _ inode) => some inode
  | _ => none

/-- The marker the clone has locked. -/
def holding (clone : Clone) : Option Nat :=
  match clone.pc with
  | .cleaning (.locked _ inode) | .cleaning (.stale _ inode)
  | .cleaning (.removed _ inode) => some inode
  | .locked | .installing | .dropping | .dropped | .unlinking | .unlocking => clone.marker
  | _ => none

/-- Whether the clone's own marker is not whole. -/
def unmarked (clone : Clone) : Bool :=
  match clone.pc with
  | .created | .locked | .discarding => true
  | _ => false

/-- The directory whose marker the clone removes next. -/
def unlinks (clone : Clone) : Option Name :=
  match clone.pc with
  | .cleaning (.removed name _) => some name
  | .unlinking => clone.staging
  | _ => none

theorem handle_of_judging {clone : Clone} {entry : Name × Nat} (h : clone.judging = some entry) :
    clone.handle = some entry := by
  unfold judging at h
  split at h <;> simp_all [handle]

theorem holding_of_checked {clone : Clone} {inode : Nat} (h : clone.checked = some inode) :
    clone.holding = some inode := by
  unfold checked at h
  split at h <;> simp_all [holding]

end Clone

structure System.Ok (s : System) : Prop where
  /-- No two clones have one staging name, or one marker. -/
  names : ∀ {i j : Nat} {a b : Clone} {name : Name}, s.clones[i]? = some a → s.clones[j]? = some b →
    a.staging = some name → b.staging = some name → i = j
  owners : ∀ {i j : Nat} {a b : Clone} {inode : Nat}, s.clones[i]? = some a →
    s.clones[j]? = some b → a.marker = some inode → b.marker = some inode → i = j
  made : ∀ clone ∈ s.clones, ∀ inode ∈ clone.marker, inode < s.inodes.length
  early : ∀ clone ∈ s.clones, clone.cleaning = true → clone.staging = none ∧ clone.marker = none
  unmade : ∀ clone ∈ s.clones, clone.pc = .made → clone.marker = none
  /-- A marker's entry, and a pass's handle, lead to the marker of the clone of that name. -/
  entries : ∀ {name : Name} {inode : Nat}, (name, inode) ∈ s.markers →
    ∃ owner ∈ s.clones, owner.staging = some name ∧ owner.marker = some inode
  handles : ∀ clone ∈ s.clones, ∀ {name : Name} {inode : Nat}, clone.handle = some (name, inode) →
    ∃ owner ∈ s.clones, owner.staging = some name ∧ owner.marker = some inode
  holds : ∀ {i : Nat} {clone : Clone} {inode : Nat}, s.clones[i]? = some clone →
    clone.holding = some inode → s.lockOf inode = some i
  part : ∀ clone ∈ s.clones, clone.unmarked = true → ∀ inode ∈ clone.marker,
    s.contentsOf inode ≠ markerText
  whole : ∀ clone ∈ s.clones, ∀ inode ∈ clone.checked, s.contentsOf inode = markerText

theorem ok_init (dirs : List Name) : (System.init dirs).Ok := by
  constructor <;> simp [System.init]

section Steps

variable {s t : System} {clone clone' : Clone} {i : Nat}

/-- A clone that has made its staging directory keeps its name and marker. -/
theorem System.exists_owner {name : Name} {inode : Nat} (hclone : s.clones[i]? = some clone)
    (hclones : t.clones = s.clones.set i clone')
    (hstaging : ∀ name, clone.staging = some name → clone'.staging = some name)
    (hmarker : ∀ inode, clone.marker = some inode → clone'.marker = some inode)
    (h : ∃ owner ∈ s.clones, owner.staging = some name ∧ owner.marker = some inode) :
    ∃ owner ∈ t.clones, owner.staging = some name ∧ owner.marker = some inode := by
  obtain ⟨owner, howner, hname, hinode⟩ := h
  obtain ⟨j, hj⟩ := List.mem_iff_getElem?.mp howner
  rw [hclones]
  by_cases hij : i = j
  · subst hij
    obtain rfl := Option.some.inj (hclone.symm.trans hj)
    refine ⟨clone', ?_, hstaging name hname, hmarker inode hinode⟩
    exact List.mem_set (List.getElem?_eq_some_iff.mp hclone).1 _
  · refine ⟨owner, ?_, hname, hinode⟩
    exact List.mem_of_getElem? ((List.getElem?_set_ne hij).trans hj)

/-- A step of one clone that keeps its staging name and its marker. -/
theorem System.Ok.keep (h : s.Ok) (hclone : s.clones[i]? = some clone)
    (hclones : t.clones = s.clones.set i clone') (hlen : t.inodes.length = s.inodes.length)
    (hmarkers : t.markers ⊆ s.markers) (hstaging : clone'.staging = clone.staging)
    (hmarker : clone'.marker = clone.marker)
    (hcleaning : clone'.cleaning = true → clone.cleaning = true)
    (hmade : clone'.pc = .made → clone.pc = .made)
    (hhandle : ∀ entry, clone'.handle = some entry → clone.handle = some entry ∨ entry ∈ s.markers)
    (hlocks : ∀ inode j, j ≠ i → s.lockOf inode = some j → t.lockOf inode = some j)
    (hholds : ∀ inode, clone'.holding = some inode → t.lockOf inode = some i)
    (hcontents : ∀ inode, t.contentsOf inode = s.contentsOf inode ∨
      clone.marker = some inode ∧ clone.holding = some inode)
    (hpart : clone'.unmarked = true → ∀ inode ∈ clone.marker, t.contentsOf inode ≠ markerText)
    (hwhole : ∀ inode ∈ clone'.checked, t.contentsOf inode = markerText) : t.Ok := by
  have hmem := List.mem_of_getElem? hclone
  have howner : ∀ {name inode}, (∃ owner ∈ s.clones, owner.staging = some name ∧
      owner.marker = some inode) → ∃ owner ∈ t.clones, owner.staging = some name ∧
      owner.marker = some inode := by
    intro name inode
    apply System.exists_owner hclone hclones
    · intro name hname
      rw [hstaging, hname]
    · intro inode hinode
      rw [hmarker, hinode]
  -- Each clone of `t` is the clone of `s` in its place, or the one that took the step.
  have hbefore : ∀ {j : Nat} {other : Clone}, t.clones[j]? = some other →
      j = i ∧ other = clone' ∨ j ≠ i ∧ s.clones[j]? = some other := by
    intro j other hother
    rw [hclones] at hother
    exact Table.getElem?_set_cases hother
  have hsame : ∀ {j : Nat} {other : Clone}, t.clones[j]? = some other →
      ∃ before, s.clones[j]? = some before ∧ other.staging = before.staging ∧
        other.marker = before.marker := by
    intro j other hother
    rcases hbefore hother with ⟨rfl, rfl⟩ | ⟨_, hother⟩
    · exact ⟨clone, hclone, hstaging, hmarker⟩
    · exact ⟨other, hother, rfl, rfl⟩
  refine ⟨?_, ?_, ?_, ?_, ?_, ?_, ?_, ?_, ?_, ?_⟩
  · intro j k a b name ha hb haName hbName
    obtain ⟨a', ha', hastaging, _⟩ := hsame ha
    obtain ⟨b', hb', hbstaging, _⟩ := hsame hb
    exact h.names ha' hb' (hastaging.symm.trans haName) (hbstaging.symm.trans hbName)
  · intro j k a b inode ha hb haInode hbInode
    obtain ⟨a', ha', _, hamarker⟩ := hsame ha
    obtain ⟨b', hb', _, hbmarker⟩ := hsame hb
    exact h.owners ha' hb' (hamarker.symm.trans haInode) (hbmarker.symm.trans hbInode)
  · intro other hother inode hinode
    obtain ⟨j, hj⟩ := List.mem_iff_getElem?.mp hother
    obtain ⟨before, hbefore, _, hbeforeMarker⟩ := hsame hj
    rw [hlen]
    rw [hbeforeMarker] at hinode
    exact h.made before (List.mem_of_getElem? hbefore) inode hinode
  · intro other hother hcleans
    obtain ⟨j, hj⟩ := List.mem_iff_getElem?.mp hother
    rcases hbefore hj with ⟨rfl, rfl⟩ | ⟨_, hold⟩
    · rw [hstaging, hmarker]
      exact h.early clone hmem (hcleaning hcleans)
    · exact h.early other (List.mem_of_getElem? hold) hcleans
  · intro other hother hpc
    obtain ⟨j, hj⟩ := List.mem_iff_getElem?.mp hother
    rcases hbefore hj with ⟨rfl, rfl⟩ | ⟨_, hold⟩
    · rw [hmarker]
      exact h.unmade clone hmem (hmade hpc)
    · exact h.unmade other (List.mem_of_getElem? hold) hpc
  · intro name inode hentry
    exact howner (h.entries (hmarkers hentry))
  · intro other hother name inode hhas
    obtain ⟨j, hj⟩ := List.mem_iff_getElem?.mp hother
    rcases hbefore hj with ⟨rfl, rfl⟩ | ⟨_, hold⟩
    · rcases hhandle _ hhas with hhad | hentry
      · exact howner (h.handles clone hmem hhad)
      · exact howner (h.entries hentry)
    · exact howner (h.handles other (List.mem_of_getElem? hold) hhas)
  · intro j other inode hother hhas
    rcases hbefore hother with ⟨rfl, rfl⟩ | ⟨hne, hold⟩
    · exact hholds inode hhas
    · exact hlocks inode j hne (h.holds hold hhas)
  · intro other hother hun inode hinode
    obtain ⟨j, hj⟩ := List.mem_iff_getElem?.mp hother
    rcases hbefore hj with ⟨rfl, rfl⟩ | ⟨hne, hold⟩
    · rw [hmarker] at hinode
      exact hpart hun inode hinode
    · rcases hcontents inode with hkept | ⟨hmine, _⟩
      · rw [hkept]
        exact h.part other (List.mem_of_getElem? hold) hun inode hinode
      · exact absurd (h.owners hold hclone hinode hmine) hne
  · intro other hother inode hinode
    obtain ⟨j, hj⟩ := List.mem_iff_getElem?.mp hother
    rcases hbefore hj with ⟨rfl, rfl⟩ | ⟨hne, hold⟩
    · exact hwhole inode hinode
    · rcases hcontents inode with hkept | ⟨_, hmine⟩
      · rw [hkept]
        exact h.whole other (List.mem_of_getElem? hold) inode hinode
      · -- Who has found a marker whole has it locked.
        have hlocked := h.holds hold (Clone.holding_of_checked hinode)
        rw [h.holds hclone hmine] at hlocked
        exact absurd (Option.some.inj hlocked).symm hne

/-- A step of one clone that locks, writes and closes nothing. -/
theorem System.Ok.keepFiles (h : s.Ok) (hclone : s.clones[i]? = some clone)
    (hclones : t.clones = s.clones.set i clone') (hinodes : t.inodes = s.inodes)
    (hmarkers : t.markers ⊆ s.markers) (hstaging : clone'.staging = clone.staging)
    (hmarker : clone'.marker = clone.marker)
    (hcleaning : clone'.cleaning = true → clone.cleaning = true)
    (hmade : clone'.pc = .made → clone.pc = .made)
    (hhandle : ∀ entry, clone'.handle = some entry → clone.handle = some entry ∨ entry ∈ s.markers)
    (hholds : ∀ inode, clone'.holding = some inode → clone.holding = some inode)
    (hpart : clone'.unmarked = true → clone.unmarked = true ∨ clone.marker = none)
    (hwhole : ∀ inode ∈ clone'.checked, s.contentsOf inode = markerText) : t.Ok := by
  have hlock : ∀ inode, t.lockOf inode = s.lockOf inode := by
    intro inode
    simp only [System.lockOf, hinodes]
  have hcontents : ∀ inode, t.contentsOf inode = s.contentsOf inode := by
    intro inode
    simp only [System.contentsOf, hinodes]
  refine h.keep hclone hclones (by rw [hinodes]) hmarkers hstaging hmarker hcleaning hmade hhandle
    ?_ ?_ (fun inode => .inl (hcontents inode)) ?_ ?_
  · intro inode j _ hheld
    rw [hlock]
    exact hheld
  · intro inode hhas
    rw [hlock]
    exact h.holds hclone (hholds inode hhas)
  · intro hun inode hinode
    rw [hcontents]
    rcases hpart hun with hbefore | hnone
    · exact h.part clone (List.mem_of_getElem? hclone) hbefore inode hinode
    · rw [hnone] at hinode
      cases hinode
  · intro inode hinode
    rw [hcontents]
    exact hwhole inode hinode

theorem System.lockOf_unlockAll {inode j : Nat} (hne : j ≠ i) (h : s.lockOf inode = some j) :
    (s.unlockAll i).lockOf inode = some j := by
  obtain ⟨file, hfile, hlock⟩ := Option.bind_eq_some_iff.mp h
  simp [System.lockOf, System.unlockAll, hfile, hlock, hne]

theorem System.contentsOf_unlockAll (inode : Nat) :
    (s.unlockAll i).contentsOf inode = s.contentsOf inode := by
  simp only [System.contentsOf, System.unlockAll, List.getElem?_map]
  cases s.inodes[inode]? with
  | none => rfl
  | some file =>
      show (if file.lock = some i then { file with lock := none } else file).contents = file.contents
      split <;> rfl

/-- A step of one clone that closes its markers. -/
theorem System.Ok.closeFiles (h : s.Ok) (hclone : s.clones[i]? = some clone)
    (hclones : t.clones = s.clones.set i clone') (hinodes : t.inodes = (s.unlockAll i).inodes)
    (hmarkers : t.markers ⊆ s.markers) (hstaging : clone'.staging = clone.staging)
    (hmarker : clone'.marker = clone.marker)
    (hpc : clone'.pc = .ended ∨ clone'.pc = .cleaning .idle ∧ clone.cleaning = true) : t.Ok := by
  have hlock : ∀ inode, t.lockOf inode = (s.unlockAll i).lockOf inode := by
    intro inode
    simp only [System.lockOf, hinodes]
  have hcontents : ∀ inode, t.contentsOf inode = s.contentsOf inode := by
    intro inode
    have hthere : t.contentsOf inode = (s.unlockAll i).contentsOf inode := by
      simp only [System.contentsOf, hinodes]
    rw [hthere, System.contentsOf_unlockAll]
  have hidle : clone'.handle = none ∧ clone'.holding = none ∧ clone'.checked = none ∧
      clone'.unmarked = false ∧ clone'.pc ≠ .made := by
    rcases hpc with hpc | ⟨hpc, _⟩ <;>
      simp [Clone.handle, Clone.holding, Clone.checked, Clone.unmarked, hpc]
  obtain ⟨hhandle, hholding, hchecked, hunmarked, hmade⟩ := hidle
  refine h.keep hclone hclones ?_ hmarkers hstaging hmarker ?_ (absurd · hmade) ?_ ?_ ?_
    (fun inode => .inl (hcontents inode)) ?_ ?_
  · rw [hinodes]
    exact List.length_map _
  · intro hcleans
    rcases hpc with hover | ⟨_, hcleaning⟩
    · simp [Clone.cleaning, hover] at hcleans
    · exact hcleaning
  · intro entry hentry
    rw [hhandle] at hentry
    cases hentry
  · intro inode j hne hheld
    rw [hlock]
    exact System.lockOf_unlockAll hne hheld
  · intro inode hhas
    rw [hholding] at hhas
    cases hhas
  · intro hun
    rw [hunmarked] at hun
    cases hun
  · intro inode hinode
    rw [hchecked] at hinode
    cases hinode

theorem System.lockOf_lockInode {inode : Nat} (hlt : inode < s.inodes.length) :
    (s.lockInode inode i).lockOf inode = some i := by
  simp [System.lockOf, System.lockInode, List.getElem?_eq_getElem hlt]

theorem System.lockOf_lockInode_ne {inode other : Nat} (hne : other ≠ inode) :
    (s.lockInode inode i).lockOf other = s.lockOf other := by
  simp [System.lockOf, System.lockInode, Ne.symm hne]

theorem System.contentsOf_lockInode (inode other : Nat) :
    (s.lockInode inode i).contentsOf other = s.contentsOf other := by
  simp only [System.contentsOf, System.lockInode, List.getElem?_modify]
  cases s.inodes[other]? with
  | none => rfl
  | some file => by_cases heq : inode = other <;> simp [heq]

/-- A step of one clone that takes a free lock. -/
theorem System.Ok.takeLock (h : s.Ok) {inode : Nat} (hclone : s.clones[i]? = some clone)
    (hlt : inode < s.inodes.length) (hfree : s.lockOf inode = none)
    (hstaging : clone'.staging = clone.staging) (hmarker : clone'.marker = clone.marker)
    (hcleaning : clone'.cleaning = true → clone.cleaning = true) (hmade : clone'.pc ≠ .made)
    (hhandle : ∀ entry, clone'.handle = some entry → clone.handle = some entry)
    (hholds : clone'.holding = some inode)
    (hpart : clone'.unmarked = true → clone.unmarked = true)
    (hchecked : clone'.checked = none) : ((s.lockInode inode i).setClone i clone').Ok := by
  have hcontents : ∀ other, ((s.lockInode inode i).setClone i clone').contentsOf other =
      s.contentsOf other := System.contentsOf_lockInode inode
  refine h.keep hclone rfl (List.length_modify ..) (List.Subset.refl _) hstaging hmarker hcleaning
    (absurd · hmade) (fun entry hentry => .inl (hhandle entry hentry)) ?_ ?_
    (fun other => .inl (hcontents other)) ?_ ?_
  · intro other j _ hheld
    have hne : other ≠ inode := by
      rintro rfl
      rw [hfree] at hheld
      cases hheld
    show (s.lockInode inode i).lockOf other = some j
    rw [System.lockOf_lockInode_ne hne]
    exact hheld
  · intro other hhas
    obtain rfl := Option.some.inj (hholds.symm.trans hhas)
    exact System.lockOf_lockInode hlt
  · intro hun other hother
    rw [hcontents]
    exact h.part clone (List.mem_of_getElem? hclone) (hpart hun) other hother
  · intro other hother
    rw [hchecked] at hother
    cases hother

theorem System.lockOf_writeInode (inode other : Nat) (text : List Char) :
    (s.writeInode inode text).lockOf other = s.lockOf other := by
  simp only [System.lockOf, System.writeInode, List.getElem?_modify]
  cases s.inodes[other]? with
  | none => rfl
  | some file => by_cases heq : inode = other <;> simp [heq]

theorem System.contentsOf_writeInode {inode : Nat} {text : List Char}
    (hlt : inode < s.inodes.length) : (s.writeInode inode text).contentsOf inode = text := by
  simp [System.contentsOf, System.writeInode, List.getElem?_eq_getElem hlt]

theorem System.contentsOf_writeInode_ne {inode other : Nat} {text : List Char}
    (hne : other ≠ inode) : (s.writeInode inode text).contentsOf other = s.contentsOf other := by
  simp [System.contentsOf, System.writeInode, Ne.symm hne]

theorem System.of_cloneAt {pc : Pc} (h : s.cloneAt i pc = some clone) :
    s.clones[i]? = some clone ∧ clone.pc = pc := by
  obtain ⟨hclone, hpc⟩ := Option.filter_eq_some_iff.mp h
  exact ⟨hclone, of_decide_eq_true hpc⟩

theorem System.of_passOf {pass : Pass} (h : s.passOf i = some (clone, pass)) :
    s.clones[i]? = some clone ∧ clone.pc = .cleaning pass := by
  unfold System.passOf at h
  split at h
  · next found hfound =>
      split at h
      · next there hpc =>
          obtain ⟨rfl, rfl⟩ := Prod.mk.inj (Option.some.inj h)
          exact ⟨hfound, hpc⟩
      · cases h
  · cases h

theorem System.of_markerAt {name : Name} {inode : Nat} (h : s.markerAt name = some inode) :
    (name, inode) ∈ s.markers := by
  obtain ⟨entry, hfound, rfl⟩ := Option.map_eq_some_iff.mp h
  have hname : entry.1 = name := by simpa using List.find?_some hfound
  rw [← hname]
  exact List.mem_of_find?_eq_some hfound

-- The equations of `exec` are made here, once, and not by every proof that uses them.
section

attribute [local simp] System.exec

end

theorem ok_start (h : s.Ok) (target : Name) :
    System.Ok { s with clones := s.clones ++ [⟨target, [], none, none, .cleaning .idle⟩] } := by
  have howner : ∀ {name inode}, (∃ owner ∈ s.clones, owner.staging = some name ∧
      owner.marker = some inode) → ∃ owner ∈ s.clones ++ [⟨target, [], none, none, .cleaning .idle⟩],
      owner.staging = some name ∧ owner.marker = some inode := by
    rintro name inode ⟨owner, howner, hboth⟩
    exact ⟨owner, List.mem_append_left _ howner, hboth⟩
  -- The new clone has no staging, no marker and no handle, so each part speaks of the old ones.
  refine ⟨?_, ?_, ?_, ?_, ?_, fun hentry => howner (h.entries hentry), ?_, ?_, ?_, ?_⟩
  · intro i j a b name ha hb haName hbName
    rcases Table.getElem?_concat_cases ha with ⟨_, rfl⟩ | ha
    · cases haName
    rcases Table.getElem?_concat_cases hb with ⟨_, rfl⟩ | hb
    · cases hbName
    exact h.names ha hb haName hbName
  · intro i j a b inode ha hb haInode hbInode
    rcases Table.getElem?_concat_cases ha with ⟨_, rfl⟩ | ha
    · cases haInode
    rcases Table.getElem?_concat_cases hb with ⟨_, rfl⟩ | hb
    · cases hbInode
    exact h.owners ha hb haInode hbInode
  · intro clone hclone inode hinode
    rcases List.mem_append.mp hclone with hold | hnew
    · exact h.made clone hold inode hinode
    · obtain rfl := List.mem_singleton.mp hnew
      cases hinode
  · intro clone hclone hcleaning
    rcases List.mem_append.mp hclone with hold | hnew
    · exact h.early clone hold hcleaning
    · obtain rfl := List.mem_singleton.mp hnew
      exact ⟨rfl, rfl⟩
  · intro clone hclone hpc
    rcases List.mem_append.mp hclone with hold | hnew
    · exact h.unmade clone hold hpc
    · obtain rfl := List.mem_singleton.mp hnew
      rfl
  · intro clone hclone name inode hhandle
    rcases List.mem_append.mp hclone with hold | hnew
    · exact howner (h.handles clone hold hhandle)
    · obtain rfl := List.mem_singleton.mp hnew
      cases hhandle
  · intro j clone inode hclone hholding
    rcases Table.getElem?_concat_cases hclone with ⟨_, rfl⟩ | hclone
    · cases hholding
    · exact h.holds hclone hholding
  · intro clone hclone hunmarked
    rcases List.mem_append.mp hclone with hold | hnew
    · exact h.part clone hold hunmarked
    · obtain rfl := List.mem_singleton.mp hnew
      cases hunmarked
  · intro clone hclone inode hinode
    rcases List.mem_append.mp hclone with hold | hnew
    · exact h.whole clone hold inode hinode
    · obtain rfl := List.mem_singleton.mp hnew
      cases hinode

theorem ok_read {name : Name} (h : s.Ok) (hstep : s.exec (.read i name) = some t) : t.Ok := by
  obtain ⟨⟨clone, pass⟩, hpass, hs'⟩ := Option.bind_eq_some_iff.mp hstep
  obtain ⟨hclone, hpc⟩ := System.of_passOf hpass
  obtain ⟨_, hs'⟩ := Option.ite_none_right_eq_some.mp hs'
  obtain rfl := Option.some.inj hs'
  exact h.keepFiles hclone rfl rfl (List.Subset.refl _) rfl rfl id id (fun _ => .inl) (fun _ => id)
    .inl (h.whole clone (List.mem_of_getElem? hclone))

theorem ok_openMarker {name : Name} (h : s.Ok) (hstep : s.exec (.openMarker i name) = some t) :
    t.Ok := by
  simp only [System.exec] at hstep
  split at hstep
  · next clone hpass =>
      obtain ⟨hclone, hpc⟩ := System.of_passOf hpass
      obtain ⟨_, hopen⟩ := Option.ite_none_right_eq_some.mp hstep
      obtain ⟨inode, hmarker, hs'⟩ := Option.bind_eq_some_iff.mp hopen
      obtain rfl := Option.some.inj hs'
      refine h.keepFiles hclone rfl rfl (List.Subset.refl _) rfl rfl ?_ ?_ ?_ ?_ ?_ ?_
      · exact fun _ => by rw [Clone.cleaning, hpc]
      · exact fun hmade => nomatch hmade
      · intro entry hentry
        obtain rfl := Option.some.inj hentry
        exact .inr (System.of_markerAt hmarker)
      · exact fun _ hholding => nomatch hholding
      · exact fun hunmarked => nomatch hunmarked
      · exact fun _ hchecked => nomatch hchecked
  · cases hstep

/-- A pass goes on with the next entry. -/
theorem System.Ok.nextEntry (h : s.Ok) {pass : Pass} (hclone : s.clones[i]? = some clone)
    (hpc : clone.pc = .cleaning pass) : (s.nextEntry i clone).Ok := by
  refine h.closeFiles hclone rfl rfl (List.Subset.refl _) rfl rfl (.inr ⟨rfl, ?_⟩)
  rw [Clone.cleaning, hpc]

theorem ok_tryLock (h : s.Ok) (hstep : s.exec (.tryLock i) = some t) : t.Ok := by
  simp only [System.exec] at hstep
  split at hstep
  · next clone name inode hpass =>
      obtain ⟨hclone, hpc⟩ := System.of_passOf hpass
      have hhandle : clone.handle = some (name, inode) := by rw [Clone.handle, hpc]
      split at hstep
      · next hfree =>
          obtain rfl := Option.some.inj hstep
          obtain ⟨owner, howner, _, hinode⟩ := h.handles clone (List.mem_of_getElem? hclone) hhandle
          refine h.takeLock hclone (h.made owner howner inode hinode) hfree rfl rfl ?_ ?_ ?_ rfl ?_ rfl
          · exact fun _ => by rw [Clone.cleaning, hpc]
          · exact fun hmade => nomatch hmade
          · exact fun entry hentry => hhandle.trans hentry
          · exact fun hunmarked => nomatch hunmarked
      · obtain rfl := Option.some.inj hstep
        exact h.nextEntry hclone hpc
  · cases hstep

theorem ok_readMarker (h : s.Ok) (hstep : s.exec (.readMarker i) = some t) : t.Ok := by
  simp only [System.exec] at hstep
  split at hstep
  · next clone name inode hpass =>
      obtain ⟨hclone, hpc⟩ := System.of_passOf hpass
      split at hstep
      · next hwhole =>
          obtain rfl := Option.some.inj hstep
          refine h.keepFiles hclone rfl rfl (List.Subset.refl _) rfl rfl ?_ ?_ ?_ ?_ ?_ ?_
          · exact fun _ => by rw [Clone.cleaning, hpc]
          · exact fun hmade => nomatch hmade
          · exact fun entry hentry => .inl (by rw [Clone.handle, hpc]; exact hentry)
          · exact fun inode hholding => by rw [Clone.holding, hpc]; exact hholding
          · exact fun hunmarked => nomatch hunmarked
          · intro other hother
            obtain rfl := Option.some.inj hother
            exact hwhole
      · obtain rfl := Option.some.inj hstep
        exact h.nextEntry hclone hpc
  · cases hstep

theorem ok_removeDir (h : s.Ok) (hstep : s.exec (.removeDir i) = some t) : t.Ok := by
  simp only [System.exec] at hstep
  split at hstep
  · next clone name inode hpass =>
      obtain ⟨hclone, hpc⟩ := System.of_passOf hpass
      obtain ⟨_, hs'⟩ := Option.ite_none_right_eq_some.mp hstep
      obtain rfl := Option.some.inj hs'
      have hwhole := h.whole clone (List.mem_of_getElem? hclone)
      rw [Clone.checked, hpc] at hwhole
      refine h.keepFiles hclone rfl rfl (List.Subset.refl _) rfl rfl ?_ ?_ ?_ ?_ ?_ hwhole
      · exact fun _ => by rw [Clone.cleaning, hpc]
      · exact fun hmade => nomatch hmade
      · exact fun entry hentry => .inl (by rw [Clone.handle, hpc]; exact hentry)
      · exact fun inode hholding => by rw [Clone.holding, hpc]; exact hholding
      · exact fun hunmarked => nomatch hunmarked
  · cases hstep

theorem ok_removeDirFails (h : s.Ok) (hstep : s.exec (.removeDirFails i) = some t) : t.Ok := by
  simp only [System.exec] at hstep
  split at hstep
  · next clone name inode hpass =>
      obtain ⟨hclone, hpc⟩ := System.of_passOf hpass
      obtain rfl := Option.some.inj hstep
      exact h.nextEntry hclone hpc
  · cases hstep

theorem ok_removeMarker (h : s.Ok) (hstep : s.exec (.removeMarker i) = some t) : t.Ok := by
  simp only [System.exec] at hstep
  split at hstep
  · next clone name inode hpass =>
      obtain ⟨hclone, hpc⟩ := System.of_passOf hpass
      obtain rfl := Option.some.inj hstep
      refine h.closeFiles hclone rfl rfl (List.filter_subset_self _) rfl rfl (.inr ⟨rfl, ?_⟩)
      rw [Clone.cleaning, hpc]
  · cases hstep

theorem System.staging_of_used {name : Name} (hfresh : name ∉ s.used) {other : Clone}
    (hother : other ∈ s.clones) : other.staging ≠ some name := by
  intro hname
  apply hfresh
  exact List.mem_append_right _ (List.mem_filterMap.mpr ⟨other, hother, hname⟩)

theorem ok_makeDir {random : Name} (h : s.Ok) (hstep : s.exec (.makeDir i random) = some t) :
    t.Ok := by
  obtain ⟨clone, hfound, hs'⟩ := Option.bind_eq_some_iff.mp hstep
  obtain ⟨hclone, hpc⟩ := System.of_cloneAt hfound
  obtain ⟨hfresh, hs'⟩ := Option.ite_none_right_eq_some.mp hs'
  obtain rfl := Option.some.inj hs'
  generalize stagingName clone.target random = name at hfresh
  have hmem := List.mem_of_getElem? hclone
  obtain ⟨hstaging, hmarker⟩ := h.early clone hmem (by rw [Clone.cleaning, hpc])
  have howner : ∀ {other inode}, (∃ owner ∈ s.clones, owner.staging = some other ∧
      owner.marker = some inode) → ∃ owner ∈ s.clones.set i { clone with staging := some name, pc := .made },
      owner.staging = some other ∧ owner.marker = some inode := by
    intro other inode
    apply System.exists_owner (t := s.setClone i { clone with staging := some name, pc := .made }) hclone rfl
    · intro there hthere
      rw [hstaging] at hthere
      cases hthere
    · exact fun _ hinode => hinode
  refine ⟨?_, ?_, ?_, ?_, ?_, fun hentry => howner (h.entries hentry), ?_, ?_, ?_, ?_⟩
  · intro j k a b other ha hb haName hbName
    rcases Table.getElem?_set_cases ha with ⟨hj, rfl⟩ | ⟨_, ha⟩ <;>
      rcases Table.getElem?_set_cases hb with ⟨hk, rfl⟩ | ⟨_, hb⟩
    · exact hj.trans hk.symm
    · obtain rfl := Option.some.inj haName
      exact absurd hbName (System.staging_of_used hfresh (List.mem_of_getElem? hb))
    · obtain rfl := Option.some.inj hbName
      exact absurd haName (System.staging_of_used hfresh (List.mem_of_getElem? ha))
    · exact h.names ha hb haName hbName
  · intro j k a b inode ha hb haInode hbInode
    rcases Table.getElem?_set_cases ha with ⟨_, rfl⟩ | ⟨_, ha⟩
    · exact absurd (hmarker.symm.trans haInode) (by simp)
    rcases Table.getElem?_set_cases hb with ⟨_, rfl⟩ | ⟨_, hb⟩
    · exact absurd (hmarker.symm.trans hbInode) (by simp)
    exact h.owners ha hb haInode hbInode
  · intro other hother inode hinode
    rcases List.mem_or_eq_of_mem_set hother with hold | rfl
    · exact h.made other hold inode hinode
    · exact h.made clone hmem inode hinode
  · intro other hother hcleaning
    rcases List.mem_or_eq_of_mem_set hother with hold | rfl
    · exact h.early other hold hcleaning
    · cases hcleaning
  · intro other hother hmade
    rcases List.mem_or_eq_of_mem_set hother with hold | rfl
    · exact h.unmade other hold hmade
    · exact hmarker
  · intro other hother there inode hhandle
    rcases List.mem_or_eq_of_mem_set hother with hold | rfl
    · exact howner (h.handles other hold hhandle)
    · cases hhandle
  · intro j other inode hother hholding
    rcases Table.getElem?_set_cases hother with ⟨_, rfl⟩ | ⟨_, hother⟩
    · cases hholding
    · exact h.holds hother hholding
  · intro other hother hunmarked
    rcases List.mem_or_eq_of_mem_set hother with hold | rfl
    · exact h.part other hold hunmarked
    · cases hunmarked
  · intro other hother inode hinode
    rcases List.mem_or_eq_of_mem_set hother with hold | rfl
    · exact h.whole other hold inode hinode
    · cases hinode

/-- A new file changes no other one. -/
theorem System.inodes_append {file : Inode} {inode : Nat} (hlt : inode < s.inodes.length) :
    (s.inodes ++ [file])[inode]? = s.inodes[inode]? := List.getElem?_append_left hlt

theorem ok_createMarker (h : s.Ok) (hstep : s.exec (.createMarker i) = some t) : t.Ok := by
  obtain ⟨clone, hfound, hs'⟩ := Option.bind_eq_some_iff.mp hstep
  obtain ⟨hclone, hpc⟩ := System.of_cloneAt hfound
  obtain ⟨name, hname, hs'⟩ := Option.bind_eq_some_iff.mp hs'
  obtain ⟨_, hs'⟩ := Option.ite_none_right_eq_some.mp hs'
  obtain rfl := Option.some.inj hs'
  have hmem := List.mem_of_getElem? hclone
  have hmarker := h.unmade clone hmem hpc
  have howner : ∀ {other inode}, (∃ owner ∈ s.clones, owner.staging = some other ∧
      owner.marker = some inode) →
      ∃ owner ∈ s.clones.set i { clone with marker := some s.inodes.length, pc := .created },
        owner.staging = some other ∧ owner.marker = some inode := by
    intro other inode
    apply System.exists_owner
      (t := s.setClone i { clone with marker := some s.inodes.length, pc := .created }) hclone rfl
    · exact fun _ hthere => hthere
    · intro inode hinode
      rw [hmarker] at hinode
      cases hinode
  -- A locked file is one of those there were, so the new one is locked by nobody.
  have hlocked : ∀ {inode j : Nat}, s.lockOf inode = some j → inode < s.inodes.length := by
    intro inode j hlock
    obtain ⟨file, hfile, _⟩ := Option.bind_eq_some_iff.mp hlock
    exact (List.getElem?_eq_some_iff.mp hfile).1
  refine ⟨?_, ?_, ?_, ?_, ?_, ?_, ?_, ?_, ?_, ?_⟩
  · intro j k a b other ha hb haName hbName
    rcases Table.getElem?_set_cases ha with ⟨rfl, rfl⟩ | ⟨_, ha⟩ <;>
      rcases Table.getElem?_set_cases hb with ⟨hk, rfl⟩ | ⟨_, hb⟩
    · exact hk.symm
    · exact h.names hclone hb haName hbName
    · exact (h.names ha hclone haName hbName).trans hk.symm
    · exact h.names ha hb haName hbName
  · intro j k a b inode ha hb haInode hbInode
    -- No clone has the new file as its marker yet.
    have hold : ∀ {j : Nat} {other : Clone}, s.clones[j]? = some other →
        other.marker ≠ some s.inodes.length := by
      intro j other hother hmarked
      exact absurd (h.made other (List.mem_of_getElem? hother) _ hmarked) (Nat.lt_irrefl _)
    rcases Table.getElem?_set_cases ha with ⟨hj, rfl⟩ | ⟨_, ha⟩ <;>
      rcases Table.getElem?_set_cases hb with ⟨hk, rfl⟩ | ⟨_, hb⟩
    · exact hj.trans hk.symm
    · obtain rfl := Option.some.inj haInode
      exact absurd hbInode (hold hb)
    · obtain rfl := Option.some.inj hbInode
      exact absurd haInode (hold ha)
    · exact h.owners ha hb haInode hbInode
  · intro other hother inode hinode
    show inode < (s.inodes ++ [(⟨[], none⟩ : Inode)]).length
    rw [List.length_append, List.length_singleton]
    rcases List.mem_or_eq_of_mem_set hother with hold | rfl
    · exact Nat.lt_succ_of_lt (h.made other hold inode hinode)
    · obtain rfl := Option.some.inj hinode
      exact Nat.lt_succ_self _
  · intro other hother hcleaning
    rcases List.mem_or_eq_of_mem_set hother with hold | rfl
    · exact h.early other hold hcleaning
    · cases hcleaning
  · intro other hother hmade
    rcases List.mem_or_eq_of_mem_set hother with hold | rfl
    · exact h.unmade other hold hmade
    · cases hmade
  · intro other inode hentry
    rcases List.mem_cons.mp hentry with hnew | hold
    · obtain ⟨rfl, rfl⟩ := Prod.mk.inj hnew
      -- The new entry is the marker that the clone has made.
      refine ⟨{ clone with marker := some s.inodes.length, pc := .created }, ?_, hname, rfl⟩
      exact List.mem_set (List.getElem?_eq_some_iff.mp hclone).1 _
    · exact howner (h.entries hold)
  · intro other hother there inode hhandle
    rcases List.mem_or_eq_of_mem_set hother with hold | rfl
    · exact howner (h.handles other hold hhandle)
    · cases hhandle
  · intro j other inode hother hholding
    rcases Table.getElem?_set_cases hother with ⟨_, rfl⟩ | ⟨_, hother⟩
    · cases hholding
    · have hlock := h.holds hother hholding
      show ((s.inodes ++ [⟨[], none⟩])[inode]?).bind Inode.lock = some j
      rw [System.inodes_append (hlocked hlock)]
      exact hlock
  · intro other hother hunmarked inode hinode
    show (((s.inodes ++ [⟨[], none⟩])[inode]?).map Inode.contents).getD [] ≠ markerText
    rcases List.mem_or_eq_of_mem_set hother with hold | rfl
    · rw [System.inodes_append (h.made other hold inode hinode)]
      exact h.part other hold hunmarked inode hinode
    · obtain rfl := Option.some.inj hinode
      simp [markerText]
  · intro other hother inode hinode
    rcases List.mem_or_eq_of_mem_set hother with hold | rfl
    · obtain ⟨j, hj⟩ := List.mem_iff_getElem?.mp hold
      have hlock := h.holds hj (Clone.holding_of_checked hinode)
      show (((s.inodes ++ [⟨[], none⟩])[inode]?).map Inode.contents).getD [] = markerText
      rw [System.inodes_append (hlocked hlock)]
      exact h.whole other hold inode hinode
    · cases hinode

theorem ok_lock (h : s.Ok) (hstep : s.exec (.lock i) = some t) : t.Ok := by
  obtain ⟨clone, hfound, hs'⟩ := Option.bind_eq_some_iff.mp hstep
  obtain ⟨hclone, hpc⟩ := System.of_cloneAt hfound
  obtain ⟨inode, hinode, hs'⟩ := Option.bind_eq_some_iff.mp hs'
  obtain ⟨hfree, hs'⟩ := Option.ite_none_right_eq_some.mp hs'
  obtain rfl := Option.some.inj hs'
  have hlt := h.made clone (List.mem_of_getElem? hclone) inode hinode
  refine h.takeLock hclone hlt hfree rfl rfl ?_ ?_ ?_ hinode ?_ rfl
  · exact fun hcleaning => nomatch hcleaning
  · exact fun hmade => nomatch hmade
  · exact fun _ hentry => nomatch hentry
  · exact fun _ => by rw [Clone.unmarked, hpc]

theorem ok_write (h : s.Ok) (hstep : s.exec (.write i) = some t) : t.Ok := by
  obtain ⟨clone, hfound, hs'⟩ := Option.bind_eq_some_iff.mp hstep
  obtain ⟨hclone, hpc⟩ := System.of_cloneAt hfound
  obtain ⟨inode, hinode, hs'⟩ := Option.bind_eq_some_iff.mp hs'
  obtain rfl := Option.some.inj hs'
  have hholding : clone.holding = some inode := by
    rw [Clone.holding, hpc]
    exact hinode
  refine h.keep hclone rfl (List.length_modify ..) (List.Subset.refl _) rfl rfl
    (fun hcleaning => nomatch hcleaning) (fun hmade => nomatch hmade)
    (fun _ hentry => nomatch hentry) ?_ ?_ ?_ (fun hunmarked => nomatch hunmarked)
    (fun _ hchecked => nomatch hchecked)
  · intro other j _ hheld
    exact (System.lockOf_writeInode inode other markerText).trans hheld
  · intro other hhas
    obtain rfl := Option.some.inj (hinode.symm.trans hhas)
    exact (System.lockOf_writeInode inode inode markerText).trans (h.holds hclone hholding)
  · intro other
    by_cases hne : other = inode
    · rw [hne]
      exact .inr ⟨hinode, hholding⟩
    · exact .inl (System.contentsOf_writeInode_ne hne)

theorem ok_writeFails {written : Nat} (h : s.Ok)
    (hstep : s.exec (.writeFails i written) = some t) : t.Ok := by
  obtain ⟨clone, hfound, hs'⟩ := Option.bind_eq_some_iff.mp hstep
  obtain ⟨hclone, hpc⟩ := System.of_cloneAt hfound
  obtain ⟨inode, hinode, hs'⟩ := Option.bind_eq_some_iff.mp hs'
  obtain ⟨hshort, hs'⟩ := Option.ite_none_right_eq_some.mp hs'
  obtain rfl := Option.some.inj hs'
  have hholding : clone.holding = some inode := by
    rw [Clone.holding, hpc]
    exact hinode
  have hlt := h.made clone (List.mem_of_getElem? hclone) inode hinode
  refine h.keep hclone rfl ?_ (List.Subset.refl _) rfl rfl
    (fun hcleaning => nomatch hcleaning) (fun hmade => nomatch hmade)
    (fun _ hentry => nomatch hentry) ?_ (fun _ hhas => nomatch hhas) ?_ ?_
    (fun _ hchecked => nomatch hchecked)
  · exact (List.length_map _).trans (List.length_modify ..)
  · intro other j hne hheld
    apply System.lockOf_unlockAll hne
    rw [System.lockOf_writeInode]
    exact hheld
  · intro other
    by_cases hne : other = inode
    · rw [hne]
      exact .inr ⟨hinode, hholding⟩
    · exact .inl ((System.contentsOf_unlockAll other).trans (System.contentsOf_writeInode_ne hne))
  · intro _ other hother
    obtain rfl := Option.some.inj (hinode.symm.trans hother)
    show (System.unlockAll _ i).contentsOf inode ≠ markerText
    rw [System.contentsOf_unlockAll, System.contentsOf_writeInode hlt]
    intro heq
    have hlen := congrArg List.length heq
    rw [List.length_take] at hlen
    omega

/-- A clone goes on with its own marker locked as it was. -/
theorem System.Ok.advance (h : s.Ok) {pc : Pc} (hclone : s.clones[i]? = some clone)
    (hclones : t.clones = s.clones.set i { clone with pc := pc }) (hinodes : t.inodes = s.inodes)
    (hmarkers : t.markers ⊆ s.markers)
    (hpc : pc = .dropping ∨ pc = .dropped ∨ pc = .unlinking ∨ pc = .unlocking)
    (hholds : clone.holding = clone.marker) : t.Ok := by
  obtain ⟨hcleaning, hhandle, hholding, hunmarked, hchecked, hmade⟩ :
      Clone.cleaning { clone with pc := pc } = false ∧ Clone.handle { clone with pc := pc } = none ∧
      Clone.holding { clone with pc := pc } = clone.marker ∧
      Clone.unmarked { clone with pc := pc } = false ∧
      Clone.checked { clone with pc := pc } = none ∧ pc ≠ .made := by
    rcases hpc with rfl | rfl | rfl | rfl <;> exact ⟨rfl, rfl, rfl, rfl, rfl, by simp⟩
  refine h.keepFiles hclone hclones hinodes hmarkers rfl rfl ?_ (absurd · hmade) ?_ ?_ ?_ ?_
  · intro hcleans
    rw [hcleaning] at hcleans
    cases hcleans
  · intro entry hentry
    rw [hhandle] at hentry
    cases hentry
  · intro inode hhas
    rw [hholding] at hhas
    rw [hholds, hhas]
  · intro hun
    rw [hunmarked] at hun
    cases hun
  · intro inode hinode
    rw [hchecked] at hinode
    cases hinode

/-- A clone that fails before its staging was marked. -/
theorem System.Ok.discarding (h : s.Ok) (hclone : s.clones[i]? = some clone)
    (hpc : clone.pc = .made ∨ clone.pc = .created) :
    (s.setClone i { clone with pc := .discarding }).Ok := by
  refine h.keepFiles hclone rfl rfl (List.Subset.refl _) rfl rfl ?_ ?_ ?_ ?_ ?_ ?_
  · exact fun hcleaning => nomatch hcleaning
  · exact fun hmade => nomatch hmade
  · exact fun _ hentry => nomatch hentry
  · exact fun _ hholding => nomatch hholding
  · intro _
    rcases hpc with hpc | hpc
    · exact .inr (h.unmade clone (List.mem_of_getElem? hclone) hpc)
    · exact .inl (by rw [Clone.unmarked, hpc])
  · exact fun _ hchecked => nomatch hchecked

theorem ok_discard (h : s.Ok) (hstep : s.exec (.discard i) = some t) : t.Ok := by
  obtain ⟨clone, hfound, hs'⟩ := Option.bind_eq_some_iff.mp hstep
  obtain ⟨hclone, _⟩ := System.of_cloneAt hfound
  obtain ⟨name, _, hs'⟩ := Option.bind_eq_some_iff.mp hs'
  obtain rfl := Option.some.inj hs'
  refine h.keepFiles hclone rfl rfl (List.Subset.refl _) rfl rfl ?_ ?_ ?_ ?_ ?_ ?_
  · exact fun hcleaning => nomatch hcleaning
  · exact fun hmade => nomatch hmade
  · exact fun _ hentry => nomatch hentry
  · exact fun _ hholding => nomatch hholding
  · exact fun hunmarked => nomatch hunmarked
  · exact fun _ hchecked => nomatch hchecked

/-- Every step keeps the invariant. -/
theorem ok_exec {e : Event} (h : s.Ok) (hstep : s.exec e = some t) : t.Ok := by
  cases e with
  | start target =>
      obtain rfl := Option.some.inj hstep
      exact ok_start h target
  | read i name => exact ok_read h hstep
  | openMarker i name => exact ok_openMarker h hstep
  | tryLock i => exact ok_tryLock h hstep
  | readMarker i => exact ok_readMarker h hstep
  | removeDir i => exact ok_removeDir h hstep
  | removeDirFails i => exact ok_removeDirFails h hstep
  | removeMarker i => exact ok_removeMarker h hstep
  | makeDir i random => exact ok_makeDir h hstep
  | createMarker i => exact ok_createMarker h hstep
  | createFails i =>
      obtain ⟨clone, hfound, hs'⟩ := Option.bind_eq_some_iff.mp hstep
      obtain ⟨hclone, hpc⟩ := System.of_cloneAt hfound
      obtain rfl := Option.some.inj hs'
      exact h.discarding hclone (.inl hpc)
  | lock i => exact ok_lock h hstep
  | lockFails i =>
      obtain ⟨clone, hfound, hs'⟩ := Option.bind_eq_some_iff.mp hstep
      obtain ⟨hclone, hpc⟩ := System.of_cloneAt hfound
      obtain rfl := Option.some.inj hs'
      exact h.discarding hclone (.inr hpc)
  | write i => exact ok_write h hstep
  | writeFails i written => exact ok_writeFails h hstep
  | discard i => exact ok_discard h hstep
  | publish i =>
      obtain ⟨clone, hfound, hs'⟩ := Option.bind_eq_some_iff.mp hstep
      obtain ⟨hclone, hpc⟩ := System.of_cloneAt hfound
      obtain ⟨name, _, hs'⟩ := Option.bind_eq_some_iff.mp hs'
      obtain ⟨_, hs'⟩ := Option.ite_none_right_eq_some.mp hs'
      obtain rfl := Option.some.inj hs'
      exact h.advance hclone rfl rfl (List.Subset.refl _) (.inl rfl) (by rw [Clone.holding, hpc])
  | fail i =>
      obtain ⟨clone, hfound, hs'⟩ := Option.bind_eq_some_iff.mp hstep
      obtain ⟨hclone, hpc⟩ := System.of_cloneAt hfound
      obtain rfl := Option.some.inj hs'
      exact h.advance hclone rfl rfl (List.Subset.refl _) (.inl rfl) (by rw [Clone.holding, hpc])
  | dropDir i =>
      obtain ⟨clone, hfound, hs'⟩ := Option.bind_eq_some_iff.mp hstep
      obtain ⟨hclone, hpc⟩ := System.of_cloneAt hfound
      obtain ⟨name, _, hs'⟩ := Option.bind_eq_some_iff.mp hs'
      obtain rfl := Option.some.inj hs'
      exact h.advance hclone rfl rfl (List.Subset.refl _) (.inr (.inl rfl))
        (by rw [Clone.holding, hpc])
  | dropDirFails i =>
      obtain ⟨clone, hfound, hs'⟩ := Option.bind_eq_some_iff.mp hstep
      obtain ⟨hclone, hpc⟩ := System.of_cloneAt hfound
      obtain rfl := Option.some.inj hs'
      exact h.advance hclone rfl rfl (List.Subset.refl _) (.inr (.inl rfl))
        (by rw [Clone.holding, hpc])
  | look i =>
      obtain ⟨clone, hfound, hs'⟩ := Option.bind_eq_some_iff.mp hstep
      obtain ⟨hclone, hpc⟩ := System.of_cloneAt hfound
      obtain ⟨name, _, hs'⟩ := Option.bind_eq_some_iff.mp hs'
      obtain rfl := Option.some.inj hs'
      refine h.advance hclone rfl rfl (List.Subset.refl _) ?_ (by rw [Clone.holding, hpc])
      split
      · exact .inr (.inr (.inr rfl))
      · exact .inr (.inr (.inl rfl))
  | unlink i =>
      obtain ⟨clone, hfound, hs'⟩ := Option.bind_eq_some_iff.mp hstep
      obtain ⟨hclone, hpc⟩ := System.of_cloneAt hfound
      obtain ⟨name, _, hs'⟩ := Option.bind_eq_some_iff.mp hs'
      obtain rfl := Option.some.inj hs'
      exact h.advance hclone rfl rfl (List.filter_subset_self _) (.inr (.inr (.inr rfl)))
        (by rw [Clone.holding, hpc])
  | unlock i =>
      obtain ⟨clone, hfound, hs'⟩ := Option.bind_eq_some_iff.mp hstep
      obtain ⟨hclone, _⟩ := System.of_cloneAt hfound
      obtain rfl := Option.some.inj hs'
      exact h.closeFiles hclone rfl rfl (List.Subset.refl _) rfl rfl (.inl rfl)
  | die i =>
      obtain ⟨clone, hclone, hs'⟩ := Option.bind_eq_some_iff.mp hstep
      obtain rfl := Option.some.inj hs'
      exact h.closeFiles hclone rfl rfl (List.Subset.refl _) rfl rfl (.inl rfl)

end Steps

end Ripclone.Client.Staging
