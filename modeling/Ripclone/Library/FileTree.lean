import Ripclone.Library.Lines
import Ripclone.Library.Table

/-!
# A file tree and the calls that change it

Directories, files and symlinks as a process sees them through system calls. A path is walked name by
name from a directory: `.` and an empty name stay, `..` goes up, and a symlink on the way is replaced
by the path it holds. A call that creates or removes an entry walks to the entry's directory and never
through the entry itself; a path that ends in `.`, `..` or a slash names no entry, and such a call on
it fails. A call may also fail for a reason of its own, without an effect: `faults` says which do.

`effects` records what every call that created or wrote something did it to, and the symlinks its walk
followed.
-/

namespace Ripclone.Library

abbrev Name := List UInt8

/-- The names from the root. -/
abbrev Place := List Name

inductive Node where
  | dir
  | file (inode : Nat)
  | symlink (target : List UInt8)
  deriving DecidableEq, Repr

inductive Kind where
  | dir
  | file
  | symlink
  deriving DecidableEq, Repr

def Node.kind : Node → Kind
  | .dir => .dir
  | .file _ => .file
  | .symlink _ => .symlink

structure Inode where
  mode : Nat
  content : List UInt8
  deriving DecidableEq, Repr

structure Effect where
  place : Place
  followed : List Place
  deriving DecidableEq, Repr

structure FileTree where
  node : Place → Option Node
  inodes : List Inode
  effects : List Effect
  faults : List Bool

/-! ## Walking a path -/

def pathSeparator : UInt8 := 0x2f

def thisDir : Name := [0x2e]

def parentDir : Name := [0x2e, 0x2e]

def pathNames (path : List UInt8) : List Name := path.splitOn pathSeparator

/-- Whether it is the name of an entry. -/
def isName (name : Name) : Bool := name ≠ [] && name ≠ thisDir && name ≠ parentDir

/-- The names of a path without those that stay. -/
def plainNames (path : List UInt8) : List Name := (pathNames path).filter isName

/-- Where a walk ends, and the symlinks it followed. -/
structure Walked where
  place : Place
  followed : List Place
  deriving DecidableEq, Repr

/-- `follow` walks on from a symlink. -/
def walkNames (follow : Place → List Name → Option Walked) (node : Place → Option Node) :
    Place → List Name → Option Walked
  | dir, [] => some ⟨dir, []⟩
  | dir, name :: rest =>
    if name = [] ∨ name = thisDir then walkNames follow node dir rest
    else if name = parentDir then walkNames follow node dir.dropLast rest
    else
      match node (dir ++ [name]) with
      | none => none
      | some .dir => walkNames follow node (dir ++ [name]) rest
      | some (.file _) => if rest.isEmpty then some ⟨dir ++ [name], []⟩ else none
      | some (.symlink target) =>
        let start := if target.head? = some pathSeparator then [] else dir
        (follow start (pathNames target ++ rest)).map fun walked =>
          { walked with followed := (dir ++ [name]) :: walked.followed }

/-- A walk that follows fewer symlinks than it may. -/
def walk (node : Place → Option Node) : Nat → Place → List Name → Option Walked
  | 0, _, _ => none
  | links + 1, dir, names => walkNames (walk node links) node dir names

/-- A walk follows at most 40 symlinks. -/
def maxSymlinks : Nat := 41

/-- `path` joined to the directory at `base`. -/
structure PathAt where
  base : Place
  path : List UInt8
  deriving DecidableEq, Repr

namespace FileTree

/-- The entry that a path names, and the symlinks followed on the way to its directory. -/
def entry (t : FileTree) (p : PathAt) : Option Walked :=
  match (pathNames p.path).getLast? with
  | some last =>
    if isName last then
      (walk t.node maxSymlinks p.base (pathNames p.path).dropLast).bind fun walked =>
        if t.node walked.place = some .dir then
          some { walked with place := walked.place ++ [last] }
        else none
    else none
  | none => none

def statKind (t : FileTree) (p : PathAt) : Option Kind :=
  (walk t.node maxSymlinks p.base (pathNames p.path)).bind fun walked =>
    (t.node walked.place).map Node.kind

/-- Without following the last name. -/
def lstatKind (t : FileTree) (p : PathAt) : Option Kind :=
  if (pathNames p.path).getLast?.any isName then
    (t.entry p).bind fun walked => (t.node walked.place).map Node.kind
  else t.statKind p

def setNode (t : FileTree) (place : Place) (node : Option Node) : FileTree :=
  { t with node := fun other => if other = place then node else t.node other }

def record (t : FileTree) (place : Place) (followed : List Place) : FileTree :=
  { t with effects := ⟨place, followed⟩ :: t.effects }

end FileTree

/-! ## Calls -/

/-- An open file, and where it was opened. -/
structure Handle where
  inode : Nat
  place : Place
  deriving DecidableEq, Repr

inductive Errno where
  | exist
  | other
  deriving DecidableEq, Repr

inductive Call where
  | lstat (p : PathAt)
  | stat (p : PathAt)
  | mkdir (p : PathAt)
  | unlink (p : PathAt)
  | symlink (target : List UInt8) (p : PathAt)
  /-- For writing: created if it is not there, else truncated, and not through a symlink. -/
  | openFile (p : PathAt) (mode : Nat)
  | write (handle : Handle) (bytes : List UInt8)
  | fstat (handle : Handle)
  /-- Set the times of a path, or of the entry it names. -/
  | utimens (p : PathAt) (follow : Bool)
  deriving DecidableEq, Repr

def Reply : Call → Type
  | .lstat _ | .stat _ => Option Kind
  | .openFile .. => Except Errno Handle
  | .mkdir _ | .unlink _ | .symlink .. | .write .. | .fstat _ | .utimens .. => Except Errno Unit

/-- The reply of a call that fails for a reason of its own. -/
def Call.failed : (c : Call) → Reply c
  | .lstat _ | .stat _ => none
  | .openFile .. => .error .other
  | .mkdir _ | .unlink _ | .symlink .. | .write .. | .fstat _ | .utimens .. => .error .other

namespace FileTree

def mkdir (t : FileTree) (p : PathAt) : Except Errno Unit × FileTree :=
  match t.entry p with
  | none => (.error .other, t)
  | some e =>
    if (t.node e.place).isSome then (.error .exist, t)
    else (.ok (), (t.setNode e.place (some .dir)).record e.place e.followed)

/-- A directory is not unlinked. -/
def unlink (t : FileTree) (p : PathAt) : Except Errno Unit × FileTree :=
  match t.entry p with
  | none => (.error .other, t)
  | some e =>
    match t.node e.place with
    | some (.file _) | some (.symlink _) => (.ok (), t.setNode e.place none)
    | _ => (.error .other, t)

def symlink (t : FileTree) (target : List UInt8) (p : PathAt) : Except Errno Unit × FileTree :=
  match t.entry p with
  | none => (.error .other, t)
  | some e =>
    if target = [] ∨ target.contains 0 then (.error .other, t)
    else if (t.node e.place).isSome then (.error .exist, t)
    else (.ok (), (t.setNode e.place (some (.symlink target))).record e.place e.followed)

def openFile (t : FileTree) (p : PathAt) (mode : Nat) : Except Errno Handle × FileTree :=
  match t.entry p with
  | none => (.error .other, t)
  | some e =>
    match t.node e.place with
    | none =>
      (.ok ⟨t.inodes.length, e.place⟩,
        { (t.setNode e.place (some (.file t.inodes.length))).record e.place e.followed with
          inodes := t.inodes ++ [⟨mode, []⟩] })
    | some (.file inode) =>
      (.ok ⟨inode, e.place⟩,
        { t.record e.place e.followed with
          inodes := t.inodes.modify inode fun file => { file with content := [] } })
    | some .dir | some (.symlink _) => (.error .other, t)

def write (t : FileTree) (handle : Handle) (bytes : List UInt8) : Except Errno Unit × FileTree :=
  (.ok (), { t.record handle.place [] with
    inodes := t.inodes.modify handle.inode fun file => { file with content := file.content ++ bytes } })

def perform (t : FileTree) : (c : Call) → Reply c × FileTree
  | .lstat p => (t.lstatKind p, t)
  | .stat p => (t.statKind p, t)
  | .mkdir p => t.mkdir p
  | .unlink p => t.unlink p
  | .symlink target p => t.symlink target p
  | .openFile p mode => t.openFile p mode
  | .write handle bytes => t.write handle bytes
  | .fstat _ => (.ok (), t)
  | .utimens p follow =>
    (if (if follow then t.statKind p else t.lstatKind p).isSome then .ok () else .error .other, t)

def exec (c : Call) (t : FileTree) : Reply c × FileTree :=
  match t.faults with
  | true :: faults => (c.failed, { t with faults := faults })
  | false :: faults => { t with faults := faults }.perform c
  | [] => t.perform c

end FileTree

/-! ## Paths and their names -/

theorem not_mem_of_mem_pathNames {path : List UInt8} {name : Name} (h : name ∈ pathNames path) :
    pathSeparator ∉ name := not_mem_of_mem_splitOn h

/-- The path that has these names. -/
def joinNames (names : List Name) : List UInt8 := [pathSeparator].intercalate names

theorem pathNames_joinNames {names : List Name} (hne : names ≠ [])
    (hsep : ∀ name ∈ names, pathSeparator ∉ name) : pathNames (joinNames names) = names :=
  List.splitOn_intercalate pathSeparator hsep hne

theorem plainNames_joinNames {names : List Name} (hsep : ∀ name ∈ names, pathSeparator ∉ name) :
    plainNames (joinNames names) = names.filter isName := by
  cases names with
  | nil => rfl
  | cons first rest => rw [plainNames, pathNames_joinNames (by simp) hsep]

/-! ## Paths without symlinks -/

section Walks

variable {node : Place → Option Node} {base : Place} {names : List Name}

/-- No name of the path is a symlink, the last one aside. -/
def NoLinks (node : Place → Option Node) (base : Place) (names : List Name) : Prop :=
  ∀ first, first ≠ [] → first <+: names → first ≠ names →
    ∀ target, node (base ++ first) ≠ some (.symlink target)

theorem isName_eq {name : Name} :
    isName name = true ↔ ¬ (name = [] ∨ name = thisDir) ∧ name ≠ parentDir := by
  simp [isName, not_or, and_assoc]

/-- A walk along a path that goes nowhere up and on which there is no symlink ends where the path
says. -/
theorem walkNames_plain {follow : Place → List Name → Option Walked} {walked : Walked}
    (hup : parentDir ∉ names)
    (hlinks : ∀ first, first ≠ [] → first <+: names.filter isName →
      ∀ target, node (base ++ first) ≠ some (.symlink target))
    (h : walkNames follow node base names = some walked) :
    walked = ⟨base ++ names.filter isName, []⟩ := by
  induction names generalizing base with
  | nil => simpa [walkNames] using h.symm
  | cons name rest ih =>
      have hup' : parentDir ∉ rest := fun hmem => hup (List.mem_cons_of_mem _ hmem)
      have hname : name ≠ parentDir := fun heq => hup (heq ▸ List.mem_cons_self)
      unfold walkNames at h
      split at h
      · next hstay =>
          have hfilter : (name :: rest).filter isName = rest.filter isName := by
            rw [List.filter_cons_of_neg]
            simp [isName_eq, hstay]
          rw [hfilter] at hlinks ⊢
          exact ih hup' hlinks h
      · next hstay =>
          have hfilter : (name :: rest).filter isName = name :: rest.filter isName :=
            List.filter_cons_of_pos (isName_eq.mpr ⟨hstay, hname⟩)
          rw [hfilter] at hlinks ⊢
          split at h
          · cases h
          · have hrest := ih hup' (fun first hne hfirst target => by
              rw [List.append_assoc]
              exact hlinks (name :: first) (by simp) (by simpa using hfirst) target) h
            simpa using hrest
          · split at h
            · next hempty =>
                obtain rfl := List.isEmpty_iff.mp hempty
                simpa using h.symm
            · cases h
          · next target hlink =>
              exact absurd hlink (hlinks [name] (by simp) (by simp) target)

/-- The path as an entry of a directory that its other names lead to. -/
theorem entry_plain {t : FileTree} {p : PathAt} {e : Walked}
    (hup : parentDir ∉ pathNames p.path) (hlinks : NoLinks t.node p.base (plainNames p.path))
    (h : t.entry p = some e) : e = ⟨p.base ++ plainNames p.path, []⟩ := by
  unfold FileTree.entry at h
  split at h
  · next last hlast =>
      split at h
      · next hname =>
          obtain ⟨walked, hwalk, h⟩ := Option.bind_eq_some_iff.mp h
          obtain ⟨init, hinit⟩ : ∃ init, pathNames p.path = init ++ [last] :=
            ⟨_, (List.dropLast_append_getLast? last hlast).symm⟩
          have hplain : plainNames p.path = init.filter isName ++ [last] := by
            simp [plainNames, hinit, hname]
          rw [hinit, List.dropLast_concat] at hwalk
          have hwalked := walkNames_plain (fun hmem => hup (hinit ▸ List.mem_append_left _ hmem))
            (fun first hne hfirst target => ?_) hwalk
          · split at h
            · rw [← Option.some.inj h, hwalked, hplain, List.append_assoc]
            · cases h
          · refine hlinks first hne ?_ ?_ target
            · rw [hplain]
              exact hfirst.trans (List.prefix_append _ _)
            · intro heq
              have hle := hfirst.length_le
              rw [heq, hplain, List.length_append, List.length_singleton] at hle
              omega
      · cases h
  · cases h

end Walks

/-! ## What a call can do -/

/-- What a call on an entry may change: the entry, unless it is a directory, and the inodes it
owns. -/
structure Touches (place : Place) (owns : Nat → Prop) (t t' : FileTree) : Prop where
  node : ∀ other, other ≠ place → t'.node other = t.node other
  dirs : ∀ other, t.node other = some .dir → t'.node other = some .dir
  inodes : ∀ i inode, t.inodes[i]? = some inode → t'.inodes[i]? = some inode ∨ owns i
  files : ∀ i, t'.node place = some (.file i) → t.node place = some (.file i) ∨ t.inodes.length ≤ i
  effects : ∀ effect ∈ t'.effects, effect ∈ t.effects ∨ effect = ⟨place, []⟩

/-- The path of a call that has one. -/
def Call.path? : Call → Option PathAt
  | .lstat p | .stat p | .mkdir p | .unlink p | .symlink _ p | .openFile p _ | .utimens p _ => some p
  | .write .. | .fstat _ => none

section Calls

variable {t : FileTree} {p : PathAt} {place : Place} {owns : Nat → Prop}

theorem Touches.refl : Touches place owns t t where
  node := fun _ _ => rfl
  dirs := fun _ => id
  inodes := fun _ _ => .inl
  files := fun _ => .inl
  effects := fun _ => .inl

/-- A new entry where there was none. -/
theorem touches_create {node : Option Node} (hnone : t.node place = none)
    (hfile : ∀ i, node = some (.file i) → t.inodes.length ≤ i) :
    Touches place owns t ((t.setNode place node).record place []) where
  node := fun other hne => if_neg hne
  dirs := by
    intro other hdir
    show (if other = place then node else t.node other) = some .dir
    rw [if_neg, hdir]
    rintro rfl
    rw [hnone] at hdir
    cases hdir
  inodes := fun _ _ => .inl
  files := by
    intro i hi
    have hnode : node = some (.file i) := by simpa [FileTree.setNode, FileTree.record] using hi
    exact .inr (hfile i hnode)
  effects := by
    intro effect hmem
    rcases List.mem_cons.mp hmem with rfl | hold
    · exact .inr rfl
    · exact .inl hold

theorem touches_remove (hdir : t.node place ≠ some .dir) :
    Touches place owns t (t.setNode place none) where
  node := fun other hne => if_neg hne
  dirs := by
    intro other hother
    show (if other = place then none else t.node other) = some .dir
    rw [if_neg, hother]
    rintro rfl
    exact hdir hother
  inodes := fun _ _ => .inl
  files := by
    intro i hi
    simp [FileTree.setNode] at hi
  effects := fun _ => .inl

/-- Further inodes change nothing of those there are. -/
theorem Touches.append_inode {t' : FileTree} (h : Touches place owns t t') {inode : Inode}
    (hinodes : t'.inodes = t.inodes) :
    Touches place owns t { t' with inodes := t.inodes ++ [inode] } :=
  { h with
    inodes := fun i old hi => by
      rcases h.inodes i old hi with hsame | howns
      · rw [hinodes] at hsame
        exact .inl (by rw [List.getElem?_append_left (List.getElem?_eq_some_iff.mp hi).1, hsame])
      · exact .inr howns }

/-- A change of the content of an inode it owns. -/
theorem touches_modify {i : Nat} {f : Inode → Inode} (howns : owns i) :
    Touches place owns t { t.record place [] with inodes := t.inodes.modify i f } where
  node := fun _ _ => rfl
  dirs := fun _ => id
  inodes := by
    intro j inode hj
    by_cases heq : i = j
    · exact .inr (heq ▸ howns)
    · exact .inl (by simpa [List.getElem?_modify, heq] using hj)
  files := fun _ => .inl
  effects := by
    intro effect hmem
    rcases List.mem_cons.mp hmem with rfl | hold
    · exact .inr rfl
    · exact .inl hold

/-- A call on a path without symlinks touches what the path names. -/
theorem perform_touches {c : Call} (hpath : c.path? = some p)
    (hup : parentDir ∉ pathNames p.path) (hlinks : NoLinks t.node p.base (plainNames p.path)) :
    Touches (p.base ++ plainNames p.path)
      (fun i => t.node (p.base ++ plainNames p.path) = some (.file i)) t (t.perform c).2 := by
  -- A call without links on its way changes only the entry at its path, and a file's bytes only there.
  cases c with
  | lstat | stat | utimens => exact .refl
  | mkdir q =>
      obtain rfl := Option.some.inj hpath
      simp only [FileTree.perform, FileTree.mkdir]
      split
      · exact .refl
      · next e he =>
          obtain rfl := entry_plain hup hlinks he
          split
          · exact .refl
          · next hnone => exact touches_create (by simpa using hnone) (by simp)
  | unlink q =>
      obtain rfl := Option.some.inj hpath
      simp only [FileTree.perform, FileTree.unlink]
      split
      · exact .refl
      · next e he =>
          obtain rfl := entry_plain hup hlinks he
          split
          · next inode hfile => exact touches_remove (by simp [hfile])
          · next target hlink => exact touches_remove (by simp [hlink])
          · exact .refl
  | symlink target q =>
      obtain rfl := Option.some.inj hpath
      simp only [FileTree.perform, FileTree.symlink]
      split
      · exact .refl
      · next e he =>
          obtain rfl := entry_plain hup hlinks he
          split
          · exact .refl
          · split
            · exact .refl
            · next hnone => exact touches_create (by simpa using hnone) (by simp)
  | openFile q mode =>
      obtain rfl := Option.some.inj hpath
      simp only [FileTree.perform, FileTree.openFile]
      split
      · exact .refl
      · next e he =>
          obtain rfl := entry_plain hup hlinks he
          split
          · next hnone =>
              exact (touches_create hnone (by simp)).append_inode rfl
          · next inode hfile => exact touches_modify hfile
          · exact .refl
          · exact .refl
  | write | fstat => cases hpath

/-- A handle is of the file at the path, or of a new one. -/
theorem openFile_ok {mode : Nat} {handle : Handle} (hup : parentDir ∉ pathNames p.path)
    (hlinks : NoLinks t.node p.base (plainNames p.path)) (h : (t.openFile p mode).1 = .ok handle) :
    handle.place = p.base ++ plainNames p.path ∧
      (t.node (p.base ++ plainNames p.path) = some (.file handle.inode) ∨
        handle.inode = t.inodes.length) := by
  unfold FileTree.openFile at h
  split at h
  · cases h
  · next e he =>
      obtain rfl := entry_plain hup hlinks he
      split at h
      · obtain rfl := Except.ok.inj h
        exact ⟨rfl, .inr rfl⟩
      · next inode hfile =>
          obtain rfl := Except.ok.inj h
          exact ⟨rfl, .inl hfile⟩
      · cases h
      · cases h

end Calls

theorem FileTree.exec_cases (c : Call) (t : FileTree) :
    ∃ faults, FileTree.exec c t = (c.failed, { t with faults := faults }) ∨
      FileTree.exec c t = { t with faults := faults }.perform c := by
  unfold FileTree.exec
  split
  · exact ⟨_, .inl rfl⟩
  · exact ⟨_, .inr rfl⟩
  · exact ⟨t.faults, .inr rfl⟩

/-! ## Confinement -/

/-- Below a directory. -/
def Under (target place : Place) : Prop := target <+: place ∧ place ≠ target

theorem under_append {target : Place} {names : List Name} (h : names ≠ []) :
    Under target (target ++ names) :=
  ⟨List.prefix_append _ _, by simpa using h⟩

/-- Since `t₀` only what is below `target` was created or written, and no symlink was followed for
it. -/
structure Confined (target : Place) (t₀ t : FileTree) : Prop where
  outside : ∀ place, ¬ Under target place → t.node place = t₀.node place
  inodes : ∀ (i : Nat) (inode : Inode), t₀.inodes[i]? = some inode → t.inodes[i]? = some inode
  files : ∀ place i, Under target place → t.node place = some (.file i) → t₀.inodes.length ≤ i
  effects : ∀ effect ∈ t.effects, Under target effect.place ∧ effect.followed = []

/-- A path that leads below `target` by its names, if no symlink is on the way. -/
structure PathAt.Stays (target : Place) (allowed : List Name → Prop) (p : PathAt) : Prop where
  base : p.base = target
  up : parentDir ∉ pathNames p.path
  names : plainNames p.path ≠ []
  may : allowed (plainNames p.path)

theorem stays_joinNames {target : Place} {allowed : List Name → Prop} {names : List Name}
    (hne : names ≠ []) (hnames : ∀ name ∈ names, isName name = true ∧ pathSeparator ∉ name)
    (hallowed : allowed names) :
    plainNames (joinNames names) = names ∧
      (⟨target, joinNames names⟩ : PathAt).Stays target allowed := by
  have hplain : plainNames (joinNames names) = names := by
    rw [plainNames_joinNames fun name hmem => (hnames name hmem).2]
    exact List.filter_eq_self.mpr fun name hmem => (hnames name hmem).1
  refine ⟨hplain, rfl, ?_, ?_, ?_⟩
  · rw [pathNames_joinNames hne fun name hmem => (hnames name hmem).2]
    intro hmem
    have hname := (hnames _ hmem).1
    cases hname
  · rwa [hplain]
  · rwa [hplain]

/-- A call that stays below `target`: on a path below it, or on a file opened there since `t₀`. -/
inductive Call.Stays (target : Place) (t₀ : FileTree) (allowed : List Name → Prop) : Call → Prop
  | path {c : Call} {p : PathAt} (hpath : c.path? = some p) (hp : p.Stays target allowed) :
      Stays target t₀ allowed c
  | write {handle : Handle} {bytes : List UInt8} (hinode : t₀.inodes.length ≤ handle.inode)
      (hunder : Under target handle.place) : Stays target t₀ allowed (.write handle bytes)
  | fstat {handle : Handle} : Stays target t₀ allowed (.fstat handle)

/-- A file is opened below `target`, and it is one of those made since `t₀`. -/
def Reply.Stays (target : Place) (t₀ : FileTree) : (c : Call) → Reply c → Prop
  | .openFile .., reply => ∀ handle, reply = .ok handle →
    t₀.inodes.length ≤ handle.inode ∧ Under target handle.place
  | _, _ => True

section Confinement

variable {target : Place} {t₀ t t' : FileTree} {allowed : List Name → Prop} {c : Call}

theorem Confined.length_le (h : Confined target t₀ t) : t₀.inodes.length ≤ t.inodes.length := by
  by_contra hlt
  have hlt' : t.inodes.length < t₀.inodes.length := by omega
  have hget := h.inodes _ _ (List.getElem?_eq_getElem hlt')
  simp at hget

theorem Confined.touches (h : Confined target t₀ t) {place : Place} {owns : Nat → Prop}
    (hunder : Under target place) (howns : ∀ i, owns i → t₀.inodes.length ≤ i)
    (htouches : Touches place owns t t') : Confined target t₀ t' where
  outside := by
    intro other hother
    rw [htouches.node other (fun heq => hother (heq ▸ hunder))]
    exact h.outside other hother
  inodes := by
    intro i inode hi
    rcases htouches.inodes i inode (h.inodes i inode hi) with hsame | hown
    · exact hsame
    · have hlt := (List.getElem?_eq_some_iff.mp hi).1
      have hle := howns i hown
      omega
  files := by
    intro other i hother hfile
    by_cases heq : other = place
    · subst heq
      rcases htouches.files i hfile with hold | hnew
      · exact h.files other i hother hold
      · exact Nat.le_trans h.length_le hnew
    · rw [htouches.node other heq] at hfile
      exact h.files other i hother hfile
  effects := by
    intro effect hmem
    rcases htouches.effects effect hmem with hold | rfl
    · exact h.effects effect hold
    · exact ⟨hunder, rfl⟩

/-- A call that stays below `target`, on paths without symlinks, changes only what is below and
keeps every directory. -/
theorem Confined.perform (h : Confined target t₀ t) (hstays : c.Stays target t₀ allowed)
    (hallowed : ∀ names, allowed names → NoLinks t.node target names) :
    Reply.Stays target t₀ c (t.perform c).1 ∧ Confined target t₀ (t.perform c).2 ∧
      ∀ place, t.node place = some .dir → (t.perform c).2.node place = some .dir := by
  cases hstays with
  | @path c p hpath hp =>
      obtain ⟨rfl, hup, hne, hmay⟩ := hp
      have hunder : Under p.base (p.base ++ plainNames p.path) := under_append hne
      have hlinks := hallowed _ hmay
      have htouches := perform_touches hpath hup hlinks
      have howns : ∀ i, t.node (p.base ++ plainNames p.path) = some (.file i) →
          t₀.inodes.length ≤ i := fun i => h.files _ i hunder
      refine ⟨?_, h.touches hunder howns htouches, htouches.dirs⟩
      cases c with
      | openFile q mode =>
          obtain rfl := Option.some.inj hpath
          intro handle hok
          obtain ⟨hplace, hinode⟩ := openFile_ok hup hlinks hok
          refine ⟨?_, hplace ▸ hunder⟩
          rcases hinode with hold | hnew
          · exact howns _ hold
          · rw [hnew]
            exact h.length_le
      | _ => trivial
  | @write handle bytes hinode hunder =>
      have htouches : Touches handle.place (fun i => i = handle.inode) t
          (t.perform (.write handle bytes)).2 := touches_modify rfl
      exact ⟨trivial, h.touches hunder (by rintro i rfl; exact hinode) htouches, htouches.dirs⟩
  | fstat => exact ⟨trivial, h, fun _ => id⟩

/-- The same for a call that may fail for a reason of its own. -/
theorem Confined.exec (h : Confined target t₀ t) (hstays : c.Stays target t₀ allowed)
    (hallowed : ∀ names, allowed names → NoLinks t.node target names) :
    Reply.Stays target t₀ c (FileTree.exec c t).1 ∧ Confined target t₀ (FileTree.exec c t).2 ∧
      ∀ place, t.node place = some .dir → (FileTree.exec c t).2.node place = some .dir := by
  have hfaults : ∀ faults, Confined target t₀ { t with faults := faults } :=
    fun faults => ⟨h.outside, h.inodes, h.files, h.effects⟩
  obtain ⟨faults, hexec | hexec⟩ := FileTree.exec_cases c t
  · rw [hexec]
    refine ⟨?_, hfaults _, fun _ => id⟩
    cases c with
    | openFile => rintro handle ⟨⟩
    | _ => trivial
  · rw [hexec]
    exact (hfaults _).perform hstays hallowed

end Confinement

/-! ## Making directories -/

/-- There is nothing but directories below `target`. -/
def OnlyDirs (target : Place) (t : FileTree) : Prop :=
  ∀ place, Under target place → t.node place = none ∨ t.node place = some .dir

/-- The calls that change nothing but make directories. -/
def Call.makesDirs : Call → Bool
  | .lstat _ | .stat _ | .mkdir _ => true
  | _ => false

section Dirs

variable {target : Place} {t : FileTree} {p : PathAt} {allowed : List Name → Prop}

theorem OnlyDirs.noLink (h : OnlyDirs target t) {names : List Name} (hne : names ≠ [])
    (link : List UInt8) : t.node (target ++ names) ≠ some (.symlink link) := by
  rcases h _ (under_append hne) with hnone | hdir
  · simp [hnone]
  · simp [hdir]

theorem OnlyDirs.noLinks (h : OnlyDirs target t) (names : List Name) :
    NoLinks t.node target names :=
  fun _ hne _ _ link => h.noLink hne link

theorem mkdir_node (t : FileTree) (p : PathAt) (place : Place) :
    (t.mkdir p).2.node place = t.node place ∨ (t.mkdir p).2.node place = some .dir := by
  unfold FileTree.mkdir
  split
  · exact .inl rfl
  · next e _ =>
      split
      · exact .inl rfl
      · by_cases heq : place = e.place
        · exact .inr (if_pos heq)
        · exact .inl (if_neg heq)

theorem OnlyDirs.exec (h : OnlyDirs target t) {c : Call} (hc : c.makesDirs = true) :
    OnlyDirs target (FileTree.exec c t).2 := by
  obtain ⟨faults, hexec | hexec⟩ := FileTree.exec_cases c t
  · rw [hexec]
    exact h
  · rw [hexec]
    cases c with
    | lstat | stat => exact h
    | mkdir q =>
        intro place hplace
        rcases mkdir_node { t with faults := faults } q place with hsame | hdir
        · exact (h place hplace).imp hsame.trans hsame.trans
        · exact .inr hdir
    | _ => cases hc

/-- A directory that `mkdir` says it made is there. -/
theorem mkdir_made (hup : parentDir ∉ pathNames p.path)
    (hlinks : NoLinks t.node p.base (plainNames p.path)) (h : (t.mkdir p).1 = .ok ()) :
    (t.mkdir p).2.node (p.base ++ plainNames p.path) = some .dir := by
  unfold FileTree.mkdir at h ⊢
  cases he : t.entry p with
  | none =>
      rw [he] at h
      cases h
  | some e =>
      obtain rfl := entry_plain hup hlinks he
      rw [he] at h
      dsimp only at h ⊢
      split at h
      · cases h
      · next hnone =>
          rw [if_neg hnone]
          exact if_pos rfl

theorem exec_mkdir_made (hp : p.Stays target allowed)
    (hlinks : NoLinks t.node target (plainNames p.path))
    (h : (FileTree.exec (.mkdir p) t).1 = .ok ()) :
    (FileTree.exec (.mkdir p) t).2.node (target ++ plainNames p.path) = some .dir := by
  obtain ⟨rfl, hup, -, -⟩ := hp
  obtain ⟨faults, hexec | hexec⟩ := FileTree.exec_cases (.mkdir p) t
  · rw [hexec] at h
    cases h
  · rw [hexec] at h ⊢
    exact mkdir_made (t := { t with faults := faults }) hup hlinks h

/-- A path that `stat` says is a directory leads to one. -/
theorem exec_stat_dir (hp : p.Stays target allowed) (hdirs : OnlyDirs target t)
    (h : (FileTree.exec (.stat p) t).1 = some .dir) :
    t.node (target ++ plainNames p.path) = some .dir := by
  obtain ⟨rfl, hup, -, -⟩ := hp
  obtain ⟨faults, hexec | hexec⟩ := FileTree.exec_cases (.stat p) t
  · rw [hexec] at h
    cases h
  · rw [hexec] at h
    obtain ⟨walked, hwalk, hkind⟩ := Option.bind_eq_some_iff.mp h
    obtain rfl := walkNames_plain hup (fun first hne _ link => hdirs.noLink hne link) hwalk
    obtain ⟨node, hnode, hdir⟩ := Option.map_eq_some_iff.mp hkind
    cases node with
    | dir => exact hnode
    | file | symlink => cases hdir

end Dirs

end Ripclone.Library
