import Mathlib.Data.List.DropRight
import Ripclone.Library.Calls
import Ripclone.Library.FileTree
import Ripclone.Manifest.Geometry

/-!
# Directories of a worktree

How the extractor creates a directory below its target: name by name, refusing a symlink on the way.
A program here makes system calls on paths joined to the target, and may fail.
-/

namespace Ripclone

open Ripclone.Library

inductive WriteError where
  | unsafePath (error : PathError)
  /-- "refusing to follow symlinked directory: …" -/
  | symlinkedDirectory (path : Bytes)
  /-- "path is not a directory: …" -/
  | notDirectory (path : Bytes)
  /-- "create dir …" -/
  | createDir (path : Bytes)
  /-- "remove existing symlink …" -/
  | removeSymlink (path : Bytes)
  /-- "refusing to extract file … with illegal mode …" -/
  | illegalMode (path : Bytes) (mode : Nat)
  /-- "open …" -/
  | openFile (path : Bytes)
  /-- "write file content" -/
  | writeContent
  /-- "stat …" -/
  | statFile (path : Bytes)
  /-- "symlink …" -/
  | symlink (path : Bytes)
  /-- "set mtime …" or "set symlink times …" -/
  | setTimes (path : Bytes)
  deriving DecidableEq, Repr

abbrev FileM := ExceptT WriteError (Prog Call Reply)

/-! ## Probes -/

def isSymlink (p : PathAt) : FileM Bool := do
  let kind : Option Kind ← attempt (Call.lstat p)
  return kind = some .symlink

def pathExists (p : PathAt) : FileM Bool := do
  let kind : Option Kind ← attempt (Call.stat p)
  return kind.isSome

def isDir (p : PathAt) : FileM Bool := do
  let kind : Option Kind ← attempt (Call.stat p)
  return kind = some .dir

def validRelativePath (path : Bytes) : FileM Unit :=
  match validateRelativePath path with
  | .ok () => return ()
  | .error error => throw (.unsafePath error)

/-! ## Directories -/

/-- Create one directory, or find it there. -/
def createDir (p : PathAt) : FileM Unit := do
  if ← isSymlink p then throw (.symlinkedDirectory p.path)
  let created : Except Errno Unit ← attempt (Call.mkdir p)
  match created with
  | .ok () => return ()
  | .error .exist => do
    if ← isSymlink p then throw (.symlinkedDirectory p.path)
    if !(← isDir p) then throw (.notDirectory p.path)
  | .error .other => throw (.createDir p.path)

/-- The components below `current`, one after the other. -/
def createDirs (root : Place) (current : List Bytes) : List Component → FileM Unit
  | [] => return ()
  | .normal name :: rest => do
    createDir ⟨root, joinNames (current ++ [name])⟩
    createDirs root (current ++ [name]) rest
  | _ :: rest => createDirs root current rest

/-- Create the directories of `rel` below `root`, following only real directories. -/
def safeCreateDirAll (root : Place) (rel : Bytes) : FileM Unit := do
  validRelativePath rel
  createDirs root [] (components rel)

/-- The parts of a path without those at its end that are no component. -/
def trimParts : List Bytes → List Bytes
  | [] => []
  | first :: rest =>
    let kept := rest.rdropWhile fun part => (component part).isNone
    if kept = [] ∧ first = [] then [] else first :: kept

/-- A relative path without its last component. -/
def parentPath (path : Bytes) : Option Bytes :=
  match trimParts (path.splitOn slash) with
  | [] => none
  | parts => some (joinNames (trimParts parts.dropLast))

/-! ## Names -/

section Names

variable {path : Bytes}

/-- A part is a name, goes up, or stays. -/
theorem component_cases (part : Bytes) :
    isName part = true ∧ component part = some (.normal part) ∨
    isName part = false ∧ part = parentDir ∧ component part = some .parentDir ∨
    isName part = false ∧ (part = [] ∨ part = thisDir) ∧ component part = none := by
  by_cases hstay : part = [] ∨ part = thisDir
  · refine .inr (.inr ⟨?_, hstay, if_pos hstay⟩)
    rcases hstay with rfl | rfl <;> rfl
  · by_cases hup : part = parentDir
    · exact .inr (.inl ⟨by simp [isName, hup], hup, (if_neg hstay).trans (if_pos hup)⟩)
    · exact .inl ⟨isName_eq.mpr ⟨hstay, hup⟩, (if_neg hstay).trans (if_neg hup)⟩

/-- The components of parts that go nowhere up are their names. -/
theorem filterMap_component {parts : List Bytes} (hup : parentDir ∉ parts) :
    parts.filterMap component = (parts.filter isName).map Component.normal := by
  induction parts with
  | nil => rfl
  | cons part rest ih =>
      have hrest := ih fun hmem => hup (List.mem_cons_of_mem _ hmem)
      rcases component_cases part with ⟨hname, hc⟩ | ⟨-, rfl, -⟩ | ⟨hname, -, hc⟩
      · rw [List.filterMap_cons_some hc, List.filter_cons_of_pos hname, hrest, List.map_cons]
      · exact absurd List.mem_cons_self hup
      · rw [List.filterMap_cons_none hc, List.filter_cons_of_neg (by simp [hname]), hrest]

theorem components_cons {first : Bytes} {rest : List Bytes}
    (h : path.splitOn pathSeparator = first :: rest) :
    components path = (if first = thisDir then [.curDir] else (component first).toList) ++
      rest.filterMap component := by
  have hslash : path.splitOn slash = first :: rest := h
  rw [components, hslash]
  rfl

def Component.name? : Component → Option Bytes
  | .normal name => some name
  | .curDir | .parentDir => none

theorem component_name? (part : Bytes) :
    (component part).bind Component.name? = if isName part then some part else none := by
  rcases component_cases part with ⟨hname, hc⟩ | ⟨hname, -, hc⟩ | ⟨hname, -, hc⟩
  · simp [hc, hname, Component.name?]
  · simp [hc, hname, Component.name?]
  · simp [hc, hname]

/-- The names of a path are those of its components. -/
theorem plainNames_eq (path : Bytes) :
    plainNames path = (components path).filterMap Component.name? := by
  have hparts : ∀ parts : List Bytes,
      (parts.filterMap component).filterMap Component.name? = parts.filter isName := by
    intro parts
    rw [List.filterMap_filterMap]
    induction parts with
    | nil => rfl
    | cons part rest ih =>
        rw [List.filterMap_cons, component_name? part, ih, List.filter_cons]
        cases isName part <;> rfl
  obtain ⟨first, rest, hsplit⟩ := List.exists_cons_of_ne_nil (List.splitOn_ne_nil pathSeparator path)
  rw [plainNames, pathNames, hsplit, components_cons hsplit, List.filterMap_append, hparts, List.filter_cons]
  have hfirst := component_name? first
  split
  · next hname =>
      rw [if_pos hname] at hfirst
      obtain ⟨c, hc, hcname⟩ := Option.bind_eq_some_iff.mp hfirst
      rw [if_neg fun heq => (isName_eq.mp hname).1 (.inr heq), hc]
      simp [hcname]
  · next hname =>
      rw [if_neg hname] at hfirst
      split
      · rfl
      · cases hc : component first with
        | none => rfl
        | some c => simp [hc] at hfirst; simp [hfirst]

theorem forM_eq_ok {α ε : Type} {f : α → Except ε Unit} {xs : List α} :
    xs.forM f = .ok () ↔ ∀ x ∈ xs, f x = .ok () := by
  induction xs with
  | nil => simp [List.forM, pure, Except.pure]
  | cons x rest ih =>
      rw [List.forM, bind_unit_eq_ok, List.forall_mem_cons]
      exact and_congr_right fun _ => ih

/-- What the first part of an accepted path is, and which parts it does not have. -/
theorem parts_of_valid (h : validateRelativePath path = .ok ()) :
    ∃ first rest, pathNames path = first :: rest ∧ isName first = true ∧
      parentDir ∉ first :: rest ∧ components path = ((first :: rest).filter isName).map .normal := by
  unfold validateRelativePath at h
  rw [ite_throw_eq_ok, ite_throw_eq_ok, bind_unit_eq_ok, forM_eq_ok] at h
  obtain ⟨hpath, habsolute, hchecked, -⟩ := h
  obtain ⟨first, rest, hparts⟩ := List.exists_cons_of_ne_nil
    (List.splitOn_ne_nil pathSeparator path)
  have hne : first ≠ [] := by
    cases path with
    | nil => exact absurd rfl hpath
    | cons byte tail =>
        have hbyte : byte ≠ pathSeparator := fun heq => habsolute (by rw [heq]; rfl)
        rw [List.splitOn_cons_eq_if_modifyHead, if_neg (by simpa using hbyte)] at hparts
        rintro rfl
        cases hsplit : tail.splitOn pathSeparator with
        | nil => simp [hsplit] at hparts
        | cons => simp [hsplit] at hparts
  have hcomponents := components_cons hparts
  have hcur : first ≠ thisDir := by
    rintro rfl
    have hbad := hchecked .curDir (by simp [hcomponents])
    cases hbad
  rw [if_neg hcur] at hcomponents
  have hcomponents' : components path = (first :: rest).filterMap component := by
    rw [hcomponents]
    cases hc : component first <;> simp [hc]
  have hup : parentDir ∉ first :: rest := by
    intro hmem
    have hbad := hchecked .parentDir (by
      rw [hcomponents']
      exact List.mem_filterMap.mpr ⟨parentDir, hmem, rfl⟩)
    cases hbad
  refine ⟨first, rest, hparts, ?_, hup, hcomponents'.trans (filterMap_component hup)⟩
  exact isName_eq.mpr ⟨not_or.mpr ⟨hne, hcur⟩, fun heq => hup (heq ▸ List.mem_cons_self)⟩

theorem names_of_valid (h : validateRelativePath path = .ok ()) :
    components path = (plainNames path).map Component.normal ∧ parentDir ∉ pathNames path ∧
      plainNames path ≠ [] := by
  obtain ⟨first, rest, hparts, hfirst, hup, hcomponents⟩ := parts_of_valid h
  rw [plainNames, hparts]
  exact ⟨hcomponents, hup, by simp [hfirst]⟩

/-- The parts that are trimmed are no names. -/
theorem filter_trimParts (parts : List Bytes) :
    (trimParts parts).filter isName = parts.filter isName := by
  cases parts with
  | nil => rfl
  | cons first rest =>
      have htail : ∀ part ∈ rest.rtakeWhile fun part => (component part).isNone,
          isName part = false := by
        intro part hmem
        have hnone := List.mem_rtakeWhile_imp hmem
        rcases component_cases part with ⟨-, hc⟩ | ⟨hname, -⟩ | ⟨hname, -⟩
        · simp [hc] at hnone
        · exact hname
        · exact hname
      have hrest : (rest.rdropWhile fun part => (component part).isNone).filter isName =
          rest.filter isName := by
        have hsplit : rest.rdropWhile (fun part => (component part).isNone) ++
            rest.rtakeWhile (fun part => (component part).isNone) = rest :=
          List.rdropWhile_append_rtakeWhile
        have hnone : (rest.rtakeWhile fun part => (component part).isNone).filter isName = [] :=
          List.filter_eq_nil_iff.mpr (by simpa using htail)
        rw [← congrArg (List.filter isName) hsplit, List.filter_append, hnone, List.append_nil]
      unfold trimParts
      dsimp only
      split
      · next hkept =>
          rw [hkept.2, List.filter_cons_of_neg (by simp [isName]), ← hrest, hkept.1]
      · rw [List.filter_cons, List.filter_cons, hrest]

theorem mem_of_mem_trimParts {parts : List Bytes} {part : Bytes} (h : part ∈ trimParts parts) :
    part ∈ parts := by
  cases parts with
  | nil => exact h
  | cons first rest =>
      unfold trimParts at h
      dsimp only at h
      split at h
      · cases h
      · rcases List.mem_cons.mp h with rfl | hkept
        · exact List.mem_cons_self
        · exact List.mem_cons_of_mem _ ((List.rdropWhile_prefix _ _).subset hkept)

/-- The last part that is left of an accepted path is a name. -/
theorem trimParts_of_valid (h : validateRelativePath path = .ok ()) :
    ∃ init last, trimParts (path.splitOn slash) = init ++ [last] ∧ isName last = true ∧
      ∀ part ∈ init, part ∈ pathNames path := by
  obtain ⟨first, rest, hparts, hfirst, hup, -⟩ := parts_of_valid h
  have hne : first ≠ [] := fun heq => (isName_eq.mp hfirst).1 (.inl heq)
  have htrim : trimParts (path.splitOn slash) =
      first :: rest.rdropWhile fun part => (component part).isNone := by
    rw [show path.splitOn slash = first :: rest from hparts, trimParts, if_neg]
    exact fun hboth => hne hboth.2
  have hsub : ∀ part ∈ rest.rdropWhile fun part => (component part).isNone, part ∈ rest :=
    fun part hmem => (List.rdropWhile_prefix _ _).subset hmem
  rw [htrim, hparts]
  rcases List.eq_nil_or_concat (rest.rdropWhile fun part => (component part).isNone) with
    hnil | ⟨init, last, hkept⟩
  · rw [hnil]
    exact ⟨[], first, rfl, hfirst, by simp⟩
  · have hlast : (component last).isNone = false := by
      have hnot := List.rdropWhile_last_not (fun part => (component part).isNone) rest
        (by simp [hkept])
      simpa [hkept, Option.ne_none_iff_isSome] using hnot
    have hmem : last ∈ rest := hsub last (by simp [hkept])
    refine ⟨first :: init, last, by rw [hkept]; simp, ?_, ?_⟩
    · rcases component_cases last with ⟨hname, -⟩ | ⟨-, rfl, -⟩ | ⟨-, -, hc⟩
      · exact hname
      · exact absurd (List.mem_cons_of_mem _ hmem) hup
      · simp [hc] at hlast
    · intro part hpart
      rcases List.mem_cons.mp hpart with rfl | hinit
      · exact List.mem_cons_self
      · exact List.mem_cons_of_mem _ (hsub part (by simp [hkept, hinit]))

/-- The parent of an accepted path has its names but the last. -/
theorem parentPath_of_valid (h : validateRelativePath path = .ok ()) :
    ∃ parent, parentPath path = some parent ∧ plainNames parent = (plainNames path).dropLast := by
  obtain ⟨init, last, htrim, hlast, hinit⟩ := trimParts_of_valid h
  have hparent : parentPath path = some (joinNames (trimParts init)) := by
    unfold parentPath
    rw [htrim]
    split
    · next hnil => simp at hnil
    · rw [List.dropLast_concat]
  refine ⟨_, hparent, ?_⟩
  have hsep : ∀ part ∈ trimParts init, pathSeparator ∉ part := by
    intro part hmem
    exact not_mem_of_mem_pathNames (hinit part (mem_of_mem_trimParts hmem))
  have hnames : plainNames path = init.filter isName ++ [last] := by
    rw [plainNames, pathNames, ← filter_trimParts]
    show (trimParts (path.splitOn slash)).filter isName = _
    rw [htrim, List.filter_append, List.filter_cons_of_pos hlast, List.filter_nil]
  rw [plainNames_joinNames hsep, filter_trimParts, hnames, List.dropLast_concat]

theorem joinNames_cons (first : Name) (rest : List Name) :
    ∃ tail, joinNames (first :: rest) = first ++ tail := by
  cases rest with
  | nil => exact ⟨[], by rw [joinNames, List.intercalate_singleton, List.append_nil]⟩
  | cons next rest =>
      exact ⟨_, by rw [joinNames, List.intercalate_cons_cons, List.append_assoc]⟩

/-- The bytes of joined names are theirs and separators. -/
theorem mem_joinNames {names : List Name} {byte : UInt8} (hne : byte ≠ pathSeparator) :
    byte ∈ joinNames names ↔ ∃ name ∈ names, byte ∈ name := by
  induction names with
  | nil => simp [joinNames]
  | cons name rest ih =>
      cases rest with
      | nil => simp [joinNames]
      | cons next rest =>
          have htail : byte ∈ [pathSeparator].intercalate (next :: rest) ↔ _ := ih
          rw [joinNames, List.intercalate_cons_cons, List.append_assoc, List.mem_append,
            List.mem_append, List.mem_singleton, htail]
          simp [hne]

/-- The names of an accepted path, and the bytes of any part of it. -/
theorem parts_allowed (h : validateRelativePath path = .ok ()) :
    (∀ name ∈ plainNames path, name.map lowerAscii ≠ dotGitName) ∧
      ∀ part ∈ pathNames path, (0 : UInt8) ∉ part := by
  obtain ⟨hcomponents, -, -⟩ := names_of_valid h
  unfold validateRelativePath at h
  rw [ite_throw_eq_ok, ite_throw_eq_ok, bind_unit_eq_ok, forM_eq_ok, ite_throw_eq_ok] at h
  obtain ⟨-, -, hchecked, hnul, -⟩ := h
  constructor
  · intro name hname hgit
    have hcheck := hchecked (.normal name) (by
      rw [hcomponents]
      exact List.mem_map_of_mem hname)
    rw [checkComponent, if_pos hgit] at hcheck
    cases hcheck
  · intro part hpart hzero
    apply hnul
    have hjoined : joinNames (pathNames path) = path := List.intercalate_splitOn pathSeparator
    rw [List.contains_iff_mem, ← hjoined]
    exact (mem_joinNames (by decide)).mpr ⟨part, hpart, hzero⟩

/-- Parts that make up an accepted path. -/
theorem valid_of_parts {first : Bytes} {rest : List Bytes} (hfirst : isName first = true)
    (hup : parentDir ∉ first :: rest) (hsep : ∀ part ∈ first :: rest, pathSeparator ∉ part)
    (hgit : ∀ name ∈ (first :: rest).filter isName, name.map lowerAscii ≠ dotGitName)
    (hnul : ∀ part ∈ first :: rest, (0 : UInt8) ∉ part) :
    validateRelativePath (joinNames (first :: rest)) = .ok () := by
  have hparts : (joinNames (first :: rest)).splitOn pathSeparator = first :: rest :=
    pathNames_joinNames (by simp) hsep
  have hne : first ≠ [] := fun heq => (isName_eq.mp hfirst).1 (.inl heq)
  have hstay : first ≠ thisDir := fun heq => (isName_eq.mp hfirst).1 (.inr heq)
  have hcomponents : components (joinNames (first :: rest)) =
      ((first :: rest).filter isName).map .normal := by
    rw [components_cons hparts, if_neg hstay, ← filterMap_component hup]
    cases hc : component first <;> simp [hc]
  unfold validateRelativePath
  rw [ite_throw_eq_ok, ite_throw_eq_ok, bind_unit_eq_ok, forM_eq_ok, ite_throw_eq_ok]
  obtain ⟨tail, htail⟩ := joinNames_cons first rest
  refine ⟨?_, ?_, ?_, ?_, rfl⟩
  · rw [htail]
    intro hnil
    exact hne (List.append_eq_nil_iff.mp hnil).1
  · rw [htail, List.head?_append_of_ne_nil _ hne]
    intro hhead
    exact hsep first List.mem_cons_self (List.mem_of_head? hhead)
  · intro c hc
    rw [hcomponents] at hc
    obtain ⟨name, hname, rfl⟩ := List.mem_map.mp hc
    exact if_neg (hgit name hname)
  · rw [List.contains_iff_mem]
    intro hzero
    obtain ⟨part, hpart, hmem⟩ := (mem_joinNames (by decide)).mp hzero
    exact hnul part hpart hmem

/-- The parent of an accepted path is accepted, unless it is the directory itself. -/
theorem valid_parentPath {parent : Bytes} (h : validateRelativePath path = .ok ())
    (hparent : parentPath path = some parent) (hne : parent ≠ []) :
    validateRelativePath parent = .ok () := by
  obtain ⟨first, rest, hparts, hfirst, hup, -⟩ := parts_of_valid h
  obtain ⟨init, last, htrim, -, hinit⟩ := trimParts_of_valid h
  obtain ⟨hgit, hnul⟩ := parts_allowed h
  have hfirst_ne : first ≠ [] := fun heq => (isName_eq.mp hfirst).1 (.inl heq)
  have htrimmed (parts : List Bytes) : trimParts (first :: parts) =
      first :: parts.rdropWhile fun part => (component part).isNone :=
    if_neg fun hboth => hfirst_ne hboth.2
  have hparent' : parent = joinNames (trimParts init) := by
    unfold parentPath at hparent
    rw [htrim] at hparent
    split at hparent
    · cases hparent
    · rw [List.dropLast_concat] at hparent
      exact (Option.some.inj hparent).symm
  -- what is left of the path begins with the path's first name
  rw [show path.splitOn slash = first :: rest from hparts, htrimmed] at htrim
  cases init with
  | nil => exact absurd hparent' hne
  | cons head init =>
      obtain ⟨rfl, -⟩ := List.cons.inj htrim
      have hmem : ∀ part ∈ trimParts (first :: init), part ∈ pathNames path := fun part hpart =>
        hinit part (mem_of_mem_trimParts hpart)
      rw [htrimmed] at hmem hparent'
      rw [hparent']
      refine valid_of_parts hfirst ?_ ?_ ?_ ?_
      · rw [← hparts] at hup
        exact fun hdir => hup (hmem _ hdir)
      · exact fun part hpart => not_mem_of_mem_pathNames (hmem part hpart)
      · intro name hname
        obtain ⟨hpart, hisName⟩ := List.mem_filter.mp hname
        exact hgit name (List.mem_filter.mpr ⟨hmem name hpart, hisName⟩)
      · exact fun part hpart => hnul part (hmem part hpart)

end Names

/-! ## What the programs do -/

section Programs

variable {target : Place} {t₀ t t' : FileTree} {allowed : List Name → Prop} {p : PathAt}
  {names : List Bytes}

/-- The calls that `createDir` may make. -/
def MakesDirs (target : Place) (t₀ : FileTree) (allowed : List Name → Prop) (c : Call) : Prop :=
  c.Stays target t₀ allowed ∧ c.makesDirs = true

abbrev MakesDirsWithin (target : Place) (t₀ : FileTree) (allowed : List Name → Prop) {α : Type}
    (x : FileM α) : Prop :=
  Within (MakesDirs target t₀ allowed) (Reply.Stays target t₀) (fun _ => True) x

theorem attempt_within (c : Call) (hp : p.Stays target allowed) (hpath : c.path? = some p)
    (hmakes : c.makesDirs = true) :
    Within (MakesDirs target t₀ allowed) (Reply.Stays target t₀) (Reply.Stays target t₀ c)
      (attempt c : FileM (Reply c)) :=
  .attempt ⟨.path hpath hp, hmakes⟩

theorem isSymlink_within (hp : p.Stays target allowed) :
    MakesDirsWithin target t₀ allowed (isSymlink p) :=
  .bind (attempt_within (.lstat p) hp rfl rfl) fun _ _ => .ret trivial

theorem isDir_within (hp : p.Stays target allowed) :
    MakesDirsWithin target t₀ allowed (isDir p) :=
  .bind (attempt_within (.stat p) hp rfl rfl) fun _ _ => .ret trivial

theorem createDir_within (hp : p.Stays target allowed) :
    MakesDirsWithin target t₀ allowed (createDir p) := by
  have hrefused : ∀ {rest : FileM Unit},
      MakesDirsWithin target t₀ allowed rest →
      MakesDirsWithin target t₀ allowed (do
        if ← isSymlink p then throw (.symlinkedDirectory p.path)
        rest) := by
    intro rest hrest
    refine .bind (isSymlink_within hp) fun symlinked _ => ?_
    cases symlinked with
    | true => exact .throw _
    | false => exact hrest
  refine hrefused (.bind (attempt_within (.mkdir p) hp rfl rfl) fun created _ => ?_)
  cases created with
  | ok => exact .ret trivial
  | error errno =>
      cases errno with
      | exist =>
          refine hrefused (.bind (isDir_within hp) fun found _ => ?_)
          cases found with
          | true => exact .ret trivial
          | false => exact .throw _
      | other => exact .throw _

/-- Names of entries, without a slash. -/
def EntryNames (names : List Bytes) : Prop :=
  ∀ name ∈ names, isName name = true ∧ pathSeparator ∉ name

theorem entryNames_plainNames (path : Bytes) : EntryNames (plainNames path) := by
  intro name hmem
  obtain ⟨hpart, hname⟩ := List.mem_filter.mp hmem
  exact ⟨hname, not_mem_of_mem_pathNames hpart⟩

theorem createDirs_within {current : List Bytes} (hnames : EntryNames (current ++ names))
    (hallowed : ∀ first, first ≠ [] → first <+: current ++ names → allowed first) :
    MakesDirsWithin target t₀ allowed
      (createDirs target current (names.map .normal)) := by
  induction names generalizing current with
  | nil => exact .ret trivial
  | cons name rest ih =>
      have hsplit : current ++ name :: rest = (current ++ [name]) ++ rest := by simp
      rw [hsplit] at hnames hallowed
      refine .bind (createDir_within ?_) fun _ _ => ih hnames hallowed
      refine (stays_joinNames (by simp) (fun other hmem => ?_) ?_).2
      · exact hnames other (List.mem_append_left _ hmem)
      · exact hallowed _ (by simp) (List.prefix_append _ _)

theorem safeCreateDirAll_within {rel : Bytes}
    (hallowed : ∀ first, first ≠ [] → first <+: plainNames rel → allowed first) :
    MakesDirsWithin target t₀ allowed (safeCreateDirAll target rel) := by
  unfold safeCreateDirAll validRelativePath
  cases hrel : validateRelativePath rel with
  | error error => exact .throw _
  | ok =>
      rw [(names_of_valid hrel).1]
      exact createDirs_within (entryNames_plainNames rel) hallowed

/-- Only directories were made below `target` since `t₀`. -/
structure Prepared (target : Place) (t₀ t : FileTree) : Prop where
  confined : Confined target t₀ t
  dirs : OnlyDirs target t

/-- A program that makes directories keeps the ones there are. -/
theorem Prepared.run (h : Prepared target t₀ t) {α : Type} {S : α → Prop} {x : FileM α}
    (hx : Within (MakesDirs target t₀ fun _ => True) (Reply.Stays target t₀) S x)
    {result : Except WriteError α} (hrun : runExcept FileTree.exec x t = (result, t')) :
    Prepared target t₀ t' ∧ ∀ place, t.node place = some .dir → t'.node place = some .dir := by
  have hstep : ∀ c s, MakesDirs target t₀ (fun _ => True) c →
      (Prepared target t₀ s ∧ ∀ place, t.node place = some .dir → s.node place = some .dir) →
      Reply.Stays target t₀ c (FileTree.exec c s).1 ∧
        Prepared target t₀ (FileTree.exec c s).2 ∧
        ∀ place, t.node place = some .dir → (FileTree.exec c s).2.node place = some .dir := by
    rintro c s ⟨hstays, hmakes⟩ ⟨hs, hkept⟩
    obtain ⟨hreply, hconfined, hdirs⟩ :=
      hs.confined.exec hstays fun names _ => hs.dirs.noLinks names
    exact ⟨hreply, ⟨hconfined, hs.dirs.exec hmakes⟩, fun place hplace =>
      hdirs place (hkept place hplace)⟩
  have hafter := Prog.Within.run hstep hx ⟨h, fun _ => id⟩
  rwa [show Prog.run FileTree.exec x.run t = (result, t') from hrun] at hafter

theorem isDir_true (h : Prepared target t₀ t) (hp : p.Stays target fun _ => True)
    (hrun : runExcept FileTree.exec (isDir p) t = (.ok true, t')) :
    t.node (target ++ plainNames p.path) = some .dir := by
  obtain ⟨kind, t₁, hstat, hrest⟩ := runExcept_bind_ok hrun
  have hkind : kind = some .dir := by simpa using (Prod.mk.inj hrest).1
  obtain ⟨hreply, -⟩ := Prod.mk.inj hstat
  exact exec_stat_dir hp h.dirs ((Except.ok.inj hreply).trans hkind)

/-- A directory that was created, or found there, is there. -/
theorem createDir_made (h : Prepared target t₀ t) (hp : p.Stays target fun _ => True)
    (hrun : runExcept FileTree.exec (createDir p) t = (.ok (), t')) :
    t'.node (target ++ plainNames p.path) = some .dir := by
  obtain ⟨symlinked, t₁, hprobe, hrest⟩ := runExcept_bind_ok hrun
  have h₁ := (h.run (isSymlink_within hp) hprobe).1
  cases symlinked with
  | true => cases hrest
  | false =>
      obtain ⟨created, t₂, hmkdir, hrest⟩ := runExcept_bind_ok hrest
      obtain ⟨hreply, ht₂⟩ := Prod.mk.inj hmkdir
      cases created with
      | ok =>
          obtain rfl := (Prod.mk.inj hrest).2
          subst ht₂
          exact exec_mkdir_made hp (h₁.dirs.noLinks _) (Except.ok.inj hreply)
      | error errno =>
          have h₂ := (h₁.run (attempt_within (.mkdir p) hp rfl rfl) hmkdir).1
          cases errno with
          | other => cases hrest
          | exist =>
              obtain ⟨symlinked, t₃, hprobe, hrest⟩ := runExcept_bind_ok hrest
              have h₃ := (h₂.run (isSymlink_within hp) hprobe).1
              cases symlinked with
              | true => cases hrest
              | false =>
                  obtain ⟨found, t₄, hfound, hrest⟩ := runExcept_bind_ok hrest
                  cases found with
                  | false => cases hrest
                  | true =>
                      obtain rfl := (Prod.mk.inj hrest).2
                      exact (h₃.run (isDir_within hp) hfound).2 _ (isDir_true h₃ hp hfound)

theorem createDirs_made (h : Prepared target t₀ t) {current : List Bytes}
    (hnames : EntryNames (current ++ names))
    (hrun : runExcept FileTree.exec (createDirs target current (names.map .normal)) t =
      (.ok (), t')) :
    ∀ first, first ≠ [] → first <+: names →
      t'.node (target ++ (current ++ first)) = some .dir := by
  induction names generalizing current t with
  | nil =>
      intro first hne hfirst
      exact absurd (List.prefix_nil.mp hfirst) hne
  | cons name rest ih =>
      have hsplit : current ++ name :: rest = (current ++ [name]) ++ rest := by simp
      rw [hsplit] at hnames
      have hstays : plainNames (joinNames (current ++ [name])) = current ++ [name] ∧
          (⟨target, joinNames (current ++ [name])⟩ : PathAt).Stays target fun _ => True :=
        stays_joinNames (by simp)
          (fun other hmem => hnames other (List.mem_append_left _ hmem)) trivial
      obtain ⟨hplain, hp⟩ := hstays
      obtain ⟨_, t₁, hmade, hrest⟩ := runExcept_bind_ok hrun
      have h₁ := (h.run (createDir_within hp) hmade).1
      have hkept := (h₁.run (createDirs_within hnames fun _ _ _ => trivial) hrest).2
      have hdir := createDir_made h hp hmade
      rw [hplain] at hdir
      intro first hne hfirst
      cases first with
      | nil => exact absurd rfl hne
      | cons head tail =>
          obtain ⟨rfl, htail⟩ := List.cons_prefix_cons.mp hfirst
          rw [show current ++ head :: tail = (current ++ [head]) ++ tail by simp]
          cases tail with
          | nil => simpa using hkept _ hdir
          | cons => exact ih h₁ hnames hrest _ (by simp) htail

/-- Every directory on the way to an accepted path that was created is there. -/
theorem safeCreateDirAll_made (h : Prepared target t₀ t) {rel : Bytes}
    (hrun : runExcept FileTree.exec (safeCreateDirAll target rel) t = (.ok (), t')) :
    ∀ first, first ≠ [] → first <+: plainNames rel → t'.node (target ++ first) = some .dir := by
  obtain ⟨_, t₁, hvalid, hrest⟩ := runExcept_bind_ok hrun
  unfold validRelativePath at hvalid
  split at hvalid
  · next hrel =>
      obtain rfl := (Prod.mk.inj hvalid).2
      rw [(names_of_valid hrel).1] at hrest
      exact createDirs_made h (entryNames_plainNames rel) hrest
  · cases hvalid

end Programs

end Ripclone
