import Ripclone.Library.Result
import Ripclone.Library.Utf8
import Ripclone.Results
import Mathlib.Algebra.Group.Int.Defs

/-!
# Stat data of index entries

After `git read-tree`, `setIndexStats` gives each entry of the index the stat data of its file, so that
git takes the file for unchanged without reading it. Git keeps 32 bits of each number, reduced, and the
source clamps to 32 bits. The two agree for the numbers that fit, and for few others
(`clamp_eq_reduce_iff`).
-/

namespace Ripclone.Git

open Ripclone.Library

/-! ## Numbers of 32 bits -/

def u32TryFrom (value : Int) : Option UInt32 :=
  if 0 ≤ value ∧ value < 2 ^ 32 then some (UInt32.ofNat value.toNat) else none

def clampI64ToU32 (value : Int64) : UInt32 :=
  (u32TryFrom value.toInt).getD (if value.toInt < 0 then 0 else 0xffffffff)

def clampU64ToU32 (value : UInt64) : UInt32 := (u32TryFrom value.toNat).getD 0xffffffff

/-- What git keeps of a number. -/
def reduce (value : Int) : UInt32 := UInt32.ofNat (value % 2 ^ 32).toNat

/-- A number for which clamping and reducing are the same. -/
def ClampReduces (value : Int) : Prop :=
  (0 ≤ value ∧ value < 2 ^ 32) ∨ (value < 0 ∧ value % 2 ^ 32 = 0) ∨
    (2 ^ 32 ≤ value ∧ value % 2 ^ 32 = 2 ^ 32 - 1)

instance (value : Int) : Decidable (ClampReduces value) := inferInstanceAs (Decidable (_ ∨ _ ∨ _))

theorem toNat_reduce (value : Int) : ((reduce value).toNat : Int) = value % 2 ^ 32 := by
  have hlt : (value % 2 ^ 32).toNat < 2 ^ 32 := by omega
  rw [reduce, UInt32.toNat_ofNat', Nat.mod_eq_of_lt hlt]
  omega

/-- Clamping as the source does it, over all integers. -/
def clamp (value : Int) : UInt32 :=
  (u32TryFrom value).getD (if value < 0 then 0 else 0xffffffff)

theorem toNat_clamp (value : Int) : ((clamp value).toNat : Int) =
    if value < 0 then 0 else if value < 2 ^ 32 then value else 2 ^ 32 - 1 := by
  unfold clamp u32TryFrom
  by_cases hnegative : value < 0
  · rw [if_neg (by omega), if_pos hnegative]
    simp [hnegative]
  · by_cases hfits : value < 2 ^ 32
    · have hlt : value.toNat < 2 ^ 32 := by omega
      rw [if_pos ⟨by omega, hfits⟩, if_neg hnegative, if_pos hfits, Option.getD_some,
        UInt32.toNat_ofNat', Nat.mod_eq_of_lt hlt]
      omega
    · rw [if_neg (by omega), if_neg hnegative, if_neg hfits]
      simp [hnegative]

theorem clamp_eq_reduce_iff (value : Int) : clamp value = reduce value ↔ ClampReduces value := by
  have hclamp := toNat_clamp value
  have hreduce := toNat_reduce value
  rw [← UInt32.toNat_inj, ClampReduces]
  split at hclamp
  · omega
  · split at hclamp
    · omega
    · omega

theorem clampI64ToU32_eq (value : Int64) : clampI64ToU32 value = clamp value.toInt := rfl

theorem clampU64ToU32_eq (value : UInt64) : clampU64ToU32 value = clamp value.toNat := by
  rw [clampU64ToU32, clamp, if_neg (by omega)]

/-! ## Stat data -/

/-- What `lstat` tells about a path, as far as an index entry keeps it. -/
structure Metadata where
  ctime : Int64
  ctimeNsec : Int64
  mtime : Int64
  mtimeNsec : Int64
  dev : UInt64
  ino : UInt64
  uid : UInt32
  gid : UInt32
  len : UInt64
  deriving DecidableEq, Repr

structure Time where
  secs : UInt32
  nsecs : UInt32
  deriving DecidableEq, Repr

structure IndexStat where
  ctime : Time
  mtime : Time
  dev : UInt32
  ino : UInt32
  uid : UInt32
  gid : UInt32
  size : UInt32
  deriving DecidableEq, Repr

def indexStatFromMetadata (metadata : Metadata) : IndexStat where
  ctime := ⟨clampI64ToU32 metadata.ctime, clampI64ToU32 metadata.ctimeNsec⟩
  mtime := ⟨clampI64ToU32 metadata.mtime, clampI64ToU32 metadata.mtimeNsec⟩
  dev := clampU64ToU32 metadata.dev
  ino := clampU64ToU32 metadata.ino
  uid := metadata.uid
  gid := metadata.gid
  size := clampU64ToU32 metadata.len

/-- A size of 0 tells git to look at the file, so no other size is kept as 0. -/
def reduceSize (len : UInt64) : UInt32 :=
  if reduce len.toNat = 0 ∧ len ≠ 0 then 0x80000000 else reduce len.toNat

/-- What git itself records for a path. -/
def gitStat (metadata : Metadata) : IndexStat where
  ctime := ⟨reduce metadata.ctime.toInt, reduce metadata.ctimeNsec.toInt⟩
  mtime := ⟨reduce metadata.mtime.toInt, reduce metadata.mtimeNsec.toInt⟩
  dev := reduce metadata.dev.toNat
  ino := reduce metadata.ino.toNat
  uid := metadata.uid
  gid := metadata.gid
  size := reduceSize metadata.len

/-- Every number of the metadata is kept alike. -/
def Metadata.ClampReduces (metadata : Metadata) : Prop :=
  Git.ClampReduces metadata.ctime.toInt ∧ Git.ClampReduces metadata.ctimeNsec.toInt ∧
    Git.ClampReduces metadata.mtime.toInt ∧ Git.ClampReduces metadata.mtimeNsec.toInt ∧
    Git.ClampReduces metadata.dev.toNat ∧ Git.ClampReduces metadata.ino.toNat ∧
    Git.ClampReduces metadata.len.toNat

instance (metadata : Metadata) : Decidable metadata.ClampReduces :=
  inferInstanceAs (Decidable (_ ∧ _ ∧ _ ∧ _ ∧ _ ∧ _ ∧ _))

theorem clamp_eq_reduceSize_iff (len : UInt64) :
    clamp len.toNat = reduceSize len ↔ ClampReduces len.toNat := by
  unfold reduceSize
  split
  · next hzero =>
      -- A nonzero multiple of 2 ^ 32 is clamped to the greatest number.
      have hreduce := toNat_reduce len.toNat
      have hclamp := toNat_clamp len.toNat
      have hpos : len.toNat ≠ 0 := fun h => hzero.2 (UInt64.toNat_inj.mp h)
      have hmunged : (0x80000000 : UInt32).toNat = 2 ^ 31 := rfl
      rw [hzero.1, show (0 : UInt32).toNat = 0 from rfl] at hreduce
      rw [if_neg (by omega), if_neg (by omega)] at hclamp
      rw [← UInt32.toNat_inj, hmunged, ClampReduces]
      omega
  · exact clamp_eq_reduce_iff len.toNat

/-- The source records what git does exactly for numbers that are kept alike. -/
theorem indexStatFromMetadata_eq_iff (metadata : Metadata) :
    indexStatFromMetadata metadata = gitStat metadata ↔ metadata.ClampReduces := by
  simp only [indexStatFromMetadata, gitStat, IndexStat.mk.injEq, Time.mk.injEq, clampI64ToU32_eq,
    clampU64ToU32_eq, clamp_eq_reduce_iff, clamp_eq_reduceSize_iff, Metadata.ClampReduces, true_and,
    and_assoc]

/-! ## The index -/

inductive Stage where
  | unconflicted
  | base
  | ours
  | theirs
  deriving DecidableEq, Repr

/-- An entry of the index, as far as it is looked up and changed. -/
structure Entry where
  path : Bytes
  stage : Stage
  stat : IndexStat
  deriving DecidableEq, Repr

structure MaterializedPathStat where
  path : Bytes
  stat : IndexStat
  deriving DecidableEq, Repr

def materializedPathStatFromMetadata (path : Bytes) (metadata : Metadata) : MaterializedPathStat :=
  ⟨path, indexStatFromMetadata metadata⟩

def isEntryOf (path : Bytes) (entry : Entry) : Bool := entry.path = path ∧ entry.stage = .unconflicted

/-- `entry_by_path_and_stage`, without a conflict. -/
def entryAt (index : List Entry) (path : Bytes) : Option Entry := index.find? (isEntryOf path)

def setStat (index : List Entry) (path : Bytes) (stat : IndexStat) : List Entry :=
  match index with
  | [] => []
  | entry :: rest =>
    if isEntryOf path entry then { entry with stat } :: rest else entry :: setStat rest path stat

section Stats

variable (lstat : Bytes → Except String Metadata) (stats : List MaterializedPathStat)

/-- `stats` by path: of two for one path, the last. A path they leave out is stat'ed. -/
def statFor (path : Bytes) : Except String IndexStat :=
  match stats.reverse.find? fun found => found.path = path with
  | some found => return found.stat
  | none => (lstat path).map indexStatFromMetadata

def setIndexStat (index : List Entry) (path : Bytes) : Except String (List Entry) :=
  match entryAt index path with
  | none => throw (Utf8.lossy path ++ " is not in the index")
  | some _ => do
    let stat ← statFor lstat stats path
    return setStat index path stat

/-- The entry of each path takes its stat data. -/
def setIndexStats (paths : List Bytes) (index : List Entry) : Except String (List Entry) :=
  paths.foldlM (setIndexStat lstat stats) index

end Stats

/-! ## What a run leaves in the index -/

section Run

variable {lstat : Bytes → Except String Metadata} {stats : List MaterializedPathStat}
  {paths : List Bytes} {index index' : List Entry} {path other : Bytes} {stat : IndexStat}

theorem isEntryOf_stat (entry : Entry) (stat : IndexStat) :
    isEntryOf path { entry with stat } = isEntryOf path entry := rfl

theorem isEntryOf_ne {entry : Entry} (h : isEntryOf path entry = true) (hne : other ≠ path) :
    isEntryOf other entry = false := by
  obtain ⟨rfl, -⟩ := of_decide_eq_true h
  exact decide_eq_false fun heq => hne heq.1.symm

theorem entryAt_setStat (index : List Entry) (path : Bytes) (stat : IndexStat) :
    entryAt (setStat index path stat) path =
      (entryAt index path).map fun entry => { entry with stat } := by
  induction index with
  | nil => rfl
  | cons entry rest ih =>
      rw [setStat, entryAt, entryAt]
      by_cases hentry : isEntryOf path entry = true
      · rw [if_pos hentry, List.find?_cons_of_pos hentry, List.find?_cons_of_pos]
        · rfl
        · rwa [isEntryOf_stat]
      · rw [if_neg hentry, List.find?_cons_of_neg hentry, List.find?_cons_of_neg hentry]
        exact ih

/-- The entries of other paths stay. -/
theorem entryAt_setStat_ne (index : List Entry) (stat : IndexStat) (hne : other ≠ path) :
    entryAt (setStat index path stat) other = entryAt index other := by
  induction index with
  | nil => rfl
  | cons entry rest ih =>
      rw [setStat]
      by_cases hentry : isEntryOf path entry = true
      · have hother : ¬isEntryOf other entry = true := by
          rw [isEntryOf_ne hentry hne]
          exact Bool.false_ne_true
        rw [if_pos hentry, entryAt, entryAt, List.find?_cons_of_neg hother, List.find?_cons_of_neg]
        rwa [isEntryOf_stat]
      · rw [if_neg hentry, entryAt, entryAt, List.find?_cons, List.find?_cons]
        split
        · rfl
        · exact ih

theorem setIndexStat_eq_ok (h : setIndexStat lstat stats index path = .ok index') :
    ∃ entry stat, entryAt index path = some entry ∧ statFor lstat stats path = .ok stat ∧
      index' = setStat index path stat := by
  unfold setIndexStat at h
  split at h
  · cases h
  · next entry hentry =>
      obtain ⟨stat, hstat, h⟩ := bind_eq_ok.mp h
      exact ⟨entry, stat, hentry, hstat, (pure_eq_ok.mp h).symm⟩

/-- One path: its entry takes the stat data, and no other changes. -/
theorem entryAt_setIndexStat (h : setIndexStat lstat stats index path = .ok index') :
    (∃ entry stat, statFor lstat stats path = .ok stat ∧ entryAt index' path = some entry ∧
      entry.stat = stat) ∧ ∀ other, other ≠ path → entryAt index' other = entryAt index other := by
  obtain ⟨entry, stat, hentry, hstat, rfl⟩ := setIndexStat_eq_ok h
  refine ⟨⟨{ entry with stat }, stat, hstat, ?_, rfl⟩, fun other hne => entryAt_setStat_ne index stat hne⟩
  rw [entryAt_setStat, hentry]
  rfl

/-- All paths: the last write of a path is of the same stat data as the others. -/
theorem entryAt_setIndexStats (h : setIndexStats lstat stats paths index = .ok index') :
    (∀ path ∈ paths, ∃ entry stat, statFor lstat stats path = .ok stat ∧
      entryAt index' path = some entry ∧ entry.stat = stat) ∧
    ∀ path, path ∉ paths → entryAt index' path = entryAt index path := by
  induction paths generalizing index with
  | nil =>
      obtain rfl := pure_eq_ok.mp h
      exact ⟨fun path hpath => absurd hpath List.not_mem_nil, fun path _ => rfl⟩
  | cons first rest ih =>
      rw [setIndexStats, List.foldlM_cons] at h
      obtain ⟨next, hnext, h⟩ := bind_eq_ok.mp h
      obtain ⟨hfirst, hsame⟩ := entryAt_setIndexStat hnext
      obtain ⟨hrest, hleft⟩ := ih h
      constructor
      · intro path hpath
        by_cases hlater : path ∈ rest
        · exact hrest path hlater
        · obtain rfl := (List.mem_cons.mp hpath).resolve_right hlater
          rw [hleft path hlater]
          exact hfirst
      · intro path hpath
        rw [List.mem_cons, not_or] at hpath
        rw [hleft path hpath.2, hsame path hpath.1]

/-- What `lstat` told about a path, when the files were written or now. -/
def lstatOf (lstat : Bytes → Except String Metadata) (found : List (Bytes × Metadata)) (path : Bytes) :
    Except String Metadata :=
  match found.reverse.find? fun entry => entry.1 = path with
  | some entry => return entry.2
  | none => lstat path

theorem statFor_found (found : List (Bytes × Metadata)) (path : Bytes) :
    statFor lstat (found.map fun entry => materializedPathStatFromMetadata entry.1 entry.2) path =
      (lstatOf lstat found path).map indexStatFromMetadata := by
  unfold statFor lstatOf
  rw [← List.map_reverse, List.find?_map]
  have hpath : ((fun found : MaterializedPathStat => decide (found.path = path)) ∘
      fun entry : Bytes × Metadata => materializedPathStatFromMetadata entry.1 entry.2) =
      fun entry => decide (entry.1 = path) := rfl
  rw [hpath]
  cases found.reverse.find? fun entry => decide (entry.1 = path) <;> rfl

end Run

/-- The entry of `path` has the stat data that git records for `metadata`. -/
def Unchanged (index : List Entry) (path : Bytes) (metadata : Metadata) : Prop :=
  (entryAt index path).map Entry.stat = some (gitStat metadata)

/-- For every path, the entry that is written has the stat data git records exactly when the numbers `lstat`
gave for it are ones that clamping and reducing keep alike. -/
theorem setIndexStats_unchanged_iff {lstat : Bytes → Except String Metadata}
    {found : List (Bytes × Metadata)} {paths : List Bytes} {index index' : List Entry}
    (h : setIndexStats lstat (found.map fun entry => materializedPathStatFromMetadata entry.1 entry.2)
      paths index = .ok index') :
    ∀ path ∈ paths, ∃ metadata, lstatOf lstat found path = .ok metadata ∧
      (Unchanged index' path metadata ↔ metadata.ClampReduces) := by
  intro path hpath
  obtain ⟨entry, stat, hstat, hentry, rfl⟩ := (entryAt_setIndexStats h).1 path hpath
  rw [statFor_found] at hstat
  cases hmetadata : lstatOf lstat found path with
  | error e =>
      rw [hmetadata] at hstat
      cases hstat
  | ok metadata =>
      rw [hmetadata] at hstat
      have hrecorded : indexStatFromMetadata metadata = entry.stat := Except.ok.inj hstat
      refine ⟨metadata, rfl, ?_⟩
      rw [← indexStatFromMetadata_eq_iff, Unchanged, hentry, Option.map_some, Option.some.injEq, hrecorded]

section OneFile

def smallFile : Metadata := ⟨1700000000, 5, 1700000001, 7, 64769, 1048577, 1000, 1000, 12⟩

/-- A file of 4 GiB. -/
def largeFile : Metadata := { smallFile with len := 4294967296 }

def filePath : Bytes := [0x61]

/-- What `git read-tree` writes. -/
def readTreeEntry : Entry := ⟨filePath, .unconflicted, ⟨⟨0, 0⟩, ⟨0, 0⟩, 0, 0, 0, 0, 0⟩⟩

/-- The index after the file was written with `metadata`. -/
def indexOf (metadata : Metadata) : Except String (List Entry) :=
  setIndexStats (fun _ => .error "No such file or directory")
    [materializedPathStatFromMetadata filePath metadata] [filePath] [readTreeEntry]

theorem smallFile_unchanged : ∃ index, indexOf smallFile = .ok index ∧ Unchanged index filePath smallFile := by
  refine ⟨_, rfl, ?_⟩
  obtain ⟨metadata, hmetadata, hunchanged⟩ :=
    @setIndexStats_unchanged_iff (fun _ => .error "No such file or directory") [(filePath, smallFile)]
      [filePath] [readTreeEntry] _ rfl filePath List.mem_cons_self
  obtain rfl : smallFile = metadata := Except.ok.inj hmetadata
  exact hunchanged.mpr (by decide)

/-- Git would record 2 ^ 31 for the size. -/
theorem largeFile_changed : ∃ index, indexOf largeFile = .ok index ∧
    ¬Unchanged index filePath largeFile ∧ (gitStat largeFile).size = 0x80000000 ∧
    (entryAt index filePath).map (fun entry => entry.stat.size) = some 0xffffffff := by
  refine ⟨_, rfl, ?_, ?_, ?_⟩
  · unfold Unchanged
    decide
  · decide
  · decide

end OneFile

end Ripclone.Git
