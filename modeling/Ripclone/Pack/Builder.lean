import Mathlib.Data.Set.Lattice
import Ripclone.Results
import Ripclone.Library.Reach
import Ripclone.Pack.Idx

/-!
# Building packs

`PackBuilder`: the packs of a Head, of a history range, and the compaction of history levels. What
a build asks of git is a record of calls. Any of them may fail, and another build may get other
answers; a cancelled build is one whose calls fail from some point on.

A pack is a `SizedPack`, the names and lengths of the pack and its idx in storage.
-/

namespace Ripclone.Pack

open Ripclone.Library

/-- The calls a build makes on the mirror. The packs a call wrote are listed in name order. -/
structure Git where
  listHeadObjects (commit : String) : Except String (List String)
  objectSizes (oids : List String) : Except String (List (String × Nat))
  packObjectsUndeltified (oids : List String) : Except String (List SizedPack)
  /-- The pack of the mirror's first fetch, linked or copied, when it was of `tip`. -/
  fetchedHistoryPack (tip : String) : Except String (Option SizedPack)
  packObjectsRange (tip : String) (exclude : Option String) : Except String (List SizedPack)
  isAncestor (commit of : String) : Except String Bool
  revListObjects (tip exclude : String) : Except String (List String)
  packObjectsListed (oids : List String) : Except String (List SizedPack)

section Builder

variable (git : Git)

/-! ## Storing packs -/

/-- A pack is a 12 byte header, its objects, and a 20 byte checksum. -/
def emptyPackLen : Nat := 32

/-- A pack with no objects is dropped. -/
def storePacksFromDir (written : List SizedPack) : List SizedPack :=
  written.filter fun pack => decide (emptyPackLen < pack.packLen)

/-! ## Head packs -/

/-- Whether the next object still goes into the batch that has `cur` and `curBytes` so far. -/
def batchFull (target : Nat) (cur : List String) (curBytes size : Nat) : Except String Bool :=
  if cur.isEmpty then return false
  else do
    let bytes ← checkedAdd curBytes size "current pack size overflow"
    return decide (target < bytes)

/-- Greedy partition by raw size, from the batch that has `cur` and `curBytes` so far. A single
object larger than the target gets its own batch. -/
def batches (sizeOf : String → Nat) (target : Nat) :
    List String → List String → Nat → Except String (List (List String))
  | [], cur, _ => return if cur.isEmpty then [] else [cur]
  | oid :: rest, cur, curBytes => do
    let full ← batchFull target cur curBytes (sizeOf oid)
    if full then
      let bytes ← checkedAdd 0 (sizeOf oid) "current pack size overflow"
      let later ← batches sizeOf target rest [oid] bytes
      return cur :: later
    else
      let bytes ← checkedAdd curBytes (sizeOf oid) "current pack size overflow"
      batches sizeOf target rest (cur ++ [oid]) bytes

/-- Pack the objects and store the one pack git wrote. -/
def packUndeltified (oids : List String) : Except String SizedPack :=
  if oids.isEmpty then throw "no objects to pack"
  else do
    let written ← git.packObjectsUndeltified oids
    match storePacksFromDir written with
    | [pack] => return pack
    | packs => throw ("pack-objects wrote " ++ toString packs.length ++ " packs")

/-- `sizes.get(oid).copied().unwrap_or(0)`. -/
def sizeIn (sizes : List (String × Nat)) (oid : String) : Nat := (sizes.lookup oid).getD 0

def buildPacksFromOids (oids : List String) (targetRawBytes : Nat) :
    Except String (List SizedPack) :=
  if oids.isEmpty then return []
  else do
    let sizes ← git.objectSizes oids
    let parts ← batches (sizeIn sizes) (max targetRawBytes 1) oids [] 0
    parts.mapM (packUndeltified git)

/-- The depth-1 closure of a commit. -/
def headClosure (commit : String) : Except String (List String) := do
  let oids ← git.listHeadObjects commit
  if oids.isEmpty then throw ("no objects to pack for " ++ commit) else return oids

def buildHeadPacks (commit : String) (targetRawBytes : Nat) : Except String (List SizedPack) := do
  let oids ← headClosure git commit
  buildPacksFromOids git oids targetRawBytes

/-- The objects of the closure that are not in `haveIds`, the objects of the Head packs it builds
on. -/
def buildHeadLevel (commit : String) (haveIds : List String) (targetRawBytes : Nat) :
    Except String (List SizedPack) := do
  let oids ← headClosure git commit
  buildPacksFromOids git (oids.filter fun oid => !haveIds.contains oid) targetRawBytes

/-- Whether the objects `live` lacks take at most a tenth of the pack's bytes. -/
def keepsPack (live : List String) (pack : SizedPack) (objects : List (String × Nat)) : Bool :=
  let dead := ((objects.filter fun o => !live.contains o.1).map Prod.snd).sum
  decide (dead * 10 % 2 ^ 64 ≤ pack.packLen)

/-- The base packs a rebase keeps, and their objects. -/
def keptPacks (live : List String) :
    List (SizedPack × Bytes) → Except String (List SizedPack × List String)
  | [] => return ([], [])
  | (pack, idx) :: rest => do
    let objects ← idxObjectSizes idx pack.packLen
    let (kept, ids) ← keptPacks live rest
    if keepsPack live pack objects then return (pack :: kept, objects.map Prod.fst ++ ids)
    else return (kept, ids)

/-- Pack a new Head base from the current one, given with its idx bytes. Returns the packs, the kept
ones first, and how many are kept. -/
def rebaseHeadPacks (commit : String) (base : List (SizedPack × Bytes)) (targetRawBytes : Nat) :
    Except String (List SizedPack × Nat) := do
  let closure ← headClosure git commit
  let (kept, keptIds) ← keptPacks closure base
  let built ← buildPacksFromOids git (closure.filter fun id => !keptIds.contains id) targetRawBytes
  return (kept ++ built, kept.length)

/-! ## History -/

/-- The fetched pack stands in for a whole history only. -/
def fetchedFor (tip : String) (exclude : Option String) : Except String (Option SizedPack) :=
  if exclude.isNone then git.fetchedHistoryPack tip else return none

/-- The packs of `(exclude, tip]`. The whole history is the fetched pack, when there is one. -/
def buildHistoryRange (tip : String) (exclude : Option String) :
    Except String (List SizedPack) := do
  let fetched ← fetchedFor git tip exclude
  match fetched with
  | some pack => return storePacksFromDir [pack]
  | none => do
    let written ← git.packObjectsRange tip exclude
    return storePacksFromDir written

def levelBytes (level : HistoryLevel) : Nat := (level.packs.map SizedPack.packLen).sum % 2 ^ 64

/-- The combined size of the levels at `i` and `i + 1`. -/
def pairBytes (levels : List HistoryLevel) (i : Nat) : Nat :=
  (((levels[i]?).map levelBytes).getD 0 + ((levels[i + 1]?).map levelBytes).getD 0) % 2 ^ 64

/-- The adjacent pair with the smallest combined size, the first one of several. -/
def smallestPair (levels : List HistoryLevel) : Nat :=
  ((List.range (levels.length - 1)).foldl
    (fun best i => if pairBytes levels i < best.2 then (i, pairBytes levels i) else best)
    (0, 2 ^ 64 - 1)).1

/-- The tip of the level before `best`, none when `best` is the base. -/
def startBefore (levels : List HistoryLevel) (best : Nat) : Option String :=
  if best = 0 then none else (levels[best - 1]?).map HistoryLevel.tipCommit

/-- Merge the adjacent pair at `best` into one level, with the packs of their joint range. -/
def mergePair (levels : List HistoryLevel) (best : Nat) :
    Except String (List HistoryLevel × List SizedPack) :=
  match levels[best + 1]? with
  -- The loop runs on two levels or more, so there is a pair.
  | none => throw "index out of bounds"
  | some last => do
    let packs ← buildHistoryRange git last.tipCommit (startBefore levels best)
    return (levels.take best ++ ⟨last.tipCommit, packs⟩ :: levels.drop (best + 2), packs)

/-- The loop of `compact_levels`, run at most `fuel` times. -/
def compactLoop (maxLevels : Nat) :
    Nat → List HistoryLevel → List SizedPack → Except String (List HistoryLevel × List SizedPack)
  | 0, levels, newPacks => return (levels, newPacks)
  | fuel + 1, levels, newPacks =>
    if max maxLevels 1 < levels.length ∧ 2 ≤ levels.length then do
      let (merged, packs) ← mergePair git levels (smallestPair levels)
      compactLoop maxLevels fuel merged (newPacks ++ packs)
    else return (levels, newPacks)

/-- Merge the smallest adjacent pair while there are more than `maxLevels` levels. Every merge
leaves one level less, so the loop ends within as many rounds as there are levels. -/
def compactLevels (levels : List HistoryLevel) (maxLevels : Nat) :
    Except String (List HistoryLevel × List SizedPack) :=
  compactLoop git maxLevels levels.length levels []

/-- The objects of `commit ^base` but those in `haveIds`, in one deltified pack. -/
def buildOwnHistory (commit base : String) (haveIds : List String) :
    Except String (List SizedPack) := do
  let listed ← git.revListObjects commit base
  let own := listed.filter fun id => !haveIds.contains id
  if own.isEmpty then return []
  else do
    let written ← git.packObjectsListed own
    return storePacksFromDir written

end Builder

end Ripclone.Pack
