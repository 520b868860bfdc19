import Ripclone.Client.Transfer

/-!
# Serving an artifact

The server sends an artifact, or the part of it a request asks for, when its storage signs no URL. It
asks the storage for the size, works out the part, and copies it piece by piece from one open file or by
range reads. A read may give less than was asked for, and one that gives nothing or fails ends the
stream in an error.
-/

namespace Ripclone.Server

open Ripclone.Library Ripclone.Client.Transfer

/-- What storage answers about one artifact. A read names its place in the order of the reads, and an
open file is read from where the last read ended. `none` is a failed read. -/
structure ArtifactStorage where
  signedUrl : Option String
  size : Except String Nat
  /-- Whether there is a local file, open and set to its byte `start`. -/
  openFile (start : Nat) : Except String Bool
  readFile (call position wanted : Nat) : Option Bytes
  getRange (call start len : Nat) : Option Bytes

inductive BodyError where
  /-- "artifact file ended before its recorded length" -/
  | fileEnded
  /-- "artifact range ended before its recorded length" -/
  | rangeEnded
  | read
  deriving DecidableEq, Repr

def artifactStreamChunkBytes : Nat := 64 * 1024

inductive ArtifactBodySource where
  /-- An open file, and where it stands. -/
  | file (position : Nat)
  | ranges (offset : Nat)
  deriving DecidableEq, Repr

/-- The next piece, never an empty one, and the source after it. -/
def ArtifactBodySource.read (storage : ArtifactStorage) (call wanted : Nat) :
    ArtifactBodySource → Except BodyError (Bytes × ArtifactBodySource)
  | .file position =>
    match storage.readFile call position wanted with
    | some bytes =>
      if bytes = [] then .error .fileEnded else .ok (bytes, .file (position + bytes.length))
    | none => .error .read
  | .ranges offset =>
    match storage.getRange call offset wanted with
    | some bytes =>
      if bytes = [] then .error .rangeEnded else .ok (bytes, .ranges (offset + bytes.length))
    | none => .error .read

/-- Where the next piece is read from. -/
def ArtifactBodySource.position : ArtifactBodySource → Nat
  | .file position => position
  | .ranges offset => offset

section Read

variable {storage : ArtifactStorage} {call wanted : Nat} {source source' : ArtifactBodySource}
  {bytes : Bytes}

theorem read_eq_ok (h : source.read storage call wanted = .ok (bytes, source')) :
    bytes ≠ [] ∧ source'.position = source.position + bytes.length ∧
      (storage.readFile call source.position wanted = some bytes ∨
        storage.getRange call source.position wanted = some bytes) := by
  cases source with
  | file position =>
      unfold ArtifactBodySource.read at h
      dsimp only at h
      split at h
      · next read hread =>
          split at h
          · cases h
          · next hne =>
              obtain ⟨rfl, rfl⟩ := Prod.mk.inj (Except.ok.inj h)
              exact ⟨hne, rfl, .inl hread⟩
      · cases h
  | ranges offset =>
      unfold ArtifactBodySource.read at h
      dsimp only at h
      split at h
      · next read hread =>
          split at h
          · cases h
          · next hne =>
              obtain ⟨rfl, rfl⟩ := Prod.mk.inj (Except.ok.inj h)
              exact ⟨hne, rfl, .inr hread⟩
      · cases h

end Read

/-- What the body's stream gives after `sent` bytes of `len`, the reads before being `call`. A client
that stops reading ends the task, and there is nobody left to see it. -/
def artifactBody (storage : ArtifactStorage) (len call : Nat) (source : ArtifactBodySource)
    (sent : Nat) : List (Except BodyError Bytes) :=
  if sent < len then
    let wanted := min (len - sent) artifactStreamChunkBytes
    match _hread : source.read storage call wanted with
    | .ok (bytes, source) => .ok bytes :: artifactBody storage len (call + 1) source (sent + bytes.length)
    | .error error => [.error error]
  else []
termination_by len - sent
decreasing_by
  have hpos := List.length_pos_iff.mpr (read_eq_ok _hread).1
  omega

def decimal (n : Nat) : List Char := Nat.toDigits 10 n

/-- The first and last byte of a single `bytes=start-end`, the end clamped to the last byte. -/
def parseByteRange (range : List Char) (size : Nat) : Option (Nat × Nat) := do
  let range ← stripStart "bytes=".toList range
  let (startText, endText) ← splitOnce '-' range
  let start ← parseU64 startText
  if size ≤ start then none
  else do
    let last ← (if endText = [] then some (size - 1)
      else (parseU64 endText).map fun last => min last (size - 1))
    if last < start then none else some (start, last)

/-- `bytes {start}-{end}/{total_size}`. -/
def contentRangeText (start last totalSize : Nat) : List Char :=
  "bytes ".toList ++ (decimal start ++ '-' :: (decimal last ++ '/' :: decimal totalSize))

theorem contentRangeText_eq (start last totalSize : Nat) : contentRangeText start last totalSize =
    "bytes ".toList ++ (decimal start ++ '-' :: (decimal last ++ '/' :: decimal totalSize)) := rfl

inductive ArtifactAnswer where
  | redirect (location : String)
  /-- "artifact not found: …" -/
  | notFound (hash : String)
  | sent (status : Nat) (contentRange : Option (List Char)) (contentLength : List Char)
      (body : List (Except BodyError Bytes))

/-- The answer to a request with the Range header `range`. -/
def serveArtifact (storage : ArtifactStorage) (hash : String) (range : Option Bytes) :
    ArtifactAnswer :=
  match storage.signedUrl with
  | some url => .redirect url
  | none =>
    match storage.size with
    | .error _ => .notFound hash
    | .ok totalSize =>
      let range := (range.bind headerText).bind fun value => parseByteRange value totalSize
      if totalSize = 0 then .sent 200 none (decimal 0) []
      else
        let start := (range.map Prod.fst).getD 0
        let last := (range.map Prod.snd).getD (totalSize - 1)
        let status := if range.isSome then 206 else 200
        let len := last - start + 1
        match storage.openFile start with
        | .error _ => .notFound hash
        | .ok hasFile =>
          let source := if hasFile then .file start else .ranges start
          let body := artifactBody storage len 0 source 0
          if status = 206 then
            .sent status (some (contentRangeText start last totalSize)) (decimal len) body
          else .sent status none (decimal len) body

/-- An answer that sends bytes, from a storage that signs no URL. -/
theorem serveArtifact_sent {storage : ArtifactStorage} (hash : String) {range : Option Bytes}
    {size : Nat} {asked : Option (Nat × Nat)} {hasFile : Bool} (hsigned : storage.signedUrl = none)
    (hsize : storage.size = .ok size) (hne : size ≠ 0)
    (hasked : ((range.bind headerText).bind fun value => parseByteRange value size) = asked)
    (hopen : storage.openFile ((asked.map Prod.fst).getD 0) = .ok hasFile) :
    let start := (asked.map Prod.fst).getD 0
    let last := (asked.map Prod.snd).getD (size - 1)
    let source := if hasFile then ArtifactBodySource.file start else .ranges start
    serveArtifact storage hash range =
      .sent (if asked.isSome then 206 else 200)
        (if asked.isSome then some (contentRangeText start last size) else none)
        (decimal (last - start + 1)) (artifactBody storage (last - start + 1) 0 source 0) := by
  unfold serveArtifact
  rw [hsigned, hsize]
  dsimp only
  rw [hasked, if_neg hne, hopen]
  cases asked with
  | none => rfl
  | some bounds => rfl

/-! ## The body -/

/-- Storage holds `content`: a read that succeeds gives bytes of it from the place it was asked for, and
no more than was asked for. -/
structure ArtifactStorage.Holds (storage : ArtifactStorage) (content : Bytes) : Prop where
  size : storage.size = .ok content.length
  /-- A length in the source is an `u64`. -/
  size_lt : content.length < 2 ^ 64
  openFile : ∀ start, ∃ hasFile, storage.openFile start = .ok hasFile
  readFile : ∀ {call position wanted bytes}, storage.readFile call position wanted = some bytes →
    bytes.length ≤ wanted ∧ bytes <+: content.drop position
  getRange : ∀ {call start len bytes}, storage.getRange call start len = some bytes →
    bytes.length ≤ len ∧ bytes <+: content.drop start

/-- A stream gives the bytes, or a part of them before it ends in an error. -/
inductive Gives : List (Except BodyError Bytes) → Bytes → Prop
  | done : Gives [] []
  | failed (error : BodyError) (bytes : Bytes) : Gives [.error error] bytes
  | piece {stream : List (Except BodyError Bytes)} {rest : Bytes} (bytes : Bytes) :
      Gives stream rest → Gives (.ok bytes :: stream) (bytes ++ rest)

/-- The bytes of a stream before it ends, and whether it ends in an error. -/
def delivered : List (Except BodyError Bytes) → Bytes × Bool
  | [] => ([], false)
  | .error _ :: _ => ([], true)
  | .ok bytes :: rest => (bytes ++ (delivered rest).1, (delivered rest).2)

theorem Gives.delivered_prefix {stream : List (Except BodyError Bytes)} {bytes : Bytes}
    (h : Gives stream bytes) :
    (delivered stream).1 <+: bytes ∧ ((delivered stream).2 = false → (delivered stream).1 = bytes) := by
  induction h with
  | done => exact ⟨List.prefix_refl _, fun _ => rfl⟩
  | failed error bytes => exact ⟨List.nil_prefix, fun h => by cases h⟩
  | piece bytes _ ih =>
      refine ⟨(List.prefix_append_right_inj bytes).mpr ih.1, ?_⟩
      intro h
      exact congrArg (bytes ++ ·) (ih.2 h)

section Body

variable {storage : ArtifactStorage} {content : Bytes}

theorem read_prefix (h : storage.Holds content) {call wanted : Nat}
    {source source' : ArtifactBodySource} {bytes : Bytes}
    (hread : source.read storage call wanted = .ok (bytes, source')) :
    bytes.length ≤ wanted ∧ bytes <+: content.drop source.position := by
  obtain ⟨-, -, hfile | hrange⟩ := read_eq_ok hread
  · exact h.readFile hfile
  · exact h.getRange hrange

/-- The copy loop: what is left of the part, from where the source stands. -/
theorem artifactBody_gives (h : storage.Holds content) {len call sent : Nat}
    {source : ArtifactBodySource} (hsent : sent ≤ len)
    (hin : source.position + (len - sent) ≤ content.length) :
    Gives (artifactBody storage len call source sent)
      ((content.drop source.position).take (len - sent)) := by
  induction hleft : len - sent using Nat.strongRecOn generalizing call source sent with
  | _ left ih =>
    unfold artifactBody
    split
    · next hlt =>
        dsimp only
        split
        · next bytes source' hread =>
            obtain ⟨hne, hposition, -⟩ := read_eq_ok hread
            obtain ⟨hlen, rest, hrest⟩ := read_prefix h hread
            have hpos := List.length_pos_iff.mpr hne
            -- The piece is no longer than what is left, so the rest of the part follows it.
            have hsplit : (content.drop source.position).take left =
                bytes ++ (content.drop source'.position).take (left - bytes.length) := by
              rw [hposition, ← List.drop_drop, ← hrest, List.drop_left, List.take_append,
                List.take_of_length_le (by omega)]
            rw [hsplit]
            refine .piece bytes (ih _ ?_ ?_ ?_ ?_)
            all_goals omega
        · next error hread => exact .failed error _
    · next hge =>
        obtain rfl : left = 0 := by omega
        rw [List.take_zero]
        exact .done

end Body

end Ripclone.Server
