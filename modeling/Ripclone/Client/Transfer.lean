import Mathlib.Algebra.GroupWithZero.Nat
import Ripclone.Library.Run
import Ripclone.Library.Text
import Ripclone.Results

/-!
# The bytes of one download

One artifact is fetched from its URL: a long file as ranges in order, anything else as one stream that
resumes after a cut with Range. What was received is kept in three places, the body, the running hash
and the length, across attempts, restarts and the switch from ranges to one stream. Nothing is returned
before its length and its hash are checked.

A download is a state machine that takes what the server does as events: headers, pieces of a body, its
end or a read error. The attempts of one range are one event, since each range has attempts of its own
and the ranges are written in order.
-/

namespace Ripclone.Client.Transfer

open Ripclone.Library

structure Artifact where
  hash : String
  /-- The length the manifest promised. -/
  len : Option Nat
  deriving DecidableEq, Repr

inductive Sink where
  | memory
  | tempFile
  deriving DecidableEq, Repr

inductive DownloadError where
  /-- "artifact fetch transport error: …" -/
  | transport
  /-- "artifact … fetch failed: …" -/
  | status (status : Nat)
  /-- "artifact … range response had status …" -/
  | rangeStatus (status : Nat)
  /-- "partial artifact response omitted Content-Range" -/
  | noContentRange
  /-- "partial artifact response has non-text Content-Range" -/
  | textContentRange
  /-- "partial artifact response has malformed Content-Range …" -/
  | malformedContentRange
  /-- "invalid Content-Range for partial artifact: …" -/
  | invalidContentRange (offset start last total : Nat)
  /-- "resumed artifact Content-Length mismatch: expected …, got …" -/
  | resumedLength (rest sent : Nat)
  /-- `len - received.len` is below zero. -/
  | underflow
  /-- "artifact … response had unexpected status …" -/
  | unexpectedStatus (status : Nat)
  /-- "artifact body read error: …" or "artifact range body read error: …" -/
  | bodyRead
  /-- "artifact … range … returned … bytes" -/
  | rangeLength (start stop len : Nat)
  /-- "artifact … size mismatch: expected …, got …" -/
  | sizeMismatch (expected len : Nat)
  /-- "artifact hash mismatch: expected …, got …" -/
  | hashMismatch (expected actual : String)
  /-- "the server ignored a range request" -/
  | rangeIgnored
  /-- "refresh URL for artifact …" -/
  | refreshUrl
  /-- A call on the temporary file. -/
  | localIo
  deriving DecidableEq, Repr

/-! ## What was received -/

inductive Body where
  | memory (bytes : Bytes)
  /-- The temporary file, and where the next write goes. -/
  | file (content : Bytes) (pos : Nat)
  deriving DecidableEq, Repr

def Body.bytes : Body → Bytes
  | .memory bytes => bytes
  | .file content _ => content

/-- A file with a chunk written at `pos`; a gap before it is zeros. -/
def writeAt (content : Bytes) (pos : Nat) (chunk : Bytes) : Bytes :=
  content.take pos ++ List.replicate (pos - content.length) 0 ++ chunk ++
    content.drop (pos + chunk.length)

/-- `io` is whether the calls on the temporary file succeed. -/
def Body.append (chunk : Bytes) (io : Bool) : Body → Except DownloadError Body
  | .memory bytes => return .memory (bytes ++ chunk)
  | .file content pos =>
    if io then return .file (writeAt content pos chunk) (pos + chunk.length) else throw .localIo

def Body.clear (io : Bool) : Body → Except DownloadError Body
  | .memory _ => return .memory []
  | .file .. => if io then return .file [] 0 else throw .localIo

structure Received where
  body : Body
  /-- The bytes the running hash is of. -/
  hashed : Bytes
  len : Nat
  deriving DecidableEq, Repr

namespace Received

def opened (sink : Sink) (io : Bool) : Except DownloadError Received :=
  match sink with
  | .memory => return ⟨.memory [], [], 0⟩
  | .tempFile => if io then return ⟨.file [] 0, [], 0⟩ else throw .localIo

def write (received : Received) (chunk : Bytes) (io : Bool) : Except DownloadError Received := do
  let body ← received.body.append chunk io
  return ⟨body, received.hashed ++ chunk, received.len + chunk.length⟩

/-- Drop what was received, for a server that ignored Range. -/
def restart (received : Received) (io : Bool) : Except DownloadError Received := do
  let body ← received.body.clear io
  return ⟨body, [], 0⟩

end Received

variable (hash : Bytes → String) (artifact : Artifact)

/-- The promised length, then the content address. -/
def verifyArtifact (received : Received) : Except DownloadError Unit :=
  if artifact.len.any fun expected => received.len ≠ expected then
    throw (.sizeMismatch (artifact.len.getD 0) received.len)
  else if hash received.hashed ≠ artifact.hash then
    throw (.hashMismatch artifact.hash (hash received.hashed))
  else return ()

def finish (received : Received) (io : Bool) : Except DownloadError Bytes := do
  verifyArtifact hash artifact received
  match received.body with
  | .memory bytes => return bytes
  | .file content _ => if io then return content else throw .localIo

/-! ## Answers -/

/-- The head of a response. -/
structure Response where
  status : Nat
  contentRange : Option Bytes
  contentLength : Option Nat
  deriving DecidableEq, Repr

/-- Why one attempt failed, and what the download does next. -/
inductive FetchFailure where
  | retry (error : DownloadError)
  | refreshUrl (error : DownloadError)
  | permanent (error : DownloadError)
  | rangeIgnored
  deriving DecidableEq, Repr

def FetchFailure.intoError : FetchFailure → DownloadError
  | .retry error | .refreshUrl error | .permanent error => error
  | .rangeIgnored => .rangeIgnored

/-- `signed` is whether the URL authenticates itself. -/
def classifyFetchStatus (status : Nat) (signed : Bool) : Option FetchFailure :=
  if 200 ≤ status ∧ status < 300 then none
  else if (500 ≤ status ∧ status < 600) ∨ status = 429 ∨ status = 408 then
    some (.retry (.status status))
  else if signed = true ∧ (status = 401 ∨ status = 403) then some (.refreshUrl (.status status))
  else some (.permanent (.status status))

/-- A header of visible ASCII, spaces and tabs is text. -/
def headerText (value : Bytes) : Option (List Char) :=
  if value.all fun b => b = 9 ∨ (32 ≤ b ∧ b < 127) then
    some (value.map fun b => Char.ofNat b.toNat)
  else none

def parseU64 (text : List Char) : Option Nat :=
  let digits := if text.head? = some '+' then text.tail else text
  if digits = [] ∨ digits.any (fun c => !c.isDigit) then none
  else
    let value := digits.foldl (fun n c => n * 10 + (c.toNat - '0'.toNat)) 0
    if value < 2 ^ 64 then some value else none

/-- The first and the last byte and the total of `bytes first-last/total`. -/
def parseContentRange (text : List Char) : Option (Nat × Nat × Nat) := do
  let rest ← stripStart "bytes ".toList text
  let (bounds, total) ← splitOnce '/' rest
  let (start, last) ← splitOnce '-' bounds
  return (← parseU64 start, ← parseU64 last, ← parseU64 total)

/-- It starts at `offset`, runs to `stop` or else to the end, and names the promised length. -/
def validateContentRange (value : Option Bytes) (offset : Nat) (stop expectedLen : Option Nat) :
    Except DownloadError Unit :=
  match value with
  | none => throw .noContentRange
  | some value =>
    match headerText value with
    | none => throw .textContentRange
    | some text =>
      match parseContentRange text with
      | none => throw .malformedContentRange
      | some (start, last, total) =>
        if start = offset ∧ last + 1 = stop.getD total ∧ expectedLen.all fun len => len = total then
          return ()
        else throw (.invalidContentRange offset start last total)

/-! ## Ranges -/

def fetchMaxAttempts : Nat := 3

/-- What comes of one request for a range. -/
inductive RangeAnswer where
  | unsent
  /-- The head, the bytes of the body, and whether it ended in a read error. -/
  | answered (response : Response) (body : Bytes) (cut : Bool)
  deriving DecidableEq, Repr

structure RangeAttempt where
  answer : RangeAnswer
  /-- Whether a refresh gives a URL, if the attempt asks for one. -/
  refreshed : Bool
  deriving DecidableEq, Repr

/-- One request for bytes `start..stop`. Anything but exactly that range fails. -/
def rangeAttempt (signed : Bool) (start stop : Nat) : RangeAnswer → Except FetchFailure Bytes
  | .unsent => throw (.retry .transport)
  | .answered response body cut =>
    match classifyFetchStatus response.status signed with
    | some failure => throw failure
    | none =>
      if response.status = 200 then throw .rangeIgnored
      else if response.status ≠ 206 then throw (.permanent (.rangeStatus response.status))
      else do
        (validateContentRange response.contentRange start (some stop) artifact.len).mapError .permanent
        if cut then throw (.retry .bodyRead)
        else if body.length ≠ stop - start then throw (.retry (.rangeLength start stop body.length))
        else return body

/-- The attempts for a range, from the `n`-th on: its bytes, or none when the server ignored Range. There
is no result while attempts are missing. -/
def downloadRange (start stop : Nat) : Nat → Bool → List RangeAttempt →
    Option (Except DownloadError (Option Bytes))
  | _, _, [] => none
  | n, signed, attempt :: rest =>
    match rangeAttempt artifact signed start stop attempt.answer with
    | .ok bytes => some (.ok (some bytes))
    | .error .rangeIgnored => some (.ok none)
    | .error failure =>
      match failure, decide (n < fetchMaxAttempts) with
      | .refreshUrl _, true =>
        if attempt.refreshed then downloadRange start stop (n + 1) true rest
        else some (.error .refreshUrl)
      | .retry _, true => downloadRange start stop (n + 1) signed rest
      | _, _ => some (.error failure.intoError)

/-- The promised length of a file that is fetched as ranges of `part` bytes. -/
def rangesLen (sink : Sink) (part : Nat) : Option Nat :=
  match sink with
  | .memory => none
  | .tempFile => artifact.len.filter fun len => decide (min (part * 4) (2 ^ 64 - 1) ≤ len)

/-- The `i`-th range. -/
def rangeOf (len part i : Nat) : Nat × Nat := (i * part, min ((i + 1) * part) len)

def rangeCount (len part : Nat) : Nat := (len + part - 1) / part

/-! ## The download -/

inductive Phase where
  | opening
  /-- Before the `i`-th range. -/
  | ranges (i : Nat)
  /-- Before the request of the `n`-th attempt. -/
  | attempt (n : Nat) (signed : Bool)
  /-- A URL is asked for after the `n`-th attempt. -/
  | refreshing (n : Nat)
  /-- In a body that began at byte `offset`, after `got` bytes of it. -/
  | body (n : Nat) (signed : Bool) (offset got : Nat)
  | finishing
  | done (result : Except DownloadError Bytes)
  deriving DecidableEq, Repr

structure FetchState where
  received : Received
  phase : Phase
  deriving DecidableEq, Repr

inductive FetchEvent where
  /-- `signed` is whether the slot has a URL at that moment. -/
  | opened (io signed : Bool)
  /-- All attempts for the next range, and the write of its bytes or, when the server ignored Range, the
  restart. `signed` is whether the slot has a URL before the attempts and `after` before the one stream. -/
  | range (signed : Bool) (attempts : List RangeAttempt) (io after : Bool)
  /-- A request has no response. -/
  | unsent
  | answered (response : Response) (io : Bool)
  | chunk (bytes : Bytes) (io : Bool)
  /-- The body ends. -/
  | bodyEnd
  /-- The body ends in a read error. -/
  | cut
  | refreshed (found : Bool)
  | finished (io : Bool)
  deriving DecidableEq, Repr

/-- The `n`-th attempt, unless nothing is left to resume. -/
def enter (received : Received) (n : Nat) (signed : Bool) : FetchState :=
  if 0 < received.len ∧ some received.len = artifact.len then ⟨received, .finishing⟩
  else ⟨received, .attempt n signed⟩

/-- What the download does after the `n`-th attempt has failed. -/
def failed (received : Received) (n : Nat) (signed : Bool) (failure : FetchFailure) : FetchState :=
  match failure, decide (n < fetchMaxAttempts) with
  | .refreshUrl _, true => ⟨received, .refreshing n⟩
  | .retry _, true => enter artifact received (n + 1) signed
  | _, _ => ⟨received, .done (.error failure.intoError)⟩

/-- The head of an answer to an attempt: where its body begins. -/
def downloadAttempt (received : Received) (response : Response) (io : Bool) :
    Except DownloadError (Received × Nat) :=
  if response.status = 200 then do
    let received ← (if 0 < received.len then received.restart io else .ok received)
    return (received, 0)
  else if response.status = 206 ∧ 0 < received.len then do
    validateContentRange response.contentRange received.len none artifact.len
    match response.contentLength, artifact.len with
    | some sent, some len =>
      if len < received.len then throw .underflow
      else if sent ≠ len - received.len then throw (.resumedLength (len - received.len) sent)
      else return (received, received.len)
    | _, _ => return (received, received.len)
  else throw (.unexpectedStatus response.status)

variable (sink : Sink) (part : Nat)

/-- The ranges or the one stream begin. -/
def takeOpened (s : FetchState) (io signed : Bool) : FetchState :=
  match Received.opened sink io with
  | .error error => ⟨s.received, .done (.error error)⟩
  | .ok received =>
    if (rangesLen artifact sink part).isSome then ⟨received, .ranges 0⟩
    else enter artifact received 1 signed

/-- The bytes of the `i`-th range are written, or everything is fetched again in one stream. -/
def takeRange (len i : Nat) (s : FetchState) (result : Except DownloadError (Option Bytes))
    (io after : Bool) : FetchState :=
  match result with
  | .error error => ⟨s.received, .done (.error error)⟩
  | .ok none =>
    match s.received.restart io with
    | .error error => ⟨s.received, .done (.error error)⟩
    | .ok received => enter artifact received 1 after
  | .ok (some bytes) =>
    match s.received.write bytes io with
    | .error error => ⟨s.received, .done (.error error)⟩
    | .ok received =>
      ⟨received, if i + 1 < rangeCount len part then .ranges (i + 1) else .finishing⟩

def takeAnswer (s : FetchState) (n : Nat) (signed : Bool) (response : Response) (io : Bool) :
    FetchState :=
  match classifyFetchStatus response.status signed with
  | some failure => failed artifact s.received n signed failure
  | none =>
    match downloadAttempt artifact s.received response io with
    | .error error => ⟨s.received, .done (.error error)⟩
    | .ok (received, offset) => ⟨received, .body n signed offset 0⟩

def takeChunk (s : FetchState) (n : Nat) (signed : Bool) (offset got : Nat) (bytes : Bytes)
    (io : Bool) : FetchState :=
  match s.received.write bytes io with
  | .error error => ⟨s.received, .done (.error error)⟩
  | .ok received =>
    if artifact.len.any fun len => len < received.len then
      ⟨received, .done (.error (.sizeMismatch (artifact.len.getD 0) received.len))⟩
    else ⟨received, .body n signed offset (got + bytes.length)⟩

/-- What an event does, in the phases it can happen in. -/
def step (s : FetchState) (e : FetchEvent) : Option FetchState :=
  match s.phase, e with
  | .opening, .opened io signed => some (takeOpened artifact sink part s io signed)
  | .ranges i, .range signed attempts io after =>
    (rangesLen artifact sink part).bind fun len =>
      (downloadRange artifact (rangeOf len part i).1 (rangeOf len part i).2 1 signed attempts).map
        fun result => takeRange artifact part len i s result io after
  | .attempt n signed, .unsent => some (failed artifact s.received n signed (.retry .transport))
  | .attempt n signed, .answered response io => some (takeAnswer artifact s n signed response io)
  | .body n signed offset got, .chunk bytes io =>
    some (takeChunk artifact s n signed offset got bytes io)
  | .body _ _ _ _, .bodyEnd => some ⟨s.received, .finishing⟩
  | .body n signed _ _, .cut => some (failed artifact s.received n signed (.retry .bodyRead))
  | .refreshing n, .refreshed found =>
    if found then some (enter artifact s.received (n + 1) true)
    else some ⟨s.received, .done (.error .refreshUrl)⟩
  | .finishing, .finished io => some ⟨s.received, .done (finish hash artifact s.received io)⟩
  | _, _ => none

/-- What the cache has under the artifact's hash. A file is never read from it. -/
def fromCache (cached : Option Bytes) : Option Bytes :=
  match sink with
  | .memory => cached.filter fun bytes => decide (hash bytes = artifact.hash)
  | .tempFile => none

/-- A download begins. -/
def start (cached : Option Bytes) : FetchState :=
  ⟨⟨.memory [], [], 0⟩,
    match fromCache hash artifact sink cached with
    | some bytes => .done (.ok bytes)
    | none => .opening⟩

end Ripclone.Client.Transfer
