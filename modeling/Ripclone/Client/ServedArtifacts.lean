import Ripclone.Client.TransferHonest
import Ripclone.Server.Artifacts

/-!
# What the client makes of the server's answers

The client asks for a whole artifact, for what follows the bytes it has, or for a part, and works out by
itself what the answer must say. The server works it out from the header and the size alone. The two
agree: each answer is one the client takes, and its body is what the status promises unless it ends in
an error. The server is an honest one.
-/

namespace Ripclone.Client.Transfer

open Ripclone.Library Ripclone.Server

/-! ## Numbers and headers -/

section Headers

variable {n : Nat} {c : Char} {text : List Char}

theorem isDigit_of_mem_decimal (h : c ∈ decimal n) : c.isDigit = true :=
  Nat.isDigit_of_mem_toDigits (by decide) (by decide) h

theorem not_mem_decimal (h : c.isDigit = false) : c ∉ decimal n := by
  intro hmem
  rw [isDigit_of_mem_decimal hmem] at h
  cases h

theorem parseU64_decimal (h : n < 2 ^ 64) : parseU64 (decimal n) = some n := by
  have hhead : (decimal n).head? ≠ some '+' := by
    intro hplus
    exact not_mem_decimal rfl (List.mem_of_head? hplus)
  have hvalue : (decimal n).foldl (fun n c => n * 10 + (c.toNat - '0'.toNat)) 0 = n := by
    have hten := Nat.ofDigitChars_ten_toDigits (n := n)
    rw [Nat.ofDigitChars_eq_foldl] at hten
    simp only [Nat.mul_comm] at hten ⊢
    exact hten
  have hdigits : ((decimal n).any fun c => !c.isDigit) = false := by
    rw [List.any_eq_false]
    intro c hc
    rw [isDigit_of_mem_decimal hc]
    decide
  unfold parseU64
  rw [if_neg hhead]
  dsimp only
  rw [hdigits, if_neg (by simp [decimal, Nat.toDigits_ne_nil]), hvalue, if_pos h]

/-- A text of ASCII as the bytes of a header. -/
def asciiBytes (text : List Char) : Bytes := text.map fun c => UInt8.ofNat c.toNat

/-- A character that a header may hold. -/
def Printable (c : Char) : Prop := 32 ≤ c.toNat ∧ c.toNat < 127

instance : DecidablePred Printable := fun c =>
  inferInstanceAs (Decidable (32 ≤ c.toNat ∧ c.toNat < 127))

theorem printable_of_isDigit (h : c.isDigit = true) : Printable c := by
  have hdigit : c.isDigit = (decide (c.val ≥ '0'.val) && decide (c.val ≤ '9'.val)) := rfl
  rw [hdigit, Bool.and_eq_true, decide_eq_true_eq, decide_eq_true_eq] at h
  have hlow : '0'.val.toNat ≤ c.val.toNat := h.1
  have hhigh : c.val.toNat ≤ '9'.val.toNat := h.2
  have hlow' : 48 ≤ c.toNat := hlow
  have hhigh' : c.toNat ≤ 57 := hhigh
  exact ⟨by omega, by omega⟩

theorem headerText_asciiBytes (h : ∀ c ∈ text, Printable c) :
    headerText (asciiBytes text) = some text := by
  have hbyte : ∀ c ∈ text, (UInt8.ofNat c.toNat).toNat = c.toNat := by
    intro c hc
    have hc := (h c hc).2
    exact UInt8.toNat_ofNat_of_lt' (show c.toNat < 256 by omega)
  have hall : ((asciiBytes text).all fun b => decide (b = 9 ∨ (32 ≤ b ∧ b < 127))) = true := by
    rw [List.all_eq_true]
    intro b hb
    obtain ⟨c, hc, rfl⟩ := List.mem_map.mp hb
    have hprint := h c hc
    refine decide_eq_true (.inr ⟨?_, ?_⟩)
    · rw [UInt8.le_iff_toNat_le, hbyte c hc]
      exact hprint.1
    · rw [UInt8.lt_iff_toNat_lt, hbyte c hc]
      exact hprint.2
  rw [headerText, if_pos hall, asciiBytes, List.map_map]
  congr 1
  rw [List.map_congr_left (g := id), List.map_id]
  intro c hc
  show Char.ofNat (UInt8.ofNat c.toNat).toNat = c
  rw [hbyte c hc, Char.ofNat_toNat]

theorem printable_decimal : ∀ c ∈ decimal n, Printable c :=
  fun _ hc => printable_of_isDigit (isDigit_of_mem_decimal hc)

end Headers

/-! ## Requests -/

/-- The Range header of a request by a client that has `received` bytes. -/
def resumeRange (received : Nat) : Option (List Char) :=
  if 0 < received then some ("bytes=".toList ++ (decimal received ++ ['-'])) else none

/-- The Range header of a request for bytes `start..stop`. -/
def partRange (start stop : Nat) : List Char :=
  "bytes=".toList ++ (decimal start ++ '-' :: decimal (stop - 1))

theorem partRange_eq (start stop : Nat) :
    partRange start stop = "bytes=".toList ++ (decimal start ++ '-' :: decimal (stop - 1)) := rfl

section ParseByteRange

variable {start stop last size received : Nat} {text : List Char}

/-- A range the server takes lies in the artifact. -/
theorem parseByteRange_bounds (h : parseByteRange text size = some (start, last)) :
    start ≤ last ∧ last < size := by
  unfold parseByteRange at h
  obtain ⟨rest, -, h⟩ := Option.bind_eq_some_iff.mp h
  obtain ⟨⟨startText, endText⟩, -, h⟩ := Option.bind_eq_some_iff.mp h
  obtain ⟨start', -, h⟩ := Option.bind_eq_some_iff.mp h
  split at h
  · cases h
  · next hin =>
      obtain ⟨last', hlast, h⟩ := Option.bind_eq_some_iff.mp h
      split at h
      · cases h
      · next horder =>
          obtain ⟨rfl, rfl⟩ := Prod.mk.inj (Option.some.inj h)
          refine ⟨by omega, ?_⟩
          split at hlast
          · have := Option.some.inj hlast
            omega
          · obtain ⟨value, -, rfl⟩ := Option.map_eq_some_iff.mp hlast
            omega

theorem parseByteRange_text {endText : List Char} (hstart : start < 2 ^ 64) :
    parseByteRange ("bytes=".toList ++ (decimal start ++ '-' :: endText)) size =
      if size ≤ start then none
      else (if endText = [] then some (size - 1)
        else (parseU64 endText).map fun last => min last (size - 1)).bind
          fun last => if last < start then none else some (start, last) := by
  unfold parseByteRange
  rw [stripStart_append]
  simp only [Option.bind_eq_bind, Option.bind_some]
  rw [splitOnce_append (not_mem_decimal rfl)]
  simp only [Option.bind_some, parseU64_decimal hstart]

/-- What follows the bytes a client has; a client that has as many as there are is sent all. -/
theorem parseByteRange_resume (hreceived : received < 2 ^ 64) :
    parseByteRange ("bytes=".toList ++ (decimal received ++ ['-'])) size =
      if size ≤ received then none else some (received, size - 1) := by
  rw [parseByteRange_text hreceived, if_pos rfl]
  split
  · rfl
  · exact if_neg (by omega)

theorem parseByteRange_part (hstart : start < stop) (hstop : stop ≤ size) (hsize : size < 2 ^ 64) :
    parseByteRange (partRange start stop) size = some (start, stop - 1) := by
  rw [partRange_eq, parseByteRange_text (by omega), if_neg (by omega), if_neg (by exact Nat.toDigits_ne_nil),
    parseU64_decimal (by omega)]
  show (if min (stop - 1) (size - 1) < start then none else some (start, min (stop - 1) (size - 1))) = _
  rw [Nat.min_eq_left (by omega), if_neg (by omega)]

end ParseByteRange

/-! ## Answers -/

/-- A response as the client's HTTP library reads it. -/
def responseOf : ArtifactAnswer → Response
  | .redirect _ => ⟨307, none, none⟩
  | .notFound _ => ⟨404, none, none⟩
  | .sent status contentRange contentLength _ =>
    ⟨status, contentRange.map asciiBytes, parseU64 contentLength⟩

def bodyOf : ArtifactAnswer → List (Except BodyError Bytes)
  | .sent _ _ _ body => body
  | _ => []

section Answers

variable {start last size offset : Nat} {stop expectedLen : Option Nat}

theorem parseContentRange_contentRangeText (hstart : start < 2 ^ 64) (hlast : last < 2 ^ 64)
    (hsize : size < 2 ^ 64) :
    parseContentRange (contentRangeText start last size) = some (start, last, size) := by
  have hslash : '/' ∉ decimal start ++ '-' :: decimal last := by
    rw [List.mem_append, List.mem_cons]
    rintro (hmem | heq | hmem)
    · exact not_mem_decimal rfl hmem
    · exact absurd heq (by decide)
    · exact not_mem_decimal rfl hmem
  have hsplit : decimal start ++ '-' :: (decimal last ++ '/' :: decimal size) =
      (decimal start ++ '-' :: decimal last) ++ '/' :: decimal size := by
    rw [List.append_assoc, List.cons_append]
  unfold parseContentRange
  rw [contentRangeText_eq]
  rw [stripStart_append]
  simp only [Option.bind_eq_bind, Option.bind_some]
  rw [hsplit, splitOnce_append hslash]
  simp only [Option.bind_some]
  rw [splitOnce_append (not_mem_decimal rfl)]
  simp only [Option.bind_some, parseU64_decimal hstart, parseU64_decimal hlast, parseU64_decimal hsize]
  rfl

theorem printable_contentRangeText : ∀ c ∈ contentRangeText start last size, Printable c := by
  intro c hc
  simp only [contentRangeText_eq, List.mem_append, List.mem_cons] at hc
  rcases hc with hc | hc | rfl | hc | rfl | hc
  · exact forall_mem_of_all (by decide) c hc
  · exact printable_decimal c hc
  · exact ⟨by decide, by decide⟩
  · exact printable_decimal c hc
  · exact ⟨by decide, by decide⟩
  · exact printable_decimal c hc

/-- The client takes the server's Content-Range when the bounds are the ones it asked for. -/
theorem validateContentRange_contentRangeText (hstart : start < 2 ^ 64) (hlast : last < 2 ^ 64)
    (hsize : size < 2 ^ 64) (hoffset : start = offset) (hstop : last + 1 = stop.getD size)
    (hlen : ∀ len ∈ expectedLen, len = size) :
    validateContentRange (some (asciiBytes (contentRangeText start last size))) offset stop
      expectedLen = .ok () := by
  have hall : (expectedLen.all fun len => decide (len = size)) = true := by
    cases expectedLen with
    | none => rfl
    | some len => exact decide_eq_true (hlen len rfl)
  unfold validateContentRange
  dsimp only
  rw [headerText_asciiBytes printable_contentRangeText]
  dsimp only
  rw [parseContentRange_contentRangeText hstart hlast hsize]
  exact if_pos ⟨hoffset, hstop, hall⟩

end Answers

section Serving

variable {storage : ArtifactStorage} {content : Bytes}

theorem body_gives (h : storage.Holds content) (hasFile : Bool) {start len : Nat}
    (hin : start + len ≤ content.length) :
    Gives (artifactBody storage len 0 (if hasFile then .file start else .ranges start) 0)
      ((content.drop start).take len) := by
  have hposition : (if hasFile then ArtifactBodySource.file start else .ranges start).position =
      start := by
    cases hasFile <;> rfl
  have hrest : (if hasFile then ArtifactBodySource.file start else .ranges start).position + (len - 0) ≤
      content.length := by
    rw [hposition]
    exact hin
  have hgives : Gives (artifactBody storage len 0 _ 0) _ :=
    artifactBody_gives h (Nat.zero_le len) hrest
  rw [hposition] at hgives
  exact hgives

variable (hash : String) {range : Option Bytes}

/-- Without a range the server can use, all is sent. -/
theorem serve_whole (h : storage.Holds content) (hsigned : storage.signedUrl = none)
    (hasked : ((range.bind headerText).bind fun value => parseByteRange value content.length) = none) :
    ∃ body, serveArtifact storage hash range = .sent 200 none (decimal content.length) body ∧
      Gives body content := by
  by_cases hempty : content.length = 0
  · refine ⟨[], ?_, ?_⟩
    · unfold serveArtifact
      rw [hsigned, h.size]
      dsimp only
      rw [if_pos hempty, hempty]
    · rw [List.length_eq_zero_iff.mp hempty]
      exact .done
  · obtain ⟨hasFile, hopen⟩ := h.openFile 0
    have hserve := serveArtifact_sent hash hsigned h.size hempty hasked hopen
    have hgives := body_gives h hasFile (Nat.zero_add content.length).le
    rw [List.drop_zero, List.take_length] at hgives
    refine ⟨_, ?_, hgives⟩
    rw [hserve]
    show ArtifactAnswer.sent 200 none (decimal (content.length - 1 - 0 + 1))
      (artifactBody storage (content.length - 1 - 0 + 1) 0 _ 0) = _
    rw [show content.length - 1 - 0 + 1 = content.length by omega]
    rfl

theorem serve_range (h : storage.Holds content) (hsigned : storage.signedUrl = none) {start last : Nat}
    (hasked : ((range.bind headerText).bind fun value => parseByteRange value content.length) =
      some (start, last)) :
    ∃ body, serveArtifact storage hash range =
        .sent 206 (some (contentRangeText start last content.length)) (decimal (last + 1 - start)) body ∧
      Gives body (slice content start (last + 1)) := by
  obtain ⟨value, -, hvalue⟩ := Option.bind_eq_some_iff.mp hasked
  obtain ⟨horder, hin⟩ := parseByteRange_bounds hvalue
  obtain ⟨hasFile, hopen⟩ := h.openFile start
  have hserve := serveArtifact_sent hash hsigned h.size (by omega) hasked hopen
  refine ⟨_, ?_, body_gives h hasFile (by omega)⟩
  rw [hserve]
  show ArtifactAnswer.sent 206 _ (decimal (last - start + 1))
    (artifactBody storage (last - start + 1) 0 _ 0) = _
  rw [show last - start + 1 = last + 1 - start by omega]
  rfl

end Serving

/-- The answer to a client that has `received` bytes and asks for the rest, and what the client makes of
it: where the body it goes on with begins. -/
structure ResumeAccepted (artifact : Artifact) (content : Bytes) (received : Received)
    (answer : ArtifactAnswer) (offset : Nat) : Prop where
  status : (responseOf answer).status = 200 ∧ offset = 0 ∨
    (responseOf answer).status = 206 ∧ offset = received.len ∧
      validateContentRange (responseOf answer).contentRange received.len none artifact.len = .ok ()
  contentLength : (responseOf answer).contentLength = some (content.length - offset)
  accepted : ∃ received', downloadAttempt artifact received (responseOf answer) true =
    .ok (received', offset) ∧ received'.len = offset
  gives : Gives (bodyOf answer) (content.drop offset)

/-- The answer to a request for a part, and what the client makes of it. -/
structure PartAccepted (artifact : Artifact) (content : Bytes) (start stop : Nat)
    (answer : ArtifactAnswer) : Prop where
  status : (responseOf answer).status = 206
  contentRange : validateContentRange (responseOf answer).contentRange start (some stop) artifact.len =
    .ok ()
  contentLength : (responseOf answer).contentLength = some (stop - start)
  gives : Gives (bodyOf answer) (slice content start stop)
  accepted : ∀ signed, rangeAttempt artifact signed start stop
      (.answered (responseOf answer) (delivered (bodyOf answer)).1 (delivered (bodyOf answer)).2) =
    if (delivered (bodyOf answer)).2 then .error (.retry .bodyRead)
    else .ok (slice content start stop)

section Accepting

variable {storage : ArtifactStorage} {content : Bytes} {artifact : Artifact} {hash : String}
  {received : Received} {start stop : Nat}

theorem printable_bytes : ∀ c ∈ "bytes=".toList, Printable c :=
  forall_mem_of_all (by decide)

theorem headerText_resumeRange {received : Nat} (hpos : 0 < received) :
    ((resumeRange received).map asciiBytes).bind headerText =
      some ("bytes=".toList ++ (decimal received ++ ['-'])) := by
  rw [resumeRange, if_pos hpos]
  refine headerText_asciiBytes ?_
  intro c hc
  simp only [List.mem_append, List.mem_singleton] at hc
  rcases hc with hc | hc | rfl
  · exact printable_bytes c hc
  · exact printable_decimal c hc
  · exact ⟨by decide, by decide⟩

theorem headerText_partRange : headerText (asciiBytes (partRange start stop)) =
    some (partRange start stop) := by
  refine headerText_asciiBytes ?_
  intro c hc
  simp only [partRange_eq, List.mem_append, List.mem_cons] at hc
  rcases hc with hc | hc | rfl | hc
  · exact printable_bytes c hc
  · exact printable_decimal c hc
  · exact ⟨by decide, by decide⟩
  · exact printable_decimal c hc

/-- An answer with everything starts the body over. -/
theorem whole_accepted (h : storage.Holds content) {body : List (Except BodyError Bytes)}
    (hgives : Gives body content) :
    ResumeAccepted artifact content received (.sent 200 none (decimal content.length) body) 0 where
  status := .inl ⟨rfl, rfl⟩
  contentLength := parseU64_decimal h.size_lt
  accepted := by
    have hstatus : (responseOf (.sent 200 none (decimal content.length) body)).status = 200 := rfl
    rw [downloadAttempt, if_pos hstatus]
    by_cases hpos : 0 < received.len
    · cases hbody : received.body with
      | memory bytes =>
          refine ⟨⟨.memory [], [], 0⟩, ?_, rfl⟩
          rw [if_pos hpos, Received.restart, hbody]
          rfl
      | file bytes pos =>
          refine ⟨⟨.file [] 0, [], 0⟩, ?_, rfl⟩
          rw [if_pos hpos, Received.restart, hbody]
          rfl
    · refine ⟨received, ?_, by omega⟩
      rw [if_neg hpos]
      rfl
  gives := hgives

/-- An answer with the rest goes on where the client stands. -/
theorem rest_accepted (h : storage.Holds content) (hlen : ∀ len ∈ artifact.len, len = content.length)
    (hpos : 0 < received.len) (hrest : received.len < content.length)
    {body : List (Except BodyError Bytes)}
    (hgives : Gives body (content.drop received.len)) :
    ResumeAccepted artifact content received
      (.sent 206 (some (contentRangeText received.len (content.length - 1) content.length))
        (decimal (content.length - received.len)) body) received.len := by
  have hsize := h.size_lt
  have hvalid : validateContentRange
      (some (asciiBytes (contentRangeText received.len (content.length - 1) content.length)))
      received.len none artifact.len = .ok () :=
    validateContentRange_contentRangeText (by omega) (by omega) hsize rfl
      (show content.length - 1 + 1 = content.length by omega) hlen
  have hlength : parseU64 (decimal (content.length - received.len)) =
      some (content.length - received.len) := parseU64_decimal (by omega)
  refine ⟨.inr ⟨rfl, rfl, hvalid⟩, hlength, ⟨received, ?_, rfl⟩, hgives⟩
  have hstatus : (responseOf (.sent 206
      (some (contentRangeText received.len (content.length - 1) content.length))
      (decimal (content.length - received.len)) body)).status = 206 := rfl
  unfold downloadAttempt
  rw [hstatus, if_neg (by decide), if_pos ⟨rfl, hpos⟩]
  simp only [responseOf, Option.map_some, hvalid, hlength, bind, Except.bind]
  cases hartifact : artifact.len with
  | none => rfl
  | some len =>
      obtain rfl := hlen len hartifact
      dsimp only
      rw [if_neg (by omega), if_neg (by omega)]
      rfl

theorem part_accepted (h : storage.Holds content) (hlen : ∀ len ∈ artifact.len, len = content.length)
    (hstart : start < stop) (hstop : stop ≤ content.length) {body : List (Except BodyError Bytes)}
    (hgives : Gives body (slice content start stop)) :
    PartAccepted artifact content start stop
      (.sent 206 (some (contentRangeText start (stop - 1) content.length)) (decimal (stop - start))
        body) := by
  have hsize := h.size_lt
  have hvalid : validateContentRange
      (some (asciiBytes (contentRangeText start (stop - 1) content.length))) start (some stop)
      artifact.len = .ok () :=
    validateContentRange_contentRangeText (by omega) (by omega) hsize rfl
      (show stop - 1 + 1 = stop by omega) hlen
  refine ⟨rfl, hvalid, parseU64_decimal (by omega), hgives, ?_⟩
  intro signed
  show rangeAttempt artifact signed start stop (.answered
    ⟨206, some (asciiBytes (contentRangeText start (stop - 1) content.length)), _⟩
    (delivered body).1 (delivered body).2) = if (delivered body).2 then _ else _
  unfold rangeAttempt
  dsimp only
  rw [show classifyFetchStatus 206 signed = none from rfl]
  dsimp only
  rw [if_neg (by decide), if_neg (by decide), hvalid]
  show (if (delivered body).2 then _ else _) = _
  cases hcut : (delivered body).2 with
  | true => rfl
  | false =>
      -- The stream ended without an error, so it gave the whole part.
      have hall := hgives.delivered_prefix.2 hcut
      have hlength : (slice content start stop).length = stop - start := by
        rw [slice, List.length_take, List.length_drop]
        omega
      rw [hall, hlength]
      exact if_neg (not_not.mpr rfl)

end Accepting

/-- Every request a client sends is answered by what the client takes, with the bytes the status promises
or a part of them before an error: the whole artifact for a client that has nothing or as much as there
is, else what follows the bytes it has, and a part exactly as asked for. No range the server takes from a
header leaves the artifact or has a length that overflows. -/
theorem served_accepted {storage : ArtifactStorage} {content : Bytes} {artifact : Artifact}
    (hash : String) (h : storage.Holds content) (hsigned : storage.signedUrl = none)
    (hlen : ∀ len ∈ artifact.len, len = content.length) :
    (∀ received : Received, received.len < 2 ^ 64 →
      ResumeAccepted artifact content received
        (serveArtifact storage hash ((resumeRange received.len).map asciiBytes))
        (if received.len < content.length then received.len else 0)) ∧
    (∀ start stop, start < stop → stop ≤ content.length →
      PartAccepted artifact content start stop
        (serveArtifact storage hash (some (asciiBytes (partRange start stop))))) ∧
    ∀ text size start last, size < 2 ^ 64 → parseByteRange text size = some (start, last) →
      start ≤ last ∧ last < size ∧ last - start + 1 < 2 ^ 64 := by
  have hsize := h.size_lt
  refine ⟨?_, ?_, ?_⟩
  · intro received hreceived
    by_cases hrest : 0 < received.len ∧ received.len < content.length
    · have hasked : ((((resumeRange received.len).map asciiBytes).bind headerText).bind fun value =>
          parseByteRange value content.length) = some (received.len, content.length - 1) := by
        rw [headerText_resumeRange hrest.1, Option.bind_some, parseByteRange_resume hreceived,
          if_neg (by omega)]
      obtain ⟨body, hserve, hgives⟩ := serve_range hash h hsigned hasked
      rw [show content.length - 1 + 1 = content.length by omega] at hserve hgives
      rw [if_pos hrest.2, hserve]
      refine rest_accepted h hlen hrest.1 hrest.2 ?_
      rwa [slice, List.take_of_length_le (by rw [List.length_drop])] at hgives
    · have hasked : ((((resumeRange received.len).map asciiBytes).bind headerText).bind fun value =>
          parseByteRange value content.length) = none := by
        by_cases hpos : 0 < received.len
        · rw [headerText_resumeRange hpos, Option.bind_some, parseByteRange_resume hreceived,
            if_pos (by omega)]
        · rw [resumeRange, if_neg hpos]
          rfl
      obtain ⟨body, hserve, hgives⟩ := serve_whole hash h hsigned hasked
      rw [hserve, show (if received.len < content.length then received.len else 0) = 0 by
        split <;> omega]
      exact whole_accepted h hgives
  · intro start stop hstart hstop
    have hasked : (((some (asciiBytes (partRange start stop))).bind headerText).bind fun value =>
        parseByteRange value content.length) = some (start, stop - 1) := by
      rw [Option.bind_some, headerText_partRange, Option.bind_some,
        parseByteRange_part hstart hstop hsize]
    obtain ⟨body, hserve, hgives⟩ := serve_range hash h hsigned hasked
    rw [show stop - 1 + 1 = stop by omega] at hserve hgives
    rw [hserve]
    exact part_accepted h hlen hstart hstop hgives
  · intro text size start last hlt hparse
    obtain ⟨horder, hin⟩ := parseByteRange_bounds hparse
    exact ⟨horder, hin, by omega⟩

section ThreeBytes

/-- Three bytes that storage reads one at a time. -/
def threeBytes : ArtifactStorage where
  signedUrl := none
  size := .ok 3
  openFile _ := .ok true
  readFile _ position wanted := some ((([1, 2, 3] : Bytes).drop position).take (min 1 wanted))
  getRange _ _ _ := none

theorem threeBytes_holds : threeBytes.Holds [1, 2, 3] where
  size := rfl
  size_lt := by decide
  openFile _ := ⟨true, rfl⟩
  readFile := by
    intro call position wanted bytes hread
    obtain rfl := Option.some.inj hread
    refine ⟨?_, List.take_prefix _ _⟩
    rw [List.length_take]
    omega
  getRange := by
    intro call start len bytes hread
    cases hread

theorem threeBytes_accepted :
    PartAccepted ⟨"three", some 3⟩ [1, 2, 3] 1 3
      (serveArtifact threeBytes "three" (some (asciiBytes (partRange 1 3)))) :=
  (served_accepted "three" threeBytes_holds rfl (by simp)).2.1 1 3 (by decide) (by decide)

end ThreeBytes

end Ripclone.Client.Transfer
