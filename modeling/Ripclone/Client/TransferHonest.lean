import Ripclone.Client.TransferRuns
import Mathlib.Data.List.Infix

/-!
# Downloads from an honest server

A server is honest when each body it sends is the piece of the artifact it was asked for, and the whole
piece unless the body ends in a read error. Then what was received is a prefix of the artifact in every
state, so nothing fails for a length or a hash. Once the last byte is there the download succeeds, but
for a read error that takes the place of the body's end on the last attempt: it is an error like any
other, and the bytes are dropped.
-/

namespace Ripclone.Client.Transfer

open Ripclone.Library

/-! ## Honest answers -/

/-- Bytes `start..stop` of the artifact. -/
def slice (content : Bytes) (start stop : Nat) : Bytes := (content.drop start).take (stop - start)

/-- A range that is sent with an accepted Content-Range is of the artifact. The body of any other answer
is not read. -/
def RangeAnswer.Honest (artifact : Artifact) (content : Bytes) (start stop : Nat) : RangeAnswer → Prop
  | .unsent => True
  | .answered response body cut => response.status = 206 →
      validateContentRange response.contentRange start (some stop) artifact.len = .ok () →
        body <+: slice content start stop ∧ (cut = false → body = slice content start stop)

/-- Each piece of a body is of the artifact, from where the body began, a body ends with the artifact,
and a Content-Length is the length of the whole body. -/
def FetchEvent.Honest (artifact : Artifact) (sink : Sink) (part : Nat) (content : Bytes)
    (s : FetchState) : FetchEvent → Prop
  | .range _ attempts _ _ => ∀ i len, s.phase = .ranges i → rangesLen artifact sink part = some len →
      ∀ attempt ∈ attempts,
        attempt.answer.Honest artifact content (rangeOf len part i).1 (rangeOf len part i).2
  | .answered response _ => response.status = 206 →
      validateContentRange response.contentRange s.received.len none artifact.len = .ok () →
        ∀ sent, response.contentLength = some sent → sent = content.length - s.received.len
  | .chunk bytes _ => ∀ n signed offset got, s.phase = .body n signed offset got →
      bytes <+: content.drop (offset + got)
  | .bodyEnd => ∀ n signed offset got, s.phase = .body n signed offset got →
      offset + got = content.length
  | _ => True

section Honest

variable {hash : Bytes → String} {artifact : Artifact} {sink : Sink} {part n : Nat} {signed : Bool}
  {received : Received} {cached : Option Bytes} {content : Bytes}

theorem append_isPrefix {hashed chunk : Bytes} (h : hashed <+: content)
    (hchunk : chunk <+: content.drop hashed.length) : hashed ++ chunk <+: content := by
  obtain ⟨rest, rfl⟩ := h
  rw [List.drop_left] at hchunk
  exact (List.prefix_append_right_inj hashed).mpr hchunk

/-- What holds in a phase when the server is honest. -/
def Phase.Exact (content : Bytes) (received : Received) : Phase → Prop
  | .finishing => received.hashed = content
  | .done (.error error) => error.isMismatch = false
  | _ => True

/-- What was received is a prefix of the artifact. -/
def FetchState.Exact (content : Bytes) (s : FetchState) : Prop :=
  s.received.hashed <+: content ∧ s.phase.Exact content s.received

/-- As many bytes as were promised are all of them. -/
theorem eq_content (hcontent : Content hash artifact content) (hc : received.Consistent)
    (h : received.hashed <+: content) (hlen : some received.len = artifact.len) :
    received.hashed = content := by
  apply h.eq_of_length
  rw [← hc.len]
  exact hcontent.len _ hlen.symm

theorem exact_enter (hcontent : Content hash artifact content) (hc : received.Consistent)
    (h : received.hashed <+: content) : (enter artifact received n signed).Exact content := by
  obtain henter | ⟨henter, hlen⟩ := enter_cases artifact received n signed
  · rw [henter]
    exact ⟨h, trivial⟩
  · rw [henter]
    exact ⟨h, eq_content hcontent hc h hlen⟩

theorem exact_failed (hcontent : Content hash artifact content) (hc : received.Consistent)
    (h : received.hashed <+: content) {failure : FetchFailure}
    (hplain : failure.intoError.isMismatch = false) :
    (failed artifact received n signed failure).Exact content := by
  obtain hfailed | hfailed | hfailed := failed_cases artifact received n signed failure
  · rw [hfailed]
    exact ⟨h, trivial⟩
  · rw [hfailed]
    exact exact_enter hcontent hc h
  · rw [hfailed]
    exact ⟨h, hplain⟩

theorem exact_opened (hcontent : Content hash artifact content) (phase : Phase) (io signed : Bool)
    (h : received.hashed <+: content) :
    (takeOpened artifact sink part ⟨received, phase⟩ io signed).Exact content := by
  unfold takeOpened
  split
  · next error herror =>
      obtain rfl := Received.opened_error herror
      exact ⟨h, rfl⟩
  · next received' hopened =>
      obtain ⟨hc', hempty⟩ := Received.opened_ok hopened
      have hpre : received'.hashed <+: content := hempty ▸ List.nil_prefix
      split
      · exact ⟨hpre, trivial⟩
      · exact exact_enter hcontent hc' hpre

theorem slice_length {start stop : Nat} (h : stop ≤ content.length) :
    (slice content start stop).length = stop - start := by
  rw [slice, List.length_take, List.length_drop]
  omega

/-- No range fails for its length. -/
theorem honest_range_error {start stop : Nat} {answer : RangeAnswer} {failure : FetchFailure}
    (hstop : stop ≤ content.length) (honest : answer.Honest artifact content start stop)
    (h : rangeAttempt artifact signed start stop answer = .error failure) :
    failure.intoError.isMismatch = false := by
  obtain ⟨-, hmismatch⟩ := rangeAttempt_error h
  by_contra hne
  rw [Bool.not_eq_false] at hne
  obtain ⟨response, body, rfl, hstatus, hrange, hlen⟩ := hmismatch hne
  have hbody : body = slice content start stop := (honest hstatus hrange).2 rfl
  exact hlen (hbody ▸ slice_length hstop)

theorem exact_range (hcontent : Content hash artifact content) (hpart : 0 < part) {len i : Nat}
    {attempts : List RangeAttempt} {result : Except DownloadError (Option Bytes)} (phase : Phase)
    (io after : Bool) (hlen : rangesLen artifact sink part = some len)
    (hresult : downloadRange artifact (rangeOf len part i).1 (rangeOf len part i).2 1 signed
      attempts = some result)
    (honest : ∀ attempt ∈ attempts,
      attempt.answer.Honest artifact content (rangeOf len part i).1 (rangeOf len part i).2)
    (hc : received.Consistent)
    (hsound : (Phase.ranges i).Sound hash artifact sink part cached received)
    (h : received.hashed <+: content) :
    (takeRange artifact part len i ⟨received, phase⟩ result io after).Exact content := by
  obtain ⟨len', hlen', hi, hreceived⟩ := hsound
  obtain rfl := Option.some.inj (hlen.symm.trans hlen')
  have hpromised : len = content.length := hcontent.len len (rangesLen_eq hlen).1
  obtain ⟨hstart, hstop, -⟩ := rangeOf_le hpart hi
  unfold takeRange
  split
  · next error =>
      obtain rfl | ⟨attempt, hmem, signed, failure, hattempt, rfl⟩ := downloadRange_error hresult
      · exact ⟨h, rfl⟩
      · exact ⟨h, honest_range_error (hpromised ▸ hstop) (honest attempt hmem) hattempt⟩
  · split
    · next error herror =>
        obtain rfl := Received.restart_error herror
        exact ⟨h, rfl⟩
    · next received' hrestart =>
        obtain ⟨hc', hempty⟩ := Received.restart_ok hrestart
        exact exact_enter hcontent hc' (hempty ▸ List.nil_prefix)
  · next bytes =>
      obtain ⟨attempt, hmem, signed, hattempt⟩ := downloadRange_ok hresult
      obtain ⟨hbytes, response, hanswer, hstatus, hrange⟩ := rangeAttempt_ok hattempt
      have hslice := honest attempt hmem
      rw [hanswer] at hslice
      -- What is received starts where the bytes hashed so far end.
      have hpiece : bytes <+: content.drop received.hashed.length := by
        rw [← hc.len, hreceived]
        exact (hslice hstatus hrange).1.trans (List.take_prefix _ _)
      dsimp only
      split
      · next error herror =>
          obtain ⟨rfl, -⟩ := Received.write_error herror
          exact ⟨h, rfl⟩
      · next received' hwrite =>
          obtain ⟨hc', hhashed⟩ := Received.write_ok hc hwrite
          have hpre : received'.hashed <+: content := hhashed ▸ append_isPrefix h hpiece
          split
          · exact ⟨hpre, trivial⟩
          · next hlast =>
              refine ⟨hpre, hpre.eq_of_length ?_⟩
              have hend : (rangeOf len part i).2 = len := rangeOf_last hpart hlast
              rw [hhashed, List.length_append, ← hc.len, hreceived, hbytes, hend, ← hpromised]
              show i * part + (len - i * part) = len
              omega

theorem exact_answer (hcontent : Content hash artifact content) (phase : Phase) (response : Response)
    (io : Bool) (hc : received.Consistent) (hb : Bounded artifact received)
    (honest : response.status = 206 →
      validateContentRange response.contentRange received.len none artifact.len = .ok () →
        ∀ sent, response.contentLength = some sent → sent = content.length - received.len)
    (h : received.hashed <+: content) :
    (takeAnswer artifact ⟨received, phase⟩ n signed response io).Exact content := by
  unfold takeAnswer
  split
  · next failure hfailure =>
      apply exact_failed hcontent hc h
      rw [(classify_error hfailure).1]
      rfl
  · split
    · next error herror =>
        refine ⟨h, ?_⟩
        obtain ⟨-, hmismatch⟩ := downloadAttempt_error hb herror
        show error.isMismatch = false
        by_contra hne
        rw [Bool.not_eq_false] at hne
        obtain ⟨hstatus, hrange, sent, len, hsent, hlen, hrest⟩ := hmismatch hne
        apply hrest
        rw [hcontent.len len hlen]
        exact honest hstatus hrange sent hsent
    · next received' offset hok =>
        obtain ⟨-, -, hsame⟩ := downloadAttempt_ok hc hok
        refine ⟨?_, trivial⟩
        obtain rfl | hempty := hsame
        · exact h
        · show received'.hashed <+: content
          exact hempty ▸ List.nil_prefix

theorem exact_chunk (hcontent : Content hash artifact content) {offset got : Nat} (phase : Phase)
    {bytes : Bytes} (io : Bool) (hc : received.Consistent) (hlen : received.len = offset + got)
    (honest : bytes <+: content.drop (offset + got)) (h : received.hashed <+: content) :
    (takeChunk artifact ⟨received, phase⟩ n signed offset got bytes io).Exact content := by
  unfold takeChunk
  split
  · next error herror =>
      obtain ⟨rfl, -⟩ := Received.write_error herror
      exact ⟨h, rfl⟩
  · next received' hwrite =>
      obtain ⟨hc', hhashed⟩ := Received.write_ok hc hwrite
      have hpre : received'.hashed <+: content := by
        rw [hhashed]
        apply append_isPrefix h
        rwa [← hc.len, hlen]
      split
      · next hover =>
          -- more than the promised length is more than the artifact
          obtain ⟨len, hpromised, hlt⟩ := (Option.any_eq_true _ _).mp hover
          have hle := hpre.length_le
          rw [← hc'.len, ← hcontent.len len hpromised] at hle
          exact absurd (of_decide_eq_true hlt) (by omega)
      · exact ⟨hpre, trivial⟩

/-- What one event of an honest server keeps. -/
theorem exact_step (hcontent : Content hash artifact content) (hpart : 0 < part) {s s' : FetchState}
    {e : FetchEvent} (hsound : s.Sound hash artifact sink part cached) (h : s.Exact content)
    (honest : e.Honest artifact sink part content s)
    (hstep : step hash artifact sink part s e = some s') : s'.Exact content := by
  obtain ⟨received, phase⟩ := s
  obtain ⟨hc, hsound⟩ := hsound
  obtain ⟨h, hphase⟩ := h
  cases step_cases hstep with
  | opened io signed => exact exact_opened hcontent _ io signed h
  | @range len result i signed attempts io after hlen hresult =>
      exact exact_range hcontent hpart _ io after hlen hresult (honest i len rfl hlen) hc hsound h
  | unsent n signed => exact exact_failed hcontent hc h rfl
  | answered n signed response io => exact exact_answer hcontent _ response io hc hsound honest h
  | chunk n signed offset got bytes io =>
      exact exact_chunk hcontent _ io hc hsound.2 (honest n signed offset got rfl) h
  | bodyEnd n signed offset got =>
      refine ⟨h, h.eq_of_length ?_⟩
      rw [← hc.len, hsound.2]
      exact honest n signed offset got rfl
  | cut n signed offset got => exact exact_failed hcontent hc h rfl
  | refreshed n => exact exact_enter hcontent hc h
  | notRefreshed n => exact ⟨h, rfl⟩
  | finished io =>
      refine ⟨h, ?_⟩
      obtain hok | ⟨herror, -⟩ := finish_content io hc hcontent hphase
      · show Phase.Exact content received (.done (finish hash artifact received io))
        rw [hok]
        trivial
      · show Phase.Exact content received (.done (finish hash artifact received io))
        rw [herror]
        rfl

/-! ## The last byte -/

/-- The promised number of bytes is there, in a body or after it. -/
def FetchState.AllReceived (artifact : Artifact) (s : FetchState) : Prop :=
  some s.received.len = artifact.len ∧
    match s.phase with
    | .body .. | .finishing => True
    | _ => False

/-- The calls on the temporary file succeed, and a read error is not the last attempt's. -/
def FetchEvent.Spares (s : FetchState) : FetchEvent → Prop
  | .chunk _ io | .finished io => io = true
  | .cut => 0 < s.received.len ∧ ∀ n signed offset got, s.phase = .body n signed offset got →
      n < fetchMaxAttempts
  | _ => True

/-- A read error after the last byte leaves nothing to resume. -/
theorem failed_allReceived (hlen : some received.len = artifact.len) (hpos : 0 < received.len)
    (hn : n < fetchMaxAttempts) (error : DownloadError) :
    failed artifact received n signed (.retry error) = ⟨received, .finishing⟩ := by
  unfold failed
  rw [decide_eq_true hn]
  exact if_pos ⟨hpos, hlen⟩

/-- From the last byte on, a download can only succeed. -/
theorem allReceived_step (hcontent : Content hash artifact content) {s s' : FetchState}
    {e : FetchEvent} (hsound : s.Sound hash artifact sink part cached) (h : s.Exact content)
    (honest : e.Honest artifact sink part content s) (spares : e.Spares s)
    (hall : s.AllReceived artifact) (hstep : step hash artifact sink part s e = some s') :
    s'.AllReceived artifact ∨ s'.phase = .done (.ok content) := by
  obtain ⟨received, phase⟩ := s
  obtain ⟨hc, hsound⟩ := hsound
  obtain ⟨h, hphase⟩ := h
  obtain ⟨hlen, hreceiving⟩ := hall
  dsimp only at hlen
  cases step_cases hstep with
  | chunk n signed offset got bytes io =>
      -- nothing of the artifact is left, so the piece is empty
      have hwhole : offset + got = content.length := by
        rw [← hsound.2]
        exact hcontent.len _ hlen.symm
      have hempty : bytes = [] := by
        have hpiece := honest n signed offset got rfl
        rwa [hwhole, List.drop_length, List.prefix_nil] at hpiece
      obtain rfl : io = true := spares
      subst hempty
      left
      unfold takeChunk
      split
      · next error herror => exact absurd (Received.write_error herror).2 (by simp)
      · next received' hwrite =>
          obtain ⟨hc', hhashed⟩ := Received.write_ok hc hwrite
          have hsame : received'.len = received.len := by
            rw [hc'.len, hhashed, List.append_nil, hc.len]
          split
          · next hover =>
              obtain ⟨len, hpromised, hlt⟩ := (Option.any_eq_true _ _).mp hover
              obtain rfl := Option.some.inj (hlen.trans hpromised)
              exact absurd (of_decide_eq_true hlt) (by omega)
          · exact ⟨hsame ▸ hlen, trivial⟩
  | bodyEnd n signed offset got => exact .inl ⟨hlen, trivial⟩
  | cut n signed offset got =>
      obtain ⟨hpos, hn⟩ := spares
      rw [failed_allReceived hlen hpos (hn n signed offset got rfl)]
      exact .inl ⟨hlen, trivial⟩
  | finished io =>
      obtain rfl : io = true := spares
      obtain hok | ⟨-, hio⟩ := finish_content true hc hcontent hphase
      · exact .inr (congrArg Phase.done hok)
      · cases hio
  | _ => exact hreceiving.elim

/-! ## Runs -/

/-- The steps of a download. -/
def Steps (hash : Bytes → String) (artifact : Artifact) (sink : Sink) (part : Nat)
    (s : FetchState) (e : FetchEvent) (s' : FetchState) : Prop :=
  step hash artifact sink part s e = some s'

/-- Its steps when the server is honest. -/
def HonestSteps (hash : Bytes → String) (artifact : Artifact) (sink : Sink) (part : Nat)
    (content : Bytes) (s : FetchState) (e : FetchEvent) (s' : FetchState) : Prop :=
  Steps hash artifact sink part s e s' ∧ e.Honest artifact sink part content s

/-- Its steps when, besides, nothing local fails once the last byte is there, and the artifact has a last
byte and no read error on the last attempt follows it. -/
def SparedSteps (hash : Bytes → String) (artifact : Artifact) (sink : Sink) (part : Nat)
    (content : Bytes) (s : FetchState) (e : FetchEvent) (s' : FetchState) : Prop :=
  HonestSteps hash artifact sink part content s e s' ∧ (s.AllReceived artifact → e.Spares s)

/-- When an honest server's bytes are all there, the body and then the download can end. -/
theorem allReceived_ends (hcontent : Content hash artifact content) {s : FetchState}
    (hsound : s.Sound hash artifact sink part cached) (h : s.Exact content)
    (hall : s.AllReceived artifact) :
    ∃ fs s', Run (SparedSteps hash artifact sink part content) s fs s' ∧
      s'.phase = .done (.ok content) := by
  obtain ⟨received, phase⟩ := s
  obtain ⟨hc, hsound⟩ := hsound
  obtain ⟨h, hphase⟩ := h
  obtain ⟨hlen, hreceiving⟩ := hall
  have hwhole : received.hashed = content := eq_content hcontent hc h hlen
  have hfinish : finish hash artifact received true = .ok content := by
    obtain hok | ⟨-, hio⟩ := finish_content true hc hcontent hwhole
    · exact hok
    · cases hio
  have hlast : Run (SparedSteps hash artifact sink part content) ⟨received, .finishing⟩
      [.finished true] ⟨received, .done (.ok content)⟩ := by
    apply Run.snoc .nil
    refine ⟨⟨?_, trivial⟩, fun _ => rfl⟩
    show some (FetchState.mk received (.done (finish hash artifact received true))) = _
    rw [hfinish]
  cases phase with
  | body n signed offset got =>
      have hend : SparedSteps hash artifact sink part content ⟨received, .body n signed offset got⟩
          .bodyEnd ⟨received, .finishing⟩ := by
        refine ⟨⟨rfl, ?_⟩, fun _ => trivial⟩
        intro n' signed' offset' got' hbody
        obtain ⟨rfl, rfl, rfl, rfl⟩ := Phase.body.inj hbody
        rw [← hsound.2, hc.len, hwhole]
      exact ⟨[.bodyEnd] ++ [.finished true], _, (Run.nil.snoc hend).append hlast, rfl⟩
  | finishing => exact ⟨_, _, hlast, rfl⟩
  | _ => exact hreceiving.elim

theorem exact_start : (start hash artifact sink cached).Exact content := by
  refine ⟨List.nil_prefix, ?_⟩
  unfold start
  dsimp only
  split <;> trivial

/-- What holds after every run with an honest server. -/
theorem run_exact (hcontent : Content hash artifact content) (hpart : 0 < part)
    {es : List FetchEvent} {s : FetchState}
    (hrun : Run (HonestSteps hash artifact sink part content) (start hash artifact sink cached) es s) :
    s.Sound hash artifact sink part cached ∧ s.Exact content := by
  apply hrun.invariant (P := fun _ => True) ⟨sound_start, exact_start⟩ _ fun _ _ => trivial
  rintro e s s' - ⟨hsound, h⟩ ⟨hstep, honest⟩
  exact ⟨sound_step hpart hsound hstep, exact_step hcontent hpart hsound h honest hstep⟩

/-- Once all bytes are there, a run keeps them or has succeeded. -/
theorem run_allReceived (hcontent : Content hash artifact content) (hpart : 0 < part)
    {fs : List FetchEvent} {s s' : FetchState} (hsound : s.Sound hash artifact sink part cached)
    (h : s.Exact content) (hall : s.AllReceived artifact)
    (hrun : Run (SparedSteps hash artifact sink part content) s fs s') :
    s'.AllReceived artifact ∨ s'.phase = .done (.ok content) := by
  have hinv : (s'.Sound hash artifact sink part cached ∧ s'.Exact content) ∧
      (s'.AllReceived artifact ∨ s'.phase = .done (.ok content)) := by
    apply hrun.invariant (P := fun _ => True) ⟨⟨hsound, h⟩, .inl hall⟩ _ fun _ _ => trivial
    rintro e t t' - ⟨⟨hsound, h⟩, hall⟩ ⟨⟨hstep, honest⟩, spares⟩
    refine ⟨⟨sound_step hpart hsound hstep, exact_step hcontent hpart hsound h honest hstep⟩, ?_⟩
    obtain hall | hdone := hall
    · exact allReceived_step hcontent hsound h honest (spares hall) hall hstep
    · -- a download that is done takes no event
      have htaken := step_cases hstep
      rw [hdone] at htaken
      cases htaken
  exact hinv.2

/-- In every run a result is the artifact's by hash and by promised length, and no length underflows.
While the server is honest what was received is one prefix of the artifact in all three places, and no
length or hash differs. When besides no step loses the body's end, a download that has all bytes keeps
them until it succeeds, and it can. -/
theorem download_exact (hpart : 0 < part) {es : List FetchEvent} {s : FetchState}
    (hrun : Run (Steps hash artifact sink part) (start hash artifact sink cached) es s) :
    (∀ bytes, s.phase = .done (.ok bytes) → hash bytes = artifact.hash ∧
      (fromCache hash artifact sink cached = none →
        ∀ len, artifact.len = some len → bytes.length = len)) ∧
    s.phase ≠ .done (.error .underflow) ∧
    ∀ content, Content hash artifact content →
      Run (HonestSteps hash artifact sink part content) (start hash artifact sink cached) es s →
        (s.received.hashed <+: content ∧ s.received.body.bytes = s.received.hashed ∧
          s.received.len = s.received.hashed.length) ∧
        (∀ error, s.phase = .done (.error error) → error.isMismatch = false) ∧
        (s.AllReceived artifact →
          (∀ fs s', Run (SparedSteps hash artifact sink part content) s fs s' →
            s'.AllReceived artifact ∨ s'.phase = .done (.ok content)) ∧
          ∃ fs s', Run (SparedSteps hash artifact sink part content) s fs s' ∧
            s'.phase = .done (.ok content)) := by
  have hsound := run_sound hpart hrun
  refine ⟨?_, ?_, ?_⟩
  · intro bytes hdone
    have hphase := hsound.2
    rwa [hdone] at hphase
  · intro hdone
    have hphase := hsound.2
    rw [hdone] at hphase
    exact hphase rfl
  · intro content hcontent hhonest
    obtain ⟨-, hexact⟩ := run_exact hcontent hpart hhonest
    refine ⟨⟨hexact.1, hsound.1.bytes, hsound.1.len⟩, ?_, ?_⟩
    · intro error hdone
      have hphase := hexact.2
      rwa [hdone] at hphase
    · intro hall
      refine ⟨?_, allReceived_ends hcontent hsound hexact hall⟩
      intro fs s' hspared
      exact run_allReceived hcontent hpart hsound hexact hall hspared

end Honest

/-! ## One byte -/

/-- SHA-256 of the byte `a` and of nothing. -/
def sha256Byte (bytes : Bytes) : String :=
  if bytes = [0x61] then "ca978112ca1bbdcafac231b39a23dc4da786eff8147c4e72b9807785afee48bb"
  else "e3b0c44298fc1c149afbf4c8996fb92427ae41e4649b934ca495991b7852b855"

def oneByte : Artifact :=
  ⟨"ca978112ca1bbdcafac231b39a23dc4da786eff8147c4e72b9807785afee48bb", some 1⟩

theorem oneByte_content : Content sha256Byte oneByte [0x61] :=
  ⟨rfl, fun _ h => (Option.some.inj h).symm⟩

/-- The whole artifact, in the body of the `n`-th attempt. -/
def inBody (n : Nat) : FetchState := ⟨⟨.memory [0x61], [0x61], 1⟩, .body n false 0 1⟩

/-- The `n`-th attempt brings the byte. -/
theorem attempt_brings_byte (n : Nat) {es : List FetchEvent}
    (hrun : Run (HonestSteps sha256Byte oneByte .memory (16 * 2 ^ 20) [0x61])
      (start sha256Byte oneByte .memory none) es
      ⟨⟨.memory [], [], 0⟩, .attempt n false⟩) :
    Run (HonestSteps sha256Byte oneByte .memory (16 * 2 ^ 20) [0x61])
      (start sha256Byte oneByte .memory none)
      (es ++ [.answered ⟨200, none, some 1⟩ true] ++ [.chunk [0x61] true]) (inBody n) := by
  have hanswered : HonestSteps sha256Byte oneByte .memory (16 * 2 ^ 20) [0x61]
      ⟨⟨.memory [], [], 0⟩, .attempt n false⟩ (.answered ⟨200, none, some 1⟩ true)
      ⟨⟨.memory [], [], 0⟩, .body n false 0 0⟩ :=
    ⟨rfl, fun h => absurd h (by decide)⟩
  have hchunk : HonestSteps sha256Byte oneByte .memory (16 * 2 ^ 20) [0x61]
      ⟨⟨.memory [], [], 0⟩, .body n false 0 0⟩ (.chunk [0x61] true) (inBody n) := by
    refine ⟨rfl, ?_⟩
    intro n' signed offset got hbody
    obtain ⟨rfl, rfl, rfl, rfl⟩ := Phase.body.inj hbody
    exact List.prefix_rfl
  exact (hrun.snoc hanswered).snoc hchunk

theorem opened_once : Run (HonestSteps sha256Byte oneByte .memory (16 * 2 ^ 20) [0x61])
    (start sha256Byte oneByte .memory none) [.opened true false]
    ⟨⟨.memory [], [], 0⟩, .attempt 1 false⟩ :=
  Run.nil.snoc ⟨rfl, trivial⟩

theorem inBody_allReceived (n : Nat) : (inBody n).AllReceived oneByte := ⟨rfl, trivial⟩

/-- The first attempt brings the byte and can end. -/
theorem one_byte_exact :
    ∃ fs s', Run (SparedSteps sha256Byte oneByte .memory (16 * 2 ^ 20) [0x61]) (inBody 1) fs s' ∧
      s'.phase = .done (.ok [0x61]) :=
  have hrun := attempt_brings_byte 1 opened_once
  (((download_exact (by decide) (hrun.mono fun _ _ _ h => h.1)).2.2 _ oneByte_content hrun).2.2
    (inBody_allReceived 1)).2

/-- The third attempt brings the byte, but its body ends in a read error. -/
theorem last_byte_lost :
    Content sha256Byte oneByte [0x61] ∧ ∃ es s, (inBody 3).AllReceived oneByte ∧
      Run (HonestSteps sha256Byte oneByte .memory (16 * 2 ^ 20) [0x61])
        (start sha256Byte oneByte .memory none) es (inBody 3) ∧
      Run (HonestSteps sha256Byte oneByte .memory (16 * 2 ^ 20) [0x61]) (inBody 3) [.cut] s ∧
      s.phase = .done (.error .bodyRead) := by
  have hunsent : ∀ n < fetchMaxAttempts, HonestSteps sha256Byte oneByte .memory (16 * 2 ^ 20) [0x61]
      ⟨⟨.memory [], [], 0⟩, .attempt n false⟩ .unsent
      ⟨⟨.memory [], [], 0⟩, .attempt (n + 1) false⟩ := by
    intro n hn
    refine ⟨?_, trivial⟩
    show some (failed oneByte ⟨.memory [], [], 0⟩ n false (.retry .transport)) = _
    unfold failed
    rw [decide_eq_true hn]
    rfl
  have hthird := (opened_once.snoc (hunsent 1 (by decide))).snoc (hunsent 2 (by decide))
  have hcut : HonestSteps sha256Byte oneByte .memory (16 * 2 ^ 20) [0x61] (inBody 3) .cut
      ⟨⟨.memory [0x61], [0x61], 1⟩, .done (.error .bodyRead)⟩ :=
    ⟨rfl, trivial⟩
  exact ⟨oneByte_content, _, _, inBody_allReceived 3, attempt_brings_byte 3 hthird,
    Run.nil.snoc hcut, rfl⟩

end Ripclone.Client.Transfer
