import Ripclone.Client.Transfer
import Ripclone.Library.Result

/-!
# What a download has received

In every run the body, the running hash and the length are of the same bytes, and these are never more
than were promised. When the server is honest they are a prefix of the artifact, so no length and no
hash can differ. Once they are the whole artifact the download succeeds, unless the body that brought
its last byte was the last attempt's and ended in a read error.
-/

namespace Ripclone.Client.Transfer

open Ripclone.Library

/-! ## One thing in three places -/

/-- The body, the running hash and the length are of the same bytes. -/
structure Received.Consistent (received : Received) : Prop where
  bytes : received.body.bytes = received.hashed
  len : received.len = received.hashed.length
  pos : ∀ content pos, received.body = .file content pos → pos = content.length

section Received

variable {sink : Sink} {received received' : Received} {chunk : Bytes} {io : Bool}

theorem writeAt_length (content chunk : Bytes) : writeAt content content.length chunk = content ++ chunk := by
  simp [writeAt]

theorem Received.opened_ok (h : Received.opened sink io = .ok received) :
    received.Consistent ∧ received.hashed = [] := by
  cases sink with
  | memory =>
      obtain rfl := pure_eq_ok.mp h
      exact ⟨⟨rfl, rfl, by simp⟩, rfl⟩
  | tempFile =>
      cases io with
      | true =>
          obtain rfl := pure_eq_ok.mp h
          refine ⟨⟨rfl, rfl, ?_⟩, rfl⟩
          rintro content pos hbody
          obtain ⟨rfl, rfl⟩ := Body.file.inj hbody
          rfl
      | false => cases h

theorem Received.write_ok (hc : received.Consistent) (h : received.write chunk io = .ok received') :
    received'.Consistent ∧ received'.hashed = received.hashed ++ chunk := by
  obtain ⟨body, hbody, h⟩ := bind_eq_ok.mp h
  obtain rfl := pure_eq_ok.mp h
  have hlen : received.len + chunk.length = (received.hashed ++ chunk).length := by
    rw [List.length_append, hc.len]
  have hbytes := hc.bytes
  cases hold : received.body with
  | memory bytes =>
      rw [hold] at hbody hbytes
      obtain rfl := pure_eq_ok.mp hbody
      exact ⟨⟨congrArg (· ++ chunk) hbytes, hlen, by simp⟩, rfl⟩
  | file content pos =>
      obtain rfl := hc.pos content pos hold
      rw [hold] at hbody hbytes
      cases io with
      | true =>
          obtain rfl := pure_eq_ok.mp hbody
          have hcontent := writeAt_length content chunk
          refine ⟨⟨hcontent.trans (congrArg (· ++ chunk) hbytes), hlen, ?_⟩, rfl⟩
          intro content' pos' hfile
          obtain ⟨rfl, rfl⟩ := Body.file.inj hfile
          rw [hcontent, List.length_append]
      | false => cases hbody

theorem Received.restart_ok (h : received.restart io = .ok received') :
    received'.Consistent ∧ received'.hashed = [] := by
  obtain ⟨body, hbody, h⟩ := bind_eq_ok.mp h
  obtain rfl := pure_eq_ok.mp h
  cases hold : received.body with
  | memory bytes =>
      rw [hold] at hbody
      obtain rfl := pure_eq_ok.mp hbody
      exact ⟨⟨rfl, rfl, by simp⟩, rfl⟩
  | file content pos =>
      rw [hold] at hbody
      cases io with
      | true =>
          obtain rfl := pure_eq_ok.mp hbody
          refine ⟨⟨rfl, rfl, ?_⟩, rfl⟩
          rintro content' pos' hfile
          obtain ⟨rfl, rfl⟩ := Body.file.inj hfile
          rfl
      | false => cases hbody

/-- Only the temporary file's calls fail. -/
theorem Received.opened_error {error : DownloadError} (h : Received.opened sink io = .error error) :
    error = .localIo := by
  cases sink <;> cases io <;> cases h
  rfl

theorem Received.write_error {error : DownloadError} (h : received.write chunk io = .error error) :
    error = .localIo ∧ io = false := by
  unfold Received.write at h
  cases hbody : received.body <;> cases io <;> rw [hbody] at h <;> cases h
  exact ⟨rfl, rfl⟩

theorem Received.restart_error {error : DownloadError} (h : received.restart io = .error error) :
    error = .localIo := by
  unfold Received.restart at h
  cases hbody : received.body <;> cases io <;> rw [hbody] at h <;> cases h
  rfl

end Received

/-! ## One request -/

/-- An error that says that a length or a hash differs. -/
def DownloadError.isMismatch : DownloadError → Bool
  | .sizeMismatch .. | .hashMismatch .. | .resumedLength .. | .rangeLength .. => true
  | _ => false

/-- Neither a mismatch nor an underflow. -/
def DownloadError.Plain (error : DownloadError) : Prop :=
  error.isMismatch = false ∧ error ≠ .underflow

/-- The artifact's bytes. -/
structure Content (hash : Bytes → String) (artifact : Artifact) (content : Bytes) : Prop where
  hash : hash content = artifact.hash
  len : ∀ len, artifact.len = some len → len = content.length

section Request

variable {hash : Bytes → String} {artifact : Artifact} {received received' : Received} {io : Bool}
  {content : Bytes}

theorem finish_ok (hc : received.Consistent) {bytes : Bytes}
    (h : finish hash artifact received io = .ok bytes) :
    bytes = received.hashed ∧ hash bytes = artifact.hash ∧
      ∀ len, artifact.len = some len → bytes.length = len := by
  obtain ⟨hverify, h⟩ := bind_unit_eq_ok.mp h
  rw [verifyArtifact, ite_throw_eq_ok, ite_throw_eq_ok, not_not] at hverify
  obtain ⟨hlen, hhash, -⟩ := hverify
  have hbytes : bytes = received.hashed := by
    rw [← hc.bytes]
    cases hbody : received.body with
    | memory content =>
        rw [hbody] at h
        exact (pure_eq_ok.mp h).symm
    | file content pos =>
        rw [hbody] at h
        cases io with
        | true => exact (pure_eq_ok.mp h).symm
        | false => cases h
  refine ⟨hbytes, hbytes ▸ hhash, fun len hpromised => ?_⟩
  rw [hpromised] at hlen
  rw [hbytes, ← hc.len]
  simpa using hlen

theorem finish_error {error : DownloadError} (h : finish hash artifact received io = .error error) :
    error ≠ .underflow := by
  unfold finish at h
  cases hverify : verifyArtifact hash artifact received with
  | error e =>
      rw [hverify] at h
      cases h
      unfold verifyArtifact at hverify
      split at hverify
      · cases hverify
        simp
      · split at hverify
        · cases hverify
          simp
        · cases hverify
  | ok =>
      rw [hverify] at h
      cases hbody : received.body <;> cases io <;> rw [hbody] at h <;> cases h
      simp

/-- The whole artifact passes the checks. -/
theorem finish_content (io : Bool) (hc : received.Consistent)
    (hcontent : Content hash artifact content) (h : received.hashed = content) :
    finish hash artifact received io = .ok content ∨
      finish hash artifact received io = .error .localIo ∧ io = false := by
  have hverify : verifyArtifact hash artifact received = .ok () := by
    rw [verifyArtifact, ite_throw_eq_ok, ite_throw_eq_ok, not_not]
    refine ⟨?_, h ▸ hcontent.hash, rfl⟩
    cases hlen : artifact.len with
    | none => simp
    | some len => simp [hc.len, h, hcontent.len len hlen]
  rw [finish, hverify]
  have hbytes := hc.bytes
  rw [h] at hbytes
  cases hbody : received.body with
  | memory bytes =>
      rw [hbody] at hbytes
      exact .inl (congrArg Except.ok hbytes)
  | file bytes pos =>
      rw [hbody] at hbytes
      cases io with
      | true => exact .inl (congrArg Except.ok hbytes)
      | false => exact .inr ⟨rfl, rfl⟩

theorem classify_error {status : Nat} {signed : Bool} {failure : FetchFailure}
    (h : classifyFetchStatus status signed = some failure) :
    failure.intoError = .status status ∧ failure ≠ .rangeIgnored := by
  unfold classifyFetchStatus at h
  split at h
  · cases h
  · split at h
    · cases h
      exact ⟨rfl, by simp⟩
    · split at h <;> cases h <;> exact ⟨rfl, by simp⟩

theorem validateContentRange_error {value : Option Bytes} {offset : Nat} {stop expected : Option Nat}
    {error : DownloadError} (h : validateContentRange value offset stop expected = .error error) :
    error.Plain := by
  unfold validateContentRange at h
  split at h
  · cases h
    exact ⟨rfl, by simp⟩
  · split at h
    · cases h
      exact ⟨rfl, by simp⟩
    · split at h
      · cases h
        exact ⟨rfl, by simp⟩
      · split at h
        · cases h
        · cases h
          exact ⟨rfl, by simp⟩

/-- A body begins at byte zero with nothing received, or after what was. -/
theorem downloadAttempt_ok {response : Response} {offset : Nat} (hc : received.Consistent)
    (h : downloadAttempt artifact received response io = .ok (received', offset)) :
    received'.Consistent ∧ received'.len = offset ∧
      (received' = received ∨ received'.hashed = []) := by
  unfold downloadAttempt at h
  split at h
  · obtain ⟨restarted, hrestart, h⟩ := bind_eq_ok.mp h
    obtain ⟨rfl, rfl⟩ := Prod.mk.inj (pure_eq_ok.mp h)
    split at hrestart
    · obtain ⟨hconsistent, hempty⟩ := Received.restart_ok hrestart
      exact ⟨hconsistent, by rw [hconsistent.len, hempty]; rfl, .inr hempty⟩
    · next hzero =>
        obtain rfl := Except.ok.inj hrestart
        exact ⟨hc, by omega, .inl rfl⟩
  · split at h
    · obtain ⟨-, h⟩ := bind_unit_eq_ok.mp h
      have hsame : received' = received ∧ offset = received.len := by
        split at h
        · split at h
          · cases h
          · split at h
            · cases h
            · obtain ⟨rfl, rfl⟩ := Prod.mk.inj (pure_eq_ok.mp h)
              exact ⟨rfl, rfl⟩
        · obtain ⟨rfl, rfl⟩ := Prod.mk.inj (pure_eq_ok.mp h)
          exact ⟨rfl, rfl⟩
      obtain ⟨rfl, rfl⟩ := hsame
      exact ⟨hc, rfl, .inl rfl⟩
    · cases h

/-- The head of an answer fails for what it says, or for a local call. -/
theorem downloadAttempt_error {response : Response} {error : DownloadError}
    (hbound : ∀ len, artifact.len = some len → received.len ≤ len)
    (h : downloadAttempt artifact received response io = .error error) :
    error ≠ .underflow ∧ (error.isMismatch = true → response.status = 206 ∧
      validateContentRange response.contentRange received.len none artifact.len = .ok () ∧
      ∃ sent len, response.contentLength = some sent ∧ artifact.len = some len ∧
        sent ≠ len - received.len) := by
  unfold downloadAttempt at h
  split at h
  · have hio : error = .localIo := by
      split at h
      · cases hrestart : received.restart io with
        | error e =>
            rw [hrestart] at h
            cases h
            exact Received.restart_error hrestart
        | ok restarted =>
            rw [hrestart] at h
            cases h
      · cases h
    subst hio
    exact ⟨by simp, by simp [DownloadError.isMismatch]⟩
  · split at h
    · next hresumed =>
        cases hrange : validateContentRange response.contentRange received.len none artifact.len with
        | error e =>
            rw [hrange] at h
            cases h
            obtain ⟨hmismatch, hne⟩ := validateContentRange_error hrange
            exact ⟨hne, fun h => by rw [hmismatch] at h; cases h⟩
        | ok =>
            rw [hrange] at h
            dsimp only [bind, Except.bind] at h
            split at h
            · next sent len hsent hlen =>
                split at h
                · next hlt => exact absurd (hbound len hlen) (by omega)
                · split at h
                  · next hne =>
                      cases h
                      exact ⟨by simp, fun _ => ⟨hresumed.1, rfl, sent, len, hsent, hlen, hne⟩⟩
                  · cases h
            · cases h
    · cases h
      exact ⟨by simp, by simp [DownloadError.isMismatch]⟩

end Request

/-! ## One range -/

section Range

variable {artifact : Artifact} {start stop n : Nat} {signed : Bool} {bytes : Bytes}

theorem rangeAttempt_ok {answer : RangeAnswer}
    (h : rangeAttempt artifact signed start stop answer = .ok bytes) :
    bytes.length = stop - start ∧ ∃ response, answer = .answered response bytes false ∧
      response.status = 206 ∧
        validateContentRange response.contentRange start (some stop) artifact.len = .ok () := by
  cases answer with
  | unsent => cases h
  | answered response body cut =>
      unfold rangeAttempt at h
      dsimp only at h
      split at h
      · cases h
      · rw [ite_throw_eq_ok, ite_throw_eq_ok, not_not] at h
        obtain ⟨-, hstatus, h⟩ := h
        obtain ⟨hrange, h⟩ := bind_unit_eq_ok.mp h
        rw [ite_throw_eq_ok, ite_throw_eq_ok, not_not, Bool.not_eq_true] at h
        obtain ⟨rfl, hlen, h⟩ := h
        obtain rfl := pure_eq_ok.mp h
        exact ⟨hlen, response, rfl, hstatus, mapError_eq_ok.mp hrange⟩

/-- A request for a range fails for the length of its body only when the body was whole. -/
theorem rangeAttempt_error {answer : RangeAnswer} {failure : FetchFailure}
    (h : rangeAttempt artifact signed start stop answer = .error failure) :
    failure.intoError ≠ .underflow ∧ (failure.intoError.isMismatch = true → ∃ response body,
      answer = .answered response body false ∧ response.status = 206 ∧
        validateContentRange response.contentRange start (some stop) artifact.len = .ok () ∧
          body.length ≠ stop - start) := by
  cases answer with
  | unsent =>
      cases h
      exact ⟨by simp [FetchFailure.intoError], by simp [FetchFailure.intoError, DownloadError.isMismatch]⟩
  | answered response body cut =>
      unfold rangeAttempt at h
      dsimp only at h
      split at h
      · next f hstatus =>
          cases h
          rw [(classify_error hstatus).1]
          exact ⟨by simp, by simp [DownloadError.isMismatch]⟩
      · split at h
        · cases h
          exact ⟨by simp [FetchFailure.intoError],
            by simp [FetchFailure.intoError, DownloadError.isMismatch]⟩
        · split at h
          · cases h
            exact ⟨by simp [FetchFailure.intoError],
              by simp [FetchFailure.intoError, DownloadError.isMismatch]⟩
          · next hstatus =>
              cases hrange : validateContentRange response.contentRange start (some stop) artifact.len with
              | error e =>
                  rw [hrange] at h
                  cases h
                  obtain ⟨hmismatch, hne⟩ := validateContentRange_error hrange
                  exact ⟨hne, fun h => absurd h (by rw [FetchFailure.intoError, hmismatch]; simp)⟩
              | ok =>
                  rw [hrange] at h
                  dsimp only [Except.mapError, bind, Except.bind] at h
                  split at h
                  · cases h
                    exact ⟨by simp [FetchFailure.intoError],
                      by simp [FetchFailure.intoError, DownloadError.isMismatch]⟩
                  · next hcut =>
                      split at h
                      · next hlen =>
                          cases h
                          refine ⟨by simp [FetchFailure.intoError], fun _ => ?_⟩
                          rw [Bool.not_eq_true] at hcut
                          exact ⟨response, body, by rw [hcut], not_not.mp hstatus, hrange, hlen⟩
                      · cases h

/-- The bytes of a range are those one of its attempts got. -/
theorem downloadRange_ok {attempts : List RangeAttempt}
    (h : downloadRange artifact start stop n signed attempts = some (.ok (some bytes))) :
    ∃ attempt ∈ attempts, ∃ signed,
      rangeAttempt artifact signed start stop attempt.answer = .ok bytes := by
  induction attempts generalizing n signed with
  | nil => cases h
  | cons attempt rest ih =>
      unfold downloadRange at h
      split at h
      · next bytes' hattempt =>
          cases h
          exact ⟨attempt, List.mem_cons_self, signed, hattempt⟩
      · cases h
      · have later : ∀ {n signed}, downloadRange artifact start stop n signed rest =
            some (.ok (some bytes)) → ∃ attempt' ∈ attempt :: rest, ∃ signed,
              rangeAttempt artifact signed start stop attempt'.answer = .ok bytes := by
          intro n signed h
          obtain ⟨attempt', hmem, hok⟩ := ih h
          exact ⟨attempt', List.mem_cons_of_mem _ hmem, hok⟩
        split at h
        · split at h
          · exact later h
          · cases h
        · exact later h
        · cases h

/-- A range fails with what one of its attempts failed with, or for want of a URL. -/
theorem downloadRange_error {attempts : List RangeAttempt} {error : DownloadError}
    (h : downloadRange artifact start stop n signed attempts = some (.error error)) :
    error = .refreshUrl ∨ ∃ attempt ∈ attempts, ∃ signed failure,
      rangeAttempt artifact signed start stop attempt.answer = .error failure ∧
        error = failure.intoError := by
  induction attempts generalizing n signed with
  | nil => cases h
  | cons attempt rest ih =>
      unfold downloadRange at h
      have later : ∀ {n signed}, downloadRange artifact start stop n signed rest =
          some (.error error) → error = .refreshUrl ∨ ∃ attempt' ∈ attempt :: rest,
            ∃ signed failure, rangeAttempt artifact signed start stop attempt'.answer =
              .error failure ∧ error = failure.intoError := by
        intro n signed h
        obtain hrefresh | ⟨attempt', hmem, herror⟩ := ih h
        · exact .inl hrefresh
        · exact .inr ⟨attempt', List.mem_cons_of_mem _ hmem, herror⟩
      cases hattempt : rangeAttempt artifact signed start stop attempt.answer with
      | ok bytes =>
          rw [hattempt] at h
          cases h
      | error failure =>
          rw [hattempt] at h
          have last : error = failure.intoError → error = .refreshUrl ∨
              ∃ attempt' ∈ attempt :: rest, ∃ signed failure,
                rangeAttempt artifact signed start stop attempt'.answer = .error failure ∧
                  error = failure.intoError := by
            intro herror
            exact .inr ⟨attempt, List.mem_cons_self, signed, failure, hattempt, herror⟩
          cases failure <;> cases hn : decide (n < fetchMaxAttempts) <;> rw [hn] at h <;> dsimp only at h
          case retry.true => exact later h
          case refreshUrl.true =>
            split at h
            · exact later h
            · cases h
              exact .inl rfl
          all_goals
            cases h
            try exact last rfl

end Range

/-! ## Steps -/

section Steps

variable {hash : Bytes → String} {artifact : Artifact} {sink : Sink} {part n : Nat} {signed : Bool}
  {received : Received}

theorem enter_cases (artifact : Artifact) (received : Received) (n : Nat) (signed : Bool) :
    enter artifact received n signed = ⟨received, .attempt n signed⟩ ∨
    enter artifact received n signed = ⟨received, .finishing⟩ ∧
      some received.len = artifact.len := by
  unfold enter
  split
  · next h => exact .inr ⟨rfl, h.2⟩
  · exact .inl rfl

theorem failed_cases (artifact : Artifact) (received : Received) (n : Nat) (signed : Bool)
    (failure : FetchFailure) :
    failed artifact received n signed failure = ⟨received, .refreshing n⟩ ∨
      failed artifact received n signed failure = enter artifact received (n + 1) signed ∨
        failed artifact received n signed failure = ⟨received, .done (.error failure.intoError)⟩ := by
  unfold failed
  split
  · exact .inl rfl
  · exact .inr (.inl rfl)
  · exact .inr (.inr rfl)

/-- What each event does, and the phase it does it in. -/
inductive Taken (hash : Bytes → String) (artifact : Artifact) (sink : Sink) (part : Nat)
    (received : Received) : Phase → FetchEvent → FetchState → Prop
  | opened (io signed : Bool) : Taken hash artifact sink part received .opening (.opened io signed)
      (takeOpened artifact sink part ⟨received, .opening⟩ io signed)
  | range {len : Nat} {result : Except DownloadError (Option Bytes)} (i : Nat) (signed : Bool)
      (attempts : List RangeAttempt) (io after : Bool) :
      rangesLen artifact sink part = some len →
      downloadRange artifact (rangeOf len part i).1 (rangeOf len part i).2 1 signed attempts =
        some result →
      Taken hash artifact sink part received (.ranges i) (.range signed attempts io after)
        (takeRange artifact part len i ⟨received, .ranges i⟩ result io after)
  | unsent (n : Nat) (signed : Bool) : Taken hash artifact sink part received (.attempt n signed)
      .unsent (failed artifact received n signed (.retry .transport))
  | answered (n : Nat) (signed : Bool) (response : Response) (io : Bool) :
      Taken hash artifact sink part received (.attempt n signed) (.answered response io)
        (takeAnswer artifact ⟨received, .attempt n signed⟩ n signed response io)
  | chunk (n : Nat) (signed : Bool) (offset got : Nat) (bytes : Bytes) (io : Bool) :
      Taken hash artifact sink part received (.body n signed offset got) (.chunk bytes io)
        (takeChunk artifact ⟨received, .body n signed offset got⟩ n signed offset got bytes io)
  | bodyEnd (n : Nat) (signed : Bool) (offset got : Nat) :
      Taken hash artifact sink part received (.body n signed offset got) .bodyEnd
        ⟨received, .finishing⟩
  | cut (n : Nat) (signed : Bool) (offset got : Nat) :
      Taken hash artifact sink part received (.body n signed offset got) .cut
        (failed artifact received n signed (.retry .bodyRead))
  | refreshed (n : Nat) : Taken hash artifact sink part received (.refreshing n) (.refreshed true)
      (enter artifact received (n + 1) true)
  | notRefreshed (n : Nat) : Taken hash artifact sink part received (.refreshing n)
      (.refreshed false) ⟨received, .done (.error .refreshUrl)⟩
  | finished (io : Bool) : Taken hash artifact sink part received .finishing (.finished io)
      ⟨received, .done (finish hash artifact received io)⟩

theorem step_cases {s s' : FetchState} {e : FetchEvent}
    (h : step hash artifact sink part s e = some s') :
    Taken hash artifact sink part s.received s.phase e s' := by
  obtain ⟨received, phase⟩ := s
  unfold step at h
  dsimp only at h
  split at h
  case h_1 => exact Option.some.inj h ▸ .opened _ _
  case h_2 =>
    obtain ⟨len, hlen, h⟩ := Option.bind_eq_some_iff.mp h
    obtain ⟨result, hresult, rfl⟩ := Option.map_eq_some_iff.mp h
    exact .range _ _ _ _ _ hlen hresult
  case h_3 => exact Option.some.inj h ▸ .unsent _ _
  case h_4 => exact Option.some.inj h ▸ .answered _ _ _ _
  case h_5 => exact Option.some.inj h ▸ .chunk _ _ _ _ _ _
  case h_6 => exact Option.some.inj h ▸ .bodyEnd _ _ _ _
  case h_7 => exact Option.some.inj h ▸ .cut _ _ _ _
  case h_8 n found =>
    cases found with
    | true => exact Option.some.inj h ▸ .refreshed _
    | false => exact Option.some.inj h ▸ .notRefreshed _
  case h_9 => exact Option.some.inj h ▸ .finished _
  case h_10 => cases h

end Steps

/-! ## Every run -/

section Runs

variable {hash : Bytes → String} {artifact : Artifact} {sink : Sink} {part n : Nat} {signed : Bool}
  {received : Received} {cached : Option Bytes}

/-- No more was received than was promised. -/
def Bounded (artifact : Artifact) (received : Received) : Prop :=
  ∀ len, artifact.len = some len → received.len ≤ len

/-- What holds in a phase, whatever the server does. -/
def Phase.Sound (hash : Bytes → String) (artifact : Artifact) (sink : Sink) (part : Nat)
    (cached : Option Bytes) (received : Received) : Phase → Prop
  | .ranges i => ∃ len, rangesLen artifact sink part = some len ∧ i < rangeCount len part ∧
      received.len = i * part
  | .body _ _ offset got => Bounded artifact received ∧ received.len = offset + got
  | .done (.ok bytes) => hash bytes = artifact.hash ∧
      (fromCache hash artifact sink cached = none →
        ∀ len, artifact.len = some len → bytes.length = len)
  | .done (.error error) => error ≠ .underflow
  | _ => Bounded artifact received

def FetchState.Sound (hash : Bytes → String) (artifact : Artifact) (sink : Sink) (part : Nat)
    (cached : Option Bytes) (s : FetchState) : Prop :=
  s.received.Consistent ∧ s.phase.Sound hash artifact sink part cached s.received

theorem Bounded.of_empty (hc : received.Consistent) (h : received.hashed = []) :
    Bounded artifact received := by
  intro len _
  rw [hc.len, h]
  exact Nat.zero_le len

theorem sound_enter (hc : received.Consistent) (hb : Bounded artifact received) :
    (enter artifact received n signed).Sound hash artifact sink part cached := by
  obtain h | ⟨h, -⟩ := enter_cases artifact received n signed
  · rw [h]
    exact ⟨hc, hb⟩
  · rw [h]
    exact ⟨hc, hb⟩

theorem sound_failed (hc : received.Consistent) (hb : Bounded artifact received)
    {failure : FetchFailure} (hne : failure.intoError ≠ .underflow) :
    (failed artifact received n signed failure).Sound hash artifact sink part cached := by
  obtain h | h | h := failed_cases artifact received n signed failure
  · rw [h]
    exact ⟨hc, hb⟩
  · rw [h]
    exact sound_enter hc hb
  · rw [h]
    exact ⟨hc, hne⟩

theorem rangesLen_eq {len : Nat} (h : rangesLen artifact sink part = some len) :
    artifact.len = some len ∧ min (part * 4) (2 ^ 64 - 1) ≤ len := by
  cases sink with
  | memory => cases h
  | tempFile =>
      obtain ⟨hlen, hmin⟩ := Option.filter_eq_some_iff.mp h
      exact ⟨hlen, of_decide_eq_true hmin⟩

/-- Ranges begin before the promised end. -/
theorem rangeOf_le {len i : Nat} (hpart : 0 < part) (h : i < rangeCount len part) :
    i * part < len ∧ (rangeOf len part i).2 ≤ len ∧ (rangeOf len part i).1 ≤ (rangeOf len part i).2 := by
  have hi : i * part < len := by
    have := (Nat.le_div_iff_mul_le hpart).mp (Nat.succ_le_of_lt h)
    rw [Nat.succ_mul] at this
    omega
  refine ⟨hi, Nat.min_le_right _ _, ?_⟩
  show i * part ≤ min ((i + 1) * part) len
  exact Nat.le_min.mpr ⟨Nat.mul_le_mul_right part (Nat.le_succ i), hi.le⟩

theorem rangeCount_pos {len : Nat} (hpart : 0 < part) (h : rangesLen artifact sink part = some len) :
    0 < rangeCount len part := by
  have hlen := (rangesLen_eq h).2
  apply Nat.div_pos _ hpart
  omega

/-- The next range begins where this one ends. -/
theorem rangeOf_next {len i : Nat} (hpart : 0 < part) (h : i + 1 < rangeCount len part) :
    (rangeOf len part i).2 = (i + 1) * part :=
  Nat.min_eq_left (rangeOf_le hpart h).1.le

/-- The last range ends at the promised end. -/
theorem rangeOf_last {len i : Nat} (hpart : 0 < part) (h : ¬i + 1 < rangeCount len part) :
    (rangeOf len part i).2 = len := by
  apply Nat.min_eq_right
  have hcount : (len + part - 1) / part ≤ i + 1 := Nat.le_of_not_lt h
  have hlt := (Nat.div_lt_iff_lt_mul hpart).mp (Nat.lt_succ_of_le hcount)
  rw [Nat.succ_mul] at hlt
  omega

theorem sound_opened (hpart : 0 < part) (phase : Phase) (io signed : Bool)
    (hc : received.Consistent) :
    (takeOpened artifact sink part ⟨received, phase⟩ io signed).Sound hash artifact sink part cached := by
  unfold takeOpened
  split
  · next error h =>
      obtain rfl := Received.opened_error h
      exact ⟨hc, by simp [Phase.Sound]⟩
  · next received' h =>
      obtain ⟨hc', hempty⟩ := Received.opened_ok h
      split
      · next hranges =>
          obtain ⟨len, hlen⟩ := Option.isSome_iff_exists.mp hranges
          refine ⟨hc', len, hlen, rangeCount_pos hpart hlen, ?_⟩
          rw [hc'.len, hempty, Nat.zero_mul]
          rfl
      · exact sound_enter hc' (.of_empty hc' hempty)

theorem sound_range (hpart : 0 < part) {len i : Nat} {attempts : List RangeAttempt}
    {result : Except DownloadError (Option Bytes)} (phase : Phase) (io after : Bool)
    (hlen : rangesLen artifact sink part = some len)
    (hresult : downloadRange artifact (rangeOf len part i).1 (rangeOf len part i).2 1 signed
      attempts = some result)
    (hc : received.Consistent)
    (h : (Phase.ranges i).Sound hash artifact sink part cached received) :
    (takeRange artifact part len i ⟨received, phase⟩ result io after).Sound
      hash artifact sink part cached := by
  obtain ⟨len', hlen', hi, hreceived⟩ := h
  obtain rfl := Option.some.inj (hlen.symm.trans hlen')
  unfold takeRange
  split
  · next error =>
      refine ⟨hc, ?_⟩
      obtain rfl | ⟨attempt, -, signed, failure, hattempt, rfl⟩ := downloadRange_error hresult
      · simp [Phase.Sound]
      · exact (rangeAttempt_error hattempt).1
  · split
    · next error h =>
        obtain rfl := Received.restart_error h
        exact ⟨hc, by simp [Phase.Sound]⟩
    · next received' h =>
        obtain ⟨hc', hempty⟩ := Received.restart_ok h
        exact sound_enter hc' (.of_empty hc' hempty)
  · next bytes =>
      obtain ⟨attempt, -, signed, hattempt⟩ := downloadRange_ok hresult
      obtain ⟨hbytes, -⟩ := rangeAttempt_ok hattempt
      dsimp only
      split
      · next error h =>
          obtain ⟨rfl, -⟩ := Received.write_error h
          exact ⟨hc, by simp [Phase.Sound]⟩
      · next received' h =>
          obtain ⟨hc', hhashed⟩ := Received.write_ok hc h
          obtain ⟨-, hstop, hstart⟩ := rangeOf_le hpart hi
          -- The range ends where the next one starts.
          have hlen' : received'.len = (rangeOf len part i).2 := by
            rw [hc'.len, hhashed, List.length_append, ← hc.len, hreceived, hbytes]
            show (rangeOf len part i).1 + _ = _
            omega
          split
          · next hnext => exact ⟨hc', len, hlen, hnext, hlen'.trans (rangeOf_next hpart hnext)⟩
          · refine ⟨hc', ?_⟩
            intro promised hpromised
            obtain rfl := Option.some.inj ((rangesLen_eq hlen).1.symm.trans hpromised)
            exact hlen' ▸ hstop

theorem sound_answer (phase : Phase) (response : Response) (io : Bool) (hc : received.Consistent)
    (hb : Bounded artifact received) :
    (takeAnswer artifact ⟨received, phase⟩ n signed response io).Sound
      hash artifact sink part cached := by
  unfold takeAnswer
  split
  · next failure h =>
      apply sound_failed hc hb
      rw [(classify_error h).1]
      simp
  · split
    · next error h => exact ⟨hc, (downloadAttempt_error hb h).1⟩
    · next received' offset h =>
        obtain ⟨hc', hoffset, hsame⟩ := downloadAttempt_ok hc h
        refine ⟨hc', ?_, hoffset⟩
        obtain rfl | hempty := hsame
        · exact hb
        · exact .of_empty hc' hempty

theorem sound_chunk {offset got : Nat} (phase : Phase) (bytes : Bytes) (io : Bool)
    (hc : received.Consistent) (h : received.len = offset + got) :
    (takeChunk artifact ⟨received, phase⟩ n signed offset got bytes io).Sound
      hash artifact sink part cached := by
  unfold takeChunk
  split
  · next error h =>
      obtain ⟨rfl, -⟩ := Received.write_error h
      exact ⟨hc, by simp [Phase.Sound]⟩
  · next received' hwrite =>
      obtain ⟨hc', hhashed⟩ := Received.write_ok hc hwrite
      split
      · exact ⟨hc', by simp [Phase.Sound]⟩
      · next hlen =>
          refine ⟨hc', ?_, ?_⟩
          · intro len hpromised
            rw [hpromised] at hlen
            simpa using hlen
          · rw [hc'.len, hhashed, List.length_append, ← hc.len, h, Nat.add_assoc]

theorem sound_finished (io : Bool) (hc : received.Consistent) :
    FetchState.Sound hash artifact sink part cached
      ⟨received, .done (finish hash artifact received io)⟩ := by
  refine ⟨hc, ?_⟩
  cases h : finish hash artifact received io with
  | ok bytes =>
      obtain ⟨-, hhash, hlen⟩ := finish_ok hc h
      exact ⟨hhash, fun _ => hlen⟩
  | error error => exact finish_error h

/-- What one event keeps, whatever the server does. -/
theorem sound_step (hpart : 0 < part) {s s' : FetchState} {e : FetchEvent}
    (h : s.Sound hash artifact sink part cached)
    (hstep : step hash artifact sink part s e = some s') :
    s'.Sound hash artifact sink part cached := by
  obtain ⟨received, phase⟩ := s
  obtain ⟨hc, h⟩ := h
  cases step_cases hstep with
  | opened io signed => exact sound_opened hpart _ io signed hc
  | range i signed attempts io after hlen hresult =>
      exact sound_range hpart _ io after hlen hresult hc h
  | unsent n signed => exact sound_failed hc h (by simp [FetchFailure.intoError])
  | answered n signed response io => exact sound_answer _ response io hc h
  | chunk n signed offset got bytes io => exact sound_chunk _ bytes io hc h.2
  | bodyEnd n signed offset got => exact ⟨hc, h.1⟩
  | cut n signed offset got => exact sound_failed hc h.1 (by simp [FetchFailure.intoError])
  | refreshed n => exact sound_enter hc h
  | notRefreshed n => exact ⟨hc, by simp [Phase.Sound]⟩
  | finished io => exact sound_finished io hc

theorem sound_start : (start hash artifact sink cached).Sound hash artifact sink part cached := by
  refine ⟨⟨rfl, rfl, by simp [start]⟩, ?_⟩
  unfold start
  dsimp only
  cases hcache : fromCache hash artifact sink cached with
  | none =>
      intro len _
      exact Nat.zero_le len
  | some bytes =>
      refine ⟨?_, fun h => by rw [hcache] at h; cases h⟩
      cases sink with
      | memory => exact of_decide_eq_true (Option.filter_eq_some_iff.mp hcache).2
      | tempFile => cases hcache

/-- What holds after every run, whatever the server does. -/
theorem run_sound (hpart : 0 < part) {es : List FetchEvent} {s : FetchState}
    (hrun : Run (fun s e s' => step hash artifact sink part s e = some s')
      (start hash artifact sink cached) es s) : s.Sound hash artifact sink part cached :=
  hrun.invariant (P := fun _ => True) sound_start (fun _ h hstep => sound_step hpart h hstep)
    (fun _ _ => trivial)

end Runs

end Ripclone.Client.Transfer
