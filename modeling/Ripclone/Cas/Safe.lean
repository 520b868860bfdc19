import Ripclone.Cas.Durable

/-!
# Builds in the store

Every build is safe next to the others: it renames only files of its own whose bytes are on disk, and
reports an object when its name is on disk too.
-/

namespace Ripclone.Cas

open Ripclone.Library

/-- What is documented of SHA-256: 32 bytes are 64 hex digits. -/
structure Hashes.Ok (hashes : Hashes) : Prop where
  sha256 : ∀ data, (hashes.sha256 data).length = 64

/-- A build's part is safe next to the other builds. -/
abbrev SafeIn (hashes : Hashes) (t : Nat) {α : Type} (K : Store → Prop) (x : CasM α)
    (post : α → Store → Prop) : Prop :=
  effects.SafeExcept (Store.Ok hashes) (Keeps none) t K x post

section Parts

variable {hashes : Hashes} {t file source : Nat} {hash : String} {data : Bytes} {K : Store → Prop}

theorem orThrow_safe {α : Type} {L : α → Store → Prop} (context : String) (result : Except IoError α) :
    SafeIn hashes t (fun s => K s ∧ ∀ a, result = .ok a → L a s) (orThrow context result) fun a s =>
      K s ∧ L a s := by
  cases result with
  | ok a => exact .ret fun _ _ h => ⟨h.1, h.2 a rfl⟩
  | error error => exact .throw _

theorem orFail_safe {L : Store → Prop} (context : String) (result : Except IoError Unit) :
    SafeIn hashes t (fun s => K s ∧ (result = .ok () → L s)) (orThrow context result) fun _ s =>
      K s ∧ L s := by
  cases result with
  | ok a => exact .ret fun _ _ h => ⟨h.1, h.2 rfl⟩
  | error error => exact .throw _

theorem ofExcept_safe {α : Type} (result : Except CasError α) :
    SafeIn hashes t K (MonadExcept.ofExcept result) fun a s => K s ∧ result = .ok a := by
  cases result with
  | ok a => exact .ret fun _ _ h => ⟨h, rfl⟩
  | error error => exact .throw _

theorem objectPath_ok {key : String × String} (h : objectPath hash = .ok key) : key = objectKey hash := by
  unfold objectPath at h
  split at h
  · exact (pure_eq_ok.mp h).symm
  · cases h

theorem isDir_safe (hK : Stable t K) :
    SafeIn hashes t K (attempt (Call.isDir (objectKey hash).1)) fun (found : Bool) s =>
      K s ∧ (found = true → DirReady hash s) := by
  refine .attempt ?_ fun found => hK.and Stable.dirReady.imp
  rintro s found _ hs hbefore ⟨hdir, rfl⟩
  have hkeeps (other : Nat) : Keeps none other s
      { s with raced := s.raced || (found && decide (s.disk.dirs (objectKey hash).1 = some false)) } :=
    .of_files rfl rfl rfl rfl (fun hraced => by simp [hraced]) fun _ _ _ hfile _ => hfile
  refine ⟨hs.of_disk rfl rfl rfl fun hraced => (Bool.or_eq_false_iff.mp hraced).1, fun other _ => hkeeps other,
    hK _ _ hbefore (hkeeps t), ?_⟩
  rintro rfl
  refine ⟨hdir rfl, fun hraced => ?_⟩
  -- the directory is there, and nobody was too fast
  obtain ⟨synced, hsynced⟩ := Option.ne_none_iff_exists'.mp (hdir rfl)
  cases synced with
  | true => exact hsynced
  | false => simp [hsynced] at hraced

/-- The directory is there afterwards, and on disk unless a build was too fast. -/
theorem createObjectDir_safe (hK : Stable t K) :
    SafeIn hashes t K (createObjectDir true (objectKey hash)) fun _ s => K s ∧ DirReady hash s := by
  have hthere : Stable t fun s => s.disk.dirs (objectKey hash).1 ≠ none := fun _ _ h hkeeps => hkeeps.dirs _ h
  refine .bind (isDir_safe hK) fun found => ?_
  cases found with
  | true => exact .ret fun _ _ h => ⟨h.1, h.2 rfl⟩
  | false =>
      have hmade : SafeIn hashes t K (attempt (Call.makeDir (objectKey hash).1))
          fun (made : Except IoError Unit) s =>
            K s ∧ (made = .ok () → s.disk.dirs (objectKey hash).1 ≠ none) := by
        refine .attempt ?_ fun _ => hK.and hthere.imp
        rintro s made s' hs hbefore (rfl | ⟨hfailed, rfl⟩)
        · obtain ⟨hok, hkeeps, hdir⟩ := makeDir_step hs (objectKey hash).1
          exact ⟨hok, fun other _ => hkeeps other, hK _ _ hbefore (hkeeps t), fun _ => hdir⟩
        · exact ⟨hs, fun other _ => .refl s' none other, hbefore, fun hmade => absurd hmade hfailed⟩
      have hsynced : SafeIn hashes t (fun s => K s ∧ s.disk.dirs (objectKey hash).1 ≠ none)
          (attempt Call.syncRoot) fun (synced : Except IoError Unit) s =>
            K s ∧ (synced = .ok () → DirReady hash s) := by
        refine .attempt ?_ fun _ => hK.and Stable.dirReady.imp
        rintro s synced s' hs ⟨hbefore, hdir⟩ (rfl | ⟨hfailed, rfl⟩)
        · obtain ⟨hok, hkeeps, hall⟩ := syncRoot_step hs
          have hon := hall _ hdir
          refine ⟨hok, fun other _ => hkeeps other, hK _ _ hbefore (hkeeps t), fun _ => ⟨?_, fun _ => hon⟩⟩
          exact (hkeeps t).dirs _ hdir
        · exact ⟨hs, fun other _ => .refl s' none other, hbefore, fun hsynced => absurd hsynced hfailed⟩
      refine .bind (hmade.weaken fun _ _ h => h.1) fun made => .bind (orFail_safe _ made) fun _ => ?_
      exact .bind hsynced fun synced => orFail_safe _ synced

/-- The bytes of a file are on disk afterwards. -/
theorem syncFile_safe {synced : Bool} (hK : ∀ touched s s', K s → Keeps touched t s s' → K s') :
    SafeIn hashes t (fun s => K s ∧ Own t file data synced s) (syncFile true file) fun _ s =>
      K s ∧ Own t file data true s := by
  have hsync : SafeIn hashes t (fun s => K s ∧ Own t file data synced s) (attempt (Call.sync file))
      fun (result : Except IoError Unit) s => K s ∧ (result = .ok () → Own t file data true s) := by
    refine .attempt ?_ fun _ => Stable.and (hK none) Stable.own.imp
    rintro s result s' hs ⟨hbefore, hown⟩ (rfl | ⟨hfailed, rfl⟩)
    · obtain ⟨hok, hothers, hkeeps, hfile, hun⟩ := change_step hs hown
      exact ⟨hok, hothers, hK _ _ _ hbefore hkeeps, fun _ => ⟨hfile, hun⟩⟩
    · exact ⟨hs, fun other _ => .refl s' none other, hbefore, fun hok => absurd hok hfailed⟩
  exact .bind hsync fun result => orFail_safe _ result

/-- A file of the build is written to. -/
theorem write_safe {synced : Bool} (more : Bytes) :
    SafeIn hashes t (Own t file data synced) (attempt (Call.write file more))
      fun (written : Except IoError Unit) s => True ∧ (written = .ok () → Own t file (data ++ more) false s) := by
  refine .attempt ?_ fun _ => Stable.true.and Stable.own.imp
  rintro s written _ hs hown ⟨data', hdata, rfl⟩
  obtain ⟨hok, hothers, _, hfile, hun⟩ := change_step (g := fun f => { f with data := data', synced := false }) hs hown
  refine ⟨hok, hothers, trivial, fun hwritten => ?_⟩
  obtain rfl := hdata hwritten _ hown.1
  exact ⟨hfile, hun⟩

theorem writeAll_safe (pieces : List Bytes) :
    SafeIn hashes t (Own t file data false) (writeAll file pieces) fun _ =>
      Own t file (data ++ pieces.flatten) false := by
  induction pieces generalizing data with
  | nil =>
      rw [List.flatten_nil, List.append_nil]
      exact .ret fun _ _ h => h
  | cons piece rest ih =>
      rw [List.flatten_cons, ← List.append_assoc]
      refine .bind (write_safe piece) fun written => .bind (orFail_safe _ written) fun _ => ?_
      exact ih.weaken fun _ _ h => h.2

/-- A temporary file is new. -/
theorem createTemp_safe (hK : Stable t K) :
    SafeIn hashes t K (attempt Call.createTemp) fun (tmp : Except IoError Nat) s =>
      K s ∧ ∀ file, tmp = .ok file → Own t file [] false s := by
  refine .attempt ?_ fun tmp => ?_
  · rintro s tmp s' hs hbefore hdoes
    cases tmp with
    | ok file =>
        obtain ⟨rfl, rfl⟩ := hdoes
        obtain ⟨hok, hkeeps, hown⟩ := create_step (t := t) hs
        refine ⟨hok, fun other _ => hkeeps other, hK _ _ hbefore (hkeeps t), fun file hfile => ?_⟩
        obtain rfl := Except.ok.inj hfile
        exact hown
    | error error =>
        obtain rfl := hdoes
        exact ⟨hs, fun other _ => .refl s' none other, hbefore, fun _ hfile => by cases hfile⟩
  · exact hK.and (.all fun _ => .own)

theorem writer_safe (hK : Stable t K) :
    SafeIn hashes t K writer fun file s => K s ∧ Own t file [] false s := by
  exact .bind (createTemp_safe hK) fun tmp => orThrow_safe _ tmp

/-- An object that is read is there. -/
theorem verifyObject_safe (hK : Stable t K) (hpin : ∀ s, K s → Pinned t hash s) :
    effects.Safe (Store.Ok hashes) (Keeps none) t K (verifyObject hashes hash).run fun result s =>
      K s ∧ (result.isOk = true → Pinned t hash s ∧ s.disk.entries (objectKey hash) ≠ none) := by
  rw [verifyObject]
  cases hpath : objectPath hash with
  | error error => exact .pure fun _ _ h => ⟨h, fun hok => by cases hok⟩
  | ok key =>
      obtain rfl := objectPath_ok hpath
      refine .call (fun (read : Except IoError Bytes) s => K s ∧ ∀ data, read = .ok data →
        Pinned t hash s ∧ s.disk.entries (objectKey hash) ≠ none) ?_
        (fun _ => hK.and (.all fun _ => .entry)) fun read => ?_
      · rintro s read _ hs hbefore ⟨rfl, hfound⟩
        refine ⟨hs, fun other _ => .refl _ none other, hbefore, fun data hdata => ⟨hpin _ hbefore, ?_⟩⟩
        obtain ⟨file, _, hentry, _⟩ := hfound data hdata
        rw [hentry]
        exact Option.some_ne_none file
      · cases read with
        | error error => exact .pure fun _ _ h => ⟨h.1, fun hok => by cases hok⟩
        | ok data =>
            show effects.Safe _ _ t _ (if _ then _ else _ : CasM Nat).run _
            split
            · exact .pure fun _ _ h => ⟨h.1, fun hok => by cases hok⟩
            · exact .pure fun _ _ h => ⟨h.1, fun _ => h.2 data rfl⟩

theorem verified_safe (hK : Stable t K) (hpin : ∀ s, K s → Pinned t hash s) :
    SafeIn hashes t K (verified hashes hash) fun intact s =>
      K s ∧ (intact = true → Pinned t hash s ∧ s.disk.entries (objectKey hash) ≠ none) :=
  .bind (.lift (verifyObject_safe hK hpin)) fun _ => .ret fun _ _ h => h

/-- The build's file gets the object's name. -/
theorem rename_safe (hK : ∀ touched s s', K s → Keeps touched t s s' → K s')
    (hpin : ∀ s, K s → Pinned t hash s) (hnamed : Named hashes (objectKey hash) data) :
    SafeIn hashes t (fun s => K s ∧ Own t file data true s) (attempt (Call.rename file (objectKey hash)))
      fun (renamed : Except IoError Unit) s =>
        (K s ∧ (renamed = .ok () → Pinned t hash s ∧ s.disk.entries (objectKey hash) ≠ none)) ∧
          ∀ error, renamed = .error error → Own t file data true s := by
  refine .attempt ?_ fun _ => (Stable.and (hK none) Stable.entry.imp).and (.all fun _ => .own)
  rintro s renamed s' hs ⟨hbefore, hown⟩ hdoes
  cases renamed with
  | ok _ =>
      obtain ⟨_, rfl⟩ := hdoes
      obtain ⟨hok, hothers, hkeeps⟩ := rename_step hs hown hnamed
      have hafter := hK _ _ _ hbefore hkeeps
      refine ⟨hok, hothers, ⟨hafter, fun _ => ⟨hpin _ hafter, ?_⟩⟩, fun _ herror => by cases herror⟩
      dsimp only [Disk.setEntry]
      rw [Function.update_self]
      exact Option.some_ne_none file
  | error error =>
      obtain rfl := hdoes
      exact ⟨hs, fun other _ => .refl s' none other, ⟨hbefore, fun hok => by cases hok⟩, fun _ _ => hown⟩

/-- What an install knows of its object: the pin, and the directory. -/
def Ready (t : Nat) (hash : String) (s : Store) : Prop := Pinned t hash s ∧ DirReady hash s

theorem Ready.keeps {touched : Option Nat} (s s' : Store) (h : Ready t hash s) (hkeeps : Keeps touched t s s') :
    Ready t hash s' :=
  ⟨h.1.keeps hkeeps, h.2.keeps hkeeps⟩

/-- Another file of the build, which stays as it is. -/
theorem copy_safe {data' : Bytes} {synced : Bool} :
    SafeIn hashes t (fun s => (Ready t hash s ∧ Own t source data true s) ∧ Own t file data' synced s)
      (attempt (Call.copy source file)) fun (copied : Except IoError Unit) s =>
        Ready t hash s ∧ (copied = .ok () → Own t file data false s) := by
  refine .attempt ?_ fun _ => Stable.and (fun _ _ h hkeeps => Ready.keeps _ _ h hkeeps) Stable.own.imp
  rintro s copied _ hs ⟨⟨hready, hsource⟩, hown⟩ ⟨bytes, hbytes, rfl⟩
  obtain ⟨hok, hothers, hkeeps, hfile, hun⟩ :=
    change_step (g := fun f => { f with data := bytes, synced := false }) hs hown
  refine ⟨hok, hothers, Ready.keeps _ _ hready hkeeps, fun hcopied => ?_⟩
  obtain rfl := hbytes hcopied _ hsource.1
  exact ⟨hfile, hun⟩

/-- A rename that failed leaves an intact copy in its place. -/
theorem moveInto_intact {error : IoError} : SafeIn hashes t (Ready t hash)
    (do
      let intact ← verified hashes hash
      if intact then return () else throw (.io s!"rename CAS object {hash}" error))
    fun _ s => Ready t hash s ∧ Pinned t hash s ∧ s.disk.entries (objectKey hash) ≠ none := by
  refine .bind (verified_safe (fun _ _ h hkeeps => Ready.keeps _ _ h hkeeps) fun _ h => h.1) fun intact => ?_
  cases intact with
  | true => exact .ret fun _ _ h => ⟨h.1, h.2 rfl⟩
  | false => exact .throw _

theorem moveInto_safe (hnamed : Named hashes (objectKey hash) data) :
    SafeIn hashes t (fun s => Ready t hash s ∧ Own t source data true s)
      (moveInto hashes true hash source (objectKey hash)) fun _ s =>
        Ready t hash s ∧ Pinned t hash s ∧ s.disk.entries (objectKey hash) ≠ none := by
  have hready : Stable t (Ready t hash) := fun _ _ h hkeeps => Ready.keeps _ _ h hkeeps
  refine .bind (rename_safe (fun _ => Ready.keeps) (fun _ h => h.1) hnamed) fun renamed => ?_
  match renamed with
  | .ok () => exact .ret fun _ _ h => ⟨h.1.1, h.1.2 rfl⟩
  | .error .crossesDevices =>
      refine .bind ((createTemp_safe (hready.and .own)).weaken fun _ _ h => ⟨h.1.1, h.2 _ rfl⟩) fun tmp => ?_
      refine .bind (orThrow_safe _ tmp) fun file => ?_
      refine .bind copy_safe fun copied => .bind (orFail_safe _ copied) fun _ => ?_
      refine .bind (syncFile_safe fun _ => Ready.keeps) fun _ => ?_
      refine .bind (rename_safe (fun _ => Ready.keeps) (fun _ h => h.1) hnamed) fun renamed => ?_
      exact (orFail_safe _ renamed).weaken fun _ _ h => h.1
  | .error .notFound => exact moveInto_intact.weaken fun _ _ h => h.1.1
  | .error .other => exact moveInto_intact.weaken fun _ _ h => h.1.1

/-- No crash loses the object's name afterwards, if it spares the directory. -/
theorem syncEntry_safe : SafeIn hashes t
    (fun s => Ready t hash s ∧ Pinned t hash s ∧ s.disk.entries (objectKey hash) ≠ none)
    (syncEntry true (objectKey hash)) fun _ s =>
      Ready t hash s ∧ Pinned t hash s ∧ s.disk.Present (objectKey hash) := by
  have hready : Stable t (Ready t hash) := fun _ _ h hkeeps => Ready.keeps _ _ h hkeeps
  have hsync : SafeIn hashes t
      (fun s => Ready t hash s ∧ Pinned t hash s ∧ s.disk.entries (objectKey hash) ≠ none)
      (attempt (Call.syncDir (objectKey hash).1)) fun (synced : Except IoError Unit) s =>
        Ready t hash s ∧ (synced = .ok () → Pinned t hash s ∧ s.disk.Present (objectKey hash)) := by
    refine .attempt ?_ fun _ => hready.and Stable.present.imp
    rintro s synced s' hs ⟨hbefore, hpinned, hentry⟩ (rfl | ⟨hfailed, rfl⟩)
    · obtain ⟨hok, hkeeps⟩ := syncDir_step hs (objectKey hash).1
      obtain ⟨file, hfile⟩ := Option.ne_none_iff_exists'.mp hentry
      exact ⟨hok, fun other _ => hkeeps other, hready _ _ hbefore (hkeeps t),
        fun _ => ⟨hpinned, Disk.present_of_sync hfile⟩⟩
    · exact ⟨hs, fun other _ => .refl s' none other, hbefore, fun hok => absurd hok hfailed⟩
  exact .bind hsync fun synced => orFail_safe _ synced

/-- An object is reported when no crash loses it. -/
theorem onStore_safe : SafeIn hashes t
    (fun s => Ready t hash s ∧ Pinned t hash s ∧ s.disk.Present (objectKey hash))
    (attempt (Call.onStore hash)) fun (_ : Unit) _ => True := by
  refine .attempt ?_ fun _ => Stable.true
  rintro s _ s' hs ⟨⟨_, hdir, hraced⟩, _, hpresent⟩ hdoes
  obtain rfl := hdoes
  split
  · next hon =>
      refine ⟨⟨hs.intact, ?_, hs.atRisk, hs.raced⟩, fun other _ =>
        .of_files rfl rfl rfl rfl id fun _ _ _ hfile _ => hfile, trivial⟩
      intro other hother
      rcases List.mem_cons.mp hother with rfl | hother
      · exact ⟨hpresent, hon⟩
      · exact hs.stored other hother
  · next hoff =>
      refine ⟨⟨hs.intact, hs.stored, ?_, fun hfalse => absurd (hraced hfalse) hoff⟩, fun other _ =>
        .of_files rfl rfl rfl rfl id fun _ _ _ hfile _ => hfile, trivial⟩
      intro other hother
      rcases List.mem_cons.mp hother with rfl | hother
      · exact hpresent
      · exact hs.atRisk other hother

theorem pin_safe (hK : Stable t K) :
    SafeIn hashes t K (attempt (Call.pin hash)) fun (_ : Unit) s => K s ∧ Pinned t hash s := by
  refine .attempt ?_ fun _ => hK.and .pinned
  rintro s _ _ hs hbefore rfl
  have hkeeps (other : Nat) : Keeps none other s { s with pins := (t, hash) :: s.pins } :=
    ⟨fun _ _ _ hfile _ hun => ⟨hfile, hun⟩, fun _ h => h, fun _ h => h,
      fun _ h => List.mem_cons_of_mem _ h, fun _ _ h => h, fun _ _ h => h, id⟩
  exact ⟨hs.of_disk rfl rfl rfl id, fun other _ => hkeeps other, hK _ _ hbefore (hkeeps t), List.mem_cons_self⟩

theorem install_safe (hnamed : Named hashes (objectKey hash) data) :
    SafeIn hashes t (Own t source data true) (install hashes true hash source) fun _ _ => True := by
  refine .bind (ofExcept_safe _) fun key => .assuming fun hkey => ?_
  obtain rfl := objectPath_ok hkey
  refine .bind (pin_safe .own) fun _ => .bind (createObjectDir_safe (Stable.own.and .pinned)) fun _ => ?_
  refine .bind ((moveInto_safe hnamed).weaken fun _ _ h => ⟨⟨h.1.2, h.2⟩, h.1.1⟩) fun _ => ?_
  exact .bind syncEntry_safe fun _ => .bind onStore_safe fun _ => .ret fun _ _ _ => trivial

theorem named_sha256 (hhashes : hashes.Ok) (data : Bytes) :
    Named hashes (objectKey (hashes.sha256 data)) data := by
  show hashes.forObjectId (hashes.sha256 data) data = hashes.sha256 data
  rw [Hashes.forObjectId, hhashes.sha256 data]
  rfl

end Parts

/-! ## The operations -/

section Operations

variable {hashes : Hashes} {t : Nat}

/-- A temporary file is written, and the rest works with it. -/
theorem written_safe {α : Type} {post : α → Store → Prop} {pieces : List Bytes} {rest : Nat → CasM α}
    (hrest : ∀ file, SafeIn hashes t (Own t file pieces.flatten false) (rest file) post) :
    SafeIn hashes t (fun _ => True) (do
      let file ← writer
      writeAll file pieces
      rest file) post := by
  refine .bind (writer_safe Stable.true) fun file => ?_
  refine .bind ((writeAll_safe pieces).weaken fun _ _ h => h.2) fun _ => ?_
  rw [List.nil_append]
  exact hrest file

theorem finish_safe (hhashes : hashes.Ok) {file : Nat} {pieces : List Bytes} :
    SafeIn hashes t (Own t file pieces.flatten false) (finish hashes true file pieces) fun _ _ => True := by
  have hsync := @syncFile_safe hashes t file pieces.flatten (fun _ => True) false fun _ _ _ h _ => h
  refine .bind (hsync.weaken fun _ _ h => ⟨trivial, h⟩) fun _ => ?_
  have hinstall := @install_safe hashes t file _ _ (named_sha256 hhashes pieces.flatten)
  exact .bind (hinstall.weaken fun _ _ h => h.2) fun _ => .ret fun _ _ _ => trivial

theorem put_safe (hhashes : hashes.Ok) (pieces : List Bytes) :
    SafeIn hashes t (fun _ => True) (put hashes true pieces) fun _ _ => True :=
  written_safe fun _ => finish_safe hhashes

/-- An object that is not kept is written and installed. -/
theorem putNew_safe {hash : String} {data : Bytes} (hnamed : Named hashes (objectKey hash) data) :
    SafeIn hashes t (fun _ => True) (do
      createObjectDir true (objectKey hash)
      let tmp : Except IoError Nat ← attempt Call.createTemp
      let tmp ← orThrow s!"create CAS object tmp {hash}" tmp
      let written : Except IoError Unit ← attempt (Call.write tmp data)
      orThrow s!"write CAS object tmp {hash}" written
      syncFile true tmp
      install hashes true hash tmp) fun _ _ => True := by
  have hsync (file : Nat) := @syncFile_safe hashes t file data (fun _ => True) false fun _ _ _ h _ => h
  refine .bind (createObjectDir_safe Stable.true) fun _ => ?_
  refine .bind ((createTemp_safe Stable.true).weaken fun _ _ _ => trivial) fun tmp => ?_
  refine .bind (orThrow_safe _ tmp) fun file => ?_
  refine .bind ((write_safe data).weaken fun _ _ h => h.2) fun written => .bind (orFail_safe _ written) fun _ => ?_
  refine .bind (hsync file) fun _ => ?_
  exact (install_safe hnamed).weaken fun _ _ h => h.2

theorem objectExists_safe {key : String × String} {K : Store → Prop} (hK : Stable t K) :
    SafeIn hashes t K (attempt (Call.objectExists key)) fun (_ : Bool) => K := by
  refine .attempt ?_ fun _ => hK
  rintro s found _ hs hbefore rfl
  exact ⟨hs, fun other _ => .refl _ none other, hbefore⟩

theorem putWithHash_safe (hash : String) (data : Bytes) :
    SafeIn hashes t (fun _ => True) (putWithHash hashes true hash data) fun _ _ => True := by
  refine .bind (ofExcept_safe _) fun actual => .assuming fun hactual => ?_
  split
  · exact .throw _
  · next heq =>
      obtain rfl := not_not.mp heq
      have hnamed : Named hashes (objectKey actual) data := by
        unfold hashBytesForObjectId at hactual
        split at hactual
        · exact pure_eq_ok.mp hactual
        · cases hactual
      refine .bind (ofExcept_safe _) fun key => .assuming fun hkey => ?_
      obtain rfl := objectPath_ok hkey
      refine .bind (pin_safe Stable.true) fun _ => ?_
      refine .bind (objectExists_safe (Stable.true.and .pinned)) fun found => ?_
      -- what is not intact is written again
      cases found with
      | true =>
          have hverified := @verified_safe hashes t actual _ (Stable.true.and .pinned) fun _ h => h.2
          refine .bind (hverified.post fun _ _ _ => trivial) fun intact => ?_
          cases intact with
          | true => exact .ret fun _ _ h => h
          | false => exact putNew_safe hnamed
      | false => exact (putNew_safe hnamed).weaken fun _ _ _ => trivial

theorem putFileWithHash_safe (hash : String) (pieces : List Bytes) :
    SafeIn hashes t (fun _ => True) (putFileWithHash hashes true hash pieces) fun _ _ => True := by
  refine .bind (ofExcept_safe _) fun key => .assuming fun hkey => ?_
  obtain rfl := objectPath_ok hkey
  refine written_safe fun file => ?_
  dsimp only
  split
  · exact .throw _
  · next heq =>
      have hnamed : Named hashes (objectKey hash) pieces.flatten := not_not.mp heq
      have hsync := @syncFile_safe hashes t file pieces.flatten (fun _ => True) false fun _ _ _ h _ => h
      refine .bind (hsync.weaken fun _ _ h => ⟨trivial, h⟩) fun _ => ?_
      refine .bind (createObjectDir_safe (Stable.true.and .own)) fun _ => ?_
      exact .bind ((install_safe hnamed).weaken fun _ _ h => h.1.2) fun _ => .ret fun _ _ _ => trivial

/-- The bytes of a file that the caller has are what it wrote. -/
theorem readFile_safe {file : Nat} {data : Bytes} {synced : Bool} :
    SafeIn hashes t (Own t file data synced) (attempt (Call.readFile file))
      fun (read : Except IoError Bytes) s =>
        Own t file data synced s ∧ ∀ found, read = .ok found → found = data := by
  refine .attempt ?_ fun _ => Stable.own.and (.all fun _ _ _ h _ => h)
  rintro s read _ hs hown ⟨rfl, hread⟩
  refine ⟨hs, fun other _ => .refl _ none other, hown, fun found hfound => ?_⟩
  obtain ⟨f, hfile, rfl⟩ := hread found hfound
  obtain rfl := Option.some.inj (hown.1.symm.trans hfile)
  rfl

theorem installFile_safe (hhashes : hashes.Ok) {file : Nat} {data : Bytes} {synced : Bool} :
    SafeIn hashes t (Own t file data synced) (installFile hashes true file) fun _ _ => True := by
  have hsync := @syncFile_safe hashes t file data (fun _ => True) synced fun _ _ _ h _ => h
  refine .bind readFile_safe fun read => .bind (orThrow_safe _ read) fun found => .assuming fun hfound => ?_
  obtain rfl := hfound
  have hinstall := @install_safe hashes t file _ _ (named_sha256 hhashes found)
  refine .bind (hsync.weaken fun _ _ h => ⟨trivial, h⟩) fun _ => ?_
  exact .bind (hinstall.weaken fun _ _ h => h.2) fun _ => .ret fun _ _ _ => trivial

theorem operation_safe (hhashes : hashes.Ok) (operation : Operation) :
    SafeIn hashes t (fun _ => True) (operation.exec hashes true) fun _ _ => True := by
  cases operation with
  | put pieces => exact .bind (put_safe hhashes pieces) fun _ => .ret fun _ _ _ => trivial
  | putWithHash hash data => exact putWithHash_safe hash data
  | putFileWithHash hash pieces => exact .bind (putFileWithHash_safe hash pieces) fun _ => .ret fun _ _ _ => trivial
  | installFile pieces =>
      exact written_safe fun _ => .bind (installFile_safe hhashes) fun _ => .ret fun _ _ _ => trivial

theorem runAll_safe (hhashes : hashes.Ok) (operations : List Operation) :
    SafeIn hashes t (fun _ => True) (runAll hashes true operations) fun _ _ => True := by
  induction operations with
  | nil => exact .ret fun _ _ _ => trivial
  | cons operation rest ih => exact .bind (operation_safe hhashes operation) fun _ => ih

/-- A build that drops its pins is of no concern to the others. -/
theorem build_safe (hhashes : hashes.Ok) (operations : List Operation) :
    effects.Safe (Store.Ok hashes) (Keeps none) t (fun _ => True) (build hashes true operations)
      fun _ _ => True := by
  refine Effects.Safe.bind (Effects.Safe.post (runAll_safe hhashes operations) fun _ _ _ => trivial) fun _ => ?_
  refine .call (fun _ _ => True) ?_ (fun _ _ _ _ _ => trivial) fun _ => .pure fun _ _ _ => trivial
  rintro s _ _ hs _ rfl
  refine ⟨hs.of_disk rfl rfl rfl id, fun other hother => ?_, trivial⟩
  refine ⟨fun _ _ _ hfile _ hun => ⟨hfile, hun⟩, fun _ h => h, fun _ h => h, fun hash h => ?_, fun _ _ h => h,
    fun _ _ h => h, id⟩
  exact List.mem_filter.mpr ⟨h, decide_eq_true hother⟩

end Operations

/-! ## The store -/

/-- Nothing has been stored yet. -/
def Store.new : Store := ⟨.empty, [], [], [], false⟩

/-- The builds of a durable store, each of which does some operations. -/
abbrev Builds (hashes : Hashes) (p : Prog Call Reply Unit) : Prop :=
  ∃ operations, p = build hashes true operations

theorem Store.ok_new (hashes : Hashes) : Store.new.Ok hashes := by
  refine ⟨fun key i hrefers => ?_, ?_, ?_, fun _ => rfl⟩
  · rcases List.mem_cons.mp hrefers with hentry | holder
    · cases hentry
    · cases holder
  · intro _ hmem
    cases hmem
  · intro _ hmem
    cases hmem

/-- A crash may lose every object in a directory that is not on disk. -/
theorem unsynced_lost {s : Store} {hash : String} (hdir : s.disk.dirs (objectKey hash).1 ≠ some true) :
    ∃ s', Crashes s s' ∧ s'.disk.entries (objectKey hash) = none :=
  ⟨⟨s.disk.onlySynced, [], s.stored, [], false⟩, ⟨s.disk.crash_onlySynced, rfl, rfl, rfl, rfl⟩, if_neg hdir⟩

/-- However builds, deletions and crashes follow one another, an object's path leads to nothing or to all the
bytes of its hash. An object whose `install` came to its end stays until it is deleted, through every crash,
or its directory was made and not yet synced by another build. Of an object that `putWithHash` found and kept
nothing is said until an `install` of it came to its end. -/
theorem objects_last {hashes : Hashes} (hhashes : hashes.Ok) {events : List CrewEvent}
    {crew : Crew Call Reply Store}
    (hrun : Run (Crew.Step effects (Builds hashes)) ⟨Store.new, []⟩ events crew) :
    (∀ key file, crew.state.disk.entries key = some file →
      ∃ f, crew.state.disk.files[file]? = some f ∧ hashes.forObjectId key.2 f.data = key.2) ∧
    (∀ hash ∈ crew.state.stored, ∃ file, crew.state.disk.entries (objectKey hash) = some file) ∧
    (crew.state.raced = false → crew.state.atRisk = []) ∧
    ∀ hash, crew.state.disk.dirs (objectKey hash).1 ≠ some true →
      ∃ s', Crashes crew.state s' ∧ s'.disk.entries (objectKey hash) = none := by
  have hok : crew.state.Ok hashes := by
    have hsafe : ∀ p, Builds hashes p → ∀ t,
        effects.Safe (Store.Ok hashes) (Keeps none) t (fun _ => True) p fun _ _ => True := by
      rintro _ ⟨operations, rfl⟩ t
      exact build_safe hhashes operations
    exact Crew.invariant hsafe (fun _ _ => deletes_step) (fun _ _ => crashes_step) (Store.ok_new hashes) hrun
  refine ⟨fun key file hentry => ?_, fun hash hstored => ?_, hok.raced, fun hash hdir => unsynced_lost hdir⟩
  · obtain ⟨f, hfile, _, hnamed⟩ := hok.intact.file hentry
    exact ⟨f, hfile, hnamed⟩
  · exact (hok.stored hash hstored).1.entry

/-! ## Two builds of the same object -/

/-- What a call does on a machine on which nothing fails. -/
def does.plainly (t : Nat) : (c : Call) → Store → Reply c × Store
  | .createTemp, s => (.ok s.disk.files.length, { s with disk := s.disk.create t [] })
  | .write file data, s =>
    let data' := ((s.disk.files[file]?).elim [] fun f => f.data) ++ data
    (.ok (), { s with disk := s.disk.change file fun f => { f with data := data', synced := false } })
  | .copy source file, s =>
    let data' := (s.disk.files[source]?).elim [] fun f => f.data
    (.ok (), { s with disk := s.disk.change file fun f => { f with data := data', synced := false } })
  | .sync file, s => (.ok (), { s with disk := s.disk.change file fun f => { f with synced := true } })
  | .readFile file, s =>
    (((s.disk.files[file]?).map fun f => Except.ok f.data).getD (.error .notFound), s)
  | .readObject key, s =>
    ((((s.disk.entries key).bind fun file => s.disk.files[file]?).map fun f => Except.ok f.data).getD
      (.error .notFound), s)
  | .objectExists key, s => ((s.disk.entries key).isSome, s)
  | .isDir dir, s =>
    let found := (s.disk.dirs dir).isSome
    (found, { s with raced := s.raced || (found && decide (s.disk.dirs dir = some false)) })
  | .makeDir dir, s => (.ok (), { s with disk := s.disk.makeDir dir })
  | .syncRoot, s => (.ok (), { s with disk := s.disk.syncDirs })
  | .syncDir dir, s => (.ok (), { s with disk := s.disk.syncEntries dir })
  | .rename file key, s =>
    if s.disk.dirs key.1 = none then (.error .notFound, s)
    else (.ok (), { s with disk := s.disk.setEntry key (some file) })
  | .pin hash, s => ((), { s with pins := (t, hash) :: s.pins })
  | .onStore hash, s =>
    ((), if s.disk.dirs (objectKey hash).1 = some true then { s with stored := hash :: s.stored }
      else { s with atRisk := hash :: s.atRisk })
  | .release, s => ((), { s with pins := s.pins.filter fun pin => pin.1 ≠ t })

theorem does_plainly (t : Nat) (c : Call) (s : Store) :
    does t c s (does.plainly t c s).1 (does.plainly t c s).2 := by
  cases c with
  | createTemp => exact ⟨rfl, rfl⟩
  | write file data =>
      refine ⟨_, fun _ f hfile => ?_, rfl⟩
      rw [hfile]
      rfl
  | copy source file =>
      refine ⟨_, fun _ f hfile => ?_, rfl⟩
      rw [hfile]
      rfl
  | readFile file =>
      refine ⟨rfl, fun data hdata => ?_⟩
      cases hfile : s.disk.files[file]? with
      | none =>
          rw [does.plainly, hfile] at hdata
          cases hdata
      | some f =>
          rw [does.plainly, hfile] at hdata
          exact ⟨f, rfl, (Except.ok.inj hdata).symm⟩
  | readObject key =>
      refine ⟨rfl, fun data hdata => ?_⟩
      cases hfound : (s.disk.entries key).bind fun file => s.disk.files[file]? with
      | none =>
          rw [does.plainly, hfound] at hdata
          cases hdata
      | some f =>
          rw [does.plainly, hfound] at hdata
          obtain ⟨file, hentry, hfile⟩ := Option.bind_eq_some_iff.mp hfound
          exact ⟨file, f, hentry, hfile, (Except.ok.inj hdata).symm⟩
  | isDir dir =>
      refine ⟨fun hfound hnone => ?_, rfl⟩
      rw [does.plainly, hnone] at hfound
      cases hfound
  | rename file key =>
      rw [does.plainly]
      split
      · rfl
      · next hdir => exact ⟨hdir, rfl⟩
  | objectExists key => rfl
  | sync file => exact .inl rfl
  | makeDir dir => exact .inl rfl
  | syncRoot => exact .inl rfl
  | syncDir dir => exact .inl rfl
  | pin hash => rfl
  | onStore hash => rfl
  | release => rfl

def abc : Bytes := [97, 98, 99]

/-- The hashes of `abc`. -/
def sampleHashes : Hashes where
  sha1 _ := "a9993e364706816aba3e25717850c26c9cd0d89d"
  sha256 _ := "ba7816bf8f01cfea414140de5dae2223b00361a396177a9cb410ff61f20015ad"

/-- Two builds that are about to store it. -/
def twoBuilds : Crew Call Reply Store :=
  let p := build sampleHashes true [.put [abc]]
  ⟨Store.new, [p, p]⟩

/-- The first has made the directory, and the second found it and reports the object. -/
def racing : Crew Call Reply Store := twoBuilds.play does.plainly (List.replicate 6 0 ++ List.replicate 8 1)

/-- The first goes on to its report. -/
def reported : Crew Call Reply Store := racing.play does.plainly (List.replicate 4 0)

/-- The machine goes down. -/
def restarted : Crew Call Reply Store :=
  ⟨⟨reported.state.disk.onlySynced, [], reported.state.stored, [], false⟩, []⟩

theorem play_run (hashes : Hashes) (order : List Nat) (crew : Crew Call Reply Store) :
    ∃ events, Run (Crew.Step effects (Builds hashes)) crew events (crew.play does.plainly order) :=
  Crew.run_play does.plainly does_plainly order crew

theorem racing_run :
    ∃ events, Run (Crew.Step effects (Builds sampleHashes)) ⟨Store.new, []⟩ events racing := by
  have hbuild : Builds sampleHashes (build sampleHashes true [.put [abc]]) := ⟨_, rfl⟩
  obtain ⟨events, hplay⟩ := play_run sampleHashes (List.replicate 6 0 ++ List.replicate 8 1) twoBuilds
  exact ⟨_, ((Run.nil.snoc (.spawn hbuild)).snoc (.spawn hbuild)).append hplay⟩

theorem restarted_run :
    ∃ events, Run (Crew.Step effects (Builds sampleHashes)) ⟨Store.new, []⟩ events restarted := by
  obtain ⟨events, hrun⟩ := racing_run
  obtain ⟨later, hplay⟩ := play_run sampleHashes (List.replicate 4 0) racing
  have hcrash : Crashes reported.state restarted.state := ⟨reported.state.disk.crash_onlySynced, rfl, rfl, rfl, rfl⟩
  exact ⟨_, (hrun.append hplay).snoc (.crash hcrash)⟩

/-- A crash may lose what the second build reports, but not what the first does. -/
theorem sampleHashes_last :
    (sampleHashes.sha256 abc ∈ racing.state.atRisk ∧
      ∃ s', Crashes racing.state s' ∧ s'.disk.entries (objectKey (sampleHashes.sha256 abc)) = none) ∧
    ∃ file, restarted.state.disk.entries (objectKey (sampleHashes.sha256 abc)) = some file := by
  have hhashes : sampleHashes.Ok := by
    refine ⟨fun data => ?_⟩
    show "ba7816bf8f01cfea414140de5dae2223b00361a396177a9cb410ff61f20015ad".length = 64
    decide
  obtain ⟨_, hracing⟩ := racing_run
  obtain ⟨_, hrestarted⟩ := restarted_run
  refine ⟨⟨by decide, ?_⟩, ?_⟩
  · exact (objects_last hhashes hracing).2.2.2 _ (by decide)
  · exact (objects_last hhashes hrestarted).2.1 _ (by decide)

end Ripclone.Cas
