import Ripclone.Library.Traces
import Ripclone.WorktreeWriter

/-!
# What a batch has written

A batch that succeeds has written each of its entries, whatever else went on in the worktree. It fails
only for a path or a mode it refuses, or when a call does.
-/

namespace Ripclone

open Ripclone.Library

/-- A system call and its reply. -/
abbrev FileEvent := Event Call Reply

def permissions (mode : Nat) : Nat := if mode = 0o100755 then 0o755 else 0o644

/-- The calls that write an entry, one after the other: a symlink made, or a file opened and written. -/
def Written (target : PathAt) (mode : Nat) (content : Bytes) (events : List FileEvent) : Prop :=
  if mode = 0o120000 then
    [(⟨.symlink content target, (.ok () : Except Errno Unit)⟩ : FileEvent)] <:+: events
  else
    ∃ handle, [(⟨.openFile target (permissions mode), (.ok handle : Except Errno Handle)⟩ : FileEvent),
      ⟨.write handle content, (.ok () : Except Errno Unit)⟩] <:+: events

theorem Written.mono {target : PathAt} {mode : Nat} {content : Bytes} {events all : List FileEvent}
    (h : Written target mode content events) (hsub : events <:+: all) :
    Written target mode content all := by
  unfold Written at h ⊢
  split
  · next hmode =>
      rw [if_pos hmode] at h
      exact h.trans hsub
  · next hmode =>
      rw [if_neg hmode] at h
      obtain ⟨handle, h⟩ := h
      exact ⟨handle, h.trans hsub⟩

section Written

variable {events : List FileEvent} {target : PathAt} {workTree : Place} {options : WriteOptions}

/-- What comes after something optional. -/
theorem runsTo_when {β : Type} {wanted : Bool} {first : FileM Unit} {rest : FileM β} {b : β}
    (h : RunsTo (do
      if wanted then first
      rest) events b) : ∃ later, later <:+ events ∧ RunsTo rest later b := by
  cases wanted with
  | true =>
      obtain ⟨before, _, later, rfl, -, hlater⟩ := runsTo_bind.mp h
      exact ⟨later, List.suffix_append _ _, hlater⟩
  | false => exact ⟨events, List.suffix_refl _, h⟩

/-- What comes after a look and perhaps a removal. -/
theorem runsTo_removeIf {β : Type} {look : FileM Bool} {rest : FileM β} {b : β}
    (h : RunsTo (do
      if ← look then
        let _ ← removeFile target
      rest) events b) : ∃ later, later <:+ events ∧ RunsTo rest later b := by
  obtain ⟨before, found, later, rfl, -, hlater⟩ := runsTo_bind.mp h
  cases found with
  | true =>
      obtain ⟨removal, _, after, rfl, -, hafter⟩ := runsTo_bind.mp hlater
      exact ⟨after, (List.suffix_append _ _).trans (List.suffix_append _ _), hafter⟩
  | false => exact ⟨later, List.suffix_append _ _, hlater⟩

theorem runsTo_orThrow {error : WriteError} {result : Except Errno Unit}
    (h : RunsTo (orThrow error result) events ()) : result = .ok () ∧ events = [] := by
  cases result with
  | ok => exact ⟨rfl, (runsTo_pure.mp h).1⟩
  | error => cases runsTo_throw.mp h

theorem writeRegularContent_written {mode : Nat} {content : Bytes}
    (h : RunsTo (writeRegularContent target mode (.owned content)) events ()) :
    ∃ handle, [(⟨.openFile target mode, (.ok handle : Except Errno Handle)⟩ : FileEvent),
      ⟨.write handle content, (.ok () : Except Errno Unit)⟩] <:+: events := by
  obtain ⟨later, hsuffix, hrest⟩ := runsTo_removeIf h
  obtain ⟨_, opened, after, rfl, hopen, hopened⟩ := runsTo_bind.mp hrest
  obtain rfl := runsTo_attempt.mp hopen
  cases opened with
  | error => cases runsTo_throw.mp hopened
  | ok handle =>
      obtain ⟨_, _, last, rfl, hpieces, -⟩ := runsTo_bind.mp hopened
      obtain ⟨_, wrote, _, rfl, hwrite, hwrote⟩ := runsTo_bind.mp hpieces
      obtain rfl := runsTo_attempt.mp hwrite
      obtain ⟨_, _, _, rfl, hok, -⟩ := runsTo_bind.mp hwrote
      obtain ⟨rfl, rfl⟩ := runsTo_orThrow hok
      refine ⟨handle, List.IsInfix.trans ?_ hsuffix.isInfix⟩
      exact ⟨[], _, rfl⟩

theorem writeSymlinkEntry_written {content : Bytes}
    (h : RunsTo (writeSymlinkEntry target content) events ()) :
    [(⟨.symlink content target, (.ok () : Except Errno Unit)⟩ : FileEvent)] <:+: events := by
  obtain ⟨later, hsuffix, hrest⟩ := runsTo_removeIf h
  obtain ⟨_, linked, after, rfl, hlink, hlinked⟩ := runsTo_bind.mp hrest
  obtain rfl := runsTo_attempt.mp hlink
  obtain ⟨_, _, last, rfl, hok, -⟩ := runsTo_bind.mp hlinked
  obtain ⟨rfl, rfl⟩ := runsTo_orThrow hok
  exact List.IsInfix.trans ⟨[], _, rfl⟩ hsuffix.isInfix

/-- An entry is written or it is left for later. -/
theorem prepareOwnedEntry_written {write : OwnedFileWrite} {regular : Option PreparedRegularWrite}
    (h : RunsTo (prepareOwnedEntry workTree options write) events regular) :
    write.entry.mode = 0o120000 ∧ regular = none ∧
      Written ⟨workTree, write.entry.path⟩ write.entry.mode write.content.bytes events ∨
    write.entry.mode ≠ 0o120000 ∧
      regular = some ⟨⟨workTree, write.entry.path⟩, permissions write.entry.mode, write.content⟩ := by
  obtain ⟨checks, _, later, rfl, -, h⟩ := runsTo_bind.mp h
  obtain ⟨later₁, hsuffix₁, h₁⟩ := runsTo_when h
  obtain ⟨later₂, hsuffix₂, h₂⟩ := runsTo_when h₁
  have hsuffix := (hsuffix₂.trans hsuffix₁).trans (List.suffix_append checks later)
  dsimp only at h₂
  split at h₂
  · next hmode =>
      obtain ⟨made, _, rest, rfl, hmade, hrest⟩ := runsTo_bind.mp h₂
      refine .inl ⟨hmode, (runsTo_pure.mp hrest).2.symm, ?_⟩
      rw [Written, if_pos hmode]
      refine (writeSymlinkEntry_written hmade).trans ?_
      exact (List.prefix_append made rest).isInfix.trans hsuffix.isInfix
  · next hmode =>
      split at h₂
      · next hregular =>
          have hlast : ∃ last, RunsTo (pure (some ⟨⟨workTree, write.entry.path⟩,
              permissions write.entry.mode, write.content⟩) : FileM _) last regular := by
            split at h₂
            · obtain ⟨last, -, hlast⟩ := runsTo_removeIf h₂
              exact ⟨last, hlast⟩
            · exact ⟨_, h₂⟩
          obtain ⟨last, hlast⟩ := hlast
          exact .inr ⟨hmode, (runsTo_pure.mp hlast).2.symm⟩
      · cases runsTo_throw.mp h₂

/-- The symlinks are written when a batch is prepared, and the regular files are left. -/
theorem prepareOwnedEntries_written {writes : List OwnedFileWrite} {count : Nat}
    {regulars : List PreparedRegularWrite}
    (h : RunsTo (prepareOwnedEntries workTree options writes) events (count, regulars)) :
    count = writes.length ∧ ∀ write ∈ writes,
      write.entry.mode = 0o120000 ∧
        Written ⟨workTree, write.entry.path⟩ write.entry.mode write.content.bytes events ∨
      write.entry.mode ≠ 0o120000 ∧
        ⟨⟨workTree, write.entry.path⟩, permissions write.entry.mode, write.content⟩ ∈ regulars := by
  induction writes generalizing events count regulars with
  | nil =>
      obtain ⟨rfl, rfl⟩ := Prod.mk.inj (runsTo_pure.mp h).2
      exact ⟨rfl, by simp⟩
  | cons write rest ih =>
      obtain ⟨first, regular, later, rfl, hfirst, hlater⟩ := runsTo_bind.mp h
      obtain ⟨others, ⟨counted, prepared⟩, last, rfl, hrest, hlast⟩ := runsTo_bind.mp hlater
      obtain ⟨rfl, hresult⟩ := runsTo_pure.mp hlast
      obtain ⟨rfl, rfl⟩ := Prod.mk.inj hresult
      obtain ⟨rfl, hwritten⟩ := ih hrest
      refine ⟨rfl, List.forall_mem_cons.mpr ⟨?_, fun other hother => ?_⟩⟩
      · rcases prepareOwnedEntry_written hfirst with ⟨hmode, -, hmade⟩ | ⟨hmode, rfl⟩
        · exact .inl ⟨hmode, hmade.mono (List.prefix_append _ _).isInfix⟩
        · exact .inr ⟨hmode, List.mem_append_left _ (by simp)⟩
      · rcases hwritten other hother with ⟨hmode, hmade⟩ | ⟨hmode, hmem⟩
        · refine .inl ⟨hmode, hmade.mono ?_⟩
          rw [List.append_nil]
          exact (List.suffix_append _ _).isInfix
        · exact .inr ⟨hmode, List.mem_append_right _ hmem⟩

theorem writeRegulars_written {writes : List PreparedRegularWrite}
    (h : RunsTo (writeRegulars writes) events ()) {write : PreparedRegularWrite}
    (hmem : write ∈ writes) {content : Bytes} (hcontent : write.content = .owned content) :
    ∃ handle, [(⟨.openFile write.target write.mode, (.ok handle : Except Errno Handle)⟩ : FileEvent),
      ⟨.write handle content, (.ok () : Except Errno Unit)⟩] <:+: events := by
  induction writes generalizing events with
  | nil => cases hmem
  | cons first rest ih =>
      obtain ⟨before, _, later, rfl, hfirst, hlater⟩ := runsTo_bind.mp h
      rcases List.mem_cons.mp hmem with rfl | hrest
      · rw [hcontent] at hfirst
        obtain ⟨handle, hinfix⟩ := writeRegularContent_written hfirst
        exact ⟨handle, hinfix.trans (List.prefix_append _ _).isInfix⟩
      · obtain ⟨handle, hinfix⟩ := ih hlater hrest
        exact ⟨handle, hinfix.trans (List.suffix_append _ _).isInfix⟩

/-- A batch counts its entries and has written each of them. -/
theorem writeOwnedEntries_written {writes : List OwnedFileWrite} {count : Nat}
    (h : RunsTo (writeOwnedEntries workTree writes options) events count) :
    count = writes.length ∧ ∀ write ∈ writes, ∀ content, write.content = .owned content →
      Written ⟨workTree, write.entry.path⟩ write.entry.mode content events := by
  obtain ⟨first, ⟨counted, regulars⟩, later, rfl, hprepared, hlater⟩ := runsTo_bind.mp h
  obtain ⟨second, _, last, rfl, hbatch, hlast⟩ := runsTo_bind.mp hlater
  obtain ⟨rfl, rfl⟩ := runsTo_pure.mp hlast
  obtain ⟨wrote, _, stamps, rfl, hregulars, -⟩ := runsTo_bind.mp hbatch
  obtain ⟨rfl, hwritten⟩ := prepareOwnedEntries_written hprepared
  refine ⟨rfl, fun write hwrite content hcontent => ?_⟩
  rcases hwritten write hwrite with ⟨hmode, hmade⟩ | ⟨hmode, hmem⟩
  · rw [hcontent, show (FileWriteContent.owned content).bytes = content from
      List.append_nil content] at hmade
    exact hmade.mono (List.prefix_append _ _).isInfix
  · obtain ⟨handle, hinfix⟩ := writeRegulars_written hregulars hmem hcontent
    rw [Written, if_neg hmode]
    refine ⟨handle, hinfix.trans ⟨first, stamps ++ [], ?_⟩⟩
    simp only [List.append_assoc, List.append_nil]

end Written

/-! ## When nothing goes wrong -/

section CanReturn

variable (target : PathAt) (workTree : Place)

theorem canReturn_pathExists : CanReturn (pathExists target) false :=
  .call (R := Reply) (Call.stat target) (none : Option Kind) (.pure false)

theorem canReturn_isSymlink : CanReturn (isSymlink target) false :=
  .call (R := Reply) (Call.lstat target) (none : Option Kind) (.pure false)

theorem canReturn_writeAllTo (handle : Handle) (pieces : List Bytes) :
    CanReturn (writeAllTo handle pieces) () := by
  induction pieces with
  | nil => exact .pure ()
  | cons piece rest ih =>
      exact .call (R := Reply) (Call.write handle piece) (.ok () : Except Errno Unit) (.bind (.pure ()) ih)

theorem canReturn_writeRegularContent (mode : Nat) (content : FileWriteContent) :
    CanReturn (writeRegularContent target mode content) () := by
  let handle : Handle := ⟨0, target.base⟩
  refine .bind (canReturn_pathExists target) ?_
  refine .call (R := Reply) (Call.openFile target mode) (.ok handle : Except Errno Handle) ?_
  refine .bind (canReturn_writeAllTo handle content.pieces) ?_
  exact .call (R := Reply) (Call.fstat handle) (.ok () : Except Errno Unit) (.pure ())

theorem canReturn_writeSymlinkEntry (content : Bytes) :
    CanReturn (writeSymlinkEntry target content) () := by
  refine .bind (.bind (canReturn_pathExists target) (canReturn_isSymlink target)) ?_
  refine .call (R := Reply) (Call.symlink content target) (.ok () : Except Errno Unit) (.bind (.pure ()) ?_)
  exact .call (R := Reply) (Call.utimens target false) (.ok () : Except Errno Unit) (.pure ())

/-- A batch is refused for a path or a mode only. -/
theorem canReturn_writeOwnedEntries {writes : List OwnedFileWrite}
    (h : ∀ write ∈ writes, validateRelativePath write.entry.path = .ok () ∧
      write.entry.mode ∈ allowedModes) :
    CanReturn (writeOwnedEntries workTree writes freshIndexedCheckout) writes.length := by
  have hprepare : ∃ regulars, CanReturn
      (prepareOwnedEntries workTree freshIndexedCheckout writes) (writes.length, regulars) := by
    induction writes with
    | nil => exact ⟨[], .pure _⟩
    | cons write rest ih =>
        obtain ⟨⟨hpath, hmode⟩, hrest⟩ := List.forall_mem_cons.mp h
        obtain ⟨regulars, hregulars⟩ := ih hrest
        have hfirst : ∃ regular, CanReturn (prepareOwnedEntry workTree freshIndexedCheckout write)
            regular := by
          have hvalid : CanReturn (validRelativePath write.entry.path) () := by
            rw [validRelativePath, hpath]
            exact .pure ()
          by_cases hlink : write.entry.mode = 0o120000
          · refine ⟨none, .bind hvalid ?_⟩
            show CanReturn (if write.entry.mode = 0o120000 then _ else _) none
            rw [if_pos hlink]
            exact .bind (canReturn_writeSymlinkEntry _ _) (.pure none)
          · refine ⟨some ⟨⟨workTree, write.entry.path⟩, permissions write.entry.mode, write.content⟩,
              .bind hvalid ?_⟩
            show CanReturn (if write.entry.mode = 0o120000 then _ else if _ then _ else _) _
            rw [if_neg hlink, if_pos]
            · exact .pure _
            · simp only [allowedModes, List.mem_cons, List.not_mem_nil, or_false] at hmode
              tauto
        obtain ⟨regular, hregular⟩ := hfirst
        exact ⟨_, .bind hregular (.bind hregulars (.pure _))⟩
  have hregulars (regulars : List PreparedRegularWrite) : CanReturn (writeRegulars regulars) () := by
    induction regulars with
    | nil => exact .pure ()
    | cons write rest ih => exact .bind (canReturn_writeRegularContent _ _ _) ih
  obtain ⟨regulars, hprepared⟩ := hprepare
  exact .bind hprepared (.bind (.bind (hregulars regulars) (.pure ())) (.pure _))

end CanReturn

end Ripclone
