import Ripclone.Control.Turns
import Ripclone.Server.Slots

/-!
# No wake-up is lost

While a slot sleeps and nobody has woken it, each repository with work has somebody who knows: an admission
that is still to tell, a slot that was told, or a slot that is going to look. A slot that builds keeps its
registration, so it may be the one that was told: then the others sleep on until its build ends, which
tells the next, or until their sleep is over.
-/

namespace Ripclone.Slots

open Ripclone.Library Ripclone.Control

/-! ## Repositories with work -/

section Available

variable {store : SqliteControlStore} {now : Int} {pool : Pool} {db db' : Db} {repo : String}

/-- An output that may be claimed, if nothing holds a lease. -/
def Due (store : SqliteControlStore) (now : Int) (columns : OutColumns) : Prop :=
  columns.state = .pending ∧ columns.retryAfter ≤ now ∧ columns.attempts < store.maxAttempts

theorem poolNeeds_of_not_full (hpool : pool ≠ .full) (row : BuildRow) : poolNeeds pool db row = true := by
  cases pool with
  | head => rfl
  | files => rfl
  | full => exact absurd rfl hpool

theorem mem_available (hpool : pool ≠ .full) : repo ∈ available store now pool db ↔
    (∃ row ∈ db.builds, row.repo = repo ∧ Due store now (row.out pool.kind)) ∧
      ∀ busy ∈ db.builds, busy.repo = repo → leaseHeld store now (busy.out pool.kind) = false := by
  simp only [available, List.mem_toFinset, List.mem_map, List.mem_filter, claimable,
    poolNeeds_of_not_full hpool, Bool.and_eq_true, Bool.not_eq_true', decide_eq_true_eq, List.any_eq_false,
    not_and, Bool.not_eq_true, and_true]
  constructor
  · rintro ⟨row, ⟨hrow, ⟨⟨⟨hstate, hfree⟩, hretry⟩, hattempts⟩, hidle⟩, rfl⟩
    exact ⟨⟨row, hrow, rfl, hstate, hretry, hattempts⟩, hidle⟩
  · rintro ⟨⟨row, hrow, rfl, hstate, hretry, hattempts⟩, hidle⟩
    exact ⟨row, ⟨hrow, ⟨⟨⟨hstate, hidle row hrow rfl⟩, hretry⟩, hattempts⟩, hidle⟩, rfl⟩

/-- Nothing but `repos` becomes available: rows of other repositories become due only with a lease on them,
and their leases stay. -/
theorem available_subset (hpool : pool ≠ .full) (repos : Finset String)
    (hdue : ∀ row' ∈ db'.builds, row'.repo ∉ repos → Due store now (row'.out pool.kind) →
      leaseHeld store now (row'.out pool.kind) = false →
      ∃ row ∈ db.builds, row.repo = row'.repo ∧ Due store now (row.out pool.kind))
    (hheld : ∀ row ∈ db.builds, row.repo ∉ repos → leaseHeld store now (row.out pool.kind) = true →
      ∃ row' ∈ db'.builds, row'.repo = row.repo ∧ leaseHeld store now (row'.out pool.kind) = true) :
    available store now pool db' ⊆ repos ∪ available store now pool db := by
  intro repo hrepo
  obtain ⟨⟨row', hrow', rfl, hdue'⟩, hidle⟩ := (mem_available hpool).mp hrepo
  by_cases hin : row'.repo ∈ repos
  · exact Finset.mem_union_left _ hin
  apply Finset.mem_union_right
  apply (mem_available hpool).mpr
  refine ⟨hdue row' hrow' hin hdue' (hidle row' hrow' rfl), fun busy hbusy heq => ?_⟩
  cases hlease : leaseHeld store now (busy.out pool.kind) with
  | false => rfl
  | true =>
      obtain ⟨busy', hbusy', hsame, hlease'⟩ := hheld busy hbusy (heq ▸ hin) hlease
      rw [hidle busy' hbusy' (hsame.trans heq)] at hlease'
      cases hlease'

/-- The rule for a statement that rewrites rows in place. -/
theorem available_update (hpool : pool ≠ .full) (repos : Finset String) {p : BuildRow → Bool}
    {f : BuildRow → BuildRow} (hkey : ∀ row, (f row).key = row.key)
    (hdue : ∀ row ∈ db.builds, p row = true → row.repo ∉ repos → Due store now ((f row).out pool.kind) →
      leaseHeld store now ((f row).out pool.kind) = false → Due store now (row.out pool.kind))
    (hheld : ∀ row ∈ db.builds, p row = true → row.repo ∉ repos →
      leaseHeld store now (row.out pool.kind) = true → leaseHeld store now ((f row).out pool.kind) = true) :
    available store now pool { db with builds := Table.update p f db.builds } ⊆
      repos ∪ available store now pool db := by
  have hrepo : ∀ row, (f row).repo = row.repo := fun row => congrArg Prod.fst (hkey row)
  apply available_subset hpool repos
  · intro row' hrow' hin hdue' hfree
    obtain ⟨row, hrow, rfl⟩ := Table.mem_update.mp hrow'
    by_cases hp : p row = true
    · rw [if_pos hp] at hin hdue' hfree ⊢
      rw [hrepo] at hin ⊢
      exact ⟨row, hrow, rfl, hdue row hrow hp hin hdue' hfree⟩
    · rw [if_neg hp] at hdue' ⊢
      exact ⟨row, hrow, rfl, hdue'⟩
  · intro row hrow hin hlease
    refine ⟨_, Table.mem_update.mpr ⟨row, hrow, rfl⟩, ?_⟩
    split
    · next hp => exact ⟨hrepo row, hheld row hrow hp hin hlease⟩
    · exact ⟨rfl, hlease⟩

/-- A pool without a candidate has no work. -/
theorem available_of_candidate (h : candidate store now pool db = none) :
    available store now pool db = ∅ := by
  have hnone := List.argmin_eq_none.mp h
  unfold available
  rw [hnone]
  rfl

theorem available_of_looks (h : looksForWork store now pool db = false) :
    available store now pool db = ∅ := by
  simp only [looksForWork, Bool.or_eq_false_iff] at h
  exact available_of_candidate (Option.not_isSome_iff_eq_none.mp (by rw [h.2]; exact Bool.false_ne_true))

/-! ### Admissions -/

variable {commit : String} {refName : Option String} {time : Int} {inserted : Bool}

theorem not_due_of_state {columns : OutColumns} (h : columns.state ≠ .pending) : ¬ Due store now columns :=
  fun hdue => h hdue.1

/-- An insert makes work in its own repository. -/
theorem available_insert (hpool : pool ≠ .full) (new : BuildRow) :
    available store now pool (insertBuild new db) ⊆ {new.repo} ∪ available store now pool db := by
  apply available_subset hpool
  · intro row' hrow' hin hdue' _
    rcases Table.mem_insertNew hrow' with hold | ⟨rfl, -⟩
    · exact ⟨row', hold, rfl, hdue'⟩
    · exact absurd (Finset.mem_singleton_self _) hin
  · intro row hrow _ hlease
    exact ⟨row, Table.subset_insertNew _ _ hrow, rfl, hlease⟩

/-- An insert that finds its row changes nothing. -/
theorem insertBuild_of_row (new : BuildRow) (h : (db.row new.key).isNone = false) : insertBuild new db = db := by
  unfold insertBuild Table.insertNew
  rw [if_pos]
  obtain ⟨row, hrow⟩ := Option.isSome_iff_exists.mp (Option.isNone_eq_false_iff.mp h)
  apply List.any_eq_true.mpr
  exact ⟨row, Table.mem_of_lookup hrow, by simpa using Table.key_of_lookup hrow⟩

/-- An admission makes work in its own repository, and none if it inserts nothing. -/
theorem available_admitted (hpool : pool ≠ .full)
    (h : admitBuild repo commit refName time db = .ok (db', inserted)) :
    available store now pool db' ⊆ (if inserted then {repo} else ∅) ∪ available store now pool db := by
  rcases admitBuild_cases repo commit refName time db with ⟨_, herror⟩ | hplain | ⟨hrow, missing, hfill⟩
  · rw [herror] at h
    cases h
  · rw [hplain] at h
    obtain ⟨rfl, rfl⟩ := Prod.mk.inj (Except.ok.inj h)
    cases hrow : (db.row (repo, commit)).isNone with
    | false =>
        rw [insertBuild_of_row (newBuild repo commit refName time (nextSeq db)) hrow]
        exact Finset.subset_union_right
    | true => exact available_insert hpool _
  · rw [hfill] at h
    obtain ⟨rfl, rfl⟩ := Prod.mk.inj (Except.ok.inj h)
    rw [insertBuild_of_row (newBuild repo commit refName time (nextSeq db)) hrow]
    rw [if_neg Bool.false_ne_true]
    apply available_update hpool ∅ (key_fillRefName refName)
    · intro row _ _ _ hdue _
      rwa [out_fillRefName] at hdue
    · intro row _ _ _ hlease
      rwa [out_fillRefName]

/-- The row that an admission inserts. -/
theorem row_admitted (h : admitBuild repo commit refName time db = .ok (db', true)) :
    db'.row (repo, commit) = some (newBuild repo commit refName time (nextSeq db)) := by
  rcases admitBuild_cases repo commit refName time db with ⟨_, herror⟩ | hplain | ⟨_, missing, hfill⟩
  · rw [herror] at h
    cases h
  · rw [hplain] at h
    obtain ⟨rfl, hrow⟩ := Prod.mk.inj (Except.ok.inj h)
    rw [row_insertBuild, Option.isNone_iff_eq_none.mp hrow]
    exact if_pos rfl
  · rw [hfill] at h
    cases h

/-- A reset makes work in its own repository, and none if the pool's kind is not pending after it. -/
theorem available_retry (hpool : pool ≠ .full) (hkeys : db.KeysUnique) :
    available store now pool (retry repo commit db).1 ⊆
      (if (retry repo commit db).2.any fun row => (row.out pool.kind).state = .pending then {repo} else ∅) ∪
        available store now pool db := by
  apply available_update hpool _ key_resetRow
  · intro row hrow hp hin hdue _
    simp only [Bool.and_eq_true, decide_eq_true_eq] at hp
    -- The row that is reset is the one that is returned, so its repository is left out.
    have hlookup : db.row (repo, commit) = some row := hp.1 ▸ Table.lookup_of_mem hkeys hrow
    have hreturned : (retry repo commit db).2 = some (resetRow row) := by
      refine (row_retry hlookup).trans ?_
      rw [if_pos rfl]
    rw [hreturned, Option.any_some, if_pos (decide_eq_true hdue.1)] at hin
    exact absurd (Finset.mem_singleton.mpr (congrArg Prod.fst hp.1)) hin
  · intro row _ _ _ hlease
    rw [out_resetRow, resetFailed]
    split <;> exact hlease

/-! ### Claims -/

theorem leaseHeld_of_same {columns columns' : OutColumns} (h : leaseHeld store now columns = true)
    (hlease : columns'.lease = columns.lease) : leaseHeld store now columns' = true := by
  rwa [leaseHeld, hlease]

theorem available_giveUp (hpool : pool ≠ .full) :
    available store now pool (giveUp store now pool.kind db) ⊆ available store now pool db := by
  rw [← Finset.empty_union (available store now pool db)]
  apply available_update hpool ∅ (key_giveUpRow store pool.kind)
  · intro row _ _ _ hdue _
    have hfailed := (giveUpRow_idle store pool.kind row).1
    exact absurd (hfailed.symm.trans hdue.1) OutState.noConfusion
  · intro row _ hp _ hlease
    simp [exhausted, hlease] at hp

/-- What a claim writes to its row is a lease that is held. -/
theorem held_leaseRow {owner : String} {until_ : Int} {row : BuildRow} :
    leaseHeld store now ((leaseRow pool.kind (leaseOwner store owner) until_ row).out pool.kind) = true := by
  have hprefix : store.instanceId.toList.isPrefixOf (leaseOwner store owner).toList = true := by
    rw [leaseOwner, String.toList_append, List.isPrefixOf_iff_prefix]
    exact List.prefix_append _ _
  rw [out_leaseRow, if_pos rfl]
  simp only [leaseHeld, hprefix, Bool.or_true]

/-- A claim takes its repository. -/
theorem available_take (hpool : pool ≠ .full) {owner : String} {lease : Nat} {claim : Claim}
    (h : claimTransaction store now owner pool lease db = (db', some claim)) :
    available store now pool db' ⊂ available store now pool db ∧ claim.pool = pool ∧
      claim.owner = leaseOwner store owner := by
  unfold claimTransaction at h
  cases hcandidate : candidate store now pool (giveUp store now pool.kind db) with
  | none => simp [hcandidate] at h
  | some row =>
      simp only [hcandidate] at h
      obtain ⟨rfl, hclaim⟩ := Prod.mk.inj h
      obtain rfl := Option.some.inj hclaim
      refine ⟨?_, rfl, rfl⟩
      have hrow := List.argmin_mem hcandidate
      refine Finset.ssubset_of_ssubset_of_subset ?_ (available_giveUp hpool)
      apply Finset.ssubset_iff_subset_ne.mpr
      constructor
      · rw [← Finset.empty_union (available store now pool (giveUp store now pool.kind db))]
        apply available_update hpool ∅ (key_leaseRow pool.kind (leaseOwner store owner) _)
        · intro r _ _ _ _ hfree
          rw [held_leaseRow] at hfree
          cases hfree
        · intro r _ _ _ _
          exact held_leaseRow
      · intro heq
        have hmem : row.repo ∈ available store now pool (giveUp store now pool.kind db) :=
          List.mem_toFinset.mpr (List.mem_map_of_mem hrow)
        rw [← heq] at hmem
        have hfree := ((mem_available hpool).mp hmem).2 _
          (Table.mem_update.mpr ⟨row, (List.mem_filter.mp hrow).1, rfl⟩)
        rw [if_pos (decide_eq_true rfl), held_leaseRow] at hfree
        exact Bool.noConfusion (hfree (congrArg Prod.fst (key_leaseRow pool.kind _ _ row)))

theorem available_take_none {owner : String} {lease : Nat}
    (h : claimTransaction store now owner pool lease db = (db', none)) : available store now pool db' = ∅ := by
  unfold claimTransaction at h
  cases hcandidate : candidate store now pool (giveUp store now pool.kind db) with
  | some row => simp [hcandidate] at h
  | none =>
      simp only [hcandidate] at h
      obtain rfl := (Prod.mk.inj h).1
      exact available_of_candidate hcandidate

/-! ### Work on a claim -/

/-- A claim of this pool and this open store. -/
def Ours (store : SqliteControlStore) (pool : Pool) (claim : Claim) : Prop :=
  claim.pool = pool ∧ store.instanceId.toList.isPrefixOf claim.owner.toList = true

variable {claim : Claim} {row : BuildRow}

theorem Ours.held (hours : Ours store pool claim) (h : ownsLease claim row = true) :
    leaseHeld store now (row.out pool.kind) = true := by
  obtain ⟨rfl, hprefix⟩ := hours
  simp only [ownsLease, Bool.and_eq_true, decide_eq_true_eq] at h
  obtain ⟨lease, hlease, howner⟩ := Option.map_eq_some_iff.mp h.2
  have hlease' : (row.out claim.pool.kind).lease = some lease := hlease
  simp only [leaseHeld, hlease', howner, hprefix, Bool.or_true]

theorem ownsLease_of_ownsPending (h : ownsPending claim row = true) : ownsLease claim row = true := by
  rw [ownsPending, Bool.and_eq_true] at h
  exact h.1

theorem available_renew (hpool : pool ≠ .full) (hours : Ours store pool claim) (lease : Nat) :
    available store now pool (renew now claim lease db).1 ⊆ available store now pool db := by
  have hheld : ∀ row leaseUntil, ownsLease claim row = true →
      leaseHeld store now ((renewRow claim leaseUntil row).out pool.kind) = true := by
    intro row leaseUntil howns
    apply hours.held
    simp only [ownsLease, Bool.and_eq_true, decide_eq_true_eq] at howns ⊢
    refine ⟨(key_renewRow claim leaseUntil row).trans howns.1, ?_⟩
    rw [out_renewRow, if_pos rfl, Option.map_map]
    exact howns.2
  rw [← Finset.empty_union (available store now pool db)]
  apply available_update hpool ∅ (key_renewRow claim _)
  · intro row _ hp _ _ hfree
    rw [hheld row _ hp] at hfree
    cases hfree
  · intro row _ hp _ _
    exact hheld row _ hp

theorem available_publish (hpool : pool ≠ .full) {output : Output} {published : Published}
    (h : publish claim output db = .ok (db', published)) :
    available store now pool db' ⊆ available store now pool db := by
  rcases publish_cases claim output db with ⟨_, herror⟩ | hnone | ⟨_, row, _, _, hdone⟩
  · rw [herror] at h
    cases h
  · rw [hnone] at h
    obtain rfl := (Prod.mk.inj (Except.ok.inj h)).1
    exact Finset.Subset.refl _
  rw [hdone] at h
  obtain rfl := (Prod.mk.inj (Except.ok.inj h)).1
  rw [← Finset.empty_union (available store now pool db)]
  apply available_update hpool ∅ (key_publishRow output)
  · intro row _ _ _ hdue _
    rw [out_publishRow] at hdue
    split at hdue
    · exact absurd hdue (not_due_of_state OutState.noConfusion)
    · exact hdue
  · intro row _ _ _ hlease
    rw [out_publishRow]
    split
    · next heq => exact leaseHeld_of_same hlease (by rw [heq])
    · exact hlease

theorem available_fail (hpool : pool ≠ .full) (hours : Ours store pool claim) (error : String)
    (retryAfter : Option Nat) :
    available store now pool (fail store now claim error retryAfter db) ⊆ available store now pool db := by
  have hheld : ∀ row retryAt, ownsPending claim row = true →
      leaseHeld store now ((failRow store claim.kind error retryAt row).out pool.kind) = true := by
    intro row retryAt howns
    have hbefore : leaseHeld store now (row.out pool.kind) = true := hours.held (ownsLease_of_ownsPending howns)
    have hkind : pool.kind = claim.kind := congrArg Pool.kind hours.1.symm
    rw [out_failRow, if_pos hkind, ← hkind]
    exact leaseHeld_of_same hbefore rfl
  rw [← Finset.empty_union (available store now pool db)]
  apply available_update hpool ∅ (key_failRow store claim.kind error _)
  · intro row _ hp _ _ hfree
    rw [hheld row _ hp] at hfree
    cases hfree
  · intro row _ hp _ _
    exact hheld row _ hp

theorem available_release (hpool : pool ≠ .full) :
    available store now pool (release claim db) ⊆ {claim.repo} ∪ available store now pool db := by
  apply available_update hpool {claim.repo} (key_releaseRow claim.kind)
  · intro row _ hp hin
    simp only [ownsLease, Bool.and_eq_true, decide_eq_true_eq] at hp
    exact absurd (Finset.mem_singleton.mpr (congrArg Prod.fst hp.1)) hin
  · intro row _ hp hin
    simp only [ownsLease, Bool.and_eq_true, decide_eq_true_eq] at hp
    exact absurd (Finset.mem_singleton.mpr (congrArg Prod.fst hp.1)) hin

end Available

/-! ## The invariant -/

/-- Whether a slot in its stage is known to the `Notify`. -/
def Stage.registered : Stage → Bool
  | .enabled false | .taking false | .building false _ | .leaving false | .asleep false => true
  | _ => false

structure System.Ok (store : SqliteControlStore) (pool : Pool) (s : System) : Prop where
  keys : s.db.KeysUnique
  notify : s.wake.Ok
  registered : ∀ i, s.wake.Has i ↔ ∃ stage, s.stages[i]? = some stage ∧ stage.registered = true
  ours : ∀ (i : Nat) (ready : Bool) (claim : Claim), s.stages[i]? = some (.building ready claim) →
    Ours store pool claim
  /-- A call that is to reset failed kinds found its row there. -/
  made : ∀ call ∈ s.calls, call.again = true → call.made = false
  covered : ∀ i, s.Sleeping i → i ∉ s.failed →
    (s.work store pool).card ≤ s.told pool + s.untold + s.failed.length

section Invariant

variable {store : SqliteControlStore} {pool : Pool} {lease : Nat} {s s' : System} {i j : Nat}
  {stage stage' : Stage} {ready : Bool}

theorem ok_init {db : Db} (hkeys : db.KeysUnique) (now : Int) (slots : Nat) :
    (System.init db now slots).Ok store pool where
  keys := hkeys
  notify := Notify.ok_new
  registered := by
    intro i
    constructor
    · rintro (h | h) <;> cases h
    · rintro ⟨stage, hstage, hregistered⟩
      obtain rfl := (List.mem_replicate.mp (List.mem_of_getElem? hstage)).2
      cases hregistered
  ours := by
    intro i ready claim h
    cases (List.mem_replicate.mp (List.mem_of_getElem? h)).2
  made := by
    intro call hcall
    cases hcall
  covered := by
    intro i h
    cases h.2

/-- A step that changes only the database, and makes no work. -/
theorem System.Ok.setDb (h : s.Ok store pool) {db : Db} (hkeys : db.KeysUnique)
    (havailable : available store s.now pool db ⊆ s.work store pool) :
    System.Ok store pool { s with db := db } where
  keys := hkeys
  notify := h.notify
  registered := h.registered
  ours := h.ours
  made := h.made
  covered := fun i hsleeping hfound =>
    (Finset.card_le_card havailable).trans (h.covered i hsleeping hfound)

/-- A step of one slot: the others stay where they are. -/
theorem System.Ok.move (h : s.Ok store pool) (hstage : s.stages[i]? = some stage) {db : Db} {wake : Notify}
    {untold : Nat} {failed : List Nat} (hkeys : db.KeysUnique) (hnotify : wake.Ok)
    (hhas : ∀ j, wake.Has j ↔ (j = i ∧ stage'.registered = true) ∨ (j ≠ i ∧ s.wake.Has j))
    (hours : ∀ ready claim, stage' = .building ready claim → Ours store pool claim)
    (hcovered : ∀ j, System.Sleeping { s with wake := wake, stages := s.stages.set i stage' } j →
      j ∉ failed → (available store s.now pool db).card ≤
        s.calls.countP (Call.tells pool) + wake.notified.length + (s.stages.set i stage').countP Stage.going +
          untold + failed.length) :
    System.Ok store pool
      { s with db := db, wake := wake, stages := s.stages.set i stage', untold := untold, failed := failed } where
  keys := hkeys
  notify := hnotify
  registered := by
    intro j
    rw [hhas]
    dsimp only
    by_cases hj : j = i
    · subst hj
      rw [List.getElem?_set_self (List.getElem?_eq_some_iff.mp hstage).1]
      simp
    · rw [List.getElem?_set_ne (Ne.symm hj), h.registered]
      simp [hj]
  ours := by
    intro j ready claim hj
    rcases Table.getElem?_set_cases hj with ⟨rfl, heq⟩ | ⟨_, hbefore⟩
    · exact hours ready claim heq.symm
    · exact h.ours j ready claim hbefore
  made := h.made
  covered := hcovered

/-- A slot that sleeps after another one's step slept before it. -/
theorem sleeping_before (hstage : s.stages[i]? = some stage) {wake : Notify} (hawake : stage' ≠ .asleep false)
    (hwaiting : ∀ j, j ≠ i → j ∈ wake.waiting → j ∈ s.wake.waiting)
    (h : System.Sleeping { s with wake := wake, stages := s.stages.set i stage' } j) : s.Sleeping j := by
  rcases Table.getElem?_set_cases h.1 with ⟨rfl, heq⟩ | ⟨hne, hbefore⟩
  · exact absurd heq.symm hawake
  · exact ⟨hbefore, hwaiting j hne h.2⟩

theorem System.Ok.not_has (h : s.Ok store pool) (hstage : s.stages[i]? = some stage)
    (hregistered : stage.registered = false) : ¬ s.wake.Has i := by
  intro hhas
  obtain ⟨found, hfound, hyes⟩ := (h.registered i).mp hhas
  obtain rfl := Option.some.inj (hstage.symm.trans hfound)
  rw [hregistered] at hyes
  cases hyes

/-- A step that leaves the registrations alone. -/
theorem System.Ok.has_same (h : s.Ok store pool) (hstage : s.stages[i]? = some stage)
    (hsame : stage'.registered = stage.registered) (j : Nat) :
    s.wake.Has j ↔ (j = i ∧ stage'.registered = true) ∨ (j ≠ i ∧ s.wake.Has j) := by
  by_cases hj : j = i
  · subst hj
    have hhas : s.wake.Has j ↔ stage.registered = true := by
      rw [h.registered]
      simp [hstage]
    simp [hhas, hsame]
  · simp [hj]

/-- A slot that goes on to look counts as one that knows. -/
theorem going_le (hstage : s.stages[i]? = some stage) (hgoing : stage'.going = true) :
    s.stages.countP Stage.going ≤ (s.stages.set i stage').countP Stage.going := by
  have hreplaced := Table.countP_replaced Stage.going stage' hstage
  rw [if_pos hgoing] at hreplaced
  split at hreplaced <;> omega

/-! ### The steps of a slot -/

theorem ok_enable (h : s.Ok store pool) (hstage : s.stages[i]? = some .start) :
    System.Ok store pool
      { s with wake := (s.wake.enable i).1, stages := s.stages.set i (.enabled (s.wake.enable i).2) } := by
  have hnew : ¬ s.wake.Has i := h.not_has hstage rfl
  have hnotified : (s.wake.enable i).1.notified = s.wake.notified := by
    unfold Notify.enable
    split <;> rfl
  apply h.move hstage h.keys (h.notify.enable hnew)
  · intro j
    unfold Notify.enable
    split
    · have hne : s.wake.Has j → j ≠ i := fun hj heq => hnew (heq ▸ hj)
      have hsame : ({ s.wake with permit := false } : Notify).Has j ↔ s.wake.Has j := Iff.rfl
      rw [hsame]
      simp [Stage.registered]
      tauto
    · have hadded : ({ s.wake with waiting := s.wake.waiting ++ [i] } : Notify).Has j ↔
          j = i ∨ s.wake.Has j := by
        simp only [Notify.Has, List.mem_append, List.mem_singleton]
        tauto
      rw [hadded]
      simp [Stage.registered]
      tauto
  · rintro ready claim ⟨⟩
  · intro j hsleeping hfound
    have hbefore : s.Sleeping j := by
      refine sleeping_before hstage Stage.noConfusion (fun k hk hwaiting => ?_) hsleeping
      unfold Notify.enable at hwaiting
      split at hwaiting
      · exact hwaiting
      · rcases List.mem_append.mp hwaiting with hold | hnew
        · exact hold
        · exact absurd (List.mem_singleton.mp hnew) hk
    have hcovered := h.covered j hbefore hfound
    have hgoing : _ ≤ (s.stages.set i (.enabled (s.wake.enable i).2)).countP Stage.going :=
      going_le hstage rfl
    rw [System.told] at hcovered
    rw [hnotified]
    exact hcovered.trans (by omega)

/-- A slot that found no work goes to sleep. -/
theorem System.Ok.sleep (h : s.Ok store pool) (hstage : s.stages[i]? = some stage)
    (hsame : Stage.registered (.asleep ready) = stage.registered) {db : Db} (hkeys : db.KeysUnique)
    (hnone : available store s.now pool db = ∅) :
    System.Ok store pool
      { s with db := db, untold := 0, failed := [], stages := s.stages.set i (.asleep ready) } := by
  apply h.move hstage hkeys h.notify (h.has_same hstage hsame)
  · rintro ready claim ⟨⟩
  · intro j _ _
    rw [hnone, Finset.card_empty]
    exact Nat.zero_le _

/-- A slot whose claim failed goes to sleep, and is one fewer that is to look. -/
theorem System.Ok.failed (h : s.Ok store pool) (hstage : s.stages[i]? = some stage)
    (hsame : Stage.registered (.asleep ready) = stage.registered) :
    System.Ok store pool { s with failed := i :: s.failed, stages := s.stages.set i (.asleep ready) } := by
  apply h.move hstage h.keys h.notify (h.has_same hstage hsame)
  · rintro ready claim ⟨⟩
  · intro j hsleeping hfound
    obtain ⟨hne, hbefore⟩ := not_or.mp (fun hmem => hfound (List.mem_cons.mpr hmem))
    have hcovered := h.covered j ⟨?_, hsleeping.2⟩ hbefore
    · have hgoing := Table.countP_replaced Stage.going (.asleep ready) hstage
      rw [System.told, System.work] at hcovered
      rw [List.length_cons]
      have hone : (if stage.going then 1 else 0) ≤ 1 := by split <;> decide
      omega
    · rw [← hsleeping.1]
      exact (List.getElem?_set_ne (Ne.symm hne)).symm

/-- A step to a stage that is neither asleep nor further from the work. -/
theorem System.Ok.goOn (h : s.Ok store pool) (hstage : s.stages[i]? = some stage)
    (hsame : stage'.registered = stage.registered) (hawake : stage' ≠ .asleep false)
    (hours : ∀ ready claim, stage' = .building ready claim → Ours store pool claim)
    {db : Db} (hkeys : db.KeysUnique)
    (hcard : (available store s.now pool db).card + (if stage.going then 1 else 0) ≤
      (s.work store pool).card + (if stage'.going then 1 else 0)) :
    System.Ok store pool { s with db := db, stages := s.stages.set i stage' } := by
  apply h.move hstage hkeys h.notify (h.has_same hstage hsame) hours
  intro j hsleeping hfound
  have hcovered := h.covered j (sleeping_before hstage hawake (fun _ _ hw => hw) hsleeping) hfound
  have hgoing := Table.countP_replaced Stage.going stage' hstage
  rw [System.told] at hcovered
  omega

theorem keysUnique_take {db db' : Db} {now : Int} {owner : String} {claim : Option Claim} (hkeys : db.KeysUnique)
    (h : claimTransaction store now owner pool lease db = (db', claim)) : db'.KeysUnique := by
  have hgiven : (giveUp store now pool.kind db).KeysUnique := keysUnique_giveUp hkeys
  unfold claimTransaction at h
  cases hcandidate : candidate store now pool (giveUp store now pool.kind db) with
  | none =>
      simp only [hcandidate] at h
      exact (Prod.mk.inj h).1 ▸ hgiven
  | some row =>
      simp only [hcandidate] at h
      exact (Prod.mk.inj h).1 ▸ keysUnique_update rfl (key_leaseRow pool.kind _ _) hgiven

theorem ok_take (hpool : pool ≠ .full) (h : s.Ok store pool) (hstage : s.stages[i]? = some (.taking ready))
    (owner : String) : (take store pool lease s i ready owner).Ok store pool := by
  unfold take
  cases htaken : claimTransaction store s.now owner pool lease s.db with
  | mk db claim =>
      have hkeys : db.KeysUnique := keysUnique_take h.keys htaken
      cases claim with
      | none =>
          apply h.sleep hstage (by cases ready <;> rfl) hkeys
          exact available_take_none htaken
      | some claim =>
          obtain ⟨hfewer, hsame, howner⟩ := available_take hpool htaken
          have hours : Ours store pool claim := by
            refine ⟨hsame, ?_⟩
            rw [howner, leaseOwner, String.toList_append, List.isPrefixOf_iff_prefix]
            exact List.prefix_append _ _
          apply h.goOn hstage (by cases ready <;> rfl) Stage.noConfusion
          · rintro _ _ ⟨⟩
            exact hours
          · exact hkeys
          · exact Finset.card_lt_card hfewer

/-- A registration is dropped: a notification that the slot has not seen goes to another one. -/
theorem ok_drop (h : s.Ok store pool) (hstage : s.stages[i]? = some stage)
    (hready : stage.registered = !ready) : (s.drop i ready).Ok store pool := by
  cases ready with
  | true =>
      apply h.move hstage h.keys h.notify
      · intro j
        constructor
        · exact fun hj => .inr ⟨fun heq => h.not_has hstage hready (heq ▸ hj), hj⟩
        · rintro (⟨_, hstart⟩ | ⟨_, hj⟩)
          · cases hstart
          · exact hj
      · rintro _ _ ⟨⟩
      · intro j hsleeping hfound
        have hcovered := h.covered j (sleeping_before hstage Stage.noConfusion (fun _ _ hw => hw) hsleeping)
          hfound
        have hgoing : _ ≤ (s.stages.set i .start).countP Stage.going := going_le hstage rfl
        rw [System.told] at hcovered
        exact hcovered.trans (by omega)
  | false =>
      apply h.move hstage h.keys (h.notify.drop i)
      · intro j
        show (s.wake.drop i).Has j ↔ _
        rw [Notify.has_drop h.notify]
        simp only [Stage.registered]
        tauto
      · rintro _ _ ⟨⟩
      · intro j hsleeping hfound
        have hcovered := h.covered j (sleeping_before hstage Stage.noConfusion
          (fun _ _ hw => Notify.waiting_drop hw) hsleeping) hfound
        have hgoing : _ ≤ (s.stages.set i .start).countP Stage.going := going_le hstage rfl
        -- The slot that sleeps is still waiting, so there is one to pass the notification to.
        have hlength : (s.wake.drop i).notified.length = s.wake.notified.length :=
          Notify.length_drop hsleeping.2
        rw [System.told] at hcovered
        show _ ≤ _ + (s.wake.drop i).notified.length + _ + _ + _
        rw [hlength]
        exact hcovered.trans (by omega)

theorem ok_wake (h : s.Ok store pool) (hstage : s.stages[i]? = some (.asleep false))
    (hnotified : i ∈ s.wake.notified) :
    System.Ok store pool { s with wake := s.wake.see i, stages := s.stages.set i .start } := by
  have hnot : i ∉ s.wake.waiting := fun hwaiting => h.notify.not_notified hwaiting hnotified
  apply h.move hstage h.keys (h.notify.see i)
  · intro j
    rw [Notify.has_see h.notify]
    have hne : j ∈ s.wake.waiting → j ≠ i := fun hj heq => hnot (heq ▸ hj)
    simp only [Stage.registered]
    tauto
  · rintro _ _ ⟨⟩
  · intro j hsleeping hfound
    have hcovered := h.covered j (sleeping_before hstage Stage.noConfusion (fun _ _ hw => hw) hsleeping) hfound
    have hgoing := Table.countP_replaced Stage.going .start hstage
    have hlength := Notify.length_see hnotified
    rw [System.told] at hcovered
    simp only [Stage.going, if_true, Bool.false_eq_true, if_false] at hgoing
    exact hcovered.trans (by omega)

/-! ### The steps of an admission -/

/-- A step that leaves the slots where they are. -/
theorem System.Ok.advance (h : s.Ok store pool) {db : Db} {calls : List Call} {wake : Notify} {untold : Nat}
    (hkeys : db.KeysUnique) (hnotify : wake.Ok) (hhas : ∀ j, wake.Has j ↔ s.wake.Has j)
    (hmade : ∀ call ∈ calls, call.again = true → call.made = false)
    (hwaiting : ∀ j ∈ wake.waiting, j ∈ s.wake.waiting)
    (hcovered : wake.waiting ≠ [] →
      (available store s.now pool db).card + s.calls.countP (Call.tells pool) + s.wake.notified.length +
          s.untold ≤
        (s.work store pool).card + calls.countP (Call.tells pool) + wake.notified.length + untold) :
    System.Ok store pool { s with db := db, calls := calls, wake := wake, untold := untold } where
  keys := hkeys
  notify := hnotify
  registered := fun j => (hhas j).trans (h.registered j)
  ours := h.ours
  made := hmade
  covered := by
    intro j hsleeping hfound
    have hbefore := h.covered j ⟨hsleeping.1, hwaiting j hsleeping.2⟩ hfound
    have hmore := hcovered (List.ne_nil_of_mem hsleeping.2)
    rw [System.told] at hbefore ⊢
    show (available store s.now pool db).card ≤ _
    dsimp only
    omega

/-- No kind of a row that was inserted has failed, and all are pending. -/
theorem inserted_row (pool : Pool) {db : Db} {repo commit : String} {refName : Option String} {time : Int}
    {row : BuildRow}
    (hadmitted : admitBuild repo commit refName time s.db = .ok (db, true))
    (hrow : db.row (repo, commit) = some row) : anyFailed row = false ∧ (row.out pool.kind).state = .pending := by
  rw [row_admitted hadmitted] at hrow
  obtain rfl := Option.some.inj hrow
  exact ⟨rfl, by cases pool <;> rfl⟩

theorem ok_admitted (hpool : pool ≠ .full) (h : s.Ok store pool) (repo commit : String)
    (refName : Option String) (again : Bool) : (admitCall s repo commit refName again).Ok store pool := by
  have hkept := keysUnique_exec (.admitBuild repo commit refName s.now) h.keys
  unfold admitCall
  cases hadmitted : admitBuild repo commit refName s.now s.db with
  | error error => exact h
  | ok result =>
      obtain ⟨db, inserted⟩ := result
      have hkeys : db.KeysUnique := by
        simpa only [Control.exec, hadmitted] using hkept
      have hmore : available store s.now pool db ⊆ (if inserted then {repo} else ∅) ∪ s.work store pool :=
        available_admitted hpool hadmitted
      have hcard := (Finset.card_le_card hmore).trans (Finset.card_union_le _ _)
      dsimp only
      cases hrow : db.row (repo, commit) with
      | none =>
          cases inserted with
          | true =>
              rw [row_admitted hadmitted] at hrow
              cases hrow
          | false =>
              apply h.advance hkeys h.notify (fun j => Iff.rfl) h.made (fun j => id)
              intro _
              simp only [Bool.false_eq_true, if_false, Finset.card_empty] at hcard
              omega
      | some row =>
          apply h.advance hkeys h.notify (fun j => Iff.rfl) _ (fun j => id)
          · intro _
            rw [List.countP_append, List.countP_singleton]
            cases inserted with
            | true =>
                have htells : Call.tells pool ⟨repo, commit, row, true, again && anyFailed row⟩ = true :=
                  decide_eq_true (inserted_row pool hadmitted hrow).2
                rw [if_pos htells]
                simp only [if_true, Finset.card_singleton] at hcard
                omega
            | false =>
                simp only [Bool.false_eq_true, if_false, Finset.card_empty] at hcard
                omega
          · intro call hcall hagain
            rcases List.mem_append.mp hcall with hold | hnew
            · exact h.made call hold hagain
            · rw [List.mem_singleton.mp hnew, Bool.and_eq_true] at hagain
              rw [List.mem_singleton.mp hnew]
              cases inserted with
              | true =>
                  rw [(inserted_row pool hadmitted hrow).1] at hagain
                  cases hagain.2
              | false => rfl

variable {call : Call}

theorem ok_retry (hpool : pool ≠ .full) (h : s.Ok store pool) (hcall : s.calls[i]? = some call)
    (hagain : call.again = true) : (retryCall s i call).Ok store pool := by
  have hkeys : (retry call.repo call.commit s.db).1.KeysUnique :=
    keysUnique_exec (.retry call.repo call.commit) h.keys
  have hmore : available store s.now pool (retry call.repo call.commit s.db).1 ⊆ _ ∪ s.work store pool :=
    available_retry hpool h.keys
  have hcard := (Finset.card_le_card hmore).trans (Finset.card_union_le _ _)
  have hquiet : call.tells pool = false := by
    rw [Call.tells, h.made call (List.mem_of_getElem? hcall) hagain, Bool.false_and]
  apply h.advance hkeys h.notify (fun j => Iff.rfl) _ (fun j => id)
  · intro _
    have hreplaced :=
      Table.countP_replaced (Call.tells pool) (call.reset (retry call.repo call.commit s.db).2) hcall
    rw [hquiet, if_neg Bool.false_ne_true] at hreplaced
    by_cases hpending : (retry call.repo call.commit s.db).2.any (fun row => (row.out pool.kind).state = .pending)
    · obtain ⟨row, hrow, hstate⟩ := (Option.any_eq_true _ _).mp hpending
      have htells : (call.reset (some row)).tells pool = true := by
        rw [Call.tells, Call.reset, Option.isSome_some, Bool.or_true, Bool.true_and]
        exact hstate
      rw [if_pos hpending, Finset.card_singleton] at hcard
      rw [hrow, if_pos htells, ← hrow] at hreplaced
      omega
    · rw [if_neg hpending, Finset.card_empty] at hcard
      omega
  · intro other hother hagain'
    rcases List.mem_or_eq_of_mem_set hother with hold | rfl
    · exact h.made other hold hagain'
    · cases hagain'

theorem ok_notify (h : s.Ok store pool) (hcall : s.calls[i]? = some call) :
    (notifyCall pool s i call).Ok store pool := by
  have herased := Table.countP_eraseIdx (Call.tells pool) hcall
  have hmade : ∀ other ∈ s.calls.eraseIdx i, other.again = true → other.made = false :=
    fun other hother => h.made other (List.mem_of_mem_eraseIdx hother)
  unfold notifyCall
  by_cases hpending : call.pending pool = true
  · rw [if_pos hpending]
    apply h.advance h.keys h.notify.notifyOne (fun j => Notify.has_notifyOne) hmade
      (fun j => Notify.waiting_notifyOne)
    intro hwaiting
    have hsome : s.wake.waiting ≠ [] := by
      obtain ⟨j, hj⟩ := List.exists_mem_of_ne_nil _ hwaiting
      exact List.ne_nil_of_mem (Notify.waiting_notifyOne hj)
    rw [Notify.length_notifyOne hsome, System.work]
    split at herased <;> omega
  · rw [if_neg hpending]
    apply h.advance h.keys h.notify (fun j => Iff.rfl) hmade (fun j => id)
    intro _
    have hquiet : call.tells pool = false := by
      rw [Call.tells, Bool.eq_false_of_not_eq_true hpending, Bool.and_false]
    rw [hquiet] at herased
    simp only [Bool.false_eq_true, if_false] at herased
    rw [System.work]
    omega

theorem ok_abandon (h : s.Ok store pool) (hcall : s.calls[i]? = some call) :
    System.Ok store pool { s with
      calls := s.calls.eraseIdx i
      untold := if call.tells pool then s.untold + 1 else s.untold } := by
  have herased := Table.countP_eraseIdx (Call.tells pool) hcall
  apply h.advance h.keys h.notify (fun j => Iff.rfl)
    (fun other hother => h.made other (List.mem_of_mem_eraseIdx hother)) (fun j => id)
  intro _
  rw [System.work]
  split at herased
  · next htells =>
      rw [if_pos htells]
      omega
  · next htells =>
      rw [if_neg htells]
      omega

theorem ok_elsewhere (h : s.Ok store pool) {db : Db} (hkeys : db.KeysUnique) (now : Int) :
    System.Ok store pool { s with
      db := db
      now := now
      untold := s.untold + (available store now pool db \ s.work store pool).card } where
  keys := hkeys
  notify := h.notify
  registered := h.registered
  ours := h.ours
  made := h.made
  covered := by
    intro j hsleeping hfound
    have hbefore := h.covered j hsleeping hfound
    have hcard : (available store now pool db).card ≤
        (available store now pool db \ s.work store pool).card + (s.work store pool).card :=
      Finset.card_le_card_sdiff_add_card
    rw [System.told] at hbefore ⊢
    exact hcard.trans (by dsimp only; omega)

/-! ### Runs -/

/-- One case for each event. -/
theorem ok_exec (hpool : pool ≠ .full) (h : s.Ok store pool) {event : Event}
    (hstep : Step store pool lease s event s') : s'.Ok store pool := by
  unfold Step at hstep
  -- A step of the loop moves one slot; a statement of a build or an admission moves none.
  cases event with
  | admission repo commit refName again =>
      obtain rfl := Option.some.inj hstep
      exact ok_admitted hpool h repo commit refName again
  | retry i =>
      simp only [exec] at hstep
      split at hstep
      · next call hcall =>
          split at hstep
          · next hagain =>
              obtain rfl := Option.some.inj hstep
              exact ok_retry hpool h hcall hagain
          · cases hstep
      · cases hstep
  | notify i =>
      simp only [exec] at hstep
      split at hstep
      · next call hcall =>
          split at hstep
          · cases hstep
          · obtain rfl := Option.some.inj hstep
            exact ok_notify h hcall
      · cases hstep
  | abandon i =>
      simp only [exec] at hstep
      split at hstep
      · next call hcall =>
          obtain rfl := Option.some.inj hstep
          exact ok_abandon h hcall
      · cases hstep
  | enable i =>
      simp only [exec] at hstep
      split at hstep
      · next hstage =>
          obtain rfl := Option.some.inj hstep
          exact ok_enable h hstage
      · cases hstep
  | poll i =>
      simp only [exec] at hstep
      split at hstep
      · next ready hstage =>
          split at hstep
          · obtain rfl := Option.some.inj hstep
            exact h.goOn hstage (by cases ready <;> rfl) Stage.noConfusion (by rintro _ _ ⟨⟩) h.keys
              (Nat.le_refl _)
          · next hidle =>
              obtain rfl := Option.some.inj hstep
              exact h.sleep hstage (by cases ready <;> rfl) h.keys
                (available_of_looks (Bool.eq_false_of_not_eq_true hidle))
      · cases hstep
  | take i owner =>
      simp only [exec] at hstep
      split at hstep
      · next ready hstage =>
          obtain rfl := Option.some.inj hstep
          exact ok_take hpool h hstage owner
      · cases hstep
  | failed i =>
      simp only [exec] at hstep
      split at hstep
      · next ready hstage =>
          obtain rfl := Option.some.inj hstep
          exact h.failed hstage (by cases ready <;> rfl)
      · next ready hstage =>
          obtain rfl := Option.some.inj hstep
          exact h.failed hstage (by cases ready <;> rfl)
      · cases hstep
  | renew i =>
      simp only [exec] at hstep
      split at hstep
      · next ready claim hstage =>
          obtain rfl := Option.some.inj hstep
          exact h.setDb (keysUnique_exec (.renew s.now claim lease) h.keys)
            (available_renew hpool (h.ours i ready claim hstage) lease)
      · cases hstep
  | publish i output =>
      simp only [exec] at hstep
      split at hstep
      · next ready claim hstage =>
          have hkeys := keysUnique_exec (.publish claim output) h.keys
          split at hstep
          · next db published hpublish =>
              obtain rfl := Option.some.inj hstep
              simp only [Control.exec, hpublish] at hkeys
              exact h.setDb hkeys (available_publish hpool hpublish)
          · obtain rfl := Option.some.inj hstep
            exact h
      · cases hstep
  | fail i error retryAfter =>
      simp only [exec] at hstep
      split at hstep
      · next ready claim hstage =>
          obtain rfl := Option.some.inj hstep
          exact h.setDb (keysUnique_exec (.fail store s.now claim error retryAfter) h.keys)
            (available_fail hpool (h.ours i ready claim hstage) error retryAfter)
      · cases hstep
  | release i =>
      simp only [exec] at hstep
      split at hstep
      · next ready claim hstage =>
          obtain rfl := Option.some.inj hstep
          refine h.goOn hstage (by cases ready <;> rfl) Stage.noConfusion (by rintro _ _ ⟨⟩)
            (keysUnique_exec (.release claim) h.keys) ?_
          have hmore : available store s.now pool (release claim s.db) ⊆ {claim.repo} ∪ s.work store pool :=
            available_release hpool
          have hcard := (Finset.card_le_card hmore).trans (Finset.card_union_le _ _)
          rw [Finset.card_singleton] at hcard
          simp only [Stage.going, Bool.false_eq_true, if_false, if_true]
          omega
      · cases hstep
  | lost i =>
      simp only [exec] at hstep
      split at hstep
      · next ready claim hstage =>
          obtain rfl := Option.some.inj hstep
          exact h.goOn hstage (by cases ready <;> rfl) Stage.noConfusion (by rintro _ _ ⟨⟩) h.keys
            (Nat.le_succ _)
      · cases hstep
  | leave i =>
      simp only [exec] at hstep
      split at hstep
      · next ready hstage =>
          obtain rfl := Option.some.inj hstep
          exact ok_drop h hstage (by cases ready <;> rfl)
      · cases hstep
  | wake i =>
      simp only [exec] at hstep
      split at hstep
      · next hstage =>
          obtain rfl := Option.some.inj hstep
          exact h.goOn hstage (by rfl) Stage.noConfusion (by rintro _ _ ⟨⟩) h.keys (Nat.le_refl _)
      · next hstage =>
          split at hstep
          · next hnotified =>
              obtain rfl := Option.some.inj hstep
              exact ok_wake h hstage hnotified
          · cases hstep
      · cases hstep
  | timer i =>
      simp only [exec] at hstep
      split at hstep
      · next ready hstage =>
          obtain rfl := Option.some.inj hstep
          exact ok_drop h hstage (by cases ready <;> rfl)
      · cases hstep
  | elsewhere db now =>
      simp only [exec] at hstep
      split at hstep
      · next hkeys =>
          obtain rfl := Option.some.inj hstep
          exact ok_elsewhere h hkeys now
      · cases hstep

theorem ok_run (hpool : pool ≠ .full) {db : Db} (hkeys : db.KeysUnique) {now : Int} {slots : Nat}
    {events : List Event} (hrun : Run (Step store pool lease) (System.init db now slots) events s) :
    s.Ok store pool := by
  refine hrun.invariant (I := System.Ok store pool) (P := fun _ => True) (ok_init hkeys now slots) ?_ (by simp)
  intro event s s' _ h hstep
  exact ok_exec hpool h hstep

end Invariant

/-- In every run of a Head or Files pool's slots on any database: while a slot that found no work sleeps and
nobody has woken it, at most as many repositories have work as there are admissions that are to tell, slots
that are told and slots that are going to look, but for those that became available with nobody told and one
for each claim that failed. So when there is work, all of which was told of, no claim failed, and no slot
that builds was the one told, then an admission is to tell, a slot is going to look, or another slot that
sleeps has been woken. -/
theorem work_is_told {store : SqliteControlStore} {pool : Pool} {lease : Nat} (hpool : pool ≠ .full) {db : Db}
    (hkeys : db.KeysUnique) {now : Int} {slots : Nat} {events : List Event} {s : System}
    (hrun : Run (Step store pool lease) (System.init db now slots) events s) {i : Nat} (hsleeping : s.Sleeping i)
    (hfound : i ∉ s.failed) :
    (s.work store pool).card ≤ s.told pool + s.untold + s.failed.length ∧
    ((s.work store pool).Nonempty → s.untold = 0 → s.failed = [] →
      (∀ j ∈ s.wake.notified, ∀ claim, s.stages[j]? ≠ some (.building false claim)) →
      (∃ call ∈ s.calls, call.tells pool = true) ∨ (∃ stage ∈ s.stages, stage.going = true) ∨
        ∃ j ∈ s.wake.notified, s.stages[j]? = some (.asleep false)) := by
  have hok : s.Ok store pool := ok_run hpool hkeys hrun
  have hcovered := hok.covered i hsleeping hfound
  refine ⟨hcovered, fun hwork huntold hfailed hbuilding => ?_⟩
  have hpos := Finset.card_pos.mpr hwork
  by_contra hnobody
  push Not at hnobody
  obtain ⟨hcalls, hstages, hnotified⟩ := hnobody
  have hnocall : s.calls.countP (Call.tells pool) = 0 := List.countP_eq_zero.mpr hcalls
  have hnostage : s.stages.countP Stage.going = 0 := List.countP_eq_zero.mpr hstages
  have hnone : s.wake.notified = [] := by
    -- A slot that is told is registered, so it is going to look, or builds, or sleeps.
    apply List.eq_nil_iff_forall_not_mem.mpr
    intro j hj
    obtain ⟨stage, hstage, hregistered⟩ := (hok.registered j).mp (.inr hj)
    have hidle := hstages stage (List.mem_of_getElem? hstage)
    cases stage with
    | start => cases hregistered
    | enabled ready => exact hidle rfl
    | taking ready => exact hidle rfl
    | leaving ready => exact hidle rfl
    | building ready claim =>
        cases ready with
        | true => cases hregistered
        | false => exact hbuilding j hj claim hstage
    | asleep ready =>
        cases ready with
        | true => cases hregistered
        | false => exact hnotified j hj hstage
  rw [System.told, hnocall, hnostage, hnone, huntold, hfailed] at hcovered
  exact absurd hcovered (Nat.not_le.mpr hpos)

section Overslept

def sleepCommit : String := "0123456789abcdef0123456789abcdef01234567"

def sleepStore : SqliteControlStore := ⟨"1/", 5, takeoverStore.maxAttempts_pos⟩

/-- Two slots that fall asleep. -/
def bothAsleep : List Event := [.enable 0, .poll 0, .enable 1, .poll 1]

/-- An admission of `repo`, which slot `i` is woken for and takes. -/
def admitFor (repo : String) (i : Nat) : List Event :=
  [.admission repo sleepCommit none false, .notify 0, .wake i, .enable i, .poll i, .take i "slot"]

/-- The second slot's build ends before the first one's, so it sleeps behind it. -/
def sleepAgain : List Event := [.fail 1 "no" none, .release 1, .leave 1, .enable 1, .poll 1]

/-- A third admission, while the first slot builds and the second sleeps. -/
def admitLast : List Event := [.admission "c" sleepCommit none false, .notify 0]

def sleepRun : Option System :=
  (bothAsleep ++ admitFor "a" 0 ++ admitFor "b" 1 ++ sleepAgain ++ admitLast).foldlM
    (exec sleepStore .head 60) (System.init .empty 0 2)

theorem sleepRun_some : sleepRun.isSome = true := by decide

/-- The third admission tells the slot that builds, and the other sleeps on. -/
def overslept : System := sleepRun.get sleepRun_some

theorem builder_told :
    overslept.Sleeping 1 ∧ overslept.wake.notified = [0] ∧ (overslept.work sleepStore .head) = {"c"} ∧
      (overslept.work sleepStore .head).card ≤
        overslept.told .head + overslept.untold + overslept.failed.length := by
  have hsleeping : overslept.Sleeping 1 := ⟨rfl, by decide⟩
  have hkeys : Db.empty.KeysUnique := List.nodup_nil
  refine ⟨hsleeping, by decide, by decide, ?_⟩
  exact (work_is_told Pool.noConfusion hkeys
    (Run.of_foldlM (Option.some_get sleepRun_some).symm) hsleeping (by decide)).1

end Overslept

end Ripclone.Slots
