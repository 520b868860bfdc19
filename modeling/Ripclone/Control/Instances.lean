import Ripclone.Control.Admission

/-!
# The leases of one open store

Every lease owner a store writes starts with the store's instance, which no other open store has. A
claim skips a repository with such a lease of its kind, expired or not and whatever became of the
output, so a store never holds two of one kind and repository.
-/

namespace Ripclone.Control

open Ripclone.Library

/-- The row's lease of the kind was written by the store with this instance. -/
def heldBy (instanceId : String) (kind : ExactResultKind) (row : BuildRow) : Bool :=
  (row.out kind).lease.any fun lease => instanceId.toList.isPrefixOf lease.owner.toList

/-- Of each kind and repository, at most one row carries a lease of the instance. -/
def Db.OneLease (instanceId : String) (db : Db) : Prop :=
  ∀ kind, ∀ a ∈ db.builds, ∀ b ∈ db.builds, a.repo = b.repo → heldBy instanceId kind a = true →
    heldBy instanceId kind b = true → a = b

/-- The instance of the store that claims. -/
def Op.instance? : Op → Option String
  | .claim store _ _ _ _ _ => some store.instanceId
  | _ => none

section OneLease

variable {instanceId : String} {db db' : Db} {kind : ExactResultKind} {row row' : BuildRow}

theorem heldBy_iff : heldBy instanceId kind row = true ↔
    ∃ owner, (row.out kind).lease.map Lease.owner = some owner ∧
      instanceId.toList.isPrefixOf owner.toList = true := by
  rw [heldBy, Option.any_eq_true]
  constructor
  · rintro ⟨lease, hlease, hpre⟩
    exact ⟨lease.owner, by rw [hlease]; rfl, hpre⟩
  · rintro ⟨owner, howner, hpre⟩
    obtain ⟨lease, hlease, rfl⟩ := Option.map_eq_some_iff.mp howner
    exact ⟨lease, hlease, hpre⟩

/-- A lease of the instance is one the store honours, at any time. -/
theorem leaseHeld_of_heldBy {store : SqliteControlStore} {now : Int}
    (h : heldBy store.instanceId kind row = true) : leaseHeld store now (row.out kind) = true := by
  obtain ⟨lease, hlease, hpre⟩ := (Option.any_eq_true _ _).mp h
  simp [leaseHeld, hlease, hpre]

/-- Rows that gain no lease keep the leases apart. -/
theorem Db.OneLease.of_rows (h : db.OneLease instanceId) (hkeys : db'.KeysUnique)
    (hrows : ∀ row' ∈ db'.builds, ∃ row, row'.key = row.key ∧
      ∀ kind, heldBy instanceId kind row' = true → row ∈ db.builds ∧
        heldBy instanceId kind row = true) : db'.OneLease instanceId := by
  intro kind a' ha' b' hb' hrepo hheldA hheldB
  obtain ⟨a, hkeyA, ha⟩ := hrows a' ha'
  obtain ⟨b, hkeyB, hb⟩ := hrows b' hb'
  obtain ⟨hmemA, hheldA⟩ := ha kind hheldA
  obtain ⟨hmemB, hheldB⟩ := hb kind hheldB
  have hrepo : a.repo = b.repo := by rw [← repo_of_key hkeyA, hrepo, repo_of_key hkeyB]
  have heq := h kind a hmemA b hmemB hrepo hheldA hheldB
  exact eq_of_key_eq hkeys ha' hb' (by rw [hkeyA, hkeyB, heq])

theorem heldBy_giveUpRow {store : SqliteControlStore} {kind' : ExactResultKind}
    (h : heldBy instanceId kind (giveUpRow store kind' row) = true) :
    heldBy instanceId kind row = true := by
  obtain ⟨owner, howner, hpre⟩ := heldBy_iff.mp h
  exact heldBy_iff.mpr ⟨owner, owner_giveUpRow howner, hpre⟩

theorem oneLease_giveUp {store : SqliteControlStore} {now : Int} {kind' : ExactResultKind}
    (hkeys : db.KeysUnique) (h : db.OneLease instanceId) :
    (giveUp store now kind' db).OneLease instanceId := by
  refine h.of_rows (keysUnique_giveUp hkeys) fun row' hrow' => ?_
  obtain ⟨row, hrow, rfl⟩ := Table.mem_update.mp hrow'
  refine ⟨row, ?_, fun kind hheld => ⟨hrow, ?_⟩⟩
  · split
    · exact key_giveUpRow store kind' row
    · rfl
  · split at hheld
    · exact heldBy_giveUpRow hheld
    · exact hheld

/-- A lease of the instance after a claim is the claim's, or was there before. -/
theorem leased_or_kept {pool : Pool} {r : BuildRow} (owner : String) (leaseUntil : Int)
    (h : heldBy instanceId kind (if decide (row.key = r.key) = true then
      leaseRow pool.kind owner leaseUntil row else row) = true) :
    (if decide (row.key = r.key) = true then leaseRow pool.kind owner leaseUntil row
      else row).key = row.key ∧
    (row.key = r.key ∧ kind = pool.kind ∨ heldBy instanceId kind row = true) := by
  split at h
  · next hkey =>
      rw [if_pos hkey]
      refine ⟨key_leaseRow pool.kind owner leaseUntil row, ?_⟩
      by_cases hkind : kind = pool.kind
      · exact .inl ⟨by simpa using hkey, hkind⟩
      · rw [heldBy, out_leaseRow, if_neg hkind] at h
        exact .inr h
  · next hkey =>
      rw [if_neg hkey]
      exact ⟨rfl, .inr h⟩

/-- A claimable row's repository has no lease of the instance, so the claim's is the only one. -/
theorem oneLease_leaseBuild {store : SqliteControlStore} {now : Int} {pool : Pool} {owner : String}
    {leaseUntil : Int} {r : BuildRow} (hkeys : db.KeysUnique)
    (hclaimable : claimable store now pool db r = true) (h : db.OneLease store.instanceId) :
    (leaseBuild pool owner leaseUntil r db).OneLease store.instanceId := by
  have hkeys' : (leaseBuild pool owner leaseUntil r db).KeysUnique :=
    keysUnique_update rfl (key_leaseRow pool.kind _ _) hkeys
  have hfree : ∀ busy ∈ db.builds, busy.repo = r.repo →
      heldBy store.instanceId pool.kind busy = false := by
    intro busy hbusy hrepo
    simp only [claimable, Bool.and_eq_true, Bool.not_eq_true'] at hclaimable
    by_contra hheld
    have hnone := List.any_eq_false.mp hclaimable.2 busy hbusy
    simp [hrepo, leaseHeld_of_heldBy (Bool.eq_true_of_not_eq_false hheld)] at hnone
  intro kind a' ha' b' hb' hrepo hheldA hheldB
  obtain ⟨a, ha, rfl⟩ := Table.mem_update.mp ha'
  obtain ⟨b, hb, rfl⟩ := Table.mem_update.mp hb'
  obtain ⟨hkeyA, hleaseA⟩ := leased_or_kept owner leaseUntil hheldA
  obtain ⟨hkeyB, hleaseB⟩ := leased_or_kept owner leaseUntil hheldB
  have hrepo : a.repo = b.repo := by rw [← repo_of_key hkeyA, hrepo, repo_of_key hkeyB]
  have hsame : a.key = b.key → (if decide (a.key = r.key) = true then
      leaseRow pool.kind owner leaseUntil a else a) = if decide (b.key = r.key) = true then
      leaseRow pool.kind owner leaseUntil b else b := by
    intro hkey
    rw [eq_of_key_eq hkeys ha hb hkey]
  rcases hleaseA with ⟨hra, rfl⟩ | hheldA
  · rcases hleaseB with ⟨hrb, _⟩ | hheldB
    · exact hsame (hra.trans hrb.symm)
    · have hnone := hfree b hb (hrepo.symm.trans (repo_of_key hra))
      rw [hheldB] at hnone
      cases hnone
  · rcases hleaseB with ⟨hrb, rfl⟩ | hheldB
    · have hnone := hfree a ha (hrepo.trans (repo_of_key hrb))
      rw [hheldA] at hnone
      cases hnone
    · exact hsame (congrArg BuildRow.key (h kind a ha b hb hrepo hheldA hheldB))

/-- Every operation of the store, and of any store but for claims, keeps the leases apart. -/
theorem oneLease_exec (op : Op) (hop : ∀ claiming ∈ op.instance?, claiming = instanceId)
    (hkeys : db.KeysUnique) (h : db.OneLease instanceId) : (exec op db).OneLease instanceId := by
  by_cases hclaim : op.owner? = none
  · refine h.of_rows (keysUnique_exec op hkeys) fun row' hrow' => ?_
    rcases mem_exec hkeys hrow' with ⟨row, hrow, hsteps⟩ | ⟨refName, now, _, hnew⟩
    · refine ⟨row, hsteps.key_eq, fun kind hheld => ⟨hrow, ?_⟩⟩
      obtain ⟨owner, howner, hpre⟩ := heldBy_iff.mp hheld
      exact heldBy_iff.mpr ⟨owner, hsteps.owner_out hclaim howner, hpre⟩
    · refine ⟨row', rfl, fun kind hheld => ?_⟩
      rw [hnew] at hheld
      cases kind <;> cases hheld
  · cases op with
    | claim store now owner pool lease seen =>
        obtain rfl := hop store.instanceId rfl
        rcases claim_cases store now owner pool lease seen db with hc | hc | ⟨r, _, u, hfree, hc⟩
        · simpa only [exec, hc] using h
        · simpa only [exec, hc] using oneLease_giveUp hkeys h
        · simp only [exec, hc]
          exact oneLease_leaseBuild (keysUnique_giveUp hkeys) hfree (oneLease_giveUp hkeys h)
    | _ => exact absurd rfl hclaim

end OneLease

/-- Along every run of an open store, from any database whose leases are those of earlier ones: of
each kind and repository, at most one row carries a lease of the store. -/
theorem one_lease_per_repo_and_kind (store : SqliteControlStore) {start : Db} {ops : List Op}
    {w : World} (hkeys : start.KeysUnique)
    (hearlier : ∀ row ∈ start.builds, ∀ kind, heldBy store.instanceId kind row = false)
    (hclaims : ∀ op ∈ ops, ∀ claiming ∈ op.instance?, claiming = store.instanceId)
    (hrun : Run Step ⟨start, []⟩ ops w) (kind : ExactResultKind) {a b : BuildRow}
    (ha : a ∈ w.db.builds) (hb : b ∈ w.db.builds) (hrepo : a.repo = b.repo)
    (hheldA : heldBy store.instanceId kind a = true)
    (hheldB : heldBy store.instanceId kind b = true) : a = b := by
  have hinv : w.db.KeysUnique ∧ w.db.OneLease store.instanceId := by
    refine hrun.invariant (I := fun w => w.db.KeysUnique ∧ w.db.OneLease store.instanceId)
      ⟨hkeys, fun kind a ha b hb hrepo hheld => ?_⟩ ?_ hclaims
    · rw [hearlier a ha kind] at hheld
      cases hheld
    · rintro op w w' hop ⟨hkeys, hone⟩ rfl
      exact ⟨keysUnique_exec op hkeys, oneLease_exec op hop hkeys hone⟩
  exact hinv.2 kind a ha b hb hrepo hheldA hheldB

section TakenOver

/-- Two commits of one repository, the first one's Head leased by an earlier store until 60. -/
def earlierLease : Db :=
  let admitted := World.init.run
    [.admitBuild "r" olderCommit none 0, .admitBuild "r" takeoverCommit none 0]
  (admitted.run [.claim { takeoverStore with instanceId := "0/" } 0 "head-0-1" .head 60 admitted.db]).db

/-- The store takes the lease over once it has expired, and claims again at a clock far beyond its
own lease. -/
def takenOver : World :=
  World.run ⟨earlierLease, []⟩ [.claim takeoverStore 60 "head-0-1" .head 60 earlierLease,
    .claim takeoverStore 1000 "head-1-1" .head 60 earlierLease]

theorem taken_over_one_lease :
    takenOver.db.builds.countP (heldBy "1/" .head) = 1 ∧
      ∀ a ∈ takenOver.db.builds, ∀ b ∈ takenOver.db.builds, a.repo = b.repo →
        heldBy "1/" .head a = true → heldBy "1/" .head b = true → a = b := by
  have hearlier : ∀ row ∈ earlierLease.builds, ∀ kind,
      heldBy takeoverStore.instanceId kind row = false := by
    intro row hrow kind
    have hall : (earlierLease.builds.all fun row => [ExactResultKind.head, .files, .full].all
        fun kind => !heldBy takeoverStore.instanceId kind row) = true := by decide
    have hkinds := List.all_eq_true.mp (List.all_eq_true.mp hall row hrow)
    simpa using hkinds kind (by cases kind <;> simp)
  refine ⟨by decide, fun a ha b hb hrepo hheldA hheldB => ?_⟩
  exact one_lease_per_repo_and_kind takeoverStore (by unfold Db.KeysUnique; decide)
    hearlier (by decide) (run_run _ _) .head ha hb hrepo hheldA hheldB

end TakenOver

end Ripclone.Control
