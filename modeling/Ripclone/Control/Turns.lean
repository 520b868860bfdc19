import Ripclone.Control.RowInvariant

/-!
# Turns

A claim serves the owner its pool served longest ago, of those with a claimable row. The turn a claim
records is larger than every turn recorded before it, of any pool, so an owner whose turn is not
smaller than that of an owner served since was served since too.
-/

namespace Ripclone.Control

open Ripclone.Library

/-- The owner a claim of the pool serves: that of the repository it leases a row of. -/
def Op.served (pool : Pool) (op : Op) (db : Db) : Option String :=
  match op with
  | .claim store now owner claimed lease seen =>
    if claimed = pool then
      (Control.claim store now owner claimed lease seen db).2.map fun granted =>
        repoOwner db granted.repo
    else none
  | _ => none

/-- The largest turn of any pool. -/
def maxTurn (turns : List OwnerTurn) : Nat := (turns.map OwnerTurn.turn).foldr max 0

/-- An owner's turn, `0` before its first. -/
def turnOf (pool : Pool) (owner : String) (turns : List OwnerTurn) : Nat :=
  ((Table.lookup (fun t : OwnerTurn => (t.pool, t.owner)) (pool, owner) turns).map
    OwnerTurn.turn).getD 0

section Turns

variable {db : Db} {pool : Pool} {owner : String} {turns : List OwnerTurn}

theorem turnOf_le_max : turnOf pool owner turns ≤ maxTurn turns := by
  unfold turnOf
  cases hrow : Table.lookup (fun t : OwnerTurn => (t.pool, t.owner)) (pool, owner) turns with
  | none => exact Nat.zero_le _
  | some row => exact Table.le_foldr_max (List.mem_map_of_mem (Table.mem_of_lookup hrow))

theorem any_owner : (turns.any fun t => t.pool = pool && t.owner = owner) =
    (Table.lookup (fun t : OwnerTurn => (t.pool, t.owner)) (pool, owner) turns).isSome := by
  rw [Bool.eq_iff_iff, Table.lookup, List.find?_isSome, List.any_eq_true]
  simp

/-- A recorded turn is the newest, and no other owner's or pool's changes. -/
theorem turnOf_recordTurn (pool' : Pool) (owner' : String) :
    turnOf pool' owner' (recordTurn pool owner turns) =
      if pool' = pool ∧ owner' = owner then maxTurn turns + 1 else turnOf pool' owner' turns := by
  simp only [recordTurn, any_owner, turnOf]
  -- An owner that had a turn gets the new one in place; another gets a row of its own.
  cases hrow : Table.lookup (fun t : OwnerTurn => (t.pool, t.owner)) (pool, owner) turns with
  | some row =>
      have hkey : ∀ t : OwnerTurn, (fun t : OwnerTurn => (t.pool, t.owner))
          { t with turn := maxTurn turns + 1 } = (t.pool, t.owner) := fun _ => rfl
      rw [Option.isSome_some, if_pos rfl]
      show ((Table.lookup _ _ (Table.update _
        (fun t : OwnerTurn => { t with turn := maxTurn turns + 1 }) turns)).map _).getD 0 = _
      rw [Table.lookup_update hkey]
      cases hother : Table.lookup (fun t : OwnerTurn => (t.pool, t.owner)) (pool', owner') turns with
      | none =>
          have hne : ¬ (pool' = pool ∧ owner' = owner) := by
            rintro ⟨rfl, rfl⟩
            rw [hrow] at hother
            cases hother
          rw [if_neg hne]
          rfl
      | some other =>
          have hfound := Table.key_of_lookup hother
          obtain ⟨rfl, rfl⟩ := Prod.mk.inj hfound
          by_cases hsame : other.pool = pool ∧ other.owner = owner
          · simp [hsame]
          · simp [hsame]
  | none =>
      have hinsert : turns ++ [(⟨pool, owner, maxTurn turns + 1⟩ : OwnerTurn)] =
          Table.insertNew (fun t : OwnerTurn => (t.pool, t.owner))
            ⟨pool, owner, maxTurn turns + 1⟩ turns := by
        have hfree : ¬ (turns.any fun t => (t.pool, t.owner) = (pool, owner)) = true := by
          simpa [Table.lookup_eq_none] using hrow
        exact (if_neg hfree).symm
      rw [Option.isSome_none, if_neg Bool.false_ne_true]
      show ((Table.lookup _ _ (turns ++ [(⟨pool, owner, maxTurn turns + 1⟩ : OwnerTurn)])).map
        OwnerTurn.turn).getD 0 = _
      rw [hinsert, Table.lookup_insertNew]
      by_cases hsame : pool' = pool ∧ owner' = owner
      · obtain ⟨rfl, rfl⟩ := hsame
        simp [hrow]
      · have hkey : ¬ (pool, owner) = (pool', owner') := by
          rintro ⟨⟩
          exact hsame ⟨rfl, rfl⟩
        rw [if_neg hkey, if_neg hsame, Option.or_none]

end Turns

/-! ## What an operation does to the turns -/

section Served

variable {db : Db} {pool : Pool} {op : Op} {owner : String}

/-- Turns are recorded by the claims that serve an owner and by nothing else. -/
theorem ownerTurns_exec (op : Op) (db : Db) :
    (∃ pool owner, op.served pool db = some owner ∧
      (exec op db).ownerTurns = recordTurn pool owner db.ownerTurns) ∨
    (∀ pool, op.served pool db = none) ∧ (exec op db).ownerTurns = db.ownerTurns := by
  cases op with
  | claim store now owner pool lease seen =>
      rcases claim_cases store now owner pool lease seen db with h | h | ⟨r, _, u, _, h⟩
      · exact .inr ⟨fun pool => by simp [Op.served, h], by simp only [exec, h]⟩
      · exact .inr ⟨fun pool => by simp [Op.served, h], by simp only [exec, h]; rfl⟩
      · refine .inl ⟨pool, repoOwner db r.repo, by simp [Op.served, h], ?_⟩
        simp only [exec, h]
        rfl
  | admitBuild repo commit refName now =>
      refine .inr ⟨fun _ => rfl, ?_⟩
      rcases admitBuild_cases repo commit refName now db with ⟨error, h⟩ | h | ⟨_, missing, h⟩
      · simp only [exec, h]
      · simp only [exec, h]
        rfl
      · simp only [exec, h]
  | publish claim output =>
      refine .inr ⟨fun _ => rfl, ?_⟩
      rcases publish_cases claim output db with ⟨error, h⟩ | h | ⟨_, r, _, _, h⟩
      · simp only [exec, h]
      · simp only [exec, h]
      · simp only [exec, h]
  | addRepo repo owner now =>
      refine .inr ⟨fun _ => rfl, ?_⟩
      cases owner with
      | none => rfl
      | some owner =>
          simp only [exec, addRepo]
          split <;> rfl
  | setRefs repo refs =>
      refine .inr ⟨fun _ => rfl, ?_⟩
      simp only [exec, setRefs]
      split <;> rfl
  | _ => exact .inr ⟨fun _ => rfl, rfl⟩

/-- A pool serves one owner in an operation, and only a claim of the pool does. -/
theorem served_pool {pool' : Pool} {owner' : String} (h : op.served pool db = some owner)
    (h' : op.served pool' db = some owner') : pool = pool' ∧ owner = owner' := by
  cases op with
  | claim store now name claimed lease seen =>
      simp only [Op.served] at h h'
      split at h
      · next hpool =>
          split at h'
          · next hpool' =>
              rw [h] at h'
              exact ⟨hpool.symm.trans hpool', Option.some.inj h'⟩
          · cases h'
      · cases h
  | _ => cases h

/-- An owner's turn changes when it is served, and then it is the newest. -/
theorem ownerTurn_exec (op : Op) (db : Db) (pool : Pool) (owner : String) :
    ownerTurn pool (exec op db) owner =
      if op.served pool db = some owner then maxTurn db.ownerTurns + 1
      else ownerTurn pool db owner := by
  rcases ownerTurns_exec op db with ⟨pool', owner', hserved, hturns⟩ | ⟨hnone, hsame⟩
  · show turnOf pool owner (exec op db).ownerTurns = _
    rw [hturns, turnOf_recordTurn]
    by_cases hthis : op.served pool db = some owner
    · rw [if_pos hthis, if_pos (served_pool hthis hserved)]
    · rw [if_neg hthis, if_neg]
      · rfl
      · rintro ⟨rfl, rfl⟩
        exact hthis hserved
  · rw [hnone pool, if_neg (by simp)]
    show turnOf pool owner (exec op db).ownerTurns = _
    rw [hsame]
    rfl

/-- Giving up on a row leaves nothing of its kind pending or leased. -/
theorem giveUpRow_idle (store : SqliteControlStore) (kind : ExactResultKind) (row : BuildRow) :
    ((giveUpRow store kind row).out kind).state = .failed ∧
      ((giveUpRow store kind row).out kind).lease = none := by
  rw [out_giveUpRow, if_pos rfl]
  exact ⟨rfl, rfl⟩

/-- A row that is claimable before the give-up pass is claimable after it. -/
theorem claimable_giveUp {store : SqliteControlStore} {now : Int} {row : BuildRow}
    (hrow : row ∈ db.builds) (h : claimable store now pool db row = true) :
    row ∈ (giveUp store now pool.kind db).builds ∧
      claimable store now pool (giveUp store now pool.kind db) row = true := by
  simp only [claimable, Bool.and_eq_true, Bool.not_eq_true', decide_eq_true_eq] at h ⊢
  obtain ⟨⟨⟨⟨⟨hstate, hneeds⟩, hfree⟩, hretry⟩, hattempts⟩, hbusy⟩ := h
  have hkept : exhausted store now pool.kind row = false := by
    have : ¬ store.maxAttempts ≤ (row.out pool.kind).attempts := Nat.not_le.mpr hattempts
    simp [exhausted, this]
  refine ⟨Table.mem_update.mpr ⟨row, hrow, by rw [hkept]; rfl⟩,
    ⟨⟨⟨⟨hstate, ?_⟩, hfree⟩, hretry⟩, hattempts⟩, ?_⟩
  · cases pool with
    | head => rfl
    | files => rfl
    | full =>
        simp only [poolNeeds, Bool.and_eq_true, Bool.not_eq_true'] at hneeds ⊢
        refine ⟨hneeds.1, List.any_eq_false.mpr fun older' holder' => ?_⟩
        obtain ⟨older, holder, rfl⟩ := Table.mem_update.mp holder'
        split
        · have hidle : (giveUpRow store .full older).full.state = .failed :=
            (giveUpRow_idle store .full older).1
          simp [Pool.kind, hidle]
        · exact List.any_eq_false.mp hneeds.2 older holder
  · refine List.any_eq_false.mpr fun busy' hbusy' => ?_
    obtain ⟨busy, hmem, rfl⟩ := Table.mem_update.mp hbusy'
    split
    · simp [leaseHeld, (giveUpRow_idle store pool.kind busy).2]
    · exact List.any_eq_false.mp hbusy busy hmem

/-- The owner a claim serves has had no later turn than any owner with a claimable row. -/
theorem served_first {store : SqliteControlStore} {now : Int} {name : String} {lease : Nat}
    {seen : Db} (h : (Op.claim store now name pool lease seen).served pool db = some owner)
    {row : BuildRow} (hrow : row ∈ (giveUp store now pool.kind db).builds)
    (hclaimable : claimable store now pool (giveUp store now pool.kind db) row = true) :
    ownerTurn pool db owner ≤ ownerTurn pool db (repoOwner db row.repo) := by
  simp only [Op.served, if_true] at h
  obtain ⟨granted, hgranted, rfl⟩ := Option.map_eq_some_iff.mp h
  unfold claim at hgranted
  split at hgranted
  · unfold claimTransaction at hgranted
    cases hcandidate : candidate store now pool (giveUp store now pool.kind db) with
    | none => simp [hcandidate] at hgranted
    | some best =>
        simp only [hcandidate, Option.some.injEq] at hgranted
        subst hgranted
        have hnot := List.not_lt_of_mem_argmin (List.mem_filter.mpr ⟨hrow, hclaimable⟩) hcandidate
        rw [Prod.Lex.toLex_lt_toLex, not_or] at hnot
        exact Nat.not_lt.mp hnot.1
  · cases hgranted

end Served

/-! ## Runs -/

section Runs

variable {w v : World} {ops : List Op}

/-- The turn of an owner the pool does not serve stays what it was. -/
theorem ownerTurn_unserved (pool : Pool) (owner : String) (hrun : Run Step w ops v)
    (hunserved : ∀ before op after u, ops = before ++ op :: after → Run Step w before u →
      op.served pool u.db ≠ some owner) :
    ownerTurn pool v.db owner = ownerTurn pool w.db owner := by
  induction hrun with
  | nil => rfl
  | @snoc ops op u u' hprev hstep ih =>
      obtain rfl := hstep
      have hop := hunserved ops op [] u rfl hprev
      show ownerTurn pool (exec op u.db) owner = _
      rw [ownerTurn_exec, if_neg hop]
      refine ih fun before op' after u' heq hbefore => ?_
      exact hunserved before op' (after ++ [op]) u' (by rw [heq]; simp) hbefore

/-- A turn never gets smaller. -/
theorem ownerTurn_mono (pool : Pool) (owner : String) (hrun : Run Step w ops v) :
    ownerTurn pool w.db owner ≤ ownerTurn pool v.db owner := by
  refine hrun.invariant (I := fun u => ownerTurn pool w.db owner ≤ ownerTurn pool u.db owner)
    (P := fun _ => True) (Nat.le_refl _) ?_ (by simp)
  rintro op u u' - hle rfl
  show _ ≤ ownerTurn pool (exec op u.db) owner
  rw [ownerTurn_exec]
  split
  · have hmax : ownerTurn pool u.db owner ≤ maxTurn u.db.ownerTurns := turnOf_le_max
    omega
  · exact hle

end Runs

/-- Between two claims of a pool that serve the same owner, the pool serves every other owner that
has a claimable row at the later one, before the claim's give-up pass or after it: from any database,
whatever else the store does in between and whoever claims. -/
theorem owners_served_in_turn {w v : World} {pool : Pool} {first : Op} {between : List Op}
    {a b : String} {store : SqliteControlStore} {now : Int} {name : String} {lease : Nat} {seen : Db}
    (hfirst : first.served pool w.db = some a) (hrun : Run Step (w.after first) between v)
    (hlater : (Op.claim store now name pool lease seen).served pool v.db = some a) (hb : b ≠ a)
    (hwaits : ∃ db ∈ [v.db, giveUp store now pool.kind v.db], ∃ row ∈ db.builds,
      claimable store now pool db row = true ∧ repoOwner v.db row.repo = b) :
    ∃ before op after u, between = before ++ op :: after ∧ Run Step (w.after first) before u ∧
      op.served pool u.db = some b := by
  obtain ⟨row, hrow, hclaimable, rfl⟩ : ∃ row ∈ (giveUp store now pool.kind v.db).builds,
      claimable store now pool (giveUp store now pool.kind v.db) row = true ∧
        repoOwner v.db row.repo = b := by
    obtain ⟨db, hdb, row, hrow, hclaimable, hb⟩ := hwaits
    rcases List.mem_cons.mp hdb with rfl | hdb
    · obtain ⟨hrow', hclaimable'⟩ := claimable_giveUp hrow hclaimable
      exact ⟨row, hrow', hclaimable', hb⟩
    · obtain rfl := List.mem_singleton.mp hdb
      exact ⟨row, hrow, hclaimable, hb⟩
  by_contra hnone
  have hunserved := ownerTurn_unserved pool (repoOwner v.db row.repo) hrun
    fun before op after u heq hbefore hserved => hnone ⟨before, op, after, u, heq, hbefore, hserved⟩
  -- the first claim's turn is larger than every turn before it
  have ha : ownerTurn pool (w.after first).db a = maxTurn w.db.ownerTurns + 1 := by
    show ownerTurn pool (exec first w.db) a = _
    rw [ownerTurn_exec, if_pos hfirst]
  have hbturn : ownerTurn pool (w.after first).db (repoOwner v.db row.repo) ≤
      maxTurn w.db.ownerTurns := by
    show ownerTurn pool (exec first w.db) _ ≤ _
    rw [ownerTurn_exec, hfirst, if_neg (fun heq => hb (Option.some.inj heq).symm)]
    exact turnOf_le_max
  have hmono := ownerTurn_mono pool a hrun
  have hserved := served_first hlater hrow hclaimable
  omega

section TwoOwners

/-- Two owners with two repositories each, one commit admitted of each. -/
def twoOwners : World :=
  World.init.run [.addRepo "a1" (some "a") 0, .addRepo "a2" (some "a") 0,
    .addRepo "b1" (some "b") 0, .addRepo "b2" (some "b") 0,
    .admitBuild "a1" takeoverCommit none 0, .admitBuild "a2" takeoverCommit none 0,
    .admitBuild "b1" takeoverCommit none 0, .admitBuild "b2" takeoverCommit none 0]

def twoOwnersClaim (name : String) : Op := .claim takeoverStore 0 name .head 60 twoOwners.db

/-- The first claim serves one owner, and the third one serves it again. -/
theorem two_owners_served_in_turn :
    ∃ before op after u, [twoOwnersClaim "head-0-2"] = before ++ op :: after ∧
      Run Step (twoOwners.after (twoOwnersClaim "head-0-1")) before u ∧
      op.served .head u.db = some "b" := by
  have hfirst : (twoOwnersClaim "head-0-1").served .head twoOwners.db = some "a" := by
    decide
  have hlater : (twoOwnersClaim "head-0-3").served .head
      ((twoOwners.after (twoOwnersClaim "head-0-1")).run [twoOwnersClaim "head-0-2"]).db =
        some "a" := by
    decide
  refine owners_served_in_turn hfirst (run_run _ _) hlater (by decide) ⟨_, .head _, ?_⟩
  decide

end TwoOwners

end Ripclone.Control
