import Ripclone.Control.RowInvariant

/-!
# Admission order

An admission takes one more than the largest number in the table. So the rows of the table are
always in the order of their numbers, the order they were admitted in, and the Fulls of a repository
are settled in it: a Full is claimed only when no older one is pending, and without a retry none
becomes pending again.

What the table no longer has does not count. The numbers of a run increase exactly as long as every
admission finds the row admitted before it: `numbers_increase_iff`.
-/

namespace Ripclone.Control

open Ripclone.Library

/-! ## The numbers of the table -/

/-- The rows' numbers, in the order of the table. -/
def Db.seqs (db : Db) : List Nat := db.builds.map BuildRow.seq

/-- The number an operation gives: that of the row an admission inserts. -/
def Op.seq? (op : Op) (db : Db) : Option Nat :=
  match op with
  | .admitBuild repo commit refName now =>
    match Control.admitBuild repo commit refName now db with
    | .ok (db, true) => (db.row (repo, commit)).map BuildRow.seq
    | _ => none
  | _ => none

section Seqs

variable {db : Db} {op : Op} {row row' : BuildRow}

theorem seq_headFailureCascade (fails : Bool) (error : String) (row : BuildRow) :
    (headFailureCascade fails error row).seq = row.seq := by
  unfold headFailureCascade
  split <;> rfl

theorem seq_publishRow (output : Output) (row : BuildRow) :
    (publishRow output row).seq = row.seq := by
  cases output <;> rfl

/-- A `RowStep` keeps the row's number. -/
theorem RowStep.seq_eq (h : RowStep op row row') : row'.seq = row.seq := by
  cases h with
  | refName => rfl
  | reset _ _ => rfl
  | gaveUp _ => rw [giveUpRow, seq_headFailureCascade, BuildRow.seq_setOut]
  | leased _ _ _ => rw [leaseRow, BuildRow.seq_setOut]
  | renewed _ => rw [renewRow, BuildRow.seq_setOut]
  | published _ _ => exact seq_publishRow _ _
  | failed _ => rw [failRow, seq_headFailureCascade, BuildRow.seq_setOut]
  | released _ => rw [releaseRow, BuildRow.seq_setOut]
  | cleared => rfl

theorem RowSteps.seq_eq (h : RowSteps op row row') : row'.seq = row.seq := by
  induction h with
  | refl => rfl
  | tail _ hstep ih => exact hstep.seq_eq.trans ih

theorem RowSteps.key_eq (h : RowSteps op row row') : row'.key = row.key := by
  induction h with
  | refl => rfl
  | tail _ hstep ih => exact hstep.key_eq.trans ih

/-- A row of the table after an operation was there before it, as it was or changed by `RowSteps`, or
it is the one an admission inserted. -/
theorem mem_exec (hkeys : db.KeysUnique) (h : row' ∈ (exec op db).builds) :
    (∃ row ∈ db.builds, RowSteps op row row') ∨
      ∃ refName now, op = .admitBuild row'.repo row'.commitId refName now ∧
        row' = newBuild row'.repo row'.commitId refName now (nextSeq db) := by
  have hlookup : (exec op db).row row'.key = some row' :=
    Table.lookup_of_mem (keysUnique_exec op hkeys) h
  cases hrow : db.row row'.key with
  | none =>
      rcases row_exec_none op hrow with hnone | ⟨refName, now, hop, hnew⟩
      · rw [hnone] at hlookup
        cases hlookup
      · exact .inr ⟨refName, now, hop, Option.some.inj (hlookup.symm.trans hnew)⟩
  | some row =>
      rcases row_exec_some op hkeys hrow with ⟨_, hnone⟩ | ⟨row₁, hrow₁, hsteps⟩
      · rw [hnone] at hlookup
        cases hlookup
      · obtain rfl := Option.some.inj (hlookup.symm.trans hrow₁)
        exact .inl ⟨row, Table.mem_of_lookup hrow, hsteps⟩

theorem seqs_update {p : BuildRow → Bool} {f : BuildRow → BuildRow} {rows : List BuildRow}
    (hseq : ∀ row, (f row).seq = row.seq) :
    (Table.update p f rows).map BuildRow.seq = rows.map BuildRow.seq :=
  Table.map_key_update hseq

theorem lt_nextSeq {seq : Nat} (h : seq ∈ db.seqs) : seq < nextSeq db :=
  Nat.lt_succ_of_le (Table.le_foldr_max h)

/-- One less than the next number is in the table, unless the table is empty. -/
theorem nextSeq_pred_mem (h : db.seqs ≠ []) : nextSeq db - 1 ∈ db.seqs := Table.foldr_max_mem h

theorem any_key {key : String × String} :
    (db.builds.any fun old => old.key = key) = (db.row key).isSome := by
  rw [Bool.eq_iff_iff, Db.row, Table.lookup, List.find?_isSome, List.any_eq_true]

/-- A row whose key is taken is not inserted. -/
theorem builds_insertBuild (db : Db) (new : BuildRow) : (insertBuild new db).builds =
    if (db.row new.key).isSome then db.builds else db.builds ++ [new] := by
  rw [← any_key]
  rfl

/-- An admission that inserts a row puts its number at the end; every other operation keeps the order
of the numbers and adds none. -/
theorem seqs_exec (op : Op) (db : Db) :
    op.seq? db = none ∧ (exec op db).seqs.Sublist db.seqs ∨
      op.seq? db = some (nextSeq db) ∧ (exec op db).seqs = db.seqs ++ [nextSeq db] := by
  -- An update in place keeps every number.
  have hupdate : ∀ {p f} {db' : Db}, db'.builds = Table.update p f db.builds →
      (∀ row, (f row).seq = row.seq) → db'.seqs.Sublist db.seqs := by
    intro p f db' hbuilds hseq
    rw [Db.seqs, hbuilds, seqs_update hseq]
    exact .refl _
  cases op with
  | admitBuild repo commit refName now =>
      have hinsert := builds_insertBuild db (newBuild repo commit refName now (nextSeq db))
      rcases admitBuild_cases repo commit refName now db with ⟨error, h⟩ | h | ⟨hthere, missing, h⟩
      · exact .inl ⟨by simp only [Op.seq?, h], by simp only [exec, h]; exact .refl _⟩
      · -- A row that is there is left alone; a new one gets the next number.
        cases hrow : db.row (repo, commit) with
        | none =>
            have hnew : (insertBuild (newBuild repo commit refName now (nextSeq db)) db).row
                (repo, commit) = some (newBuild repo commit refName now (nextSeq db)) := by
              rw [row_insertBuild, hrow]
              exact if_pos rfl
            rw [if_neg (by simp [newBuild, BuildRow.key, hrow])] at hinsert
            refine .inr ⟨?_, ?_⟩
            · simp only [Op.seq?, h, hrow, Option.isNone_none, hnew]
              rfl
            · simp only [exec, h, Db.seqs, hinsert, List.map_append]
              rfl
        | some row =>
            rw [if_pos (by simp [newBuild, BuildRow.key, hrow])] at hinsert
            refine .inl ⟨by simp only [Op.seq?, h, hrow, Option.isNone_some], ?_⟩
            simp only [exec, h, Db.seqs, hinsert]
            exact .refl _
      · rw [if_pos (by simpa [newBuild, BuildRow.key, Option.isSome_iff_ne_none] using hthere)]
          at hinsert
        refine .inl ⟨by simp only [Op.seq?, h], ?_⟩
        simp only [exec, h, hinsert]
        exact hupdate rfl fun _ => rfl
  | claim store now owner pool lease seen =>
      have hgive : (giveUp store now pool.kind db).seqs.Sublist db.seqs :=
        hupdate rfl fun row => by rw [giveUpRow, seq_headFailureCascade, BuildRow.seq_setOut]
      refine .inl ⟨rfl, ?_⟩
      rcases claim_cases store now owner pool lease seen db with h | h | ⟨r, _, u, _, h⟩
      · simp only [exec, h]
        exact .refl _
      · simpa only [exec, h] using hgive
      · simp only [exec, h]
        rw [Db.seqs, leaseBuild, seqs_update fun row => by rw [leaseRow, BuildRow.seq_setOut]]
        exact hgive
  | publish claim output =>
      refine .inl ⟨rfl, ?_⟩
      rcases publish_cases claim output db with ⟨error, h⟩ | h | ⟨_, r, _, _, h⟩
      · simp only [exec, h]
        exact .refl _
      · simp only [exec, h]
        exact .refl _
      · simp only [exec, h]
        exact hupdate rfl (seq_publishRow output)
  | retry repo commit => exact .inl ⟨rfl, hupdate rfl fun _ => rfl⟩
  | renew now claim lease =>
      exact .inl ⟨rfl, hupdate rfl fun row => by rw [renewRow, BuildRow.seq_setOut]⟩
  | fail store now claim error retryAfter =>
      exact .inl ⟨rfl, hupdate rfl fun row => by
        rw [failRow, seq_headFailureCascade, BuildRow.seq_setOut]⟩
  | release claim =>
      exact .inl ⟨rfl, hupdate rfl fun row => by rw [releaseRow, BuildRow.seq_setOut]⟩
  | resetLeases => exact .inl ⟨rfl, hupdate rfl fun _ => rfl⟩
  | purgeRepo repo dueAt => exact .inl ⟨rfl, List.filter_sublist.map _⟩
  | addRepo repo owner now =>
      refine .inl ⟨rfl, ?_⟩
      rw [Db.seqs, builds_addRepo]
      exact .refl _
  | setRefs repo refs =>
      refine .inl ⟨rfl, ?_⟩
      rw [Db.seqs, builds_setRefs]
      exact .refl _
  | removeRepo repo => exact .inl ⟨rfl, .refl _⟩
  | queueDeletions hashes dueAt => exact .inl ⟨rfl, .refl _⟩
  | dequeueDeletions hashes now => exact .inl ⟨rfl, .refl _⟩
  | recordSizes sizes => exact .inl ⟨rfl, .refl _⟩

/-- The table is in the order of its numbers. -/
theorem seqs_increase (op : Op) (h : db.seqs.Pairwise (· < ·)) :
    (exec op db).seqs.Pairwise (· < ·) := by
  rcases seqs_exec op db with ⟨_, hsub⟩ | ⟨_, hseqs⟩
  · exact h.sublist hsub
  · rw [hseqs, List.pairwise_append]
    refine ⟨h, List.pairwise_singleton _ _, fun seq hseq new hnew => ?_⟩
    rw [List.mem_singleton.mp hnew]
    exact lt_nextSeq hseq

end Seqs

/-! ## The numbers of a run -/

/-- The numbers given so far, oldest first. -/
def givenSeqs (w : World) : List Op → List Nat
  | [] => []
  | op :: ops => (op.seq? w.db).toList ++ givenSeqs (w.after op) ops

section Given

variable {w : World} {ops : List Op}

theorem givenSeqs_concat (op : Op) :
    givenSeqs w (ops ++ [op]) = givenSeqs w ops ++ (op.seq? (w.run ops).db).toList := by
  induction ops generalizing w with
  | nil => simp [givenSeqs, World.run]
  | cons first rest ih =>
      rw [List.cons_append, givenSeqs, ih, givenSeqs, List.append_assoc]
      rfl

theorem run_concat (op : Op) : w.run (ops ++ [op]) = (w.run ops).after op := by
  simp [World.run]

/-- Every number in the table was given. -/
theorem seqs_given : ∀ seq ∈ (World.init.run ops).db.seqs, seq ∈ givenSeqs World.init ops := by
  induction ops using List.reverseRecOn with
  | nil => simp [World.run, World.init, Db.empty, Db.seqs]
  | append_singleton ops op ih =>
      rw [run_concat, givenSeqs_concat]
      intro seq hseq
      rcases seqs_exec op (World.init.run ops).db with ⟨_, hsub⟩ | ⟨hgives, hseqs⟩
      · exact List.mem_append_left _ (ih seq (hsub.mem hseq))
      · rw [hgives]
        rcases List.mem_append.mp (hseqs ▸ hseq) with hold | hnew
        · exact List.mem_append_left _ (ih seq hold)
        · exact List.mem_append_right _ (by simpa using hnew)

/-- Numbers start at 1. -/
theorem givenSeqs_pos : ∀ seq ∈ givenSeqs w ops, 0 < seq := by
  induction ops generalizing w with
  | nil => simp [givenSeqs]
  | cons op ops ih =>
      intro seq hseq
      rcases List.mem_append.mp hseq with hfirst | hrest
      · rcases seqs_exec op w.db with ⟨hnone, _⟩ | ⟨hgives, _⟩
        · simp [hnone] at hfirst
        · obtain rfl : seq = nextSeq w.db := by simpa [hgives] using hfirst
          exact Nat.succ_pos _
      · exact ih seq hrest

theorem le_getLast {ns : List Nat} {last n : Nat} (h : ns.Pairwise (· < ·))
    (hlast : ns.getLast? = some last) (hn : n ∈ ns) : n ≤ last := by
  obtain ⟨front, rfl⟩ := List.getLast?_eq_some_iff.mp hlast
  rcases List.mem_append.mp hn with hfront | hn
  · exact Nat.le_of_lt ((List.pairwise_append.mp h).2.2 n hfront last (by simp))
  · exact Nat.le_of_eq (List.mem_singleton.mp hn)

/-- Numbers given in increasing order stay so with one more exactly when the row given the last one is
in the table. -/
theorem increase_concat_iff {op : Op}
    (hgives : op.seq? (World.init.run ops).db = some (nextSeq (World.init.run ops).db))
    (h : (givenSeqs World.init ops).Pairwise (· < ·)) :
    (givenSeqs World.init (ops ++ [op])).Pairwise (· < ·) ↔
      ∀ last ∈ (givenSeqs World.init ops).getLast?, last ∈ (World.init.run ops).db.seqs := by
  rw [givenSeqs_concat, hgives, List.pairwise_append]
  constructor
  · rintro ⟨_, _, hlt⟩ last hlast
    have hlastMem := List.mem_of_getLast? hlast
    have hnext := hlt last hlastMem (nextSeq (World.init.run ops).db) (by simp)
    have hpos := givenSeqs_pos last hlastMem
    -- the largest number of the table is not larger than the last one given
    have hne : (World.init.run ops).db.seqs ≠ [] := by
      intro hnil
      have : nextSeq (World.init.run ops).db = 1 := by
        rw [nextSeq, show (World.init.run ops).db.builds.map BuildRow.seq = [] from hnil]
        rfl
      omega
    have hmax := nextSeq_pred_mem hne
    have hle := le_getLast h hlast (seqs_given _ hmax)
    rwa [show last = nextSeq (World.init.run ops).db - 1 by omega]
  · intro hkept
    refine ⟨h, List.pairwise_singleton _ _, fun seq hseq new hnew => ?_⟩
    obtain rfl : new = nextSeq (World.init.run ops).db := by simpa using hnew
    obtain ⟨last, hlast⟩ := Option.isSome_iff_exists.mp
      (List.getLast?_isSome.mpr (List.ne_nil_of_mem hseq))
    exact Nat.lt_of_le_of_lt (le_getLast h hlast hseq) (lt_nextSeq (hkept last hlast))

end Given

/-- The numbers of a run of the store, purges included, increase from each admission to the next
exactly when every admission that inserts a row finds the row of the admission before it still in
the table. -/
theorem numbers_increase_iff (ops : List Op) :
    (givenSeqs World.init ops).Pairwise (· < ·) ↔
      ∀ before op after, ops = before ++ op :: after →
        (op.seq? (World.init.run before).db).isSome →
        ∀ last ∈ (givenSeqs World.init before).getLast?,
          last ∈ (World.init.run before).db.seqs := by
  induction ops using List.reverseRecOn with
  | nil => simp [givenSeqs]
  | append_singleton ops op ih =>
      have hsplit : ∀ before op' after, ops = before ++ op' :: after →
          ops ++ [op] = before ++ op' :: (after ++ [op]) := by
        intro before op' after h
        rw [h, List.append_assoc, List.cons_append]
      constructor
      · intro h before op' after heq hgives last hlast
        have hpre : (givenSeqs World.init ops).Pairwise (· < ·) := by
          rw [givenSeqs_concat] at h
          exact (List.pairwise_append.mp h).1
        rcases List.eq_nil_or_concat after with rfl | ⟨after', last', rfl⟩
        · obtain ⟨rfl, hop⟩ := List.append_inj' heq rfl
          obtain rfl := (List.cons.inj hop).1
          rcases seqs_exec op (World.init.run ops).db with ⟨hnone, _⟩ | ⟨hsome, _⟩
          · simp [hnone] at hgives
          · exact (increase_concat_iff hsome hpre).mp h last hlast
        · rw [List.concat_eq_append, ← List.cons_append, ← List.append_assoc] at heq
          obtain ⟨rfl, _⟩ := List.append_inj' heq rfl
          exact ih.mp hpre before op' after' rfl hgives last hlast
      · intro h
        have hpre := ih.mpr fun before op' after heq => h before op' _ (hsplit _ _ _ heq)
        rcases seqs_exec op (World.init.run ops).db with ⟨hnone, _⟩ | ⟨hsome, _⟩
        · rw [givenSeqs_concat, hnone]
          simpa using hpre
        · exact (increase_concat_iff hsome hpre).mpr (h ops op [] rfl (by simp [hsome]))

/-- A repository is purged and a commit of it admitted again: the number is given twice. -/
def purgedAndAdmitted : List Op :=
  [.admitBuild "r" takeoverCommit none 0, .purgeRepo "r" 0, .admitBuild "r" takeoverCommit none 0]

theorem purged_number_given_again :
    givenSeqs World.init purgedAndAdmitted = [1, 1] ∧
      ¬ (givenSeqs World.init purgedAndAdmitted).Pairwise (· < ·) ∧
      ¬ (givenSeqs World.init purgedAndAdmitted).Nodup := by
  decide

/-! ## The order of Fulls -/

/-- The Full was published, or is or was being built. -/
def FullEngaged (row : BuildRow) : Prop :=
  (row.out .full).state = .ready ∨ (row.out .full).lease.isSome

/-- No Full is engaged before the Fulls of its repository admitted before it are settled. -/
def Db.FullsInOrder (db : Db) : Prop :=
  ∀ older ∈ db.builds, ∀ newer ∈ db.builds, older.repo = newer.repo → older.seq < newer.seq →
    FullEngaged newer → (older.out .full).state ≠ .pending

def Op.isRetry : Op → Bool
  | .retry _ _ => true
  | _ => false

/-- Whether an operation is a claim of a Full. -/
def Op.claimsFull : Op → Bool
  | .claim _ _ _ pool _ _ => pool = .full
  | _ => false

section FullOrder

variable {op : Op} {row row' : BuildRow} {db : Db}

theorem repo_of_key (h : row'.key = row.key) : row'.repo = row.repo := congrArg Prod.fst h

theorem ownsPending_lease {claim : Claim} (h : ownsPending claim row = true) :
    (row.out claim.kind).lease.isSome :=
  ownsLease_isSome ((Bool.and_eq_true _ _).mp h).1

theorem giveUpRow_settled {store : SqliteControlStore} {kind : ExactResultKind}
    (hfull : (row.out .full).state ≠ .pending) :
    ((giveUpRow store kind row).out .full).state ≠ .pending := by
  rw [out_giveUpRow]
  split
  · simp [giveUpColumns]
  · split
    · simp
    · exact hfull

theorem giveUpRow_engaged {store : SqliteControlStore} {kind : ExactResultKind}
    (hfull : FullEngaged (giveUpRow store kind row)) : FullEngaged row := by
  rw [FullEngaged, out_giveUpRow] at hfull
  split at hfull
  · simp [giveUpColumns] at hfull
  · split at hfull
    · have hlease : row.full.lease.isSome := by simpa using hfull
      exact .inr hlease
    · exact hfull

/-- A settled Full is pending again only by a retry. -/
theorem RowStep.full_settled (h : RowStep op row row') (hretry : op.isRetry = false)
    (hfull : (row.out .full).state ≠ .pending) : (row'.out .full).state ≠ .pending := by
  cases h with
  | refName => simpa using hfull
  | reset _ _ => cases hretry
  | gaveUp _ => exact giveUpRow_settled hfull
  | leased hstate _ _ =>
      rw [out_leaseRow]
      split
      · next heq => rwa [← heq]
      · exact hfull
  | renewed h =>
      rw [out_renewRow]
      split
      · next heq => rwa [← heq]
      · exact hfull
  | published h hkind =>
      rw [out_publishRow]
      split
      · simp
      · exact hfull
  | failed h =>
      rw [out_failRow]
      split
      · next heq => exact absurd (ownsPending_state h) (heq ▸ hfull)
      · split
        · simp
        · exact hfull
  | released h =>
      rw [out_releaseRow]
      split
      · next heq => rwa [← heq]
      · exact hfull
  | cleared => simpa using hfull

theorem RowSteps.full_settled (h : RowSteps op row row') (hretry : op.isRetry = false)
    (hfull : (row.out .full).state ≠ .pending) : (row'.out .full).state ≠ .pending := by
  induction h with
  | refl => exact hfull
  | tail _ hstep ih => exact hstep.full_settled hretry ih

/-- Only a claim of a Full engages one. -/
theorem RowStep.full_engaged (h : RowStep op row row') (hclaim : op.claimsFull = false)
    (hfull : FullEngaged row') : FullEngaged row := by
  unfold FullEngaged at hfull ⊢
  cases h with
  | refName => simpa using hfull
  | reset _ _ =>
      rw [out_resetRow, resetFailed] at hfull
      split at hfull
      · exact .inr (by simpa using hfull)
      · exact hfull
  | gaveUp _ => exact giveUpRow_engaged hfull
  -- The one step that gives a Full to an owner is a claim of its pool.
  | @leased _ _ _ pool _ _ _ _ _ _ _ =>
      have hkind : ExactResultKind.full ≠ pool.kind := by
        cases pool with
        | full => cases hclaim
        | head => simp [Pool.kind]
        | files => simp [Pool.kind]
      rwa [out_leaseRow, if_neg hkind] at hfull
  | renewed h =>
      rw [out_renewRow] at hfull
      split at hfull
      · next heq =>
          rw [heq]
          simpa using hfull
      · exact hfull
  | published h hkind =>
      rw [out_publishRow] at hfull
      split at hfull
      · next heq =>
          rw [heq, hkind]
          exact .inr (ownsPending_lease h)
      · exact hfull
  | failed h =>
      rw [out_failRow] at hfull
      split at hfull
      · next heq =>
          rw [heq]
          exact .inr (ownsPending_lease h)
      · split at hfull
        · have hlease : row.full.lease.isSome := by simpa using hfull
          exact .inr hlease
        · exact hfull
  | released h =>
      rw [out_releaseRow] at hfull
      split at hfull
      · next heq =>
          rw [heq]
          exact .inl (by simpa using hfull)
      · exact hfull
  | cleared => exact .inl (by simpa using hfull)

theorem RowSteps.full_engaged (h : RowSteps op row row') (hclaim : op.claimsFull = false)
    (hfull : FullEngaged row') : FullEngaged row := by
  induction h with
  | refl => exact hfull
  | tail _ hstep ih => exact ih (hstep.full_engaged hclaim hfull)

/-- A row that is not further along than an older state of it. -/
structure FullFollows (row row' : BuildRow) : Prop where
  repo : row'.repo = row.repo
  seq : row'.seq = row.seq
  engaged : FullEngaged row' → FullEngaged row
  settled : (row.out .full).state ≠ .pending → (row'.out .full).state ≠ .pending

/-- The order is kept when rows settle, or are added at the end. -/
theorem Db.FullsInOrder.of_rows {db' : Db} (h : db.FullsInOrder)
    (hrows : ∀ row' ∈ db'.builds, (∃ row ∈ db.builds, FullFollows row row') ∨
      ¬ FullEngaged row' ∧ ∀ row ∈ db.builds, row.seq < row'.seq) : db'.FullsInOrder := by
  intro older' holder newer' hnewer hrepo hlt hengaged
  rcases hrows newer' hnewer with ⟨newer, hnewer, hnew⟩ | ⟨hidle, _⟩
  · rcases hrows older' holder with ⟨older, holder, hold⟩ | ⟨_, hlast⟩
    · have hrepo : older.repo = newer.repo := by rw [← hold.repo, hrepo, hnew.repo]
      have hlt : older.seq < newer.seq := by rw [← hold.seq, ← hnew.seq]; exact hlt
      exact hold.settled (h older holder newer hnewer hrepo hlt (hnew.engaged hengaged))
    · have hlater := hlast newer hnewer
      rw [← hnew.seq] at hlater
      omega
  · exact absurd hengaged hidle

theorem fullFollows_giveUpRow {store : SqliteControlStore} {kind : ExactResultKind} :
    FullFollows row (giveUpRow store kind row) where
  repo := repo_of_key (key_giveUpRow store kind row)
  seq := by rw [giveUpRow, seq_headFailureCascade, BuildRow.seq_setOut]
  engaged := giveUpRow_engaged
  settled := giveUpRow_settled

theorem full_leaseRow (kind : ExactResultKind) (owner : String) (leaseUntil : Int) (row : BuildRow) :
    ((leaseRow kind owner leaseUntil row).out .full).state = (row.out .full).state ∧
      (leaseRow kind owner leaseUntil row).seq = row.seq ∧
      (leaseRow kind owner leaseUntil row).repo = row.repo := by
  refine ⟨?_, by rw [leaseRow, BuildRow.seq_setOut], repo_of_key (key_leaseRow kind _ _ row)⟩
  rw [out_leaseRow]
  split
  · next heq => rw [heq]
  · rfl

theorem fullFollows_leaseRow {kind : ExactResultKind} {owner : String} {leaseUntil : Int}
    (hkind : kind ≠ .full) : FullFollows row (leaseRow kind owner leaseUntil row) where
  repo := (full_leaseRow kind owner leaseUntil row).2.2
  seq := (full_leaseRow kind owner leaseUntil row).2.1
  engaged := by
    rw [FullEngaged, out_leaseRow, if_neg (Ne.symm hkind)]
    exact id
  settled := by
    rw [(full_leaseRow kind owner leaseUntil row).1]
    exact id

/-- A row of a key is the only one of it. -/
theorem eq_of_key_eq (hkeys : db.KeysUnique) {a b : BuildRow} (ha : a ∈ db.builds)
    (hb : b ∈ db.builds) (h : a.key = b.key) : a = b := by
  have hlookup := Table.lookup_of_mem hkeys ha
  rw [h, Table.lookup_of_mem hkeys hb] at hlookup
  exact (Option.some.inj hlookup).symm

/-- A row of the table after a lease: the leased one, or one that was there. -/
theorem mem_leaseBuild {pool : Pool} {owner : String} {leaseUntil : Int} {r : BuildRow}
    (h : row' ∈ (leaseBuild pool owner leaseUntil r db).builds) :
    ∃ row ∈ db.builds, (row' = row ∨ row.key = r.key) ∧ row'.repo = row.repo ∧
      row'.seq = row.seq ∧ (row'.out .full).state = (row.out .full).state := by
  obtain ⟨row, hrow, rfl⟩ := Table.mem_update.mp h
  refine ⟨row, hrow, ?_⟩
  split
  · next hkey =>
      obtain ⟨hstate, hseq, hrepo⟩ := full_leaseRow pool.kind owner leaseUntil row
      exact ⟨.inr (by simpa using hkey), hrepo, hseq, hstate⟩
  · exact ⟨.inl rfl, rfl, rfl, rfl⟩

/-- A leased Full is one with no older pending one. -/
theorem fullsInOrder_leaseFull {r : BuildRow} {owner : String} {leaseUntil : Int}
    (hkeys : db.KeysUnique) (hr : r ∈ db.builds) (hneeds : poolNeeds .full db r = true)
    (h : db.FullsInOrder) : (leaseBuild .full owner leaseUntil r db).FullsInOrder := by
  intro older' holder' newer' hnewer' hrepo hlt hengaged
  obtain ⟨older, holder, _, holderRepo, holderSeq, hstate⟩ := mem_leaseBuild holder'
  obtain ⟨newer, hnewer, hcases, hnewerRepo, hnewerSeq, _⟩ := mem_leaseBuild hnewer'
  rw [holderRepo, hnewerRepo] at hrepo
  rw [holderSeq, hnewerSeq] at hlt
  rw [hstate]
  rcases hcases with rfl | hkey
  · exact h older holder _ hnewer hrepo hlt hengaged
  · -- the claim found no older pending Full
    obtain rfl := eq_of_key_eq hkeys hnewer hr hkey
    simp only [poolNeeds, Bool.and_eq_true, Bool.not_eq_true'] at hneeds
    intro hpending
    have hnone := List.any_eq_false.mp hneeds.2 older holder
    have hfull : older.full.state = .pending := hpending
    simp [hrepo, hfull, hlt] at hnone

/-- A claim gives up on Fulls, which settles them, and leases one with no older pending one. -/
theorem fullsInOrder_claim (store : SqliteControlStore) (now : Int) (owner : String) (pool : Pool)
    (lease : Nat) (seen : Db) (hkeys : db.KeysUnique) (h : db.FullsInOrder) :
    (claim store now owner pool lease seen db).1.FullsInOrder := by
  have hgive : (giveUp store now pool.kind db).FullsInOrder := by
    refine h.of_rows fun row' hrow' => .inl ?_
    obtain ⟨row, hrow, rfl⟩ := Table.mem_update.mp hrow'
    refine ⟨row, hrow, ?_⟩
    split
    · exact fullFollows_giveUpRow
    · exact ⟨rfl, rfl, id, id⟩
  rcases claim_cases store now owner pool lease seen db with hc | hc | ⟨r, hr, u, hclaimable, hc⟩
  · rwa [hc]
  · rwa [hc]
  · rw [hc]
    by_cases hfull : pool = .full
    · subst hfull
      simp only [claimable, Bool.and_eq_true] at hclaimable
      exact fullsInOrder_leaseFull (keysUnique_giveUp hkeys) hr hclaimable.1.1.1.1.2 hgive
    · have hkind : pool.kind ≠ .full := by
        cases pool <;> simp_all [Pool.kind]
      refine hgive.of_rows fun row' hrow' => .inl ?_
      obtain ⟨row, hrow, rfl⟩ := Table.mem_update.mp hrow'
      refine ⟨row, hrow, ?_⟩
      split
      · exact fullFollows_leaseRow hkind
      · exact ⟨rfl, rfl, id, id⟩

theorem fullsInOrder_exec (op : Op) (hretry : op.isRetry = false) (hkeys : db.KeysUnique)
    (h : db.FullsInOrder) : (exec op db).FullsInOrder := by
  by_cases hclaim : op.claimsFull = true
  · cases op with
    | claim store now owner pool lease seen =>
        exact fullsInOrder_claim store now owner pool lease seen hkeys h
    | _ => cases hclaim
  · refine h.of_rows fun row' hrow' => ?_
    rcases mem_exec hkeys hrow' with ⟨row, hrow, hsteps⟩ | ⟨refName, now, _, hnew⟩
    · exact .inl ⟨row, hrow, repo_of_key hsteps.key_eq, hsteps.seq_eq,
        hsteps.full_engaged (by simpa using hclaim), hsteps.full_settled hretry⟩
    · refine .inr ⟨?_, fun row hrow => ?_⟩
      · rw [hnew]
        simp [FullEngaged, newBuild, BuildRow.out, OutColumns.default]
      · rw [hnew]
        exact lt_nextSeq (List.mem_map_of_mem hrow)

end FullOrder

/-- After every run without a retry, the rows are in the table in the order of their numbers, each
admission after those before it, and if the Full of a row is ready or leased then no Full of the same
repository admitted before it is pending. -/
theorem fulls_settled_in_order {ops : List Op} {w : World} (hrun : Run Step World.init ops w)
    (hretry : ∀ op ∈ ops, op.isRetry = false) :
    w.db.builds.Pairwise fun older newer => older.seq < newer.seq ∧
      (older.repo = newer.repo → newer.full.state = .ready ∨ newer.full.lease.isSome →
        older.full.state ≠ .pending) := by
  have hinv : w.db.KeysUnique ∧ w.db.seqs.Pairwise (· < ·) ∧ w.db.FullsInOrder := by
    refine hrun.invariant (I := fun w => w.db.KeysUnique ∧ w.db.seqs.Pairwise (· < ·) ∧
      w.db.FullsInOrder) ⟨keysUnique_init, .nil, by simp [Db.FullsInOrder, World.init, Db.empty]⟩
      ?_ hretry
    rintro op w w' hop ⟨hkeys, hseqs, horder⟩ rfl
    exact ⟨keysUnique_exec op hkeys, seqs_increase op hseqs, fullsInOrder_exec op hop hkeys horder⟩
  obtain ⟨_, hseqs, horder⟩ := hinv
  refine (List.pairwise_map.mp hseqs).imp_of_mem fun {older newer} holder hnewer hlt => ?_
  exact ⟨hlt, fun hrepo hengaged => horder older holder newer hnewer hrepo hlt hengaged⟩

section OlderFailed

def olderCommit : String := "fedcba9876543210fedcba9876543210fedcba98"

/-- A claim of the Head of the older commit. -/
def olderClaim : Claim :=
  ⟨"r", "1/head-0-1", .head, newBuild "r" olderCommit none 0 1⟩

/-- The older commit's Head fails, and takes its Full along; the newer one's is published. -/
def olderHeadFailed : List Op :=
  let admits : List Op := [.admitBuild "r" olderCommit none 0, .admitBuild "r" takeoverCommit none 0]
  let claim (owner : String) : Op :=
    .claim takeoverStore 0 owner .head 60 (World.init.run admits).db
  admits ++ [claim "head-0-1", .fail takeoverStore 0 olderClaim "no such commit" none,
    .release olderClaim, claim "head-0-2",
    .publish (takeoverClaim "1/head-0-2" 2) takeoverOutput]

/-- Then the newer commit's Full is claimed. -/
def olderFailed : List Op :=
  olderHeadFailed ++
    [.claim takeoverStore 0 "full-0-1" .full 60 (World.init.run olderHeadFailed).db]

theorem older_failed_in_order :
    ((World.init.run olderFailed).db.builds.map fun row =>
      (row.full.state, row.full.lease.isSome)) = [(.failed, false), (.pending, true)] ∧
    (World.init.run olderFailed).db.builds.Pairwise fun older newer => older.seq < newer.seq ∧
      (older.repo = newer.repo → newer.full.state = .ready ∨ newer.full.lease.isSome →
        older.full.state ≠ .pending) :=
  ⟨by decide, fulls_settled_in_order (run_run World.init olderFailed) (by decide)⟩

end OlderFailed

end Ripclone.Control
