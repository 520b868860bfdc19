import Ripclone.Control.Fencing
import Ripclone.Library.Maximal
import Mathlib.Data.List.Sort

/-!
# The commit a build reuses

A build takes over what a ready build of an ancestor made. The store lists the ready commits of the
repository with those of the claimed ref and the later admissions first, which is not the order of
history, so among the ancestors listed the build looks for one that no other descends from.
-/

namespace Ripclone.Control

/-- What `CASE WHEN ref_name = $3 THEN 0 ELSE 1 END` gives. A comparison with `NULL` is not true. -/
def refRank (preferRef : Option String) (row : BuildRow) : Nat :=
  match preferRef with
  | some name => if row.refName = some name then 0 else 1
  | none => 1

/-- `ORDER BY CASE WHEN ref_name = $3 THEN 0 ELSE 1 END, seq DESC`. -/
def listedBefore (preferRef : Option String) (a b : BuildRow) : Bool :=
  refRank preferRef a < refRank preferRef b ||
    (refRank preferRef a = refRank preferRef b && b.seq ≤ a.seq)

/-- The rows whose commits `readyCommits` gives. -/
def readyRows (db : Db) (repo : String) (kind : ExactResultKind) (preferRef : Option String)
    (except : String) (limit : Nat) : List BuildRow :=
  ((db.builds.filter fun row =>
      row.repo = repo && (row.out kind).state = .ready && row.commitId ≠ except).insertionSort
    fun a b => listedBefore preferRef a b).take limit

def readyCommits (db : Db) (repo : String) (kind : ExactResultKind) (preferRef : Option String)
    (except : String) (limit : Nat) : List String :=
  (readyRows db repo kind preferRef except limit).map BuildRow.commitId

section ReadyRows

variable {db : Db} {repo : String} {kind : ExactResultKind} {preferRef : Option String}
  {except : String} {limit : Nat} {row : BuildRow}

theorem mem_readyRows (h : row ∈ readyRows db repo kind preferRef except limit) :
    row ∈ db.builds ∧ row.repo = repo ∧ (row.out kind).state = .ready ∧ row.commitId ≠ except := by
  have hmem := List.mem_of_mem_take h
  rw [List.mem_insertionSort, List.mem_filter] at hmem
  obtain ⟨hbuild, hready⟩ := hmem
  simp only [Bool.and_eq_true, decide_eq_true_eq] at hready
  exact ⟨hbuild, hready.1.1, hready.1.2, hready.2⟩

/-- A listed commit is one of a row the database has. -/
theorem row_of_mem_readyCommits (hkeys : db.KeysUnique) {commit : String}
    (h : commit ∈ readyCommits db repo kind preferRef except limit) :
    (db.row (repo, commit)).isSome := by
  obtain ⟨row, hrow, rfl⟩ := List.mem_map.mp h
  obtain ⟨hmem, rfl, -, -⟩ := mem_readyRows hrow
  have hlookup : db.row row.key = some row := Library.Table.lookup_of_mem hkeys hmem
  rw [show (row.repo, row.commitId) = row.key from rfl, hlookup]
  rfl

end ReadyRows

/-- A row stays until its repository is purged. -/
theorem row_run {w w' : World} {ops : List Op} {key : String × String}
    (hrun : Library.Run Step w ops w') (hkeys : w.db.KeysUnique)
    (hpurge : ∀ op ∈ ops, op.purges key.1 = false) (h : (w.db.row key).isSome) :
    (w'.db.row key).isSome := by
  refine (hrun.invariant (I := fun w => w.db.KeysUnique ∧ (w.db.row key).isSome)
    ⟨hkeys, h⟩ ?_ hpurge).2
  rintro op w w' hop ⟨hkeys, h⟩ rfl
  refine ⟨keysUnique_exec op hkeys, ?_⟩
  obtain ⟨row, hrow⟩ := Option.isSome_iff_exists.mp h
  rcases row_exec_some op hkeys hrow with ⟨hpurges, -⟩ | ⟨row', hrow', -⟩
  · rw [hop] at hpurges
    cases hpurges
  · rw [show (w.after op).db = exec op w.db from rfl, hrow']
    rfl

end Ripclone.Control

namespace Ripclone.Server

open Ripclone.Control Ripclone.Library

/-- Ready commits checked, newest first, for a build's base. -/
def baseCandidateLimit : Nat := 32

variable {ε : Type}

/-- The candidates that are ancestors of `tip`. One whose check fails is not usable. -/
def usableCandidates (isAncestor : String → String → Except ε Bool) (tip : String)
    (candidates : List String) : List String :=
  candidates.filter fun candidate =>
    match isAncestor candidate tip with
    | .ok isAncestor => isAncestor
    | .error _ => false

/-- The first of the ancestors found that no other descends from. -/
def newestAncestor? (isAncestor : String → String → Except ε Bool) (ancestors : List String) :
    Option String :=
  ancestors.find? fun ancestor =>
    !ancestors.any fun other =>
      other != ancestor && (isAncestor ancestor other).toOption.getD false

/-- What the base lookup task answers. -/
def baseCommit (isAncestor : String → String → Except ε Bool) (tip : String)
    (candidates : List String) : Option String :=
  let ancestors := usableCandidates isAncestor tip candidates
  (newestAncestor? isAncestor ancestors).or ancestors.head?

/-- The ready commits a build of the claimed commit considers. -/
def baseCandidates (db : Db) (claim : Claim) (kind : ExactResultKind) : List String :=
  readyCommits db claim.repo kind claim.build.refName claim.build.commitId baseCandidateLimit

/-- The row whose output of the kind a build of the claimed commit reuses. `mirror` is the ancestry
question of the mirror, which may fail to open. The row is read from the database as it is after the
lookup, `later`. -/
def ancestorBase (mirror : Except ε (String → String → Except ε Bool)) (db later : Db)
    (claim : Claim) (kind : ExactResultKind) : Except ε (Option BuildRow) := do
  let candidates := baseCandidates db claim kind
  let isAncestor ← mirror
  match baseCommit isAncestor claim.build.commitId candidates with
  | none => .ok none
  | some base => .ok (later.row (claim.repo, base))

/-! ## What the base is -/

/-- The checks among the candidates, and of each against the claimed commit, do not fail, and they
answer by a relation that is an order on the candidates. -/
structure Ancestry (ancestor : String → String → Prop)
    (isAncestor : String → String → Except ε Bool) (tip : String) (candidates : List String) :
    Prop where
  answers : ∀ a ∈ candidates, ∀ b, b = tip ∨ b ∈ candidates →
    ∃ answer, isAncestor a b = .ok answer ∧ (answer = true ↔ ancestor a b)
  trans : ∀ a ∈ candidates, ∀ b ∈ candidates, ∀ c ∈ candidates,
    ancestor a b → ancestor b c → ancestor a c
  antisymm : ∀ a ∈ candidates, ∀ b ∈ candidates, ancestor a b → ancestor b a → a = b

/-- Of the candidates that are ancestors of `tip`, `base` is the first that no other descends
from. -/
structure NewestAncestor (ancestor : String → String → Prop) (tip : String)
    (candidates : List String) (base : String) : Prop where
  isAncestor : ancestor base tip
  newest : ∀ other ∈ candidates, ancestor other tip → ancestor base other → other = base
  first : ∃ before after, candidates = before ++ base :: after ∧
    ∀ earlier ∈ before, ancestor earlier tip →
      ∃ other ∈ candidates, ancestor other tip ∧ ancestor earlier other ∧ other ≠ earlier

section Base

variable {ancestor : String → String → Prop} {isAncestor : String → String → Except ε Bool}
  {tip : String} {candidates : List String} {a b base : String}

theorem mem_usableCandidates : a ∈ usableCandidates isAncestor tip candidates ↔
    a ∈ candidates ∧ isAncestor a tip = .ok true := by
  rw [usableCandidates, List.mem_filter]
  refine and_congr_right fun _ => ?_
  cases isAncestor a tip with
  | error e => simp
  | ok answer => simp

/-- Whatever the checks answer, a base is a candidate that was found to be an ancestor. -/
theorem mem_of_baseCommit (h : baseCommit isAncestor tip candidates = some base) :
    base ∈ usableCandidates isAncestor tip candidates := by
  rcases Option.or_eq_some_iff.mp h with hfound | ⟨-, hfirst⟩
  · exact List.mem_of_find?_eq_some hfound
  · exact List.mem_of_head? hfirst

namespace Ancestry

variable (h : Ancestry ancestor isAncestor tip candidates)

include h

theorem check_eq_true_iff (ha : a ∈ candidates) (hb : b = tip ∨ b ∈ candidates) :
    isAncestor a b = .ok true ↔ ancestor a b := by
  obtain ⟨answer, hanswer, hiff⟩ := h.answers a ha b hb
  rw [hanswer, ← hiff]
  simp

theorem mem_usable_iff : a ∈ usableCandidates isAncestor tip candidates ↔
    a ∈ candidates ∧ ancestor a tip := by
  rw [mem_usableCandidates]
  exact and_congr_right fun ha => h.check_eq_true_iff ha (.inl rfl)

theorem answer_iff (ha : a ∈ usableCandidates isAncestor tip candidates)
    (hb : b ∈ usableCandidates isAncestor tip candidates) :
    (isAncestor a b).toOption.getD false = true ↔ ancestor a b := by
  have ha' := (mem_usableCandidates.mp ha).1
  have hb' := (mem_usableCandidates.mp hb).1
  obtain ⟨answer, hanswer, hiff⟩ := h.answers a ha' b (.inr hb')
  rw [hanswer]
  exact hiff

theorem newestAncestor?_isSome (hne : usableCandidates isAncestor tip candidates ≠ []) :
    (newestAncestor? isAncestor (usableCandidates isAncestor tip candidates)).isSome := by
  have hmem : ∀ {c}, c ∈ usableCandidates isAncestor tip candidates → c ∈ candidates :=
    fun hc => (mem_usableCandidates.mp hc).1
  refine firstMaximal_isSome ?_ ?_ hne
  · intro a ha b hb c hc hab hbc
    rw [h.answer_iff ha hb] at hab
    rw [h.answer_iff hb hc] at hbc
    rw [h.answer_iff ha hc]
    exact h.trans a (hmem ha) b (hmem hb) c (hmem hc) hab hbc
  · intro a ha b hb hab hba
    rw [h.answer_iff ha hb] at hab
    rw [h.answer_iff hb ha] at hba
    exact h.antisymm a (hmem ha) b (hmem hb) hab hba

/-- The first ancestor is never taken for want of a newest one. -/
theorem baseCommit_eq : baseCommit isAncestor tip candidates =
    newestAncestor? isAncestor (usableCandidates isAncestor tip candidates) := by
  unfold baseCommit
  by_cases hne : usableCandidates isAncestor tip candidates = []
  · rw [hne]
    rfl
  · obtain ⟨newest, hnewest⟩ := Option.isSome_iff_exists.mp (h.newestAncestor?_isSome hne)
    dsimp only
    rw [hnewest, Option.some_or]

theorem baseCommit_eq_none_iff : baseCommit isAncestor tip candidates = none ↔
    ∀ candidate ∈ candidates, ¬ancestor candidate tip := by
  constructor
  · intro hnone candidate hmem hancestor
    have husable := h.mem_usable_iff.mpr ⟨hmem, hancestor⟩
    have hsome := h.newestAncestor?_isSome (List.ne_nil_of_mem husable)
    rw [← h.baseCommit_eq, hnone] at hsome
    cases hsome
  · intro hnot
    rw [Option.eq_none_iff_forall_ne_some]
    intro base hbase
    obtain ⟨hmem, hancestor⟩ := h.mem_usable_iff.mp (mem_of_baseCommit hbase)
    exact hnot base hmem hancestor

theorem newest_of_baseCommit (hbase : baseCommit isAncestor tip candidates = some base) :
    NewestAncestor ancestor tip candidates base := by
  have hmem := mem_of_baseCommit hbase
  rw [h.baseCommit_eq] at hbase
  obtain ⟨hmax, before, after, hsplit, hbefore⟩ := firstMaximal_eq_some_iff.mp hbase
  refine ⟨(h.mem_usable_iff.mp hmem).2, ?_, ?_⟩
  · intro other hother htip habove
    have husable := h.mem_usable_iff.mpr ⟨hother, htip⟩
    exact hmax other husable ((h.answer_iff hmem husable).mpr habove)
  · -- The candidates before `base` that are ancestors are the usable ones before it.
    obtain ⟨front, back, hcandidates, hfront, hback⟩ := List.filter_eq_append_iff.mp hsplit
    obtain ⟨skipped, rest, hrest, hskipped, -, -⟩ := List.filter_eq_cons_iff.mp hback
    refine ⟨front ++ skipped, rest, by rw [hcandidates, hrest, List.append_assoc], ?_⟩
    intro earlier hearlier htip
    have hcandidate : earlier ∈ candidates := by
      rw [hcandidates, hrest, ← List.append_assoc]
      exact List.mem_append_left _ hearlier
    have husable := h.mem_usable_iff.mpr ⟨hcandidate, htip⟩
    have hfrontal : earlier ∈ before := by
      rcases List.mem_append.mp hearlier with hin | hin
      · rw [← hfront, List.mem_filter]
        exact ⟨hin, (List.mem_filter.mp husable).2⟩
      · exact absurd (List.mem_filter.mp husable).2 (hskipped earlier hin)
    have hnot := hbefore earlier hfrontal
    simp only [MaximalIn, not_forall] at hnot
    obtain ⟨other, hother, habove, hne⟩ := hnot
    obtain ⟨hmem', htip'⟩ := h.mem_usable_iff.mp hother
    exact ⟨other, hmem', htip', (h.answer_iff husable hother).mp habove, hne⟩

end Ancestry

end Base

theorem ancestorBase_ok {isAncestor : String → String → Except ε Bool} {db later : Db} {claim : Claim}
    {kind : ExactResultKind} : ancestorBase (.ok isAncestor) db later claim kind =
      .ok ((baseCommit isAncestor claim.build.commitId (baseCandidates db claim kind)).bind
        fun base => later.row (claim.repo, base)) := by
  simp only [ancestorBase, bind, Except.bind]
  cases baseCommit isAncestor claim.build.commitId (baseCandidates db claim kind) with
  | none => rfl
  | some base => rfl

/-- Where the ancestry checks do not fail and answer by an order: a base is found if and only if a
candidate is an ancestor of the claimed commit, and it is the first of the ancestors no other of
them descends from, never the first ancestor for want of one. The row given back is the base's, and
there is one for every base found unless the repository was purged since the candidates were
read. -/
theorem ancestorBase_newest {w w' : World} {ops : List Op} {claim : Claim} {kind : ExactResultKind}
    {ancestor : String → String → Prop} {isAncestor : String → String → Except ε Bool}
    (hkeys : w.db.KeysUnique) (hrun : Run Step w ops w')
    (h : Ancestry ancestor isAncestor claim.build.commitId (baseCandidates w.db claim kind)) :
    let candidates := baseCandidates w.db claim kind
    let tip := claim.build.commitId
    let ancestors := usableCandidates isAncestor tip candidates
    let row := ancestorBase (.ok isAncestor) w.db w'.db claim kind
    (baseCommit isAncestor tip candidates = none ↔ ∀ candidate ∈ candidates, ¬ancestor candidate tip) ∧
    (∀ base, baseCommit isAncestor tip candidates = some base →
      NewestAncestor ancestor tip candidates base) ∧
    baseCommit isAncestor tip candidates = newestAncestor? isAncestor ancestors ∧
    (∀ found, row = .ok (some found) → found.repo = claim.repo ∧
      NewestAncestor ancestor tip candidates found.commitId) ∧
    ((∀ op ∈ ops, op.purges claim.repo = false) →
      (row = .ok none ↔ ∀ candidate ∈ candidates, ¬ancestor candidate tip)) := by
  intro candidates tip ancestors row
  have hrow : row = _ := ancestorBase_ok
  refine ⟨h.baseCommit_eq_none_iff, fun base => h.newest_of_baseCommit, h.baseCommit_eq, ?_, ?_⟩
  · intro found hfound
    rw [hrow, Except.ok.injEq, Option.bind_eq_some_iff] at hfound
    obtain ⟨base, hbase, hlookup⟩ := hfound
    have hkey : found.key = (claim.repo, base) := Table.key_of_lookup hlookup
    obtain ⟨hrepo, rfl⟩ := Prod.mk.inj hkey
    exact ⟨hrepo, h.newest_of_baseCommit hbase⟩
  · intro hpurge
    rw [← h.baseCommit_eq_none_iff, hrow, Except.ok.injEq, Option.bind_eq_none_iff]
    constructor
    · intro hnone
      rw [Option.eq_none_iff_forall_ne_some]
      intro base hbase
      -- The base is a candidate, and its row is still there.
      have hcandidate := (mem_usableCandidates.mp (mem_of_baseCommit hbase)).1
      have hthere : (w'.db.row (claim.repo, base)).isSome :=
        row_run hrun hkeys hpurge (row_of_mem_readyCommits hkeys hcandidate)
      rw [hnone base hbase] at hthere
      cases hthere
    · intro hnone base hbase
      rw [hnone] at hbase
      cases hbase

section LateAdmission

/-- A commit admitted after one that descends from it. -/
def lateAdmission : Db :=
  let ready (commit : String) (seq : Nat) : BuildRow :=
    { newBuild "r" commit none 0 seq with head := { OutColumns.default with state := .ready } }
  { Db.empty with builds := [ready "newer" 1, ready "older" 2, newBuild "r" "claimed" none 0 3] }

def lateAdmissionClaim : Claim where
  repo := "r"
  owner := "1/head-0-1"
  pool := .head
  build := newBuild "r" "claimed" none 0 3

/-- The history `older`, `newer`, `claimed`. -/
def lineAncestor (a b : String) : Bool :=
  a == b || [("older", "newer"), ("older", "claimed"), ("newer", "claimed")].contains (a, b)

theorem lateAdmission_keys : lateAdmission.KeysUnique := by
  show (lateAdmission.builds.map BuildRow.key).Nodup
  decide

/-- The line of commits is an order on the candidates, whose newest is not the first listed. -/
theorem lateAdmission_newest :
    baseCandidates lateAdmission lateAdmissionClaim .head = ["older", "newer"] ∧
    NewestAncestor (fun a b => lineAncestor a b = true) "claimed" ["older", "newer"] "newer" := by
  have hcandidates : baseCandidates lateAdmission lateAdmissionClaim .head = ["older", "newer"] := by
    decide
  have hline : Ancestry (ε := String) (fun a b => lineAncestor a b = true)
      (fun a b => .ok (lineAncestor a b)) "claimed" ["older", "newer"] := {
    answers := fun a _ b _ => ⟨lineAncestor a b, rfl, Iff.rfl⟩
    trans := by decide
    antisymm := by decide }
  have h := @ancestorBase_newest _ ⟨lateAdmission, []⟩ _ [] lateAdmissionClaim .head _ _
    lateAdmission_keys .nil (hcandidates ▸ hline)
  rw [hcandidates] at h
  exact ⟨hcandidates, h.2.1 "newer" (by decide)⟩

end LateAdmission

end Ripclone.Server
