-- The outcome calls of executions that overlap. `heartbeat` looks at the lock
-- of its rows, but `mark_done`, `requeue` and `dead_letter` look at the id
-- alone, so a late call of an old execution meets the row of a new one.
import SkipLocked.Life

open jsonb postgres keyed_table event_runs

namespace skip_locked

open claim lease retry

/-! ## Calls and their makers -/

/-- A call, the worker that makes it, and the attempt that it makes it for. -/
structure Deed where
  worker : Text
  attempt : Int
  call : Call

def execBy (db : Db) (d : Deed) : Db × Answer := exec db d.call

def afterDeeds (deeds : List Deed) : Db := run execBy Db.empty deeds

theorem afterDeeds_good (deeds : List Deed) : (afterDeeds deeds).Good :=
  run_invariant good_empty (fun _ d h => exec_good h d.call) deeds

/-- How far an execution is with its outcome: a `requeue` that was refused is followed by a
`dead_letter`. -/
inductive Stage where
  | running
  | refused
  | ended
deriving DecidableEq, Repr

/-- The stage of each attempt of each job. -/
def Executions : Type := Int → Int → Option Stage

def Executions.set (x : Executions) (j k : Int) (s : Stage) : Executions :=
  fun j' k' => if j' = j ∧ k' = k then some s else x j' k'

/-- The executions after a deed, or none when the deed breaks the protocol of outcomes. -/
def Executions.follow (x : Executions) (d : Deed) (a : Answer) : Option Executions :=
  match d.call.op, a with
  | .mark_done id, _ =>
    if x id d.attempt = some .running then some (x.set id d.attempt .ended) else none
  | .requeue id _, .ok (.rows n) =>
    if x id d.attempt = some .running then
      some (x.set id d.attempt (if n = 0 then .refused else .ended))
    else none
  | .requeue id _, _ => if x id d.attempt = some .running then some x else none
  | .dead_letter id _, _ =>
    if x id d.attempt = some .running ∨ x id d.attempt = some .refused then
      some (x.set id d.attempt .ended)
    else none
  | _, .ok (.jobs jobs) =>
    some (jobs.foldl (fun x job => x.set job.id job.attempts .running) x)
  | _, _ => some x

/-- Each execution ends with at most one sequence of outcome calls. -/
def follows (x : Executions) (db : Db) : List Deed → Bool
  | [] => true
  | d :: rest =>
    match x.follow d (execBy db d).2 with
    | none => false
    | some x' => follows x' (execBy db d).1 rest

/-! ## The guards that are not there -/

/-- The call takes job `j` out of the state it is in: `dead_letter` always does, and `requeue`
does when an attempt is left and its time is in range. -/
def Overturns (j : Int) (db : Db) (c : Call) : Prop :=
  match c.op with
  | .dead_letter id _ => id = j
  | .requeue id _ => id = j ∧ ∃ r run_at, db.jobs.find j = some r ∧
      r.attempts < r.max_attempts ∧ backoff c.now r.attempts = .ok run_at
  | _ => False

/-- A call that overturns a job leaves it ready, or out of `jobs`. -/
theorem overturned {j : Int} {db : Db} {c : Call} (h : Overturns j db c) :
    ∀ r, (exec db c).1.jobs.find j = some r → r.state = .ready := by
  intro r hf
  unfold Overturns at h
  split at h
  · rename_i id err hop
    subst h
    rw [find_after_dead_letter hop] at hf
    cases hf
  · rename_i id err hop
    obtain ⟨rfl, s, run_at, hs, hlt, hb⟩ := h
    rw [find_after_requeue hop hs hlt hb] at hf
    cases hf
    rfl
  · exact h.elim

/-! ## A recorded success -/

/-- Job `j` is in `jobs` with the state 'done', and not in `jobs_dead`. -/
def DoneIn (db : Db) (j : Int) : Prop :=
  (∃ r ∈ db.jobs.rows, r.id = j ∧ r.state = .done) ∧ ∀ d ∈ db.jobs_dead, d.id ≠ j

/-- Job `j` is done now and after each of the calls, and no claim among them returns it. -/
def Durable (j : Int) (db : Db) (calls : List Call) : Prop :=
  DoneIn db j ∧
    EveryStep exec (fun db c => DoneIn (exec db c).1 j ∧ ¬ Delivers j (exec db c).2) db calls

theorem doneIn_iff {db : Db} (hg : db.Good) {j : Int} :
    DoneIn db j ↔ ∃ r, db.jobs.find j = some r ∧ r.state = .done := by
  constructor
  · rintro ⟨⟨r, hr, rfl, hdone⟩, _⟩
    exact ⟨r, Table.find_of_mem hr, hdone⟩
  · rintro ⟨r, hf, hdone⟩
    refine ⟨⟨r, Table.mem_of_find hf, Table.key_of_find hf, hdone⟩, ?_⟩
    intro d hd hid
    have hpos : 0 < db.deadCopies j := List.countP_pos_iff.mpr ⟨d, hd, by simpa using hid⟩
    rw [no_dead_of_live hg hf] at hpos
    omega

/-- A done job stays done, and in nobody's hands, unless the call overturns it. -/
theorem done_step {db : Db} (hg : db.Good) {j : Int} (hdone : DoneIn db j) (c : Call) :
    (DoneIn (exec db c).1 j ∧ ¬ Delivers j (exec db c).2) ↔ ¬ Overturns j db c := by
  obtain ⟨r, hf, hr⟩ := (doneIn_iff hg).mp hdone
  have hturn := exec_turn hg c j
  rw [life_of_find hf] at hturn
  constructor
  · rintro ⟨hafter, _⟩ hover
    obtain ⟨r', hf', hr'⟩ := (doneIn_iff (exec_good hg c)).mp hafter
    rw [overturned hover r' hf'] at hr'
    cases hr'
  · intro hno
    refine ⟨?_, no_delivery_unless_ready hturn (by simp [hr])⟩
    rw [doneIn_iff (exec_good hg c)]
    generalize hl : (exec db c).1.life j = l' at hturn
    generalize (exec db c).2 = a at hturn
    cases hturn with
    | still _ _ => exact ⟨r, life_live.mp hl, hr⟩
    | claimed _ _ hready _ _ _ =>
      rw [hr] at hready
      cases hready
    | beat _ _ hheld =>
      have hrun := (held_iff.mp hheld).2.2
      rw [hr] at hrun
      cases hrun
    | finished _ _ => exact ⟨setDone r, life_live.mp hl, rfl⟩
    | requeued _ hop hlt hb =>
      refine absurd ?_ hno
      unfold Overturns
      rw [hop]
      exact ⟨rfl, r, _, hf, hlt, hb⟩
    | died _ hop =>
      refine absurd ?_ hno
      unfold Overturns
      rw [hop]
    | reaped _ _ _ hreap =>
      have hrun := (expired_iff.mp (reapable_iff.mp hreap).1).1
      rw [hr] at hrun
      cases hrun

theorem done_by_mark {db : Db} (hg : db.Good) {c : Call} {j : Int} (hop : c.op = .mark_done j) :
    DoneIn (exec db c).1 j ↔ j ∈ db.jobs.rows.map (·.id) := by
  rw [doneIn_iff (exec_good hg c), find_after_mark_done hop, ← Table.find_isSome]
  cases db.jobs.find j with
  | none => simp
  | some r => simp [setDone]

/-- The success that a `mark_done` reports is durable exactly when the job is in `jobs`, and no
`dead_letter` and no effective `requeue` of it comes later. -/
theorem a_success_is_durable (before later : List Call) (c : Call) (j : Int)
    (hop : c.op = .mark_done j) :
    Durable j (after (before ++ [c])) later ↔
      j ∈ (after before).jobs.rows.map (·.id) ∧
        EveryStep exec (fun db c => ¬ Overturns j db c) (after (before ++ [c])) later := by
  have hsnoc : after (before ++ [c]) = (exec (after before) c).1 := run_snoc exec _ before c
  have hg := after_good (before ++ [c])
  unfold Durable
  rw [hsnoc] at hg ⊢
  rw [done_by_mark (after_good before) hop]
  refine and_congr_right (fun hmem => ?_)
  refine everyStep_congr (fun db _ => db.Good ∧ DoneIn db j) ?_ ?_ ⟨hg, ?_⟩
  · rintro db c' _ ⟨hdb, hdone⟩
    exact done_step hdb hdone c'
  · rintro db c' _ ⟨hdb, _⟩ ⟨hafter, _⟩
    exact ⟨exec_good hdb c', hafter⟩
  · exact (done_by_mark (after_good before) hop).mpr hmem

/-- A reap and a claim after a success: the job is done all along. -/
theorem a_success_outlives_a_claim :
    Durable 1
      (after ([⟨0, .enqueue_pool "k" .null⟩, ⟨0, .claim_batch ["k"] 1 "a" .alone⟩] ++
        [⟨1, .mark_done 1⟩]))
      [⟨4000000, .reap (.from_secs 1)⟩, ⟨5000000, .claim_batch ["k"] 1 "b" .alone⟩] := by
  refine (a_success_is_durable _ _ ⟨1, .mark_done 1⟩ 1 rfl).mpr ⟨by decide +kernel, ?_, ?_, trivial⟩
  · simp [Overturns]
  · simp [Overturns]

/-- The holder "a" is slow, the job goes to "b" as well, and "b" succeeds before "a" fails. -/
def lateFailure : List Deed :=
  [⟨"p", 0, ⟨0, .enqueue_pool "k" .null⟩⟩, ⟨"a", 1, ⟨0, .claim_batch ["k"] 1 "a" .alone⟩⟩,
    ⟨"r", 0, ⟨4000000, .reap (.from_secs 1)⟩⟩, ⟨"b", 2, ⟨5000000, .claim_batch ["k"] 1 "b" .alone⟩⟩,
    ⟨"b", 2, ⟨6000000, .mark_done 1⟩⟩, ⟨"a", 1, ⟨7000000, .requeue 1 "timeout"⟩⟩]

/-- Both executions keep to the protocol, and the job of the recorded success is ready again. -/
theorem a_late_failure_undoes_a_success :
    follows (fun _ _ => none) Db.empty lateFailure = true ∧
      ¬ Durable 1 (after ((lateFailure.take 5).map (·.call)))
      ((lateFailure.drop 5).map (·.call)) := by
  refine ⟨by decide +kernel, ?_⟩
  rintro ⟨_, ⟨⟨⟨r, hr, _, hdone⟩, _⟩, _⟩, _⟩
  have hready : (after (lateFailure.map (·.call))).jobs.rows.all
      (fun r => decide (r.state = .ready)) = true := by decide +kernel
  have hstate := List.all_eq_true.mp hready r hr
  rw [hdone] at hstate
  cases hstate

/-! ## The owner of a job -/

/-- Job `j` is in `jobs`, running, and locked by `w`. -/
def Owned (w : Text) (j : Int) (db : Db) : Prop :=
  ∃ r ∈ db.jobs.rows, r.id = j ∧ r.state = .running ∧ r.locked_by = some w

/-- The reap finds the lease on `j` expired. -/
def FindsExpired (j : Int) (db : Db) (c : Call) : Prop :=
  ∃ l cutoff r, c.op = .reap l ∧ cutoffOf c.now l = .ok cutoff ∧ db.jobs.find j = some r ∧
    expired cutoff r = true

/-- The deed ends the ownership of `w`: its own outcome call, or a reap that finds the lease
expired. -/
def Ends (w : Text) (j : Int) (db : Db) (d : Deed) : Prop :=
  (d.worker = w ∧ d.call.op.settles j = true) ∨ FindsExpired j db d.call

/-- Another worker gives an outcome of `j` that changes its row. -/
def Meddles (w : Text) (j : Int) (db : Db) (d : Deed) : Prop :=
  d.worker ≠ w ∧ (d.call.op = .mark_done j ∨ Overturns j db d.call)

theorem owned_iff {w : Text} {j : Int} {db : Db} :
    Owned w j db ↔ ∃ r, db.jobs.find j = some r ∧ r.state = .running ∧ r.locked_by = some w := by
  constructor
  · rintro ⟨r, hr, rfl, hrun, hby⟩
    exact ⟨r, Table.find_of_mem hr, hrun, hby⟩
  · rintro ⟨r, hf, hrun, hby⟩
    exact ⟨r, Table.mem_of_find hf, Table.key_of_find hf, hrun, hby⟩

/-- The owner keeps its job through every deed that does not end its ownership, unless
another worker meddles. -/
theorem owned_step {w : Text} {j : Int} {db : Db} (hg : db.Good) (howned : Owned w j db) {d : Deed}
    (hends : ¬ Ends w j db d) : Owned w j (execBy db d).1 ↔ ¬ Meddles w j db d := by
  obtain ⟨r, hf, hrun, hby⟩ := owned_iff.mp howned
  have hturn := exec_turn hg d.call j
  rw [life_of_find hf] at hturn
  rw [owned_iff]
  unfold execBy
  -- an outcome call of `j` that changes its row is the owner's or another's
  have hown : d.call.op.settles j = true → d.worker ≠ w := fun hset hw => hends (Or.inl ⟨hw, hset⟩)
  constructor
  · rintro ⟨r', hf', hrun', _⟩ ⟨_, hop | hover⟩
    · rw [find_after_mark_done hop, hf, Option.map_some, Option.some.injEq] at hf'
      rw [← hf'] at hrun'
      cases hrun'
    · rw [overturned hover r' hf'] at hrun'
      cases hrun'
  · intro hno
    generalize hl : (exec db d.call).1.life j = l' at hturn
    generalize (exec db d.call).2 = a at hturn
    cases hturn with
    | still _ _ => exact ⟨r, life_live.mp hl, hrun, hby⟩
    | claimed _ _ hready _ _ _ =>
      rw [hrun] at hready
      cases hready
    | beat _ _ _ => exact ⟨setLockedAt d.call.now r, life_live.mp hl, hrun, hby⟩
    | finished _ hop =>
      exact absurd ⟨hown (by simp [hop, Op.settles]), Or.inl hop⟩ hno
    | requeued _ hop hlt hb =>
      refine absurd ⟨hown (by simp [hop, Op.settles]), Or.inr ?_⟩ hno
      unfold Overturns
      rw [hop]
      exact ⟨rfl, r, _, hf, hlt, hb⟩
    | died _ hop =>
      refine absurd ⟨hown (by simp [hop, Op.settles]), Or.inr ?_⟩ hno
      unfold Overturns
      rw [hop]
    | reaped _ hop hcut hreap =>
      exact absurd (Or.inr ⟨_, _, r, hop, hcut, hf, (reapable_iff.mp hreap).1⟩) hends

/-- From the claim of `w` on, as long as `w` gives no outcome and no reap finds its lease
expired: the job is running and locked by `w` after every deed, exactly when no other
worker gives an outcome that changes its row. -/
theorem a_new_owner_is_undisturbed (before later : List Deed) (d : Deed) (w : Text) (j : Int)
    (hw : d.call.op.claimant = some w) (hd : Delivers j (execBy (afterDeeds before) d).2)
    (hopen : EveryStep execBy (fun db d => ¬ Ends w j db d) (afterDeeds (before ++ [d])) later) :
    Owned w j (afterDeeds (before ++ [d])) ∧
      (EveryStep execBy (fun db d => Owned w j (execBy db d).1) (afterDeeds (before ++ [d])) later ↔
        EveryStep execBy (fun db d => ¬ Meddles w j db d) (afterDeeds (before ++ [d])) later) := by
  have hsnoc : afterDeeds (before ++ [d]) = (execBy (afterDeeds before) d).1 :=
    run_snoc execBy _ before d
  have hg := afterDeeds_good (before ++ [d])
  rw [hsnoc] at hopen hg ⊢
  obtain ⟨r, hf, _⟩ := delivered_row (afterDeeds_good before) hw hd
  have howned : Owned w j (execBy (afterDeeds before) d).1 := owned_iff.mpr ⟨_, hf, rfl, rfl⟩
  refine ⟨howned, ?_⟩
  refine everyStep_congr (fun db rest => db.Good ∧ Owned w j db ∧
    EveryStep execBy (fun db d => ¬ Ends w j db d) db rest) ?_ ?_ ⟨hg, howned, hopen⟩
  · rintro db d' _ ⟨hdb, hown, hends, _⟩
    exact owned_step hdb hown hends
  · rintro db d' _ ⟨hdb, _, _, hrest⟩ hown
    exact ⟨exec_good hdb d'.call, hown, hrest⟩

/-- The first holder is reaped, "b" claims the job, and then something else happens. -/
def reapedAndReclaimed : List Deed :=
  [⟨"p", 0, ⟨0, .enqueue_pool "k" .null⟩⟩, ⟨"a", 1, ⟨0, .claim_batch ["k"] 1 "a" .alone⟩⟩,
    ⟨"r", 0, ⟨4000000, .reap (.from_secs 1)⟩⟩]

def claimOfB : Deed := ⟨"b", 2, ⟨5000000, .claim_batch ["k"] 1 "b" .alone⟩⟩

theorem a_late_heartbeat_disturbs_nobody :
    Owned "b" 1 (afterDeeds (reapedAndReclaimed ++ [claimOfB])) ∧
    EveryStep execBy (fun db d => Owned "b" 1 (execBy db d).1)
      (afterDeeds (reapedAndReclaimed ++ [claimOfB]))
      [⟨"a", 1, ⟨5500000, .heartbeat [1] "a"⟩⟩] := by
  have hd : Delivers 1 (execBy (afterDeeds reapedAndReclaimed) claimOfB).2 := by decide +kernel
  have hlaw := a_new_owner_is_undisturbed reapedAndReclaimed
    [⟨"a", 1, ⟨5500000, .heartbeat [1] "a"⟩⟩] claimOfB "b" 1 rfl hd
    ⟨by simp [Ends, FindsExpired, Op.settles], trivial⟩
  exact ⟨hlaw.1, hlaw.2.mpr ⟨by simp [Meddles, Overturns], trivial⟩⟩

/-- The late `mark_done` of the reaped holder takes the job from its new owner. -/
theorem a_late_success_disturbs_the_owner :
    Delivers 1 (execBy (afterDeeds reapedAndReclaimed) claimOfB).2 ∧
    EveryStep execBy (fun db d => ¬ Ends "b" 1 db d) (afterDeeds (reapedAndReclaimed ++ [claimOfB]))
      [⟨"a", 1, ⟨5500000, .mark_done 1⟩⟩] ∧
    ¬ EveryStep execBy (fun db d => Owned "b" 1 (execBy db d).1)
      (afterDeeds (reapedAndReclaimed ++ [claimOfB])) [⟨"a", 1, ⟨5500000, .mark_done 1⟩⟩] := by
  have hworkers : ("a" : Text) ≠ "b" := by decide +kernel
  refine ⟨by decide +kernel, ⟨?_, trivial⟩, ?_⟩
  · simp [Ends, FindsExpired, hworkers]
  · rintro ⟨⟨r, hr, _, hrun, _⟩, _⟩
    have hdone : (afterDeeds (reapedAndReclaimed ++ [claimOfB] ++
        [⟨"a", 1, ⟨5500000, .mark_done 1⟩⟩])).jobs.rows.all
        (fun r => decide (r.state = .done)) = true := by decide +kernel
    have hstate := List.all_eq_true.mp hdone r hr
    rw [hrun] at hstate
    cases hstate

end skip_locked
