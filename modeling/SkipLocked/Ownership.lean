-- The law of the heartbeat's count: it is the number of jobs whose last event
-- in the history of the queue is a claim of that worker. The heartbeat reads
-- the row alone, and the row knows this much of the history and no more.
import SkipLocked.Attempts
import SkipLocked.Heartbeats
import Mathlib.Data.Finset.Card

open jsonb postgres keyed_table event_runs

namespace skip_locked

open claim lease retry

/-! ## The events of a job -/

/-- The calls that are events of a job when they change its row. -/
def Op.marks : Op → Bool
  | .claim_batch .. => true
  | .fair_claim .. => true
  | .reap _ => true
  | .requeue .. => true
  | .mark_done _ => true
  | .dead_letter .. => true
  | _ => false

/-- The call is an event that changes the row of job `j`. -/
def Effective (j : Int) (db : Db) (c : Call) : Prop :=
  c.op.marks = true ∧ (exec db c).1.jobs.find j ≠ db.jobs.find j

/-- The last event of job `j` is a claim of `w`. -/
def OwnedBy (w : Text) (j : Int) (calls : List Call) : Prop :=
  ∃ e, LastStep exec (Effective j) Db.empty calls e ∧ e.op.claimant = some w

theorem ownedBy_snoc {w : Text} {j : Int} {calls : List Call} {c : Call} :
    OwnedBy w j (calls ++ [c]) ↔
      (Effective j (after calls) c ∧ c.op.claimant = some w) ∨
      (¬ Effective j (after calls) c ∧ OwnedBy w j calls) := by
  unfold OwnedBy
  constructor
  · rintro ⟨e, hlast, hw⟩
    rcases lastStep_snoc.mp hlast with ⟨he, rfl⟩ | ⟨hno, hlast⟩
    · exact Or.inl ⟨he, hw⟩
    · exact Or.inr ⟨hno, e, hlast, hw⟩
  · rintro (⟨he, hw⟩ | ⟨hno, e, hlast, hw⟩)
    · exact ⟨c, lastStep_snoc.mpr (Or.inl ⟨he, rfl⟩), hw⟩
    · exact ⟨e, lastStep_snoc.mpr (Or.inr ⟨hno, hlast⟩), hw⟩

/-! ## What the row says -/

/-- The row is running with `w` as its holder. -/
def RunsFor (w : Text) (row : Option JobRow) : Prop :=
  ∃ r, row = some r ∧ r.state = .running ∧ r.locked_by = some w

def Life.row : Life → Option JobRow
  | .live r => some r
  | _ => none

theorem find_eq_row (db : Db) (j : Int) : db.jobs.find j = (db.life j).row := by
  cases hl : db.life j with
  | live r => exact life_live.mp hl
  | _ =>
    cases hf : db.jobs.find j with
    | none => rfl
    | some r =>
      rw [life_of_find hf] at hl
      cases hl

/-- After an event the row runs for the claimant of the event, and for nobody after an event
that is no claim. Every other call leaves the holder. -/
theorem runsFor_turn {w : Text} {j : Int} {c : Call} {a : Answer} {l l' : Life}
    (ht : Turn j c a l l') :
    RunsFor w l'.row ↔
      (c.op.marks = true ∧ l'.row ≠ l.row) ∧ c.op.claimant = some w ∨
      ¬ (c.op.marks = true ∧ l'.row ≠ l.row) ∧ RunsFor w l.row := by
  by_cases hsame : l'.row = l.row
  · simp [hsame]
  suffices h : if c.op.marks then RunsFor w l'.row ↔ c.op.claimant = some w
      else RunsFor w l'.row ↔ RunsFor w l.row by
    by_cases hm : c.op.marks = true
    · simpa [hm, hsame] using h
    · simpa [hm] using h
  cases ht with
  | still l _ => exact absurd rfl hsame
  | born kind payload run_at _ hb =>
    have hm : c.op.marks = false := by cases hop : c.op <;> simp_all [Op.births, Op.marks]
    simp [hm, RunsFor, Life.row, newRow]
  | claimed r hop _ _ _ _ =>
    have hm : c.op.marks = true := by cases hc : c.op <;> simp_all [Op.claimant, Op.marks]
    simp [hm, hop, RunsFor, Life.row, setRunning]
  | beat r hop _ => simp [hop, Op.marks, RunsFor, Life.row, setLockedAt]
  | finished r hop => simp [hop, Op.marks, Op.claimant, RunsFor, Life.row, setDone]
  | requeued r hop _ _ => simp [hop, Op.marks, Op.claimant, RunsFor, Life.row, setRetry]
  | died r hop => simp [hop, Op.marks, Op.claimant, RunsFor, Life.row]
  | reaped r hop _ _ => simp [hop, Op.marks, Op.claimant, RunsFor, Life.row, setReady]

theorem runsFor_exec {db : Db} (hg : db.Good) (w : Text) (j : Int) (c : Call) :
    RunsFor w ((exec db c).1.jobs.find j) ↔
      (Effective j db c ∧ c.op.claimant = some w) ∨
      (¬ Effective j db c ∧ RunsFor w (db.jobs.find j)) := by
  have hturn := runsFor_turn (w := w) (exec_turn hg c j)
  rw [← find_eq_row, ← find_eq_row] at hturn
  exact hturn

/-- The row of a job runs for the owner that the history names. -/
theorem ownedBy_iff (w : Text) (j : Int) (calls : List Call) :
    OwnedBy w j calls ↔ RunsFor w ((after calls).jobs.find j) := by
  induction calls using List.reverseRecOn with
  | nil =>
    constructor
    · rintro ⟨e, ⟨a, b, hab, _⟩, _⟩
      simp at hab
    · rintro ⟨r, hr, _⟩
      cases hr
  | append_singleton calls c ih =>
    have hsnoc : after (calls ++ [c]) = (exec (after calls) c).1 := run_snoc exec _ calls c
    rw [ownedBy_snoc, hsnoc, runsFor_exec (after_good calls), ih]

/-! ## The law of the count -/

theorem counts_iff {db : Db} {ids : List Int} {w : Text} {j : Int} :
    Counts db ids w j ↔ j ∈ ids ∧ RunsFor w (db.jobs.find j) := by
  unfold Counts
  rw [List.mem_map]
  constructor
  · rintro ⟨r, hr, rfl⟩
    obtain ⟨hmem, hheld⟩ := Table.mem_matching.mp hr
    obtain ⟨hj, hby, hrun⟩ := held_iff.mp hheld
    exact ⟨hj, r, Table.find_of_mem hmem, hrun, hby⟩
  · rintro ⟨hj, r, hf, hrun, hby⟩
    have hid : r.id = j := Table.key_of_find hf
    refine ⟨r, Table.mem_matching.mpr ⟨Table.mem_of_find hf, ?_⟩, hid⟩
    exact held_iff.mpr ⟨hid ▸ hj, hby, hrun⟩

/-- The row of a counted job gets the time of the beat. Every other row stays. -/
theorem beat_row {db : Db} {c : Call} {ids : List Int} {w : Text}
    (hop : c.op = .heartbeat ids w) (j : Int) :
    (Counts db ids w j → ∃ r, db.jobs.find j = some r ∧
      (exec db c).1.jobs.find j = some { r with locked_at := some c.now }) ∧
    (¬ Counts db ids w j → (exec db c).1.jobs.find j = db.jobs.find j) := by
  have hrow : (exec db c).1.jobs.find j =
      (db.jobs.find j).map (fun r => if held ids w r then setLockedAt c.now r else r) := by
    unfold exec
    rw [hop]
    exact find_heartbeat db c.now ids w j
  have hheld : ∀ r, db.jobs.find j = some r → (held ids w r = true ↔ Counts db ids w j) := by
    intro r hf
    rw [counts_iff, held_iff, Table.key_of_find hf, hf]
    constructor
    · rintro ⟨hj, hby, hrun⟩
      exact ⟨hj, r, rfl, hrun, hby⟩
    · rintro ⟨hj, r', hr', hrun, hby⟩
      cases hr'
      exact ⟨hj, hby, hrun⟩
  rw [hrow]
  constructor
  · intro hc
    obtain ⟨_, r, hf, _⟩ := counts_iff.mp hc
    refine ⟨r, hf, ?_⟩
    rw [hf, Option.map_some, if_pos ((hheld r hf).mpr hc)]
    rfl
  · intro hc
    cases hf : db.jobs.find j with
    | none => rfl
    | some r => rw [Option.map_some, if_neg (fun h => hc ((hheld r hf).mp h))]

/-- A heartbeat returns the number of the ids whose last event is a claim of `w`. It moves the
`locked_at` of these rows and changes nothing else. It returns the number of all the ids
exactly when `w` owns them all, so a worker that lost a job is told so, and a worker that owns
them all is not told the opposite. -/
theorem a_heartbeat_counts_the_owned (calls : List Call) (now : Int) (ids : List Int)
    (w : Text) :
    ∃ (db' : Db) (owned : Finset Int),
      exec (after calls) ⟨now, .heartbeat ids w⟩ = (db', .ok (.rows owned.card)) ∧
      (∀ j, j ∈ owned ↔ j ∈ ids ∧ OwnedBy w j calls) ∧
      (∀ j ∈ owned, ∃ r, (after calls).jobs.find j = some r ∧
        db'.jobs.find j = some { r with locked_at := some now }) ∧
      (∀ j, j ∉ owned → db'.jobs.find j = (after calls).jobs.find j) ∧
      db' = { after calls with jobs := db'.jobs } ∧
      (owned.card = ids.toFinset.card ↔ ∀ j ∈ ids, OwnedBy w j calls) := by
  have howned : ∀ j, j ∈ (((after calls).jobs.matching (held ids w)).map (·.id)).toFinset ↔
      j ∈ ids ∧ OwnedBy w j calls := by
    intro j
    rw [List.mem_toFinset, ownedBy_iff]
    exact counts_iff
  have hcard : (((after calls).jobs.matching (held ids w)).map (·.id)).toFinset.card =
      (after calls).jobs.count (held ids w) := by
    rw [List.toFinset_card_of_nodup (Table.matching_nodup _ _), List.length_map]
    rfl
  generalize (((after calls).jobs.matching (held ids w)).map (·.id)).toFinset = owned
    at howned hcard
  have hcounts : ∀ j, j ∈ owned ↔ Counts (after calls) ids w j := by
    intro j
    rw [howned, counts_iff, ownedBy_iff]
  refine ⟨(exec (after calls) ⟨now, .heartbeat ids w⟩).1, owned, ?_, howned, ?_, ?_, rfl, ?_⟩
  · rw [hcard]
    rfl
  · intro j hj
    exact (beat_row rfl j).1 ((hcounts j).mp hj)
  · intro j hj
    exact (beat_row rfl j).2 (fun h => hj ((hcounts j).mpr h))
  · have hsub : owned ⊆ ids.toFinset := by
      intro j hj
      exact List.mem_toFinset.mpr ((howned j).mp hj).1
    constructor
    · intro heq j hj
      have hall := Finset.eq_of_subset_of_card_le hsub (Nat.le_of_eq heq.symm)
      have hmem : j ∈ owned := by
        rw [hall]
        exact List.mem_toFinset.mpr hj
      exact ((howned j).mp hmem).2
    · intro hall
      refine congrArg Finset.card (Finset.Subset.antisymm hsub ?_)
      intro j hj
      have hj := List.mem_toFinset.mp hj
      exact (howned j).mpr ⟨hj, hall j hj⟩

/-! ## The law of a worker that lost its job -/

/-- The call is a claim of `w` that returns job `j`. -/
def Regains (w : Text) (j : Int) (db : Db) (c : Call) : Prop :=
  c.op.claimant = some w ∧ Delivers j (exec db c).2

/-- The call puts job `j` back to `ready`. -/
def Resurrects (j : Int) (db : Db) (c : Call) : Prop :=
  (∃ l, c.op = .reap l) ∧ (exec db c).1.jobs.find j ≠ db.jobs.find j

/-- A call that changes the row of `j` to run for `w` is a claim of `w` that returns `j`. -/
theorem regains_of_runsFor {db : Db} (hg : db.Good) {w : Text} {j : Int} {c : Call}
    (hno : ¬ RunsFor w (db.jobs.find j)) (hrun : RunsFor w ((exec db c).1.jobs.find j)) :
    Regains w j db c := by
  rcases (runsFor_exec hg w j c).mp hrun with ⟨he, hw⟩ | ⟨_, hold⟩
  · refine ⟨hw, ?_⟩
    by_contra hd
    have hturn := exec_turn hg c j
    unfold Effective at he
    rw [find_eq_row, find_eq_row] at he
    generalize (exec db c).1.life j = l' at hturn he
    generalize db.life j = l at hturn he
    generalize (exec db c).2 = a at hturn hd
    cases hturn with
    | still _ _ => exact he.2 rfl
    | claimed _ _ _ _ hj _ => exact hd hj
    | born _ _ _ _ hb =>
      cases hop : c.op <;> simp_all [Op.births, Op.claimant]
    | beat _ hop _ => simp [hop, Op.claimant] at hw
    | finished _ hop => simp [hop, Op.claimant] at hw
    | requeued _ hop _ _ => simp [hop, Op.claimant] at hw
    | died _ hop => simp [hop, Op.claimant] at hw
    | reaped _ hop _ _ => simp [hop, Op.claimant] at hw
  · exact absurd hold hno

/-- After a claim of `w` that returns `j` the guard of the heartbeat counts `j` for `w`. -/
theorem counts_of_regains {db : Db} (hg : db.Good) {w : Text} {j : Int} {c : Call}
    (h : Regains w j db c) {ids : List Int} (hj : j ∈ ids) : Counts (exec db c).1 ids w j := by
  obtain ⟨hw, hd⟩ := h
  obtain ⟨r, hf, _⟩ := delivered_row hg hw hd
  exact counts_iff.mpr ⟨hj, _, hf, rfl, rfl⟩

/-- A row that a reap puts back runs for nobody. -/
theorem idle_of_resurrects {db : Db} (hg : db.Good) {j : Int} {c : Call}
    (h : Resurrects j db c) (w : Text) : ¬ RunsFor w ((exec db c).1.jobs.find j) := by
  obtain ⟨⟨l, hop⟩, hne⟩ := h
  intro hrun
  rcases (runsFor_exec hg w j c).mp hrun with ⟨_, hw⟩ | ⟨hno, _⟩
  · simp [hop, Op.claimant] at hw
  · exact hno ⟨by simp [hop, Op.marks], hne⟩

/-- While no claim of `w` returns `j` again, its row runs for others or for nobody. -/
theorem idle_until_regained {db : Db} (hg : db.Good) {w : Text} {j : Int} {later : List Call}
    (hno : ¬ RunsFor w (db.jobs.find j))
    (hlater : EveryStep exec (fun t c => ¬ Regains w j t c) db later) :
    ¬ RunsFor w ((run exec db later).jobs.find j) := by
  have hlaw := everyStep_of_law
    (I := fun t : Db => t.Good ∧ ¬ RunsFor w (t.jobs.find j)) (Q := fun _ _ => True)
    (fun t c ht hc => ⟨exec_good ht.1 c, fun hrun => hc (regains_of_runsFor ht.1 ht.2 hrun)⟩)
    (fun _ _ _ _ => trivial) ⟨hg, hno⟩ hlater
  exact hlaw.2.2

/-- The `attempts` that a claim returns with a job. -/
theorem attempts_of_returned {before : List Call} {c : Call} {jobs : List Job} {job : Job}
    (hc : (exec (after before) c).2 = .ok (.jobs jobs)) (hjob : job ∈ jobs) :
    job.attempts = deliveries job.id (history before) + 1 := by
  have hsnoc : history (before ++ [c]) = history before ++ (c, .ok (.jobs jobs)) :: [] := by
    rw [← hc]
    exact trace_snoc exec _ before c
  exact a_delivery_counts_itself _ hsnoc hjob

theorem attempts_grow {before mid : List Call} {c d : Call} {jobs jobs' : List Job}
    {job job' : Job} (hc : (exec (after before) c).2 = .ok (.jobs jobs)) (hjob : job ∈ jobs)
    (hd : (exec (after (before ++ c :: mid)) d).2 = .ok (.jobs jobs')) (hjob' : job' ∈ jobs')
    (hid : job'.id = job.id) : job.attempts < job'.attempts := by
  rw [attempts_of_returned hc hjob, attempts_of_returned hd hjob', hid]
  have hsplit : history (before ++ c :: mid) =
      history before ++ (c, .ok (.jobs jobs)) :: trace exec (exec (after before) c).1 mid := by
    rw [← hc]
    exact trace_append exec _ before (c :: mid)
  have hdelivers : Delivers job.id (.ok (.jobs jobs)) := List.mem_map_of_mem hjob
  rw [hsplit]
  unfold deliveries
  rw [List.countP_append, List.countP_cons]
  simp only [hdelivers, decide_true, if_true]
  omega

/-- A claim returned job `j` as its execution `k`, and later a reap put `j` back. Each claim
that returns `j` from then on is a later execution. Until a claim of worker `w` returns `j`
after the reap, no heartbeat of `w` counts it or changes its row, whoever claims it in
between. After such a claim of `w` its heartbeats count `j` again. Two workers that count `j`
at a time are one worker. -/
theorem a_preempted_worker_is_told (before mid later : List Call) (c reaping : Call) (w : Text)
    (jobs : List Job) (job : Job) (hc : (exec (after before) c).2 = .ok (.jobs jobs))
    (hjob : job ∈ jobs) (hr : Resurrects job.id (after (before ++ c :: mid)) reaping)
    (hlater : EveryStep exec (fun db d => ¬ Regains w job.id db d)
      (after (before ++ c :: mid ++ [reaping])) later) :
    let db := after (before ++ c :: mid ++ [reaping] ++ later)
    (∀ d jobs' job', (exec db d).2 = .ok (.jobs jobs') → job' ∈ jobs' → job'.id = job.id →
      job.attempts < job'.attempts) ∧
    (∀ now ids, ¬ Counts db ids w job.id ∧
      (exec db ⟨now, .heartbeat ids w⟩).1.jobs.find job.id = db.jobs.find job.id) ∧
    (∀ d ids, Regains w job.id db d → job.id ∈ ids → Counts (exec db d).1 ids w job.id) ∧
    ∀ ids ids' v v', Counts db ids v job.id → Counts db ids' v' job.id → v = v' := by
  intro db
  have hafter : after (before ++ c :: mid ++ [reaping]) =
      (exec (after (before ++ c :: mid)) reaping).1 := run_snoc exec _ _ _
  have hidle : ¬ RunsFor w (db.jobs.find job.id) := by
    have hend : db = run exec (after (before ++ c :: mid ++ [reaping])) later :=
      run_append exec _ _ _
    rw [hend]
    refine idle_until_regained (after_good _) ?_ hlater
    rw [hafter]
    exact idle_of_resurrects (after_good _) hr w
  refine ⟨?_, ?_, fun d ids hd hj => counts_of_regains (after_good _) hd hj, ?_⟩
  · intro d jobs' job' hd hjob' hid
    have hdb : db = after (before ++ c :: (mid ++ [reaping] ++ later)) := by
      simp only [db, List.append_assoc, List.cons_append]
    rw [hdb] at hd
    exact attempts_grow hc hjob hd hjob' hid
  · intro now ids
    have hno : ¬ Counts db ids w job.id := fun h => hidle (counts_iff.mp h).2
    exact ⟨hno, (beat_row rfl job.id).2 hno⟩
  · intro ids ids' v v' hv hv'
    obtain ⟨_, r, hf, _, hby⟩ := counts_iff.mp hv
    obtain ⟨_, r', hf', _, hby'⟩ := counts_iff.mp hv'
    rw [hf, Option.some.injEq] at hf'
    rw [hf', hby', Option.some.injEq] at hby
    exact hby.symm

/-- A claim of job 1 by a worker at a time, and a reap of what is locked before a time. -/
def claimAt (now : Int) (w : Text) : Call := ⟨now, .claim_batch ["k"] 1 w .alone⟩

def reapAt (now : Int) : Call := ⟨now, .reap (.from_secs 0)⟩

/-- What a call answers when it is a claim: the jobs with their attempts. -/
def attemptsIn (a : Answer) : List (Int × Int) :=
  match a with
  | .ok (.jobs l) => l.map (fun job => (job.id, job.attempts))
  | _ => []

def firstJob : List Call := [⟨0, .enqueue_pool "k" .null⟩]

/-- Worker "a" claims job 1, and a second later a reap puts it back. -/
theorem a_reap_preempts_the_first_claim :
    Resurrects 1 (after (firstJob ++ [claimAt 0 "a"])) (reapAt 1000000) := by
  refine ⟨⟨_, rfl⟩, ?_⟩
  intro hsame
  have hstates := congrArg (Option.map JobRow.state) hsame
  have hbefore : ((after (firstJob ++ [claimAt 0 "a"])).jobs.find 1).map JobRow.state =
      some .running := by decide +kernel
  have hafter : ((exec (after (firstJob ++ [claimAt 0 "a"])) (reapAt 1000000)).1.jobs.find 1).map
      JobRow.state = some .ready := by decide +kernel
  rw [hbefore, hafter] at hstates
  cases hstates

/-- Then worker "b" claims it, and the heartbeat of "a" does not count it. -/
theorem a_preempted_worker_is_told_of_b :
    ¬ Counts (after (firstJob ++ [claimAt 0 "a", reapAt 1000000, claimAt 2000000 "b"])) [1] "a" 1 ∧
    Counts (after (firstJob ++ [claimAt 0 "a", reapAt 1000000, claimAt 2000000 "b"]))
      [1] "b" 1 := by
  have hreturned : (exec (after firstJob) (claimAt 0 "a")).2 =
      .ok (.jobs [⟨1, "k", .null, 1⟩]) := by rfl
  have hworkers : ("b" : Text) ≠ "a" := by decide +kernel
  have hlaw := a_preempted_worker_is_told firstJob [] [claimAt 2000000 "b"] (claimAt 0 "a")
    (reapAt 1000000) "a" _ ⟨1, "k", .null, 1⟩ hreturned List.mem_cons_self
    a_reap_preempts_the_first_claim
    ⟨fun h => hworkers (by simpa [claimAt, Op.claimant] using h.1), trivial⟩
  refine ⟨(hlaw.2.1 3000000 [1]).1, ?_⟩
  unfold Counts
  decide +kernel

/-- Or "a" itself claims it once more. Its first execution is preempted, the second has
`attempts = 2`, and a heartbeat for the first one still counts the job. -/
theorem a_worker_beats_for_its_lost_execution :
    attemptsIn (exec (after firstJob) (claimAt 0 "a")).2 = [(1, 1)] ∧
    Resurrects 1 (after (firstJob ++ [claimAt 0 "a"])) (reapAt 1000000) ∧
    attemptsIn (exec (after (firstJob ++ [claimAt 0 "a", reapAt 1000000]))
      (claimAt 2000000 "a")).2 = [(1, 2)] ∧
    Counts (after (firstJob ++ [claimAt 0 "a", reapAt 1000000, claimAt 2000000 "a"]))
      [1] "a" 1 := by
  refine ⟨by decide +kernel, a_reap_preempts_the_first_claim, by decide +kernel, ?_⟩
  unfold Counts
  decide +kernel

end skip_locked
