-- The protocol of a failed job, as `src/retry.rs` documents it: the class of the
-- error decides, a requeue that finds no attempt left is followed by a dead
-- letter. It puts the job back or buries it, whatever others do in between,
-- unless Postgres refuses its text or the time of its retry.
import SkipLocked.Backoff

open jsonb postgres keyed_table event_runs

namespace skip_locked

open claim lease retry

/-! ## The protocol -/

/-- A failure of a job: its error, the string to record, the time of the first statement, what
others call before the second one, and the time of that. -/
structure Failure where
  error : HandlerError
  last_error : String
  now : Int
  between : List Call
  later : Int

/-- A statement that takes a string. Postgres refuses one with U+0000, and nothing runs. -/
def execWith (db : Db) (now : Int) (op : Text → Op) (s : String) : Db × Answer :=
  match Text.of s with
  | some t => exec db ⟨now, op t⟩
  | none => (db, .error .character_not_in_repertoire)

/-- `classify`, and then: a transient failure is requeued, and dead-lettered when `requeue`
returns 0. A permanent one is dead-lettered at once. -/
def settle (db : Db) (id : Int) (f : Failure) : Db :=
  match classify f.error with
  | .Permanent => (execWith db f.now (.dead_letter id) f.last_error).1
  | .Transient =>
    match execWith db f.now (.requeue id) f.last_error with
    | (db', .ok (.rows 0)) =>
      (execWith (run exec db' f.between) f.later (.dead_letter id) f.last_error).1
    | (db', _) => db'

/-- The rows of `jobs_dead` with the id. -/
def deadOf (db : Db) (id : Int) : List DeadRow := db.jobs_dead.filter (fun d => decide (d.id = id))

/-- The job is back in `jobs`: ready, unlocked, with its error, and due within the hour. -/
def Retried (r : JobRow) (now : Int) (last_error : String) (db : Db) : Prop :=
  deadOf db r.id = [] ∧ ∃ s, db.jobs.find r.id = some s ∧ s.state = .ready ∧ s.locked_at = none ∧
    s.locked_by = none ∧ s.attempts = r.attempts ∧ s.last_error.map Text.val = some last_error ∧
    now < s.run_at ∧ s.run_at ≤ now + 3600 * USECS_PER_SEC

/-- The job is out of `jobs`, and has one row in `jobs_dead`, with its error. -/
def DeadLettered (r : JobRow) (last_error : String) (db : Db) : Prop :=
  db.jobs.find r.id = none ∧ ∃ d, deadOf db r.id = [d] ∧ d.state = .dead ∧ d.kind = r.kind ∧
    d.payload = r.payload ∧ d.attempts = r.attempts ∧ d.max_attempts = r.max_attempts ∧
    d.last_error.map Text.val = some last_error

/-- Each id but `id` has in the two tables of `db'` what it has in those of `db`. -/
def SameOthers (id : Int) (db db' : Db) : Prop :=
  ∀ k, k ≠ id → db'.jobs.find k = db.jobs.find k ∧ deadOf db' k = deadOf db k

/-! ## The two statements -/

theorem execWith_noNul {s : String} (h : NoNul s) (db : Db) (now : Int) (op : Text → Op) :
    execWith db now op s = exec db ⟨now, op ⟨s, h⟩⟩ := by
  unfold execWith
  rw [Text.of_noNul h]

theorem execWith_nul {s : String} (h : ¬ NoNul s) (db : Db) (now : Int) (op : Text → Op) :
    execWith db now op s = (db, .error .character_not_in_repertoire) := by
  unfold execWith
  rw [Text.of_nul h]

theorem requeue_refused {db : Db} (now : Int) (err : Text) {r : JobRow}
    (hf : db.jobs.find r.id = some r) (hlast : r.max_attempts ≤ r.attempts) :
    exec db ⟨now, .requeue r.id err⟩ = (db, .ok (.rows 0)) := by
  have hno : ¬ r.attempts < r.max_attempts := by omega
  unfold exec
  dsimp only
  rw [requeue_eq, hf, Option.filter_some_neg (by simpa using hno)]
  rfl

theorem requeue_fails {db : Db} {now : Int} (err : Text) {r : JobRow} {e : PgError}
    (hf : db.jobs.find r.id = some r) (hlt : r.attempts < r.max_attempts)
    (hb : backoff now r.attempts = .error e) :
    exec db ⟨now, .requeue r.id err⟩ = (db, .error e) := by
  unfold exec
  dsimp only
  rw [requeue_eq, hf, Option.filter_some_pos (by simpa using hlt)]
  dsimp only
  rw [hb]
  rfl

theorem requeue_runs {db : Db} {now run_at : Int} (err : Text) {r : JobRow}
    (hf : db.jobs.find r.id = some r) (hlt : r.attempts < r.max_attempts)
    (hb : backoff now r.attempts = .ok run_at) :
    ∃ db', exec db ⟨now, .requeue r.id err⟩ = (db', .ok (.rows 1)) ∧
      db'.jobs_dead = db.jobs_dead ∧ ∀ k, db'.jobs.find k =
        if k = r.id then some (setRetry run_at err r) else db.jobs.find k := by
  obtain ⟨db', hok⟩ : ∃ db', retry.requeue db now r.id err = .ok (db', 1) := by
    rw [requeue_eq, hf, Option.filter_some_pos (by simpa using hlt)]
    dsimp only
    rw [hb]
    exact ⟨_, rfl⟩
  rcases requeue_ok hok with ⟨hzero, _⟩ | ⟨_, s, t, hs, _, ht, hsame, hfind⟩
  · cases hzero
  · rw [hf, Option.some.injEq] at hs
    subst hs
    rw [hb] at ht
    cases ht
    refine ⟨db', ?_, by rw [hsame], hfind⟩
    unfold exec
    dsimp only
    rw [hok]
    rfl

/-- The time of a row with few attempts is in range, or the requeue fails. -/
theorem backoff_late (now : Int) {attempts : Int} (h0 : 0 ≤ attempts) (hsmall : attempts < 1024)
    (hout : ¬ InRange (now + waitOf attempts)) :
    backoff now attempts = .error .timestamp_out_of_range := by
  unfold backoff
  rw [leastPower_of_nonneg 3600 h0 hsmall]
  exact if_neg hout

theorem deadOf_nil {db : Db} (hg : db.Good) {id : Int} {r : JobRow}
    (hf : db.jobs.find id = some r) : deadOf db id = [] := by
  have hnone := no_dead_of_live hg hf
  unfold Db.deadCopies at hnone
  rw [List.countP_eq_zero] at hnone
  unfold deadOf
  rw [List.filter_eq_nil_iff]
  exact hnone

theorem dead_letter_buries {db : Db} (hg : db.Good) (now : Int) (err : Text) {id : Int}
    {s : JobRow} (hf : db.jobs.find id = some s) :
    (exec db ⟨now, .dead_letter id err⟩).1.jobs.find id = none ∧
      deadOf (exec db ⟨now, .dead_letter id err⟩).1 id = [deadRow now err s] ∧
      SameOthers id db (exec db ⟨now, .dead_letter id err⟩).1 := by
  have hid : s.id = id := Table.key_of_find hf
  have hdead : (exec db ⟨now, .dead_letter id err⟩).1.jobs_dead =
      db.jobs_dead ++ [deadRow now err s] := by
    unfold exec
    dsimp only
    rw [dead_letter_eq, hf]
    rfl
  have hfind : ∀ k, (exec db ⟨now, .dead_letter id err⟩).1.jobs.find k =
      if k = id then none else db.jobs.find k := find_dead_letter db now id err
  have hnil := deadOf_nil hg hf
  refine ⟨(hfind id).trans (if_pos rfl), ?_, fun k hk => ⟨(hfind k).trans (if_neg hk), ?_⟩⟩
  · unfold deadOf at hnil ⊢
    rw [hdead, List.filter_append, hnil]
    simp [deadRow, hid]
  · unfold deadOf
    rw [hdead, List.filter_append]
    simp [deadRow, hid, Ne.symm hk]

/-! ## The calls of others in between -/

/-- The row of the same job, with no attempt left, and not ready: nobody takes it. -/
structure Spent (r s : JobRow) : Prop where
  kind : s.kind = r.kind
  payload : s.payload = r.payload
  attempts : s.attempts = r.attempts
  limit : s.max_attempts = r.max_attempts
  last : s.max_attempts ≤ s.attempts
  idle : s.state ≠ .ready

theorem spent_turn {j : Int} {c : Call} {a : Answer} {r s : JobRow} {l' : Life}
    (ht : Turn j c a (.live s) l') (hothers : c.op.settles j = false) (h : Spent r s) :
    ∃ s', l' = .live s' ∧ Spent r s' := by
  cases ht with
  | still _ _ => exact ⟨s, rfl, h⟩
  | claimed _ _ hready _ _ _ => exact absurd hready h.idle
  | beat _ _ _ => exact ⟨_, rfl, h.kind, h.payload, h.attempts, h.limit, h.last, h.idle⟩
  | finished _ hop => simp [hop, Op.settles] at hothers
  | requeued _ hop _ _ => simp [hop, Op.settles] at hothers
  | died _ hop => simp [hop, Op.settles] at hothers
  | reaped _ _ _ hr =>
    have := (reapable_iff.mp hr).2
    have := h.last
    omega

theorem spent_run {db : Db} (hg : db.Good) {j : Int} {r s : JobRow} (hf : db.jobs.find j = some s)
    (h : Spent r s) {calls : List Call} (hothers : ∀ c ∈ calls, c.op.settles j = false) :
    (run exec db calls).Good ∧ ∃ s', (run exec db calls).jobs.find j = some s' ∧ Spent r s' := by
  refine (everyStep_of_law
    (I := fun db : Db => db.Good ∧ ∃ s, db.jobs.find j = some s ∧ Spent r s)
    (P := fun _ (c : Call) => c.op.settles j = false) (Q := fun _ _ => True) ?_
    (fun _ _ _ _ => trivial) ⟨hg, s, hf, h⟩ (everyStep_of_inputs hothers)).2
  rintro db c ⟨hdb, s, hf, hs⟩ hc
  have ht := exec_turn hdb c j
  rw [life_of_find hf] at ht
  obtain ⟨s', hl, hs'⟩ := spent_turn ht hc hs
  exact ⟨exec_good hdb c, s', life_live.mp hl, hs'⟩

/-! ## The law -/

/-- The calls of others that the protocol waits for: those before its second statement. -/
def Failure.others (f : Failure) (r : JobRow) : List Call :=
  if NoNul f.last_error ∧ classify f.error = .Transient ∧ r.max_attempts ≤ r.attempts then f.between
  else []

theorem deadLettered_of {r s : JobRow} {now : Int} {err : Text} {db : Db}
    (h : Spent r s ∨ s = r) (hnone : db.jobs.find r.id = none)
    (hone : deadOf db r.id = [deadRow now err s]) : DeadLettered r err.val db := by
  refine ⟨hnone, deadRow now err s, hone, rfl, ?_⟩
  rcases h with h | rfl
  · exact ⟨h.kind, h.payload, h.attempts, h.limit, rfl⟩
  · exact ⟨rfl, rfl, rfl, rfl, rfl⟩

theorem not_retried {r : JobRow} {now : Int} {err err' : String} {db : Db}
    (h : DeadLettered r err db) : ¬ Retried r now err' db := by
  rintro ⟨_, s, hf, _⟩
  rw [h.1] at hf
  cases hf

/-- A string with U+0000 stops the protocol at its first statement. -/
theorem settle_refused {f : Failure} (htext : ¬ NoNul f.last_error) (db : Db) (id : Int) :
    settle db id f = db := by
  unfold settle
  rw [execWith_nul htext, execWith_nul htext]
  cases classify f.error with
  | Permanent => rfl
  | Transient => rfl

/-- A permanent failure. -/
theorem settle_permanent {db : Db} (hg : db.Good) {r : JobRow} (hf : db.jobs.find r.id = some r)
    {f : Failure} (htext : NoNul f.last_error) (hclass : classify f.error = .Permanent) :
    DeadLettered r f.last_error (settle db r.id f) ∧ SameOthers r.id db (settle db r.id f) := by
  obtain ⟨hnone, hone, hsame⟩ := dead_letter_buries hg f.now ⟨f.last_error, htext⟩ hf
  unfold settle
  rw [hclass, execWith_noNul htext]
  exact ⟨deadLettered_of (Or.inr rfl) hnone hone, hsame⟩

/-- A transient failure with no attempt left. -/
theorem settle_exhausted {db : Db} (hg : db.Good) {r : JobRow} (hf : db.jobs.find r.id = some r)
    (hlast : r.max_attempts ≤ r.attempts) (hidle : r.state ≠ .ready) {f : Failure}
    (htext : NoNul f.last_error) (hclass : classify f.error = .Transient)
    (hothers : ∀ c ∈ f.between, c.op.settles r.id = false) :
    DeadLettered r f.last_error (settle db r.id f) ∧
      SameOthers r.id (run exec db f.between) (settle db r.id f) := by
  have hspent : Spent r r := ⟨rfl, rfl, rfl, rfl, hlast, hidle⟩
  obtain ⟨hg', s, hs, hspent'⟩ := spent_run hg hf hspent hothers
  obtain ⟨hnone, hone, hsame⟩ := dead_letter_buries hg' f.later ⟨f.last_error, htext⟩ hs
  have hrefused : execWith db f.now (.requeue r.id) f.last_error = (db, .ok (.rows 0)) := by
    rw [execWith_noNul htext]
    exact requeue_refused f.now _ hf hlast
  have hburied := execWith_noNul htext (run exec db f.between) f.later (.dead_letter r.id)
  have hsettle : settle db r.id f =
      (exec (run exec db f.between) ⟨f.later, .dead_letter r.id ⟨f.last_error, htext⟩⟩).1 := by
    unfold settle
    rw [hclass, hrefused]
    exact congrArg Prod.fst hburied
  rw [hsettle]
  exact ⟨deadLettered_of (Or.inl hspent') hnone hone, hsame⟩

/-- A transient failure with an attempt left, whose time is in range. -/
theorem settle_retried {db : Db} (hg : db.Good) {r : JobRow} (hf : db.jobs.find r.id = some r)
    (hlt : r.attempts < r.max_attempts) {f : Failure} (htext : NoNul f.last_error)
    (hclass : classify f.error = .Transient)
    (hb : backoff f.now r.attempts = .ok (f.now + waitOf r.attempts)) :
    Retried r f.now f.last_error (settle db r.id f) ∧ SameOthers r.id db (settle db r.id f) := by
  obtain ⟨db', hexec, hdead, hfind⟩ := requeue_runs ⟨f.last_error, htext⟩ hf hlt hb
  have hpos := waitOf_pos r.attempts
  have hle := waitOf_le r.attempts
  rw [← execWith_noNul htext db f.now (.requeue r.id)] at hexec
  have hsettle : settle db r.id f = db' := by
    unfold settle
    rw [hclass, hexec]
    rfl
  rw [hsettle]
  refine ⟨⟨?_, _, (hfind r.id).trans (if_pos rfl), rfl, rfl, rfl, rfl, rfl, ?_, ?_⟩, ?_⟩
  · unfold deadOf
    rw [hdead]
    exact deadOf_nil hg hf
  · simp only [setRetry]
    omega
  · simp only [setRetry]
    omega
  · intro k hk
    refine ⟨(hfind k).trans (if_neg hk), ?_⟩
    unfold deadOf
    rw [hdead]

/-- A transient failure with an attempt left, whose time is out of range. -/
theorem settle_late {db : Db} {r : JobRow} (hf : db.jobs.find r.id = some r)
    (h0 : 0 ≤ r.attempts) (hsmall : r.attempts < 1024) (hlt : r.attempts < r.max_attempts)
    {f : Failure} (htext : NoNul f.last_error) (hclass : classify f.error = .Transient)
    (hout : ¬ InRange (f.now + waitOf r.attempts)) :
    execWith db f.now (.requeue r.id) f.last_error = (db, .error .timestamp_out_of_range) ∧
      settle db r.id f = db := by
  have hexec : execWith db f.now (.requeue r.id) f.last_error =
      (db, .error .timestamp_out_of_range) := by
    rw [execWith_noNul htext]
    exact requeue_fails _ hf hlt (backoff_late f.now h0 hsmall hout)
  refine ⟨hexec, ?_⟩
  unfold settle
  rw [hclass, hexec]

/-- The failure protocol puts a job back exactly when the error is transient and an attempt is
left, and else buries it. With a string that has U+0000 both of its statements fail, and a
requeue whose time is no timestamp fails: then all is as it was. -/
theorem a_failure_disposes_of_its_job (calls : List Call) (r : JobRow)
    (hr : r ∈ (after calls).jobs.rows) (f : Failure)
    (hothers : ∀ c ∈ f.between, c.op.settles r.id = false) :
    (if NoNul f.last_error then
      if classify f.error = .Transient ∧ r.attempts < r.max_attempts then
        if InRange (f.now + min (2 ^ r.attempts.toNat) 3600 * USECS_PER_SEC) then
          Retried r f.now f.last_error (settle (after calls) r.id f) ∧
            ¬ DeadLettered r f.last_error (settle (after calls) r.id f)
        else
          execWith (after calls) f.now (.requeue r.id) f.last_error =
              (after calls, .error .timestamp_out_of_range) ∧
            settle (after calls) r.id f = after calls
      else
        DeadLettered r f.last_error (settle (after calls) r.id f) ∧
          ¬ Retried r f.now f.last_error (settle (after calls) r.id f)
    else
      execWith (after calls) f.now (.requeue r.id) f.last_error =
          (after calls, .error .character_not_in_repertoire) ∧
        execWith (after calls) f.now (.dead_letter r.id) f.last_error =
          (after calls, .error .character_not_in_repertoire) ∧
        settle (after calls) r.id f = after calls) ∧
    SameOthers r.id (run exec (after calls) (f.others r)) (settle (after calls) r.id f) := by
  have hg := after_good calls
  have hf := Table.find_of_mem hr
  have hcounted := counted_after r.id calls
  rw [life_of_row hr] at hcounted
  obtain ⟨hcount, hle, hready⟩ := hcounted
  have hmax := max_attempts_after calls hr
  unfold Failure.others
  by_cases htext : NoNul f.last_error
  · rw [if_pos htext]
    cases hclass : classify f.error with
    | Permanent =>
      obtain ⟨hdead, hsame⟩ := settle_permanent hg hf htext hclass
      rw [if_neg (by simp), if_neg (by simp)]
      exact ⟨⟨hdead, not_retried hdead⟩, hsame⟩
    | Transient =>
      by_cases hlt : r.attempts < r.max_attempts
      · have hleft : ¬ (NoNul f.last_error ∧ Class.Transient = Class.Transient ∧
            r.max_attempts ≤ r.attempts) := fun h => absurd h.2.2 (by omega)
        rw [if_pos ⟨rfl, hlt⟩, if_neg hleft]
        by_cases hin : InRange (f.now + waitOf r.attempts)
        · have hb := (backoff_iff f.now (by omega)).mpr ⟨by omega, hin, rfl⟩
          obtain ⟨hretried, hsame⟩ := settle_retried hg hf hlt htext hclass hb
          rw [waitOf] at hin
          rw [if_pos hin]
          exact ⟨⟨hretried, fun hdead => not_retried hdead hretried⟩, hsame⟩
        · obtain ⟨hexec, hsettle⟩ := settle_late hf (by omega) (by omega) hlt htext hclass hin
          rw [waitOf] at hin
          rw [if_neg hin, hsettle]
          exact ⟨⟨hexec, rfl⟩, fun _ _ => ⟨rfl, rfl⟩⟩
      · have hidle : r.state ≠ .ready := fun h => hlt (hready h)
        obtain ⟨hdead, hsame⟩ := settle_exhausted hg hf (by omega) hidle htext hclass hothers
        rw [if_neg (fun h => hlt h.2), if_pos ⟨htext, rfl, by omega⟩]
        exact ⟨⟨hdead, not_retried hdead⟩, hsame⟩
  · rw [if_neg htext, if_neg (fun h => htext h.1), settle_refused htext]
    exact ⟨⟨execWith_nul htext _ _ _, execWith_nul htext _ _ _, rfl⟩, fun _ _ => ⟨rfl, rfl⟩⟩

theorem oneFailure_row : ∃ r ∈ (after oneFailure).jobs.rows, r.state = .running ∧ r.attempts = 1 ∧
    r.max_attempts = 20 := by
  have hany : (after oneFailure).jobs.rows.any (fun r => decide (r.state = .running) &&
      decide (r.attempts = 1) && decide (r.max_attempts = 20)) = true := by decide +kernel
  obtain ⟨r, hr, hrow⟩ := List.any_eq_true.mp hany
  simp only [Bool.and_eq_true, decide_eq_true_eq] at hrow
  exact ⟨r, hr, hrow.1.1, hrow.1.2, hrow.2⟩

/-- A transient failure at time `now`, with nothing before the second statement. -/
def failureAt (now : Int) (last_error : String) : Failure :=
  ⟨.Transient last_error, last_error, now, [], now⟩

/-- The first timeout of a job puts it back. -/
theorem a_first_timeout_is_retried : ∃ r ∈ (after oneFailure).jobs.rows,
    Retried r 1000000 "timeout" (settle (after oneFailure) r.id (failureAt 1000000 "timeout")) := by
  obtain ⟨r, hr, _, hatt, hmax⟩ := oneFailure_row
  have hlaw := (a_failure_disposes_of_its_job oneFailure r hr (failureAt 1000000 "timeout")
    (by simp [failureAt])).1
  have htext : NoNul (failureAt 1000000 "timeout").last_error := by decide +kernel
  have htransient : classify (failureAt 1000000 "timeout").error = .Transient := rfl
  rw [if_pos htext, if_pos ⟨htransient, by omega⟩, if_pos (by rw [hatt]; decide)] at hlaw
  exact ⟨r, hr, hlaw.1⟩

theorem not_disposed {r : JobRow} {db : Db} (hf : db.jobs.find r.id = some r)
    (hrun : r.state = .running) (now : Int) (err : String) :
    ¬ Retried r now err db ∧ ¬ DeadLettered r err db := by
  constructor
  · rintro ⟨_, s, hs, hready, _⟩
    rw [hf, Option.some.injEq] at hs
    rw [← hs, hrun] at hready
    cases hready
  · rintro ⟨hnone, _⟩
    rw [hf] at hnone
    cases hnone

/-- At the last moment of `timestamptz` the requeue fails, and so does one whose string has
U+0000: the job is left running. -/
theorem the_last_timeout_is_not_disposed_of : ∃ r ∈ (after oneFailure).jobs.rows,
    (¬ Retried r (END_TIMESTAMP - 1) "timeout"
        (settle (after oneFailure) r.id (failureAt (END_TIMESTAMP - 1) "timeout")) ∧
      ¬ DeadLettered r "timeout"
        (settle (after oneFailure) r.id (failureAt (END_TIMESTAMP - 1) "timeout"))) ∧
    ¬ Retried r 1000000 "time\x00out"
        (settle (after oneFailure) r.id (failureAt 1000000 "time\x00out")) ∧
      ¬ DeadLettered r "time\x00out"
        (settle (after oneFailure) r.id (failureAt 1000000 "time\x00out")) := by
  obtain ⟨r, hr, hrun, hatt, hmax⟩ := oneFailure_row
  have hf := Table.find_of_mem hr
  have hout : ¬ InRange ((failureAt (END_TIMESTAMP - 1) "timeout").now + waitOf r.attempts) := by
    rw [hatt]
    decide
  have htext : NoNul (failureAt (END_TIMESTAMP - 1) "timeout").last_error := by decide +kernel
  have hlate := (settle_late hf (by omega) (by omega) (by omega) htext rfl hout).2
  have hnul : ¬ NoNul (failureAt 1000000 "time\x00out").last_error := by decide +kernel
  refine ⟨r, hr, ?_⟩
  rw [hlate, settle_refused hnul]
  exact ⟨not_disposed hf hrun _ _, not_disposed hf hrun _ _⟩

end skip_locked
