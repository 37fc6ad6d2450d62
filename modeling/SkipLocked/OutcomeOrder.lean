-- The law of the outcomes: outcome calls on different jobs commute. Each reads
-- and writes the row of its own job, and so the handlers of a batch may finish
-- in any order.
import SkipLocked.FailureProtocol
import SkipLocked.OldestFirst

open jsonb postgres keyed_table event_runs

namespace skip_locked

open claim lease retry

/-! ## What an outcome call does -/

/-- The row of its job after an outcome call, or none when the call deletes it. -/
def outcomeRow (c : Call) (r : JobRow) : Option JobRow :=
  match c.op with
  | .mark_done _ => some (setDone r)
  | .requeue _ err =>
    if r.attempts < r.max_attempts then
      match backoff c.now r.attempts with
      | .ok run_at => some (setRetry run_at err r)
      | .error _ => some r
    else some r
  | .dead_letter _ _ => none
  | _ => some r

/-- The row that it inserts in `jobs_dead`. -/
def outcomeDead (c : Call) (r : JobRow) : Option DeadRow :=
  match c.op with
  | .dead_letter _ err => some (deadRow c.now err r)
  | _ => none

/-- What it answers, from the row of its job. -/
def outcomeAnswer (c : Call) (row : Option JobRow) : Answer :=
  match c.op, row with
  | .requeue _ _, some r =>
    if r.attempts < r.max_attempts then (backoff c.now r.attempts).map (fun _ => .rows 1)
    else .ok (.rows 0)
  | .requeue _ _, none => .ok (.rows 0)
  | .dead_letter _ _, row => .ok (.rows (if row.isSome then 1 else 0))
  | _, _ => .ok .unit

theorem outcomeRow_id (c : Call) (r r' : JobRow) (h : outcomeRow c r = some r') : r'.id = r.id := by
  unfold outcomeRow at h
  split at h
  · cases h
    rfl
  · split at h
    · split at h
      · cases h
        rfl
      · cases h
        rfl
    · cases h
      rfl
  · cases h
  · cases h
    rfl

/-- A rewrite of one key, in terms of the row of that key. -/
theorem rewrite_one {jobs jobs' : Table JobRow.id} {id : Int} {w : JobRow → Option JobRow}
    {hw : ∀ r r', w r = some r' → r'.id = r.id} (f : JobRow → Option JobRow)
    (hrows : jobs'.rows = jobs.rows.filterMap f)
    (hother : ∀ r ∈ jobs.rows, r.id ≠ id → f r = some r)
    (hself : ∀ r, jobs.find id = some r → f r = w r) : jobs' = jobs.rewrite [id] w hw := by
  apply Table.ext_rows
  rw [hrows]
  apply List.filterMap_congr
  intro r hr
  by_cases hid : r.id = id
  · rw [if_pos (by simp [hid])]
    exact hself r (hid ▸ Table.find_of_mem hr)
  · rw [if_neg (by simp [hid])]
    exact hother r hr hid

theorem update_rows (jobs : Table JobRow.id) (p : JobRow → Bool) (f : JobRow → JobRow)
    (hf : ∀ r, (f r).id = r.id) :
    (jobs.update p f hf).rows = jobs.rows.filterMap (fun r => some (if p r then f r else r)) :=
  List.filterMap_eq_map.symm ▸ rfl

theorem mark_done_row (db : Db) (now id : Int) :
    (skip_locked.mark_done db id).jobs =
      db.jobs.rewrite [id] (outcomeRow ⟨now, .mark_done id⟩) (outcomeRow_id _) := by
  apply rewrite_one _ (update_rows db.jobs _ _ setDone_id)
  · intro r _ hid
    simp [hid]
  · intro r hf
    simp [Table.key_of_find hf, outcomeRow]

theorem dead_letter_row (db : Db) (now id : Int) (err : Text) :
    (retry.dead_letter db now id err).1.jobs =
      db.jobs.rewrite [id] (outcomeRow ⟨now, .dead_letter id err⟩) (outcomeRow_id _) := by
  apply rewrite_one (fun r => if r.id = id then none else some r)
  · show db.jobs.rows.filter _ = _
    rw [← List.filterMap_eq_filter]
    apply List.filterMap_congr
    intro r _
    by_cases hid : r.id = id
    · simp [hid, Option.guard]
    · simp [hid, Option.guard]
  · intro r _ hid
    exact if_neg hid
  · intro r hf
    exact if_pos (Table.key_of_find hf)

/-- A requeue that matches no row, or fails, rewrites nothing. -/
theorem requeue_kept {db : Db} {now id : Int} {err : Text}
    (h : ∀ r, db.jobs.find id = some r → outcomeRow ⟨now, .requeue id err⟩ r = some r) :
    db.jobs = db.jobs.rewrite [id] (outcomeRow ⟨now, .requeue id err⟩) (outcomeRow_id _) := by
  apply rewrite_one some
  · rw [List.filterMap_some]
  · intro r _ _
    rfl
  · intro r hf
    exact (h r hf).symm

theorem exec_requeue_row (db : Db) (now id : Int) (err : Text) :
    exec db ⟨now, .requeue id err⟩ = ({ db with
        jobs := db.jobs.rewrite [id] (outcomeRow ⟨now, .requeue id err⟩) (outcomeRow_id _) },
      outcomeAnswer ⟨now, .requeue id err⟩ (db.jobs.find id)) := by
  unfold exec
  dsimp only
  rw [requeue_eq]
  cases hf : db.jobs.find id with
  | none =>
    rw [← requeue_kept (by simp [hf])]
    rfl
  | some r =>
    by_cases hlt : r.attempts < r.max_attempts
    · rw [Option.filter_some_pos (by simpa using hlt)]
      dsimp only
      cases hb : backoff now r.attempts with
      | error e =>
        rw [← requeue_kept (by simp [hf, outcomeRow, hb])]
        simp [outcomeAnswer, hlt, hb, answer, Except.map, bind, Except.bind]
      | ok run_at =>
        have hrow : db.jobs.update
            (fun r => decide (r.id = id) && decide (r.attempts < r.max_attempts))
            (setRetry run_at err) (setRetry_id run_at err) =
            db.jobs.rewrite [id] (outcomeRow ⟨now, .requeue id err⟩) (outcomeRow_id _) := by
          apply rewrite_one _ (update_rows db.jobs _ _ (setRetry_id run_at err))
          · intro s _ hid
            simp [hid]
          · intro s hs
            rw [hf, Option.some.injEq] at hs
            subst hs
            simp [Table.key_of_find hf, outcomeRow, hlt, hb]
        rw [← hrow]
        simp [outcomeAnswer, hlt, hb, answer, Except.map, bind, Except.bind, pure, Except.pure]
    · rw [Option.filter_some_neg (by simpa using hlt)]
      rw [← requeue_kept (by simp [hf, outcomeRow, hlt])]
      simp [outcomeAnswer, hlt, answer]

/-- An outcome call rewrites the row of its job, and inserts its dead letter. -/
theorem exec_outcome (db : Db) {c : Call} {id : Int} (h : c.op.settles id = true) :
    exec db c = ({ db with
        jobs := db.jobs.rewrite [id] (outcomeRow c) (outcomeRow_id c),
        jobs_dead := db.jobs_dead ++ ((db.jobs.find id).bind (outcomeDead c)).toList },
      outcomeAnswer c (db.jobs.find id)) := by
  obtain ⟨now, op⟩ := c
  cases op with
  | mark_done j =>
    obtain rfl : j = id := by simpa [Op.settles] using h
    rw [← mark_done_row db now j]
    simp [exec, outcomeDead, outcomeAnswer, skip_locked.mark_done]
  | requeue j err =>
    obtain rfl : j = id := by simpa [Op.settles] using h
    rw [exec_requeue_row]
    simp [outcomeDead]
  | dead_letter j err =>
    obtain rfl : j = id := by simpa [Op.settles] using h
    have hdead := dead_letter_eq db now j err
    rw [← dead_letter_row db now j err]
    simp only [exec, hdead]
    cases db.jobs.find j with
    | none => rfl
    | some r => rfl
  | _ => cases h

/-! ## Two outcome calls -/

def IsOutcome (c : Call) : Prop := ∃ j, c.op.settles j = true

/-- The calls are about different jobs. -/
def Apart (c d : Call) : Prop := ∀ j, c.op.settles j = true → d.op.settles j = false

/-- The same database, but for the order of the rows in `jobs_dead`. -/
structure SameQueue (db db' : Db) : Prop where
  jobs : db'.jobs = db.jobs
  dead : db'.jobs_dead.Perm db.jobs_dead
  next_id : db'.next_id = db.next_id
  transactions : db'.transactions = db.transactions
  notified : db'.notified = db.notified

theorem SameQueue.refl (db : Db) : SameQueue db db := ⟨rfl, List.Perm.refl _, rfl, rfl, rfl⟩

theorem SameQueue.trans {a b c : Db} (h : SameQueue a b) (h' : SameQueue b c) : SameQueue a c :=
  ⟨h'.jobs.trans h.jobs, h'.dead.trans h.dead, h'.next_id.trans h.next_id,
    h'.transactions.trans h.transactions, h'.notified.trans h.notified⟩

theorem Apart.symm {c d : Call} (h : Apart c d) : Apart d c := by
  intro j hd
  by_contra hc
  rw [h j (by simpa using hc)] at hd
  cases hd

theorem outcome_congr {db db' : Db} {c : Call} (hc : IsOutcome c) (h : SameQueue db db') :
    SameQueue (exec db c).1 (exec db' c).1 ∧ (exec db c).2 = (exec db' c).2 := by
  obtain ⟨id, hid⟩ := hc
  rw [exec_outcome db hid, exec_outcome db' hid, h.jobs]
  exact ⟨⟨rfl, h.dead.append_right _, h.next_id, h.transactions, h.notified⟩, rfl⟩

/-- An outcome call of another job leaves the row of this one. -/
theorem find_after_outcome (db : Db) {c : Call} {id k : Int} (hid : c.op.settles id = true)
    (hk : k ≠ id) : (exec db c).1.jobs.find k = db.jobs.find k := by
  have hfind := @Table.find_rewrite _ _ _ _ db.jobs [id] (outcomeRow c) (outcomeRow_id c) k
  rw [exec_outcome db hid]
  refine hfind.trans ?_
  simp [hk]

theorem outcome_swap {db : Db} {c d : Call} (hc : IsOutcome c) (hd : IsOutcome d)
    (hapart : Apart c d) :
    SameQueue (exec (exec db c).1 d).1 (exec (exec db d).1 c).1 ∧
      (exec (exec db c).1 d).2 = (exec db d).2 := by
  obtain ⟨i, hi⟩ := hc
  obtain ⟨k, hk⟩ := hd
  have hik : i ≠ k := by
    rintro rfl
    rw [hapart i hi] at hk
    cases hk
  have hfk := find_after_outcome db hi (Ne.symm hik)
  have hfi := find_after_outcome db hk hik
  have hjobs := @Table.rewrite_comm _ _ _ _ db.jobs k i (Ne.symm hik) (outcomeRow d) (outcomeRow c)
    (outcomeRow_id d) (outcomeRow_id c)
  rw [exec_outcome (exec db c).1 hk, exec_outcome (exec db d).1 hi, hfk, hfi, exec_outcome db hi,
    exec_outcome db hk]
  refine ⟨⟨hjobs, ?_, rfl, rfl, rfl⟩, rfl⟩
  simp only [List.append_assoc]
  exact List.perm_append_comm.append_left _

/-! ## The law -/

theorem others_kept (db : Db) {c : Call} {k : Int} (hc : IsOutcome c)
    (hk : c.op.settles k = false) :
    (exec db c).1.jobs.find k = db.jobs.find k ∧ deadOf (exec db c).1 k = deadOf db k := by
  obtain ⟨id, hid⟩ := hc
  have hne : k ≠ id := by
    rintro rfl
    rw [hk] at hid
    cases hid
  refine ⟨find_after_outcome db hid hne, ?_⟩
  rw [exec_outcome db hid]
  unfold deadOf
  rw [List.filter_append]
  cases hf : db.jobs.find id with
  | none => simp
  | some r =>
    have hrid : r.id = id := Table.key_of_find hf
    unfold outcomeDead
    cases c.op with
    | dead_letter j err => simp [deadRow, hrid, Ne.symm hne]
    | _ => simp

/-- Outcome calls on pairwise different jobs may come in any order: the same `jobs`, the same
rows in `jobs_dead`, the same answer to each call. No row of another job changes. -/
theorem outcomes_commute (db : Db) {calls calls' : List Call} (hperm : calls.Perm calls')
    (houtcome : ∀ c ∈ calls, IsOutcome c) (hapart : calls.Pairwise Apart) :
    (run exec db calls').jobs = (run exec db calls).jobs ∧
      (run exec db calls').jobs_dead.Perm (run exec db calls).jobs_dead ∧
      (trace exec db calls).Perm (trace exec db calls') ∧
      ∀ k, (∀ c ∈ calls, c.op.settles k = false) →
        (run exec db calls).jobs.find k = db.jobs.find k ∧
        deadOf (run exec db calls) k = deadOf db k := by
  obtain ⟨hsame, htrace⟩ := run_perm (R := SameQueue) (P := IsOutcome) (D := Apart) SameQueue.refl
    (fun _ _ _ => SameQueue.trans) (fun _ _ => Apart.symm) (fun _ _ _ => outcome_congr)
    (fun _ _ _ => outcome_swap) hperm houtcome hapart (SameQueue.refl db)
  refine ⟨hsame.jobs, hsame.dead, htrace, ?_⟩
  intro k hk
  refine (everyStep_of_law
    (I := fun db' : Db => db'.jobs.find k = db.jobs.find k ∧ deadOf db' k = deadOf db k)
    (P := fun _ (c : Call) => IsOutcome c ∧ c.op.settles k = false) (Q := fun _ _ => True) ?_
    (fun _ _ _ _ => trivial) ⟨rfl, rfl⟩
    (everyStep_of_inputs (fun c hc => ⟨houtcome c hc, hk c hc⟩))).2
  rintro db' c ⟨hf, hdead⟩ ⟨hc, hck⟩
  obtain ⟨hf', hdead'⟩ := others_kept db' hc hck
  exact ⟨hf'.trans hf, hdead'.trans hdead⟩

/-- Both jobs of a batch run. -/
def batchOfTwo : Db := (exec youngerFirst ⟨7, .claim_batch ["k"] 2 "w" .alone⟩).1

/-- Two jobs of one batch: one succeeds and one is dead-lettered, in either order. -/
theorem two_outcomes_commute :
    (run exec batchOfTwo [⟨8, .dead_letter 2 "bad"⟩, ⟨9, .mark_done 1⟩]).jobs =
        (run exec batchOfTwo [⟨9, .mark_done 1⟩, ⟨8, .dead_letter 2 "bad"⟩]).jobs ∧
      (trace exec batchOfTwo [⟨9, .mark_done 1⟩, ⟨8, .dead_letter 2 "bad"⟩]).Perm
        (trace exec batchOfTwo [⟨8, .dead_letter 2 "bad"⟩, ⟨9, .mark_done 1⟩]) := by
  have hlaw := outcomes_commute batchOfTwo
    (List.Perm.swap ⟨8, .dead_letter 2 "bad"⟩ ⟨9, .mark_done 1⟩ []) ?_ ?_
  · exact ⟨hlaw.1, hlaw.2.2.1⟩
  · intro c hc
    rcases List.mem_cons.mp hc with rfl | hc
    · exact ⟨1, rfl⟩
    · obtain rfl := List.mem_singleton.mp hc
      exact ⟨2, rfl⟩
  · apply List.pairwise_pair.mpr
    intro j hj
    obtain rfl : 1 = j := of_decide_eq_true hj
    rfl

end skip_locked
