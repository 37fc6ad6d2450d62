-- The arithmetic of the retries, for rows with any retry limit that the schema
-- admits. A claim never passes the int4 of `attempts`. The power of a requeue
-- is computed before its cap, and fails from 1024 attempts on.
import SkipLocked.Backoff

open jsonb postgres keyed_table event_runs

namespace skip_locked

open claim lease retry

/-! ## Rows with a retry limit of their own -/

/-- A value of `max_attempts` that leaves a first attempt. -/
structure RetryLimit where
  value : Int
  pos : 1 ≤ value
  fits : value ≤ INT4_MAX

/-- What happens to the tables: an insert with a retry limit, or a call of the crate. -/
inductive Change where
  | insert (kind : Text) (payload : Jsonb) (run_at : Int) (max_attempts : RetryLimit)
  | call (c : Call)

def limitedRow (id : Int) (kind : Text) (payload : Jsonb) (run_at : Int)
    (max_attempts : RetryLimit) : JobRow :=
  { newRow id kind payload run_at with max_attempts := max_attempts.value }

@[simp] theorem limitedRow_id (id : Int) (kind : Text) (payload : Jsonb) (run_at : Int)
    (max_attempts : RetryLimit) : (limitedRow id kind payload run_at max_attempts).id = id := rfl

/-- `INSERT INTO jobs (kind, payload, run_at, max_attempts) VALUES …`. -/
def insertRow (db : Db) (kind : Text) (payload : Jsonb) (run_at : Int)
    (max_attempts : RetryLimit) : Except PgError (Db × Int) :=
  if INT8_MAX < db.next_id then .error .sequence_limit
  else
    match db.jobs.insert (limitedRow db.next_id kind payload run_at max_attempts) with
    | none => .error .unique_violation
    | some jobs => .ok ({ db with jobs, next_id := db.next_id + 1 }, db.next_id)

def execChange (db : Db) : Change → Db × Answer
  | .insert kind payload run_at max_attempts =>
    answer db .id (insertRow db kind payload run_at max_attempts)
  | .call c => exec db c

/-- The attempts of a row against its limit. -/
structure WithinLimit (r : JobRow) : Prop where
  started : 0 ≤ r.attempts
  left : r.state = .ready → r.attempts < r.max_attempts
  fits : r.max_attempts ≤ INT4_MAX

def Life.WithinLimit : Life → Prop
  | .live r => skip_locked.WithinLimit r
  | _ => True

theorem withinLimit_turn {j : Int} {c : Call} {a : Answer} {l l' : Life} (ht : Turn j c a l l')
    (h : l.WithinLimit) : l'.WithinLimit := by
  cases ht with
  | still _ _ => exact h
  | born kind payload run_at _ _ =>
    refine ⟨le_refl 0, fun _ => ?_, ?_⟩
    · simp [newRow]
    · simp [newRow, INT4_MAX]
  | claimed r _ _ _ _ _ =>
    obtain ⟨hstart, _, hfits⟩ := h
    refine ⟨?_, by simp [setRunning], hfits⟩
    simp only [setRunning]
    omega
  | beat r _ _ => exact ⟨h.started, h.left, h.fits⟩
  | finished r _ => exact ⟨h.started, by simp [setDone], h.fits⟩
  | requeued r _ hlt _ => exact ⟨h.started, fun _ => hlt, h.fits⟩
  | died r _ => trivial
  | reaped r _ _ hr => exact ⟨h.started, fun _ => (reapable_iff.mp hr).2, h.fits⟩

/-- The invariant of the tables under inserts and calls. -/
structure Limited (db : Db) : Prop where
  good : db.Good
  within : ∀ j, (db.life j).WithinLimit

theorem limited_empty : Limited Db.empty := ⟨good_empty, fun _ => trivial⟩

theorem insertRow_ok {db db' : Db} {kind : Text} {payload : Jsonb} {run_at : Int}
    {max_attempts : RetryLimit} {id : Int}
    (h : insertRow db kind payload run_at max_attempts = .ok (db', id)) :
    db' = { db with jobs := db'.jobs, next_id := db.next_id + 1 } ∧
      db.jobs.insert (limitedRow db.next_id kind payload run_at max_attempts) = some db'.jobs := by
  unfold insertRow at h
  split at h
  · cases h
  · split at h
    · cases h
    · rename_i jobs hjobs
      cases h
      exact ⟨rfl, hjobs⟩

theorem limited_insert {db db' : Db} {kind : Text} {payload : Jsonb} {run_at : Int}
    {max_attempts : RetryLimit} {id : Int} (h : Limited db)
    (hok : insertRow db kind payload run_at max_attempts = .ok (db', id)) : Limited db' := by
  obtain ⟨hs, hi⟩ := insertRow_ok hok
  have hgood : db'.Good := good_born h.good rfl (by rw [hs]) hi
  refine ⟨hgood, fun j => ?_⟩
  have hfind := Table.find_insert hi j
  rw [limitedRow_id] at hfind
  by_cases hj : db.next_id = j
  · rw [if_pos hj] at hfind
    rw [life_of_find hfind]
    refine ⟨le_refl 0, fun _ => ?_, max_attempts.fits⟩
    have := max_attempts.pos
    simp only [limitedRow, newRow]
    omega
  · rw [if_neg hj] at hfind
    rw [life_same (by rw [hs]) hfind]
    exact h.within j

theorem limited_execChange {db : Db} (h : Limited db) (e : Change) :
    Limited (execChange db e).1 := by
  cases e with
  | insert kind payload run_at max_attempts =>
    simp only [execChange]
    rcases hres : insertRow db kind payload run_at max_attempts with e | ⟨db', id⟩
    · exact h
    · exact limited_insert h hres
  | call c =>
    exact ⟨exec_good h.good c, fun j => withinLimit_turn (exec_turn h.good c j) (h.within j)⟩

theorem limited_after (events : List Change) : Limited (run execChange Db.empty events) :=
  run_invariant limited_empty (fun _ e h => limited_execChange h e) events

/-! ## The attempts of a claim -/

/-- A row that a claim may take has an attempt left in an `int4`, and the claim does not fail
on its `attempts`. -/
def ClaimsFit (db : Db) (e : Change) : Prop :=
  (∀ r ∈ db.jobs.rows, r.state = .ready → r.attempts + 1 ≤ INT4_MAX) ∧
    ∀ c worker_id, e = .call c → c.op.claimant = some worker_id →
      (execChange db e).2 ≠ .error .integer_out_of_range

theorem limited_fits {db : Db} (h : Limited db) {r : JobRow} (hr : r ∈ db.jobs.rows)
    (hready : r.state = .ready) : r.attempts + 1 ≤ INT4_MAX := by
  have hwithin := h.within r.id
  rw [life_of_row hr] at hwithin
  have := hwithin.left hready
  have := hwithin.fits
  omega

/-- An update of some rows fails on one without an attempt left in an `int4`. -/
theorem takeRows_error {db : Db} {now : Int} {worker_id : Text} {plan : Plan} {ids : List Int}
    {e : PgError} (h : takeRows db now worker_id ids plan = .error e) :
    ∃ r ∈ db.jobs.rows, r.id ∈ ids ∧ INT4_MAX ≤ r.attempts := by
  unfold takeRows at h
  dsimp only at h
  split at h
  · rename_i hany
    obtain ⟨r, hr, hfull⟩ := List.any_eq_true.mp hany
    obtain ⟨hmem, hid⟩ := Table.mem_matching.mp hr
    exact ⟨r, hmem, by simpa using hid, by simpa using hfull⟩
  · cases h

theorem limitOf_error {n : Int} {e : PgError} (h : limitOf n = .error e) : e = .negative_limit := by
  unfold limitOf at h
  split at h
  · cases h
    rfl
  · cases h

/-- A claim takes rows of a window, and those are ready. -/
theorem takeRows_fits {db : Db} (h : Limited db) {now : Int} {kinds : List Text} {limit : Nat}
    {worker_id : Text} {plan : Plan} {ids : List Int}
    (hids : ∀ id ∈ ids, ∃ r ∈ lockWindow db.jobs now kinds limit plan, r.id = id) :
    takeRows db now worker_id ids plan ≠ .error .integer_out_of_range := by
  intro herr
  obtain ⟨r, hr, hid, hfull⟩ := takeRows_error herr
  obtain ⟨s, hs, hsid⟩ := hids r.id hid
  obtain ⟨hmem, hc, _⟩ := mem_lockWindow hs
  obtain rfl : s = r := Table.eq_of_key hmem hr hsid
  have := limited_fits h hr (claimable_iff.mp hc).1
  omega

theorem claim_batch_fits {db : Db} (h : Limited db) (now : Int) (kinds : List Text) (n : Int)
    (worker_id : Text) (plan : Plan) :
    claim.claim_batch db now kinds n worker_id plan ≠ .error .integer_out_of_range := by
  intro herr
  unfold claim.claim_batch at herr
  rcases hlimit : limitOf n with e | limit
  · rw [hlimit] at herr
    cases herr
    cases limitOf_error hlimit
  · rw [hlimit] at herr
    exact takeRows_fits h (fun _ hid => List.mem_map.mp hid) herr

theorem fair_claim_fits {db : Db} (h : Limited db) (now : Int) (kinds : List Text)
    (batch per_tenant_cap : Int) (worker_id : Text) (plan : Plan) :
    claim.fair_claim db now kinds batch per_tenant_cap worker_id plan ≠
      .error .integer_out_of_range := by
  intro herr
  unfold claim.fair_claim at herr
  dsimp only at herr
  split at herr
  · cases herr
  rcases hlimit : limitOf (batch * 4) with e | limit
  · rw [hlimit] at herr
    cases herr
    cases limitOf_error hlimit
  · rw [hlimit] at herr
    exact takeRows_fits h (fun _ hid => mem_keptIds hid) herr

theorem answer_error {α : Type} {db : Db} {reply : α → Reply} {res : Except PgError (Db × α)}
    {e : PgError} (h : (answer db reply res).2 = .error e) : res = .error e := by
  rcases res with e' | ⟨db', a⟩
  · cases h
    rfl
  · cases h

theorem claimsFit_step {db : Db} (h : Limited db) (e : Change) : ClaimsFit db e := by
  refine ⟨fun r hr hready => limited_fits h hr hready, ?_⟩
  rintro ⟨now, op⟩ worker_id rfl hclaimant herr
  cases op with
  | claim_batch kinds n w plan =>
    exact claim_batch_fits h now kinds n w plan (answer_error herr)
  | fair_claim kinds batch cap w plan =>
    exact fair_claim_fits h now kinds batch cap w plan (answer_error herr)
  | _ => cases hclaimant

/-! ## The arithmetic of a requeue -/

/-- A requeue of a row that has an attempt left goes through, and schedules the row. -/
def RetrySucceeds (db : Db) (e : Change) : Prop :=
  ∀ now id err r, e = .call ⟨now, .requeue id err⟩ → db.jobs.find id = some r →
    r.attempts < r.max_attempts →
      (execChange db e).2 = .ok (.rows 1) ∧ (execChange db e).1.jobs.find id =
        some { r with state := .ready,
                      run_at := now + min (2 ^ r.attempts.toNat) 3600 * USECS_PER_SEC,
                      locked_at := none, locked_by := none, last_error := some err }

/-- Such a row has fewer than 1024 attempts, and its time is a timestamp. -/
def RetryFits (db : Db) (e : Change) : Prop :=
  ∀ now id err r, e = .call ⟨now, .requeue id err⟩ → db.jobs.find id = some r →
    r.attempts < r.max_attempts →
      r.attempts < 1024 ∧ InRange (now + min (2 ^ r.attempts.toNat) 3600 * USECS_PER_SEC)

theorem retrySucceeds_iff {db : Db} (h : Limited db) (e : Change) :
    RetrySucceeds db e ↔ RetryFits db e := by
  unfold RetrySucceeds RetryFits
  apply forall_congr'; intro now
  apply forall_congr'; intro id
  apply forall_congr'; intro err
  apply forall_congr'; intro r
  apply imp_congr_right; rintro rfl
  apply imp_congr_right; intro hf
  apply imp_congr_right; intro hlt
  have h0 : 0 ≤ r.attempts := by
    have hwithin := h.within id
    rw [life_of_find hf] at hwithin
    exact hwithin.started
  constructor
  · rintro ⟨hone, _⟩
    obtain ⟨s, run_at, hs, _, hb, _⟩ := requeued_row rfl hone
    rw [hf, Option.some.injEq] at hs
    subst hs
    obtain ⟨hsmall, hin, _⟩ := (backoff_iff now h0).mp hb
    exact ⟨hsmall, hin⟩
  · rintro ⟨hsmall, hin⟩
    have hb := (backoff_iff now h0).mpr ⟨hsmall, hin, rfl⟩
    have hrow := find_after_requeue (c := ⟨now, .requeue id err⟩) rfl hf hlt hb
    refine ⟨?_, hrow⟩
    simp only [execChange, exec, requeue_eq, hf]
    rw [Option.filter_some_pos (by simpa using hlt)]
    dsimp only
    rw [hb]
    rfl

/-- For rows with any retry limit, in every run: each claim fits, and the requeues of the rows
with an attempt left all go through exactly when each such row has fewer than 1024 attempts
and a time in range. -/
theorem retries_succeed_below_1024_attempts (events : List Change) :
    EveryStep execChange ClaimsFit Db.empty events ∧
      (EveryStep execChange RetrySucceeds Db.empty events ↔
        EveryStep execChange RetryFits Db.empty events) := by
  constructor
  · exact (everyStep_of_law (I := Limited) (P := fun _ _ => True)
      (fun _ e h _ => limited_execChange h e) (fun _ e h _ => claimsFit_step h e) limited_empty
      (everyStep_of (fun _ _ => trivial) _ _)).1
  · exact everyStep_congr (fun db _ => Limited db) (fun _ e _ h => retrySucceeds_iff h e)
      (fun _ e _ h _ => limited_execChange h e) limited_empty

/-! ## A job that reaches 1024 attempts -/

theorem claim_one {db : Db} {r : JobRow} {now : Int} (hrows : db.jobs.rows = [r])
    (hc : claimable now ["k"] r = true) (hfit : r.attempts < INT4_MAX) :
    (exec db ⟨now, .claim_batch ["k"] 1 "w" .alone⟩).1.jobs.rows = [setRunning now "w" r] := by
  have hwindow : lockWindow db.jobs now ["k"] 1 .alone = [r] := by
    simp [lockWindow, hrows, hc, Plan.alone, Reorder.asIs, byRunAt]
  have hfits : ¬ INT4_MAX ≤ r.attempts := by omega
  have hexec : exec db ⟨now, .claim_batch ["k"] 1 "w" .alone⟩ =
      answer db .jobs (takeRows db now "w" [r.id] .alone) := by
    have hmap : [r.id] = (lockWindow db.jobs now ["k"] 1 .alone).map (·.id) := by rw [hwindow]; rfl
    rw [hmap]
    rfl
  rw [hexec]
  simp [takeRows, Table.matching, Table.update, hrows, hfits, answer]

theorem requeue_one {db : Db} {r : JobRow} {now run_at : Int} (hrows : db.jobs.rows = [r])
    (hid : r.id = 1) (hlt : r.attempts < r.max_attempts)
    (hb : backoff now r.attempts = .ok run_at) :
    (exec db ⟨now, .requeue 1 "timeout"⟩).1.jobs.rows = [setRetry run_at "timeout" r] := by
  have hres : retry.requeue db now 1 "timeout" = .ok ({ db with
      jobs := db.jobs.update (fun r => decide (r.id = 1) && decide (r.attempts < r.max_attempts))
        (setRetry run_at "timeout") (setRetry_id run_at "timeout") }, 1) := by
    simp [retry.requeue, hrows, hid, hlt, hb]
  have hexec : exec db ⟨now, .requeue 1 "timeout"⟩ =
      answer db .rows (retry.requeue db now 1 "timeout") := rfl
  rw [hexec, hres]
  simp [answer, Table.update, hrows, hid, hlt]

/-- A job with 2000 attempts to spend fails every two hours, each time at once. -/
def failures : Nat → List Change
  | 0 => [.insert "k" .null 0 ⟨2000, by decide, by decide⟩]
  | n + 1 => failures n ++
    [.call ⟨n * 7200000000, .claim_batch ["k"] 1 "w" .alone⟩,
      .call ⟨n * 7200000000, .requeue 1 "timeout"⟩]

/-- The one row of the table after `n` failures. -/
structure FailedOften (n : Nat) (r : JobRow) : Prop where
  id : r.id = 1
  kind : r.kind = "k"
  ready : r.state = .ready
  due : r.run_at ≤ n * 7200000000
  attempts : r.attempts = n
  limit : r.max_attempts = 2000

theorem failedOften_claimable {n : Nat} {r : JobRow} (h : FailedOften n r) :
    claimable (n * 7200000000) ["k"] r = true :=
  claimable_iff.mpr ⟨h.ready, h.due, by simp [h.kind]⟩

/-- A claim and a requeue of a row below 1023 attempts. -/
theorem failedOften_next {n : Nat} (hn : n + 1 < 1024) {db : Db} {r : JobRow}
    (hrows : db.jobs.rows = [r]) (h : FailedOften n r) :
    ∃ r', (run execChange db [.call ⟨n * 7200000000, .claim_batch ["k"] 1 "w" .alone⟩,
      .call ⟨n * 7200000000, .requeue 1 "timeout"⟩]).jobs.rows = [r'] ∧ FailedOften (n + 1) r' := by
  have hatt := h.attempts
  have hlimit := h.limit
  have hclaim := claim_one hrows (failedOften_claimable h) (by unfold INT4_MAX; omega)
  have hwait := waitOf_le (n + 1)
  have hpos := waitOf_pos (n + 1)
  have hattempts : (setRunning (n * 7200000000) "w" r).attempts = n + 1 := by
    simp only [setRunning]
    omega
  have hin : InRange (n * 7200000000 + waitOf (n + 1)) := by
    unfold InRange MIN_TIMESTAMP END_TIMESTAMP
    unfold USECS_PER_SEC at hwait
    omega
  have hb : backoff (n * 7200000000) (setRunning (n * 7200000000) "w" r).attempts =
      .ok (n * 7200000000 + waitOf (n + 1)) := by
    rw [hattempts]
    exact (backoff_iff _ (by omega)).mpr ⟨by omega, hin, rfl⟩
  have hleft : (setRunning (n * 7200000000) "w" r).attempts <
      (setRunning (n * 7200000000) "w" r).max_attempts := by
    rw [hattempts]
    simp only [setRunning]
    omega
  refine ⟨_, requeue_one hclaim h.id hleft hb, h.id, h.kind, rfl, ?_, hattempts, h.limit⟩
  simp only [setRetry]
  unfold USECS_PER_SEC at hwait
  omega

theorem failures_run {n : Nat} (hn : n < 1024) :
    ∃ r, (run execChange Db.empty (failures n)).jobs.rows = [r] ∧ FailedOften n r := by
  induction n with
  | zero =>
    refine ⟨limitedRow 1 "k" .null 0 ⟨2000, by decide, by decide⟩, rfl, ?_⟩
    exact ⟨rfl, rfl, rfl, le_refl 0, rfl, rfl⟩
  | succ n ih =>
    obtain ⟨r, hrows, h⟩ := ih (by omega)
    rw [failures, run_append]
    exact failedOften_next hn hrows h

/-- The requeue after the claim number 1024 breaks the law: the power is out of range. -/
theorem failedOften_last {n : Nat} (hn : 1024 ≤ n + 1) (hlast : n + 1 < 2000) {db : Db} {r : JobRow}
    (hdb : Limited db) (hrows : db.jobs.rows = [r]) (h : FailedOften n r) :
    ¬ EveryStep execChange RetrySucceeds db
      [.call ⟨n * 7200000000, .claim_batch ["k"] 1 "w" .alone⟩,
        .call ⟨n * 7200000000, .requeue 1 "timeout"⟩] := by
  rintro ⟨_, hretry, _⟩
  have hatt := h.attempts
  have hlimit := h.limit
  have hclaim := claim_one hrows (failedOften_claimable h) (by unfold INT4_MAX; omega)
  have hmem : setRunning (n * 7200000000) "w" r ∈ (execChange db
      (.call ⟨n * 7200000000, .claim_batch ["k"] 1 "w" .alone⟩)).1.jobs.rows := by
    unfold execChange
    rw [hclaim]
    exact List.mem_singleton_self _
  have hfind := Table.find_of_mem hmem
  rw [setRunning_id, h.id] at hfind
  have hfits := (retrySucceeds_iff (limited_execChange hdb _) _).mp hretry _ _ _ _ rfl hfind
  simp only [setRunning] at hfits
  omega

theorem failures_break {n : Nat} (hn : n + 1 = 1024) :
    ¬ EveryStep execChange RetrySucceeds Db.empty (failures (n + 1)) := by
  intro hall
  rw [failures, everyStep_append] at hall
  obtain ⟨r, hrows, h⟩ := failures_run (n := n) (by omega)
  exact failedOften_last (by omega) (by omega) (limited_after _) hrows h hall.2

/-- At its failure number 1024 the job has attempts left, and its requeue fails. -/
theorem the_power_overflows_at_1024_attempts :
    ¬ EveryStep execChange RetrySucceeds Db.empty (failures 1024) :=
  failures_break (n := 1023) rfl

end skip_locked
