-- The law of the batch claim: it takes the oldest of the rows that it may take.
-- What it leaves is no older, so the batches of one worker after another come
-- in the order of `run_at`.
import SkipLocked.Queue
import SkipLocked.Selection

open jsonb postgres keyed_table event_runs selection

namespace skip_locked

open claim

namespace claim

/-! ## The window of a claim -/

/-- The rows that a claim may take: claimable, and not locked by another transaction. -/
def eligible (jobs : Table JobRow.id) (now : Int) (kinds : List Text) (locked : List Int) :
    List JobRow :=
  jobs.rows.filter (fun r => claimable now kinds r && !locked.contains r.id)

theorem mem_eligible {jobs : Table JobRow.id} {now : Int} {kinds : List Text}
    {locked : List Int} {r : JobRow} :
    r ∈ eligible jobs now kinds locked ↔
      r ∈ jobs.rows ∧ claimable now kinds r = true ∧ r.id ∉ locked := by
  simp [eligible]

theorem byRunAt_sorted (rows : List JobRow) :
    (byRunAt rows).Pairwise (fun a b => a.run_at ≤ b.run_at) := by
  have : Std.Total (fun a b : JobRow => a.run_at ≤ b.run_at) := ⟨fun a b => by omega⟩
  have : IsTrans JobRow (fun a b => a.run_at ≤ b.run_at) := ⟨fun a b c hab hbc => by omega⟩
  exact List.pairwise_insertionSort _ rows

/-- The claim locks the oldest of the eligible rows. -/
theorem lockWindow_lowest (jobs : Table JobRow.id) (now : Int) (kinds : List Text)
    (limit : Nat) (plan : Plan) :
    Lowest JobRow.run_at limit (eligible jobs now kinds plan.locked)
      (lockWindow jobs now kinds limit plan) := by
  have hsorted := (byRunAt_sorted (plan.scan.order (jobs.rows.filter (claimable now kinds)))).filter
    (fun r => !plan.locked.contains r.id)
  have hperm := ((byRunAt_perm _).trans
    (plan.scan.perm (jobs.rows.filter (claimable now kinds)))).filter
    (fun r => !plan.locked.contains r.id)
  have hall : (jobs.rows.filter (claimable now kinds)).filter
      (fun r => !plan.locked.contains r.id) = eligible jobs now kinds plan.locked := by
    rw [List.filter_filter]
    apply List.filter_congr
    intro r _
    rw [Bool.and_comm]
  rw [hall] at hperm
  exact (lowest_take hsorted limit).perm hperm (List.Perm.refl _)

/-! ## The rows that a claim returns -/

/-- A claim returns the ids of the rows that it takes. -/
theorem id_mem_jobs {jobs : Table JobRow.id} {rows : List JobRow} {now : Int} {worker_id : Text}
    {returned : List Job} (hsub : ∀ r ∈ rows, r ∈ jobs.rows)
    (hperm : returned.Perm (rows.map (fun r => jobOf (setRunning now worker_id r)))) {r : JobRow}
    (hr : r ∈ jobs.rows) : r.id ∈ returned.map (·.id) ↔ r ∈ rows := by
  rw [(hperm.map _).mem_iff, List.map_map, List.mem_map]
  constructor
  · rintro ⟨s, hs, hid⟩
    obtain rfl : s = r := Table.eq_of_key (hsub s hs) hr hid
    exact hs
  · intro hin
    exact ⟨r, hin, rfl⟩

/-- A row that the claim does not return stays in the table. -/
theorem Took.spares {db db' : Db} {now : Int} {kinds : List Text} {worker_id : Text}
    {plan : Plan} {jobs : List Job} (h : Took db now kinds worker_id plan db' jobs) {r : JobRow}
    (hr : r ∈ db.jobs.rows) (hno : r.id ∉ jobs.map (·.id)) : r ∈ db'.jobs.rows := by
  apply Table.mem_of_find (k := r.id)
  rw [h.row, Table.find_of_mem hr, Option.map_some, if_neg hno]

/-- A row that is ready after a claim was so before, and the claim did not return it. -/
theorem Took.ready_before {db db' : Db} {now : Int} {kinds : List Text} {worker_id : Text}
    {plan : Plan} {jobs : List Job} (h : Took db now kinds worker_id plan db' jobs) {r : JobRow}
    (hr : r ∈ db'.jobs.rows) (hready : r.state = .ready) :
    r ∈ db.jobs.rows ∧ r.id ∉ jobs.map (·.id) := by
  have hfind := h.row r.id
  rw [Table.find_of_mem hr] at hfind
  cases hf : db.jobs.find r.id with
  | none =>
    rw [hf] at hfind
    cases hfind
  | some s =>
    rw [hf, Option.map_some, Option.some.injEq] at hfind
    by_cases hj : r.id ∈ jobs.map (·.id)
    · rw [if_pos hj] at hfind
      rw [hfind] at hready
      cases hready
    · rw [if_neg hj] at hfind
      subst hfind
      exact ⟨Table.mem_of_find hf, hj⟩

theorem Took.eligible_before {db db' : Db} {now : Int} {kinds : List Text}
    {worker_id : Text} {plan : Plan} {jobs : List Job}
    (h : Took db now kinds worker_id plan db' jobs) {locked : List Int} {r : JobRow}
    (hr : r ∈ eligible db'.jobs now kinds locked) :
    r ∈ eligible db.jobs now kinds locked ∧ r.id ∉ jobs.map (·.id) := by
  obtain ⟨hmem, hc, hl⟩ := mem_eligible.mp hr
  obtain ⟨hbefore, hout⟩ := h.ready_before hmem (claimable_iff.mp hc).1
  exact ⟨mem_eligible.mpr ⟨hbefore, hc, hl⟩, hout⟩

/-! ## One batch -/

/-- What one batch claim does: it returns the `n` oldest of the eligible rows, and it changes
these rows, in four columns, and nothing else. -/
structure TakesOldest (db : Db) (now : Int) (kinds : List Text) (n : Int)
    (worker_id : Text) (plan : Plan) (db' : Db) (jobs : List Job) : Prop where
  size : jobs.length = min n.toNat (eligible db.jobs now kinds plan.locked).length
  distinct : (jobs.map (·.id)).Nodup
  taken : ∀ job ∈ jobs, ∃ r ∈ eligible db.jobs now kinds plan.locked,
    job = { id := r.id, kind := r.kind, payload := r.payload, attempts := r.attempts + 1 }
  oldest : ∀ r ∈ eligible db.jobs now kinds plan.locked, r.id ∈ jobs.map (·.id) →
    ∀ s ∈ eligible db.jobs now kinds plan.locked, s.id ∉ jobs.map (·.id) → r.run_at ≤ s.run_at
  changed : ∀ k, db'.jobs.find k = (db.jobs.find k).map (fun r =>
    if k ∈ jobs.map (·.id) then
      { r with state := .running, locked_at := some now, locked_by := some worker_id,
               attempts := r.attempts + 1 }
    else r)
  rest : db' = { db with jobs := db'.jobs }
  locked : ∀ r ∈ db.jobs.rows, r.id ∈ plan.locked → r ∈ db'.jobs.rows ∧
    (claimable now kinds r = true → r ∈ eligible db'.jobs now kinds [])

theorem claim_batch_oldest {db db' : Db} {now : Int} {kinds : List Text} {n : Int}
    {worker_id : Text} {plan : Plan} {jobs : List Job}
    (h : claim_batch db now kinds n worker_id plan = .ok (db', jobs)) :
    TakesOldest db now kinds n worker_id plan db' jobs := by
  have htook := claim_batch_took h
  obtain ⟨_, _, hperm⟩ := claim_batch_jobs h
  have hlow := lockWindow_lowest db.jobs now kinds n.toNat plan
  have hsub : ∀ r ∈ lockWindow db.jobs now kinds n.toNat plan, r ∈ db.jobs.rows :=
    fun r hr => (mem_lockWindow hr).1
  refine ⟨?_, htook.nodup, ?_, ?_, htook.row, htook.same, ?_⟩
  · rw [hperm.length_eq, List.length_map]
    exact hlow.size
  · intro job hjob
    obtain ⟨r, hr, rfl⟩ := List.mem_map.mp (hperm.mem_iff.mp hjob)
    exact ⟨r, hlow.mem hr, rfl⟩
  · intro r hr hin s hs hout
    rw [id_mem_jobs hsub hperm (mem_eligible.mp hr).1] at hin
    rw [id_mem_jobs hsub hperm (mem_eligible.mp hs).1] at hout
    exact hlow.le hin hs hout
  · intro r hr hl
    have hout : r.id ∉ jobs.map (·.id) := by
      rw [id_mem_jobs hsub hperm hr]
      intro hin
      exact (mem_lockWindow hin).2.2 hl
    have hstays := htook.spares hr hout
    exact ⟨hstays, fun hc => mem_eligible.mpr ⟨hstays, hc, List.not_mem_nil⟩⟩

end claim

/-! ## Batch after batch -/

/-- A batch claim of the given kinds at the given time, which meets the given locks. -/
def ClaimsBatch (now : Int) (kinds : List Text) (locked : List Int) (c : Call) : Prop :=
  ∃ n worker_id plan, 0 ≤ n ∧ c = ⟨now, .claim_batch kinds n worker_id plan⟩ ∧
    ∀ k, k ∈ plan.locked ↔ k ∈ locked

/-- Each row that may be claimed has an attempt left in an `int4`. -/
def AttemptsFit (db : Db) : Prop := ∀ r ∈ db.jobs.rows, r.state = .ready → r.attempts < INT4_MAX

/-- The jobs of the first answer are no younger than those of the second, by the rows `rows`. -/
def InOrder (rows : List JobRow) (a b : Answer) : Prop :=
  ∀ jobs jobs', a = .ok (.jobs jobs) → b = .ok (.jobs jobs') → ∀ job ∈ jobs, ∀ job' ∈ jobs',
    ∃ r ∈ rows, ∃ r' ∈ rows, r.id = job.id ∧ r'.id = job'.id ∧ r.run_at ≤ r'.run_at

/-- The answer is a batch of jobs of the rows `rows`. -/
def BatchOf (rows : List JobRow) (a : Answer) : Prop :=
  ∃ jobs, a = .ok (.jobs jobs) ∧ ∀ job ∈ jobs, ∃ r ∈ rows, r.id = job.id

theorem eligible_congr {jobs : Table JobRow.id} {now : Int} {kinds : List Text}
    {locked locked' : List Int} (h : ∀ k, k ∈ locked ↔ k ∈ locked') :
    eligible jobs now kinds locked = eligible jobs now kinds locked' := by
  unfold eligible
  apply List.filter_congr
  intro r _
  congr 2
  rw [Bool.eq_iff_iff, List.contains_iff_mem, List.contains_iff_mem, h]

/-- A batch claim leaves the ready rows within the `int4`: it takes a row only to run it. -/
theorem attemptsFit_took {db db' : Db} {now : Int} {kinds : List Text} {worker_id : Text}
    {plan : Plan} {jobs : List Job} (h : Took db now kinds worker_id plan db' jobs)
    (hfit : AttemptsFit db) : AttemptsFit db' := by
  intro r hr hready
  exact hfit r (h.ready_before hr hready).1 hready

/-- One batch of a run of batches: it goes through, its jobs are eligible rows, and the rows
that stay eligible are no older. -/
theorem batch_step {db : Db} {now : Int} {kinds : List Text} {locked : List Int} {c : Call}
    (hfit : AttemptsFit db) (hc : ClaimsBatch now kinds locked c) :
    AttemptsFit (exec db c).1 ∧ BatchOf (eligible db.jobs now kinds locked) (exec db c).2 ∧
      (∀ r ∈ eligible (exec db c).1.jobs now kinds locked, r ∈ eligible db.jobs now kinds locked) ∧
      ∀ b, BatchOf (eligible (exec db c).1.jobs now kinds locked) b →
        InOrder (eligible db.jobs now kinds locked) (exec db c).2 b := by
  obtain ⟨n, worker_id, plan, hn, rfl, hlocked⟩ := hc
  obtain ⟨db', jobs, hok⟩ := @claim_batch_runs db now kinds n worker_id plan hn (fun r hr =>
    hfit r (mem_lockWindow hr).1 (claimable_iff.mp (mem_lockWindow hr).2.1).1)
  have hexec : exec db ⟨now, .claim_batch kinds n worker_id plan⟩ = (db', .ok (.jobs jobs)) := by
    unfold exec
    dsimp only
    rw [hok]
    rfl
  have htook := claim_batch_took hok
  have hold := claim_batch_oldest hok
  rw [hexec, ← eligible_congr hlocked, ← eligible_congr hlocked]
  refine ⟨attemptsFit_took htook hfit, ⟨jobs, rfl, ?_⟩,
    fun r hr => (htook.eligible_before hr).1, ?_⟩
  · intro job hjob
    obtain ⟨r, hr, rfl⟩ := hold.taken job hjob
    exact ⟨r, hr, rfl⟩
  · rintro b ⟨jobs', rfl, hlater⟩ js js' hjs hjs' job hjob job' hjob'
    cases hjs
    cases hjs'
    obtain ⟨r, hr, rfl⟩ := hold.taken job hjob
    obtain ⟨r', hr', hid⟩ := hlater job' hjob'
    obtain ⟨hbefore, hout⟩ := htook.eligible_before hr'
    exact ⟨r, hr, r', hbefore, rfl, hid,
      hold.oldest r hr (List.mem_map_of_mem hjob) r' hbefore hout⟩

theorem BatchOf.mono {rows rows' : List JobRow} {a : Answer} (h : BatchOf rows a)
    (hsub : ∀ r ∈ rows, r ∈ rows') : BatchOf rows' a := by
  obtain ⟨jobs, ha, hjobs⟩ := h
  refine ⟨jobs, ha, fun job hjob => ?_⟩
  obtain ⟨r, hr, hid⟩ := hjobs job hjob
  exact ⟨r, hsub r hr, hid⟩

theorem InOrder.mono {rows rows' : List JobRow} {a b : Answer} (h : InOrder rows a b)
    (hsub : ∀ r ∈ rows, r ∈ rows') : InOrder rows' a b := by
  intro jobs jobs' ha hb job hjob job' hjob'
  obtain ⟨r, hr, r', hr', hid, hid', hle⟩ := h jobs jobs' ha hb job hjob job' hjob'
  exact ⟨r, hsub r hr, r', hsub r' hr', hid, hid', hle⟩

theorem batches_in_order {db : Db} {now : Int} {kinds : List Text} {locked : List Int}
    {calls : List Call} (hfit : AttemptsFit db)
    (hcalls : ∀ c ∈ calls, ClaimsBatch now kinds locked c) :
    (∀ e ∈ trace exec db calls, BatchOf (eligible db.jobs now kinds locked) e.2) ∧
      (trace exec db calls).Pairwise
        (fun e e' => InOrder (eligible db.jobs now kinds locked) e.2 e'.2) := by
  induction calls generalizing db with
  | nil => exact ⟨by simp, List.Pairwise.nil⟩
  | cons c rest ih =>
    obtain ⟨hfit', hbatch, hsub, horder⟩ := batch_step hfit (hcalls c List.mem_cons_self)
    obtain ⟨hlater, hrest⟩ := ih hfit' (fun d hd => hcalls d (List.mem_cons_of_mem c hd))
    rw [trace_cons]
    refine ⟨?_, List.pairwise_cons.mpr ⟨?_, ?_⟩⟩
    · intro e he
      rcases List.mem_cons.mp he with rfl | he
      · exact hbatch
      · exact (hlater e he).mono hsub
    · intro e he
      exact horder e.2 (hlater e he)
    · exact hrest.imp (fun h => h.mono hsub)

/-- A batch claim takes exactly the oldest eligible rows. At one time, with one list of kinds
and the same locks of others, batch after batch comes in the order of `run_at`. -/
theorem a_batch_claim_takes_the_oldest (db : Db)
    (hfit : ∀ r ∈ db.jobs.rows, r.attempts < INT4_MAX) :
    (∀ (now : Int) (kinds : List Text) (n : Int) (worker_id : Text) (plan : Plan), 0 ≤ n →
      ∃ db' jobs, claim_batch db now kinds n worker_id plan = .ok (db', jobs) ∧
        TakesOldest db now kinds n worker_id plan db' jobs) ∧
    (∀ (now : Int) (kinds : List Text) (locked : List Int) (calls : List Call),
      (∀ c ∈ calls, ClaimsBatch now kinds locked c) →
        (∀ e ∈ trace exec db calls, BatchOf (eligible db.jobs now kinds locked) e.2) ∧
        (trace exec db calls).Pairwise
          (fun e e' => InOrder (eligible db.jobs now kinds locked) e.2 e'.2)) := by
  constructor
  · intro now kinds n worker_id plan hn
    obtain ⟨db', jobs, hok⟩ := @claim_batch_runs db now kinds n worker_id plan hn (fun r hr =>
      hfit r (mem_lockWindow hr).1)
    exact ⟨db', jobs, hok, claim_batch_oldest hok⟩
  · intro now kinds locked calls hcalls
    exact batches_in_order (fun r hr _ => hfit r hr) hcalls

/-- Two jobs that are due, the younger with the smaller id. -/
def youngerFirst : Db :=
  { Db.empty with
    jobs := ⟨[newRow 1 "k" .null 7, newRow 2 "k" .null 5], by decide⟩,
    next_id := 3 }

/-- Two batches of one job: the job of the first batch is not younger than that of the second. -/
theorem two_batches_take_the_older_first :
    (∀ e ∈ trace exec youngerFirst [⟨9, .claim_batch ["k"] 1 "w" .alone⟩,
        ⟨9, .claim_batch ["k"] 1 "w" .alone⟩],
      BatchOf (eligible youngerFirst.jobs 9 ["k"] []) e.2) ∧
    (trace exec youngerFirst [⟨9, .claim_batch ["k"] 1 "w" .alone⟩,
        ⟨9, .claim_batch ["k"] 1 "w" .alone⟩]).Pairwise
      (fun e e' => InOrder (eligible youngerFirst.jobs 9 ["k"] []) e.2 e'.2) := by
  apply (a_batch_claim_takes_the_oldest youngerFirst (by decide)).2 9 ["k"] []
  intro c hc
  obtain rfl : c = ⟨9, .claim_batch ["k"] 1 "w" .alone⟩ := by simpa using hc
  exact ⟨1, "w", .alone, by decide, rfl, fun k => Iff.rfl⟩

end skip_locked
