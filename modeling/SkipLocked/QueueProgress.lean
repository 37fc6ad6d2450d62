-- The law of the progress: from every state of a live loop, its own steps bring
-- each job that it has claimed or could claim to a handler. It needs no
-- notification and no other client, and the steps that are left are counted.
import SkipLocked.Batches
import SkipLocked.Pacing

open jsonb postgres keyed_table event_runs

namespace skip_locked.worker

open claim

/-! ## The steps of the worker itself -/

/-- The token has not fired, and the loop has not ended and sees no error. -/
def Live (s : Worker) : Prop :=
  s.cancelled = false ∧
    match s.phase with
    | .connecting => True
    | .claiming .failed => False
    | .claiming _ => True
    | .idle _ => True
    | .dispatch _ _ _ _ _ => True
    | _ => False

/-- A step of the loop, the end of a handler, the poll interval, and Postgres, which runs the
statement of the loop while nobody else holds a lock. -/
def Goes (cfg : WorkerConfig) (s : Worker) : Event → Prop
  | .connected => True
  | .send => True
  | .execute plan => s.phase = .claiming .sent ∧ plan = .alone
  | .reply => True
  | .timeout => True
  | .tick usecs => usecs = (micros cfg.poll_interval).toNat
  | .acquire => True
  | .spawn => True
  | .finish _ => True
  | _ => False

/-- The row is ready and of the kinds of the worker, now or later. -/
def wanted (cfg : WorkerConfig) (r : JobRow) : Bool :=
  decide (r.state = .ready) && cfg.kinds.contains r.kind

/-- A claim of the worker would find a job now. -/
def finds (cfg : WorkerConfig) (s : Worker) : Bool :=
  s.db.jobs.rows.any (claimable s.clock cfg.kinds)

/-- The steps from an idle state to the next claim that finds a job. -/
def stepsIdle (cfg : WorkerConfig) (s : Worker) (since : Int) : Nat :=
  if finds cfg s = true then
    (if elapsed cfg.poll_interval since s.clock = true then 4 else 5)
  else 0

/-- The steps of the loop until it is idle, but those for the jobs that it has not claimed. -/
def stepsIn (cfg : WorkerConfig) (s : Worker) : Nat :=
  match s.phase with
  | .connecting => 4
  | .claiming .unsent => 3
  | .claiming .sent => 2
  | .claiming (.committed _ []) => 1 + if finds cfg s = true then 5 else 0
  | .claiming (.committed _ (_ :: rest)) => 7 + 3 * rest.length
  | .idle since => stepsIdle cfg s since
  | .dispatch _ _ _ rest permit => (if permit = true then 5 else 6) + 3 * rest.length
  | _ => 0

/-- The steps that are left: six for each job of the table, and one for each handler. -/
def stepsLeft (cfg : WorkerConfig) (s : Worker) : Nat :=
  6 * s.db.jobs.count (wanted cfg) + stepsIn cfg s + s.tasks.length

/-- What each own step keeps. -/
structure Going (cfg : WorkerConfig) (s : Worker) : Prop where
  live : Live s
  fits : AttemptsFit s.db
  permits : s.available + s.tasks.length + inHand s.phase = cfg.fanout_concurrency
  waits : waitsFrom s ≤ s.clock

/-- The worker waits, its handlers have ended, and no job is left for it. -/
def AtRest (cfg : WorkerConfig) (s : Worker) : Prop :=
  (∃ since, s.phase = .idle since) ∧ s.tasks = [] ∧ finds cfg s = false

/-! ## What an own step keeps -/

/-- No event makes a permit or loses one. -/
theorem permits_next {cfg : WorkerConfig} {s s' : Worker} {e : Event} {d : Option Deal}
    (h : Does cfg s e s' d) : s'.available + s'.tasks.length + inHand s'.phase =
      s.available + s.tasks.length + inHand s.phase := by
  cases h with
  | quiet cancelled phase orphan heard _ hp =>
    rcases hp with rfl | ⟨hs, hp⟩
    · rfl
    · dsimp only
      rw [inHand_of_pending hs, inHand_of_pending hp]
  | dropped phase _ hway hp =>
    have hhand : inHand s.phase = 0 := by
      unfold onTheWay at hway
      split at hway
      · rename_i hs
        rw [hs]
        rfl
      · exact absurd rfl hway
    dsimp only
    rw [hhand, inHand_of_pending hp]
  | ticked usecs => rfl
  | called op => rfl
  | took hs _ =>
    rw [hs]
    rfl
  | orphaned _ _ _ => rfl
  | received hs =>
    rw [hs]
    rfl
  | acquired hs ha =>
    rw [hs]
    simp only [inHand]
    omega
  | spawned_last hs =>
    rw [hs]
    simp only [inHand, List.length_cons]
    omega
  | spawned_next hs =>
    rw [hs]
    simp only [inHand, List.length_cons]
    omega
  | finished hi =>
    dsimp only
    rw [List.length_eraseIdx_of_lt hi]
    omega

theorem permits_start (cfg : WorkerConfig) (db : Db) (clock : Int) :
    (start cfg db clock).available + (start cfg db clock).tasks.length +
      inHand (start cfg db clock).phase = cfg.fanout_concurrency := by
  rw [inHand_of_pending (pending_start cfg db clock)]
  rfl

theorem fits_next {cfg : WorkerConfig} {s s' : Worker} {e : Event} {d : Option Deal}
    (h : Does cfg s e s' d) (hgoes : Goes cfg s e) (hfit : AttemptsFit s.db) :
    AttemptsFit s'.db := by
  cases h with
  | called op => exact absurd hgoes id
  | took _ hok => exact attemptsFit_took (claim_batch_took hok) hfit
  | orphaned _ _ hok => exact attemptsFit_took (claim_batch_took hok) hfit
  | _ => exact hfit

theorem going_step {cfg : WorkerConfig} {s : Worker} {e : Event} (h : Going cfg s)
    (hgoes : Goes cfg s e) (hlive : Live (step cfg s e).1) : Going cfg (step cfg s e).1 where
  live := hlive
  fits := fits_next (step_does cfg s e) hgoes h.fits
  permits := (permits_next (step_does cfg s e)).trans h.permits
  waits := waits_step (step_paces cfg s e) h.waits

/-- An own step that lowers the steps left. -/
def Advances (cfg : WorkerConfig) (s : Worker) : Prop :=
  ∃ e, Goes cfg s e ∧ Going cfg (step cfg s e).1 ∧ stepsLeft cfg (step cfg s e).1 < stepsLeft cfg s

theorem advances_to {cfg : WorkerConfig} {s t : Worker} (e : Event) (h : Going cfg s)
    (hgoes : Goes cfg s e) (hstep : (step cfg s e).1 = t) (hlive : Live t)
    (hless : stepsLeft cfg t < stepsLeft cfg s) : Advances cfg s := by
  subst hstep
  exact ⟨e, hgoes, going_step h hgoes hlive, hless⟩

/-- The loop moves on by itself, and has fewer steps left. -/
theorem advances_move {cfg : WorkerConfig} {s : Worker} (e : Event) {phase : Phase} {heard : Nat}
    (h : Going cfg s) (hgoes : Goes cfg s e) (hstep : (step cfg s e).1 = { s with phase, heard })
    (hlive : Live { s with phase, heard })
    (hless : stepsIn cfg { s with phase, heard } < stepsIn cfg s) : Advances cfg s := by
  refine advances_to e h hgoes hstep hlive ?_
  unfold stepsLeft
  dsimp only
  omega

/-! ## One step for each state -/

theorem finds_iff {cfg : WorkerConfig} {s : Worker} : finds cfg s = true ↔
    ∃ r ∈ s.db.jobs.rows, claimable s.clock cfg.kinds r = true := List.any_eq_true

theorem finds_later {cfg : WorkerConfig} {s : Worker} (usecs : Nat) (h : finds cfg s = true) :
    finds cfg { s with clock := s.clock + usecs } = true := by
  obtain ⟨r, hr, hc⟩ := finds_iff.mp h
  obtain ⟨hready, hdue, hkind⟩ := claimable_iff.mp hc
  refine finds_iff.mpr ⟨r, hr, claimable_iff.mpr ⟨hready, ?_, hkind⟩⟩
  dsimp only
  omega

theorem wanted_iff {cfg : WorkerConfig} {r : JobRow} :
    wanted cfg r = true ↔ r.state = .ready ∧ r.kind ∈ cfg.kinds := by
  simp [wanted]

/-- When the ready rows are old ones, less the rows `ids`, so many fewer are wanted. -/
theorem count_wanted_le {cfg : WorkerConfig} {old new : Table JobRow.id} {ids : List Int}
    (hrows : ∀ r ∈ new.rows, r.state = .ready → r ∈ old.rows ∧ r.id ∉ ids) (hnodup : ids.Nodup)
    (hids : ∀ k ∈ ids, ∃ r ∈ old.rows, r.id = k ∧ wanted cfg r = true) :
    new.count (wanted cfg) + ids.length ≤ old.count (wanted cfg) := by
  have hdisjoint : ((new.matching (wanted cfg)).map JobRow.id ++ ids).Nodup := by
    refine List.nodup_append.mpr ⟨Table.matching_nodup _ _, hnodup, ?_⟩
    rintro k hk l hl rfl
    obtain ⟨r, hr, rfl⟩ := List.mem_map.mp hk
    obtain ⟨hmem, hw⟩ := Table.mem_matching.mp hr
    exact (hrows r hmem (wanted_iff.mp hw).1).2 hl
  have hsub : (new.matching (wanted cfg)).map JobRow.id ++ ids ⊆
      (old.matching (wanted cfg)).map JobRow.id := by
    intro k hk
    rcases List.mem_append.mp hk with hk | hk
    · obtain ⟨r, hr, rfl⟩ := List.mem_map.mp hk
      obtain ⟨hmem, hw⟩ := Table.mem_matching.mp hr
      have hbefore := (hrows r hmem (wanted_iff.mp hw).1).1
      exact List.mem_map_of_mem (Table.mem_matching.mpr ⟨hbefore, hw⟩)
    · obtain ⟨r, hr, rfl, hw⟩ := hids k hk
      exact List.mem_map_of_mem (Table.mem_matching.mpr ⟨hr, hw⟩)
  have hlen := (List.subperm_of_subset hdisjoint hsub).length_le
  simpa [Table.count] using hlen

/-- A claim that nobody disturbs takes a row when there is one, and no row then counts twice. -/
theorem claims_alone {cfg : WorkerConfig} {s : Worker} (hbatch : 1 ≤ cfg.batch)
    (hfit : AttemptsFit s.db) :
    ∃ db jobs, claim_batch s.db s.clock cfg.kinds cfg.batch cfg.worker_id .alone = .ok (db, jobs) ∧
      db.jobs.count (wanted cfg) + jobs.length ≤ s.db.jobs.count (wanted cfg) ∧
      (jobs = [] → db.jobs.rows.any (claimable s.clock cfg.kinds) = false) := by
  obtain ⟨db, jobs, hok⟩ := @claim_batch_runs s.db s.clock cfg.kinds cfg.batch cfg.worker_id .alone
    (by omega) (fun r hr => by
      obtain ⟨hmem, hc, _⟩ := mem_lockWindow hr
      exact hfit r hmem (claimable_iff.mp hc).1)
  have htook := claim_batch_took hok
  refine ⟨db, jobs, hok, ?_, ?_⟩
  · rw [← List.length_map (·.id)]
    refine count_wanted_le (fun r hr hready => htook.ready_before hr hready) htook.nodup ?_
    intro k hk
    obtain ⟨job, hjob, rfl⟩ := List.mem_map.mp hk
    obtain ⟨r, hf, hc, _⟩ := htook.taken job hjob
    obtain ⟨hready, _, hkind⟩ := claimable_iff.mp hc
    exact ⟨r, Table.mem_of_find hf, Table.key_of_find hf, wanted_iff.mpr ⟨hready, hkind⟩⟩
  · rintro rfl
    rw [List.any_eq_false]
    intro r hr hc
    have hbefore := (htook.ready_before hr (claimable_iff.mp hc).1).1
    exact absurd (leavesNone_of_empty hbatch hok r hbefore hc) List.not_mem_nil

theorem advances_sent {cfg : WorkerConfig} {s : Worker} (hbatch : 1 ≤ cfg.batch) (h : Going cfg s)
    (hp : s.phase = .claiming .sent) : Advances cfg s := by
  obtain ⟨db, jobs, hok, hcount, hnone⟩ := claims_alone hbatch h.fits
  have hstep : (step cfg s (.execute .alone)).1 =
      { s with db, phase := .claiming (.committed s.clock jobs) } := by
    show (executeIn cfg s .alone).1 = _
    unfold executeIn
    rw [hp]
    dsimp only
    rw [exec_claimCall hok]
  refine advances_to (.execute .alone) h ⟨hp, rfl⟩ hstep ⟨h.live.1, trivial⟩ ?_
  unfold stepsLeft stepsIn
  rw [hp]
  cases jobs with
  | nil =>
    have hfinds : finds cfg { s with db, phase := .claiming (.committed s.clock []) } = false :=
      hnone rfl
    dsimp only
    rw [hfinds]
    simp only [List.length_nil] at hcount
    simp
    omega
  | cons job rest =>
    simp only [List.length_cons] at hcount
    dsimp only
    omega

theorem stepsIn_idle {cfg : WorkerConfig} {s : Worker} {since : Int} (hp : s.phase = .idle since) :
    stepsIn cfg s = stepsIdle cfg s since := by
  unfold stepsIn
  rw [hp]

theorem advances_idle {cfg : WorkerConfig} {s : Worker} {since : Int} (h : Going cfg s)
    (hp : s.phase = .idle since) (hfinds : finds cfg s = true) : Advances cfg s := by
  have hcancel := h.live.1
  by_cases helapsed : elapsed cfg.poll_interval since s.clock = true
  · have hstep : (step cfg s .timeout).1 =
        { s with phase := .claiming .unsent, heard := s.heard } := by
      show timeoutIn cfg s = _
      simp only [timeoutIn, wake, hp, hcancel, helapsed]
      rfl
    refine advances_move .timeout h trivial hstep ⟨hcancel, trivial⟩ ?_
    rw [stepsIn_idle hp]
    simp [stepsIn, stepsIdle, hfinds, helapsed]
  · have hwaits := h.waits
    rw [waitsFrom_of_idle hp] at hwaits
    have hmicros : ((micros cfg.poll_interval).toNat : Int) = micros cfg.poll_interval :=
      Int.toNat_of_nonneg (micros_nonneg _)
    generalize hm : (micros cfg.poll_interval).toNat = m at hmicros
    have hover : elapsed cfg.poll_interval since (s.clock + m) = true :=
      elapsed_iff.mpr (by omega)
    have hstill := finds_later m hfinds
    have hless : stepsIn cfg { s with clock := s.clock + m } < stepsIn cfg s := by
      have hlate : stepsIn cfg { s with clock := s.clock + m } =
          stepsIdle cfg { s with clock := s.clock + m } since := stepsIn_idle hp
      rw [hlate, stepsIn_idle hp]
      simp [stepsIdle, hfinds, helapsed, hover, hstill]
    refine advances_to (t := { s with clock := s.clock + m }) (.tick m) h hm.symm rfl
      ⟨hcancel, h.live.2⟩ ?_
    unfold stepsLeft
    dsimp only
    omega

/-- A handler ends. -/
theorem advances_finish {cfg : WorkerConfig} {s : Worker} (h : Going cfg s)
    (htasks : s.tasks ≠ []) :
    Advances cfg s := by
  have hpos := List.length_pos_iff.mpr htasks
  have hstep : (step cfg s (.finish 0)).1 =
      { s with tasks := s.tasks.eraseIdx 0, available := s.available + 1 } := if_pos hpos
  refine advances_to (.finish 0) h trivial hstep h.live ?_
  have hsame : stepsIn cfg { s with tasks := s.tasks.eraseIdx 0, available := s.available + 1 } =
      stepsIn cfg s := rfl
  unfold stepsLeft
  rw [hsame]
  dsimp only
  rw [List.length_eraseIdx_of_lt hpos]
  omega

theorem advances_dispatch {cfg : WorkerConfig} {s : Worker} {claimed : Int} {spawned : Nat}
    {job : Job} {rest : List Job} {permit : Bool} (hfan : 1 ≤ cfg.fanout_concurrency)
    (h : Going cfg s) (hp : s.phase = .dispatch claimed spawned job rest permit) :
    Advances cfg s := by
  have hcancel := h.live.1
  have hpermits := h.permits
  rw [hp] at hpermits
  cases permit with
  | false =>
    by_cases hfree : 0 < s.available
    · have hstep : (step cfg s .acquire).1 = { s with
          available := s.available - 1, phase := .dispatch claimed spawned job rest true } := by
        show acquireIn s = _
        simp only [acquireIn, hp, if_pos hfree]
      refine advances_to .acquire h trivial hstep ⟨hcancel, trivial⟩ ?_
      simp [stepsLeft, stepsIn, hp]
    · -- every permit is with a handler, and one of them ends
      refine advances_finish h ?_
      intro hnone
      rw [hnone] at hpermits
      simp only [inHand, List.length_nil] at hpermits
      omega
  | true =>
    cases rest with
    | nil =>
      have hstep : (step cfg s .spawn).1 = { s with
          tasks := ⟨job, claimed, s.clock⟩ :: s.tasks, phase := .claiming .unsent } := by
        show (spawnIn s).1 = _
        simp only [spawnIn, hp]
      refine advances_to .spawn h trivial hstep ⟨hcancel, trivial⟩ ?_
      simp [stepsLeft, stepsIn, hp]
      omega
    | cons next more =>
      have hstep : (step cfg s .spawn).1 = { s with
          tasks := ⟨job, claimed, s.clock⟩ :: s.tasks,
          phase := .dispatch claimed (spawned + 1) next more false } := by
        show (spawnIn s).1 = _
        simp only [spawnIn, hp]
      refine advances_to .spawn h trivial hstep ⟨hcancel, trivial⟩ ?_
      simp [stepsLeft, stepsIn, hp]
      omega

theorem advances_reply {cfg : WorkerConfig} {s : Worker} {at_ : Int} {jobs : List Job}
    (h : Going cfg s) (hp : s.phase = .claiming (.committed at_ jobs)) : Advances cfg s := by
  have hcancel := h.live.1
  cases jobs with
  | nil =>
    have hstep : (step cfg s .reply).1 = { s with phase := .idle s.clock, heard := s.heard } := by
      show replyIn s = _
      simp only [replyIn, hp, hcancel]
      rfl
    refine advances_move .reply h trivial hstep ⟨hcancel, trivial⟩ ?_
    have hsame : finds cfg { s with phase := .idle s.clock, heard := s.heard } = finds cfg s := rfl
    rw [stepsIn_idle rfl]
    unfold stepsIdle stepsIn
    rw [hp, hsame]
    dsimp only
    split
    · split <;> omega
    · omega
  | cons job rest =>
    have hstep : (step cfg s .reply).1 =
        { s with phase := .dispatch at_ 0 job rest false, heard := s.heard } := by
      show replyIn s = _
      simp only [replyIn, hp, hcancel]
      rfl
    refine advances_move .reply h trivial hstep ⟨hcancel, trivial⟩ ?_
    simp [stepsIn, hp]

/-- A live loop that is not at rest has an own step that brings it nearer. -/
theorem advances {cfg : WorkerConfig} {s : Worker} (hbatch : 1 ≤ cfg.batch)
    (hfan : 1 ≤ cfg.fanout_concurrency) (h : Going cfg s) (hbusy : ¬ AtRest cfg s) :
    Advances cfg s := by
  obtain ⟨hcancel, hphase⟩ := h.live
  cases hp : s.phase with
  | connecting =>
    have hstep : (step cfg s .connected).1 =
        { s with phase := .claiming .unsent, heard := s.db.notified } := by
      simp only [step, hp]
    refine advances_move .connected h trivial hstep ⟨hcancel, trivial⟩ ?_
    simp [stepsIn, hp]
  | claiming wire =>
    cases wire with
    | unsent =>
      have hstep : (step cfg s .send).1 =
          { s with phase := .claiming .sent, heard := s.heard } := by
        simp only [step, hp, hcancel]
        rfl
      refine advances_move .send h trivial hstep ⟨hcancel, trivial⟩ ?_
      simp [stepsIn, hp]
    | sent => exact advances_sent hbatch h hp
    | committed at_ jobs => exact advances_reply h hp
    | failed =>
      rw [hp] at hphase
      exact absurd hphase id
  | idle since =>
    by_cases htasks : s.tasks = []
    · have hfinds : finds cfg s = true := by
        by_contra hno
        exact hbusy ⟨⟨since, hp⟩, htasks, Bool.eq_false_iff.mpr hno⟩
      exact advances_idle h hp hfinds
    · exact advances_finish h htasks
  | dispatch claimed spawned job rest permit => exact advances_dispatch hfan h hp
  | draining since =>
    rw [hp] at hphase
    exact absurd hphase id
  | returned ok =>
    rw [hp] at hphase
    exact absurd hphase id
  | panicked =>
    rw [hp] at hphase
    exact absurd hphase id

/-! ## The jobs of the way -/

/-- An own step loses no job. -/
theorem not_loses_of_goes {cfg : WorkerConfig} {s : Worker} {e : Event} (h : Goes cfg s e) :
    ¬ Loses cfg s e := by
  cases e with
  | execute plan => exact fun hl => hl.1 h.1
  | turn => exact absurd h id
  | lost => exact absurd h id
  | _ => exact id

/-- A row of the start is as it was, or a claim of the way took it. -/
structure Follows (s : Worker) (tr : List (Event × Option Deal)) (t : Worker) : Prop where
  later : s.clock ≤ t.clock
  rows : ∀ k r, s.db.jobs.find k = some r →
    t.db.jobs.find k = some r ∨ k ∈ (taken tr).map (·.id)

theorem taken_snoc (tr : List (Event × Option Deal)) (e : Event) (d : Option Deal) :
    taken (tr ++ [(e, d)]) = taken tr ++ tookOf d := by
  simp [taken]

theorem follows_step {cfg : WorkerConfig} {s t t' : Worker} {e : Event} {d : Option Deal}
    {tr : List (Event × Option Deal)} (hd : Does cfg t e t' d) (hgoes : Goes cfg t e)
    (h : Follows s tr t) : Follows s (tr ++ [(e, d)]) t' := by
  obtain ⟨hlater, hrows⟩ := h
  have hclaim : ∀ {plan : Plan} {db : Db} {jobs : List Job},
      claim_batch t.db t.clock cfg.kinds cfg.batch cfg.worker_id plan = .ok (db, jobs) →
      ∀ k r, s.db.jobs.find k = some r → db.jobs.find k = some r ∨
        k ∈ (taken tr ++ jobs).map (·.id) := by
    intro plan db jobs hok k r hf
    rw [List.map_append, List.mem_append]
    rcases hrows k r hf with hsame | hin
    · by_cases hk : k ∈ jobs.map (·.id)
      · exact Or.inr (Or.inr hk)
      · refine Or.inl ?_
        rw [(claim_batch_took hok).row, hsame, Option.map_some, if_neg hk]
    · exact Or.inr (Or.inl hin)
  have hstill : ∀ k r, s.db.jobs.find k = some r →
      t.db.jobs.find k = some r ∨ k ∈ (taken tr ++ ([] : List Job)).map (·.id) := by
    rw [List.append_nil]
    exact hrows
  cases hd with
  | called op => exact absurd hgoes id
  | ticked usecs =>
    refine ⟨?_, by rw [taken_snoc]; exact hstill⟩
    dsimp only
    omega
  | took _ hok => exact ⟨hlater, by rw [taken_snoc]; exact hclaim hok⟩
  | orphaned _ _ hok => exact ⟨hlater, by rw [taken_snoc]; exact hclaim hok⟩
  | _ => exact ⟨hlater, by rw [taken_snoc]; exact hstill⟩

theorem follows_run {cfg : WorkerConfig} {s : Worker} {events : List Event}
    (h : EveryStep (step cfg) (Goes cfg) s events) :
    Follows s (trace (step cfg) s events) (run (step cfg) s events) := by
  have hstart : Follows s [] s := ⟨Int.le_refl _, fun k r hf => Or.inl hf⟩
  exact run_induction_every hstart
    (fun _ t e hgoes hf => follows_step (step_does cfg t e) hgoes hf) h

theorem going_of_live {cfg : WorkerConfig} (calls : List Call) (clock : Int) (events : List Event)
    (hlive : Live (run (step cfg) (start cfg (after calls) clock) events))
    (hfits : AttemptsFit (run (step cfg) (start cfg (after calls) clock) events).db) :
    Going cfg (run (step cfg) (start cfg (after calls) clock) events) where
  live := hlive
  fits := hfits
  permits := run_invariant (P := fun t => t.available + t.tasks.length + inHand t.phase = _)
    (permits_start cfg (after calls) clock)
    (fun t e h => (permits_next (step_does cfg t e)).trans h) events
  waits := (run_induction (P := Paced cfg (after calls).notified clock)
    (paced_start cfg calls clock) (fun _ _ e h => paced_step cfg h e) events).waits

/-! ## The law -/

/-- From every reachable state of a live loop with a batch and a permit, own steps, no more of
them than are left, bring the worker to rest. On the way each job that it had claimed and
each job that was claimable goes to a handler. -/
theorem the_loop_can_hand_out_every_job (cfg : WorkerConfig) (calls : List Call) (clock : Int)
    (events : List Event) (hbatch : 1 ≤ cfg.batch) (hfan : 1 ≤ cfg.fanout_concurrency) :
    let s := run (step cfg) (start cfg (after calls) clock) events
    Live s → AttemptsFit s.db →
      ∃ own, EveryStep (step cfg) (Goes cfg) s own ∧ own.length ≤ stepsLeft cfg s ∧
        AtRest cfg (run (step cfg) s own) ∧
        (∀ job ∈ pending s.phase, job ∈ handed (trace (step cfg) s own)) ∧
        ∀ r ∈ s.db.jobs.rows, claimable s.clock cfg.kinds r = true →
          ∃ job ∈ handed (trace (step cfg) s own), job.id = r.id := by
  intro s hlive hfits
  have hgoing : Going cfg s := going_of_live calls clock events hlive hfits
  obtain ⟨own, hown, hlen, _, hrest⟩ :=
    finishes_every (fun t ht hbusy => advances hbatch hfan ht hbusy) hgoing
  have hkept : EveryStep (step cfg) (fun t e => ¬ Loses cfg t e) s own :=
    (everyStep_of_law (I := fun _ => True) (fun _ _ _ _ => trivial)
      (fun _ _ _ h => not_loses_of_goes h) trivial hown).1
  have hcarried := (carried_iff cfg s own).mpr hkept
  have hfollows := follows_run hown
  obtain ⟨⟨since, hidle⟩, htasks, hnone⟩ := hrest
  have hempty : pending (run (step cfg) s own).phase = [] := by
    rw [hidle]
    rfl
  rw [hempty, List.append_nil] at hcarried
  refine ⟨own, hown, hlen, ⟨⟨since, hidle⟩, htasks, hnone⟩, ?_, ?_⟩
  · intro job hjob
    rw [hcarried]
    exact List.mem_append_left _ hjob
  · intro r hr hc
    rcases hfollows.rows r.id r (Table.find_of_mem hr) with hsame | hin
    · -- nobody took the row, so the loop would still find it
      obtain ⟨hready, hdue, hkind⟩ := claimable_iff.mp hc
      have hstill : finds cfg (run (step cfg) s own) = true := by
        refine finds_iff.mpr ⟨r, Table.mem_of_find hsame, claimable_iff.mpr ⟨hready, ?_, hkind⟩⟩
        exact Int.le_trans hdue hfollows.later
      rw [hnone] at hstill
      cases hstill
    · obtain ⟨job, hjob, hid⟩ := List.mem_map.mp hin
      refine ⟨job, ?_, hid⟩
      rw [hcarried]
      exact List.mem_append_right _ hjob

def twoAtATime : WorkerConfig := { oneAtATime with batch := 2 }

def threeCommitted : List Call :=
  [⟨0, .enqueue_pool "k" .null⟩, ⟨1, .enqueue_pool "k" .null⟩, ⟨2, .enqueue_pool "k" .null⟩]

/-- One handler has the only permit, a second job waits for it, and a third is in the table. -/
theorem a_busy_loop_hands_out_its_queue :
    let s := run (step twoAtATime) (start twoAtATime (after threeCommitted) 5)
      [.connected, .send, .execute .alone, .reply, .acquire, .spawn]
    s.available = 0 ∧ ∃ own, own.length ≤ 13 ∧ AtRest twoAtATime (run (step twoAtATime) s own) ∧
      (∃ job ∈ handed (trace (step twoAtATime) s own), job.id = 1) ∧
      ∃ job ∈ handed (trace (step twoAtATime) s own), job.id = 3 := by
  intro s
  have hfits : AttemptsFit s.db := by
    unfold AttemptsFit
    decide +kernel
  obtain ⟨own, _, hlen, hrest, hpending, hclaimable⟩ :=
    the_loop_can_hand_out_every_job twoAtATime threeCommitted 5
      [.connected, .send, .execute .alone, .reply, .acquire, .spawn] (by decide) (by decide)
      ⟨rfl, trivial⟩ hfits
  have hsecond : ∃ job ∈ pending s.phase, job.id = 1 := by decide +kernel
  have hthird : ∃ r ∈ s.db.jobs.rows, claimable s.clock twoAtATime.kinds r = true ∧ r.id = 3 := by
    decide +kernel
  obtain ⟨job, hjob, hid⟩ := hsecond
  obtain ⟨r, hr, hc, hthree⟩ := hthird
  obtain ⟨last, hlast, hsame⟩ := hclaimable r hr hc
  refine ⟨by decide +kernel, own, ?_, hrest, ⟨job, hpending job hjob, hid⟩, last, hlast,
    hsame.trans hthree⟩
  have hsteps : stepsLeft twoAtATime s = 13 := by decide +kernel
  exact hsteps ▸ hlen

end skip_locked.worker
