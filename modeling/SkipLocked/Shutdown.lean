-- The law of the shutdown: each job that a claim of the worker takes goes to
-- the handler once. The one way to lose a job is a claim that the loop drops
-- while its rows are on their way, or that Postgres runs after the drop.
import SkipLocked.Worker

open jsonb postgres keyed_table event_runs

namespace skip_locked.worker

open claim lease retry

/-! ## What the claims take and what the handlers get -/

def tookOf : Option Deal → List Job
  | some (.took jobs) => jobs
  | _ => []

def handedOf : Option Deal → List Job
  | some (.handed job) => [job]
  | _ => []

/-- The jobs that the claims of the worker took in a run, also the claims that the loop
dropped. -/
def taken (deals : List (Event × Option Deal)) : List Job :=
  deals.flatMap (fun d => tookOf d.2)

/-- The jobs that went to the handler in a run. -/
def handed (deals : List (Event × Option Deal)) : List Job :=
  deals.flatMap (fun d => handedOf d.2)

/-! ## One event -/

theorem pending_of_onTheWay {p : Phase} (h : onTheWay p ≠ []) : pending p = onTheWay p := by
  cases p with
  | claiming wire =>
    cases wire with
    | committed at_ jobs => rfl
    | _ => exact absurd rfl h
  | _ => exact absurd rfl h

/-- An event that loses nothing keeps the jobs in order between their claim and their
handler. -/
theorem carries {cfg : WorkerConfig} {s s' : Worker} {e : Event} {d : Option Deal}
    (h : Does cfg s e s' d) (hl : ¬ Loses cfg s e) :
    pending s.phase ++ tookOf d = handedOf d ++ pending s'.phase := by
  cases h with
  | quiet cancelled phase orphan heard _ hp =>
    rcases hp with rfl | ⟨h1, h2⟩
    · simp [tookOf, handedOf]
    · simp [tookOf, handedOf, h1, h2]
  | dropped phase hloss _ _ => exact absurd hloss hl
  | ticked usecs => simp [tookOf, handedOf]
  | called op => simp [tookOf, handedOf]
  | took hp hok => simp [hp, pending, tookOf, handedOf]
  | @orphaned plan db jobs hp ho hok =>
    have hnone : jobs = [] := by
      by_contra hne
      exact hl ⟨hp, ho, takes_of_claim.mpr ⟨db, jobs, hne, hok⟩⟩
    simp [hnone, tookOf, handedOf]
  | received hp => simp [hp, pending, tookOf, handedOf]
  | acquired hp _ => simp [hp, pending, tookOf, handedOf]
  | spawned_last hp => simp [hp, pending, tookOf, handedOf]
  | spawned_next hp => simp [hp, pending, tookOf, handedOf]
  | finished _ => simp [tookOf, handedOf]

/-- An event that loses jobs leaves more of them taken than handed out or pending. -/
theorem leaks {cfg : WorkerConfig} {s s' : Worker} {e : Event} {d : Option Deal}
    (h : Does cfg s e s' d) (hl : Loses cfg s e) :
    (handedOf d ++ pending s'.phase).length < (pending s.phase ++ tookOf d).length := by
  cases h with
  | quiet cancelled phase orphan heard hno _ => exact absurd hl hno
  | dropped phase _ hway hp =>
    have hpos := List.length_pos_iff.mpr hway
    simpa [pending_of_onTheWay hway, hp, tookOf, handedOf] using hpos
  | took hp _ => exact absurd hp hl.1
  | @orphaned plan db jobs hp ho hok =>
    obtain ⟨_, _, hne, hok'⟩ := takes_of_claim.mp hl.2.2
    rw [hok, Except.ok.injEq, Prod.mk.injEq] at hok'
    have hpos := List.length_pos_iff.mpr (hok'.2 ▸ hne)
    simp only [tookOf, handedOf, List.nil_append, List.length_append]
    omega
  | _ => exact absurd hl id

/-! ## The law of a run -/

theorem trace_deals (cfg : WorkerConfig) (s : Worker) (e : Event) (rest : List Event) :
    taken (trace (step cfg) s (e :: rest)) =
        tookOf (step cfg s e).2 ++ taken (trace (step cfg) (step cfg s e).1 rest) ∧
      handed (trace (step cfg) s (e :: rest)) =
        handedOf (step cfg s e).2 ++ handed (trace (step cfg) (step cfg s e).1 rest) :=
  ⟨List.flatMap_cons, List.flatMap_cons⟩

/-- The handlers never get more than the claims took. -/
theorem handed_le_taken (cfg : WorkerConfig) (s : Worker) (events : List Event) :
    (handed (trace (step cfg) s events) ++ pending (run (step cfg) s events).phase).length ≤
      (pending s.phase ++ taken (trace (step cfg) s events)).length := by
  induction events generalizing s with
  | nil => simp [handed, taken]
  | cons e rest ih =>
    obtain ⟨htaken, hhanded⟩ := trace_deals cfg s e rest
    have hstep : (handedOf (step cfg s e).2 ++ pending (step cfg s e).1.phase).length ≤
        (pending s.phase ++ tookOf (step cfg s e).2).length := by
      by_cases hl : Loses cfg s e
      · exact Nat.le_of_lt (leaks (step_does cfg s e) hl)
      · rw [carries (step_does cfg s e) hl]
    have hrest := ih (step cfg s e).1
    rw [htaken, hhanded, run_cons]
    simp only [List.length_append] at *
    omega

/-- What was taken is what was handed out and what is pending, in order, just when no event
lost a job. -/
theorem carried_iff (cfg : WorkerConfig) (s : Worker) (events : List Event) :
    handed (trace (step cfg) s events) ++ pending (run (step cfg) s events).phase =
        pending s.phase ++ taken (trace (step cfg) s events) ↔
      EveryStep (step cfg) (fun s e => ¬ Loses cfg s e) s events := by
  induction events generalizing s with
  | nil => simp [handed, taken, EveryStep]
  | cons e rest ih =>
    obtain ⟨htaken, hhanded⟩ := trace_deals cfg s e rest
    rw [htaken, hhanded, run_cons]
    by_cases hl : Loses cfg s e
    · -- the loss is never made up for
      have hlt := leaks (step_does cfg s e) hl
      have hle := handed_le_taken cfg (step cfg s e).1 rest
      constructor
      · intro heq
        have hlen := congrArg List.length heq
        simp only [List.length_append] at *
        omega
      · intro hall
        exact absurd hl hall.1
    · have hstep := carries (step_does cfg s e) hl
      have hiff := ih (step cfg s e).1
      rw [← List.append_assoc, hstep, List.append_assoc, List.append_assoc,
        List.append_cancel_left_eq, hiff]
      exact (and_iff_right hl).symm

/-- When the worker returns, each job that its claims took went to the handler once, just
when no event of the run lost a job. -/
theorem a_shutdown_loses_no_claim (cfg : WorkerConfig) (calls : List Call) (clock : Int)
    (events : List Event) {ok : Bool}
    (h : (run (step cfg) (start cfg (after calls) clock) events).phase = .returned ok) :
    handed (trace (step cfg) (start cfg (after calls) clock) events) =
        taken (trace (step cfg) (start cfg (after calls) clock) events) ↔
      EveryStep (step cfg) (fun s e => ¬ Loses cfg s e) (start cfg (after calls) clock) events := by
  have hiff := carried_iff cfg (start cfg (after calls) clock) events
  rw [pending_start, h] at hiff
  simpa [pending] using hiff

def oneAtATime : WorkerConfig :=
  { worker_id := "w", kinds := ["k"], batch := 1, fanout_concurrency := 1,
    poll_interval := .from_secs 1, drain_grace := .from_secs 30 }

def oneReady : Db := after [⟨0, .enqueue_pool "k" .null⟩]

/-- The token fires while the handler works: the loop claims no more, and the handler has its
job. -/
theorem a_late_stop_loses_no_claim :
    let s := start oneAtATime oneReady 5
    let events := [.connected, .send, .execute .alone, .reply, .acquire, .spawn, .cancel, .turn,
      .finish 0, .drained]
    (taken (trace (step oneAtATime) s events)).map (·.id) = [1] ∧
      handed (trace (step oneAtATime) s events) = taken (trace (step oneAtATime) s events) := by
  refine ⟨by decide +kernel, ?_⟩
  apply (@a_shutdown_loses_no_claim oneAtATime [⟨0, .enqueue_pool "k" .null⟩] 5 _ true rfl).mpr
  exact ⟨id, id, fun h => h.1 rfl, id, id, id, id, fun h => h.2 rfl, id, id, trivial⟩

/-- The token fires while the claim is on its way. Postgres runs the claim, the worker drains
and returns, and its job is left running with one attempt spent and no handler. -/
theorem a_stop_in_a_claim_strands_its_job :
    let s := start oneAtATime oneReady 5
    let events := [.connected, .send, .cancel, .turn, .execute .alone, .drained]
    (taken (trace (step oneAtATime) s events)).map (·.id) = [1] ∧
      handed (trace (step oneAtATime) s events) = [] ∧
      (run (step oneAtATime) s events).phase = .returned true ∧
      ((run (step oneAtATime) s events).db.jobs.find 1).map
        (fun r => (r.state, r.locked_by, r.attempts)) =
          some (State.running, some ("w" : Text), 1) := by
  refine ⟨by decide +kernel, rfl, rfl, by decide +kernel⟩

end skip_locked.worker
