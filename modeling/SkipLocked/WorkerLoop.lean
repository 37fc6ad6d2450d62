-- The worker on its database is the loop with the replies of that database:
-- each event of the one is some events of the other, and the same jobs go to
-- the handlers.
import SkipLocked.Bookkeeping
import Mathlib.Data.List.InsertIdx

open event_runs

namespace skip_locked.control_loop

open worker (WorkerConfig Worker Phase elapsed)

/-- The stage of the loop, without what is on the wire. -/
def stageOf : Phase → Stage
  | .connecting => .connecting
  | .claiming .unsent => .selecting false false
  | .claiming _ => .selecting false true
  | .idle since => .idle since false
  | .dispatch _ _ job rest permit => .dispatching job rest permit
  | .draining since => .draining since
  | .returned ok => .returned ok
  | .panicked => .panicked

def loopOf (s : Worker) : Loop :=
  { clock := s.clock, cancelled := s.cancelled, stage := stageOf s.phase,
    available := s.available, tasks := s.tasks.map (·.job) }

/-- What the loop does when a poll that did not find the token cancelled ends with a reply or
a broken connection. -/
def actsAtReply : Phase → List Event
  | .claiming (.committed _ jobs) => [.look, .answer jobs]
  | .claiming .failed => [.look, .fail]
  | _ => []

def actsAtLost : Phase → List Event
  | .claiming .unsent => [.look, .begin, .fail]
  | .claiming _ => [.look, .fail]
  | _ => []

def actsAtWake (s : Worker) (ready : Bool) (a : Event) : List Event :=
  match s.phase with
  | .idle _ => if !s.cancelled && ready then [.look, a] else []
  | _ => []

def actsOf (cfg : WorkerConfig) (s : Worker) : worker.Event → List Event
  | .cancel => [.cancel]
  | .tick usecs => [.tick usecs]
  | .connected => [.connected]
  | .connect_failed => [.connect_failed]
  | .turn => if s.cancelled then [.look] else []
  | .send =>
    match s.phase with
    | .claiming .unsent => if s.cancelled then [] else [.look, .begin, .pend]
    | _ => []
  | .reply => if s.cancelled then [] else actsAtReply s.phase
  | .lost => if s.cancelled then [] else actsAtLost s.phase
  | .recv => actsAtWake s (decide (s.heard < s.db.notified)) .wake
  | .recv_failed => actsAtWake s true .wake
  | .timeout =>
    match s.phase with
    | .idle since => actsAtWake s (elapsed cfg.poll_interval since s.clock) .timeout
    | _ => []
  | .acquire => [.acquire]
  | .spawn => [.spawn]
  | .finish i => [.finish i]
  | .drained => [.drained]
  | .grace => [.grace]
  | .other _ => []
  | .execute _ => []
  | .refuse => []

/-- The events of the loop lead where the worker goes, and hand out the same jobs. -/
def Matches (cfg : WorkerConfig) (s s' : Worker) (d : Option worker.Deal) (acts : List Event) :
    Prop :=
  run (step cfg) (loopOf s) acts = loopOf s' ∧
    (trace (step cfg) (loopOf s) acts).flatMap (fun x => handedOf x.2) = worker.handedOf d

theorem matches_nothing {cfg : WorkerConfig} {s s' : Worker} (h : loopOf s' = loopOf s)
    (d : Option worker.Deal) (hd : worker.handedOf d = []) : Matches cfg s s' d [] := by
  refine ⟨?_, ?_⟩
  · rw [h]
    rfl
  · rw [hd]
    rfl

theorem matches_turn (cfg : WorkerConfig) (s : Worker) :
    Matches cfg s (worker.turnIn s) none (actsOf cfg s .turn) := by
  obtain ⟨db, clock, cancelled, phase, orphan, available, tasks, heard⟩ := s
  unfold actsOf worker.turnIn
  cases cancelled with
  | false => exact matches_nothing rfl none rfl
  | true =>
    cases phase with
    | claiming wire => cases wire <;> exact ⟨rfl, rfl⟩
    | _ => exact ⟨rfl, rfl⟩

theorem matches_send (cfg : WorkerConfig) (s : Worker) :
    Matches cfg s (worker.step cfg s .send).1 none (actsOf cfg s .send) := by
  obtain ⟨db, clock, cancelled, phase, orphan, available, tasks, heard⟩ := s
  cases phase with
  | claiming wire =>
    cases wire <;> cases cancelled <;> exact ⟨rfl, rfl⟩
  | _ => exact ⟨rfl, rfl⟩

theorem matches_reply (cfg : WorkerConfig) (s : Worker) :
    Matches cfg s (worker.replyIn s) none (actsOf cfg s .reply) := by
  obtain ⟨db, clock, cancelled, phase, orphan, available, tasks, heard⟩ := s
  unfold actsOf worker.replyIn
  cases cancelled with
  | true => exact matches_nothing rfl none rfl
  | false =>
    cases phase with
    | claiming wire =>
      cases wire with
      | committed at_ jobs => cases jobs <;> exact ⟨rfl, rfl⟩
      | _ => exact ⟨rfl, rfl⟩
    | _ => exact ⟨rfl, rfl⟩

theorem matches_lost (cfg : WorkerConfig) (s : Worker) :
    Matches cfg s (worker.lostIn s) none (actsOf cfg s .lost) := by
  obtain ⟨db, clock, cancelled, phase, orphan, available, tasks, heard⟩ := s
  unfold actsOf worker.lostIn
  cases cancelled with
  | true => exact matches_nothing rfl none rfl
  | false =>
    cases phase with
    | claiming wire => cases wire <;> exact ⟨rfl, rfl⟩
    | _ => exact ⟨rfl, rfl⟩

/-- The two ends of an idle wait: a notification, and the timer. -/
theorem matches_wake (cfg : WorkerConfig) (s : Worker) (ready : Bool) (heard : Nat) :
    Matches cfg s (worker.wake s ready heard) none (actsAtWake s ready .wake) := by
  obtain ⟨db, clock, cancelled, phase, orphan, available, tasks, heard'⟩ := s
  cases phase with
  | idle since => cases cancelled <;> cases ready <;> exact ⟨rfl, rfl⟩
  | _ => exact ⟨rfl, rfl⟩

theorem matches_timeout (cfg : WorkerConfig) (s : Worker) :
    Matches cfg s (worker.timeoutIn cfg s) none (actsOf cfg s .timeout) := by
  obtain ⟨db, clock, cancelled, phase, orphan, available, tasks, heard⟩ := s
  cases phase with
  | idle since =>
    simp only [actsOf, worker.timeoutIn, worker.wake, actsAtWake]
    split
    · rename_i hgo
      rw [Bool.and_eq_true] at hgo
      obtain ⟨hc, he⟩ := hgo
      have hc : cancelled = false := by simpa using hc
      subst hc
      constructor
      · simp [loopOf, stageOf, step, lookIn, timeoutIn, he]
      · rfl
    · exact ⟨rfl, rfl⟩
  | _ => exact ⟨rfl, rfl⟩

theorem matches_execute (cfg : WorkerConfig) (s : Worker) (plan : claim.Plan) :
    Matches cfg s (worker.executeIn cfg s plan).1 (worker.executeIn cfg s plan).2 [] := by
  unfold worker.executeIn
  split
  · rename_i hp
    have hstage : ∀ wire, wire ≠ .unsent → stageOf (.claiming wire) = stageOf s.phase := by
      intro wire hw
      rw [hp]
      cases wire with
      | unsent => exact absurd rfl hw
      | _ => rfl
    split
    · exact matches_nothing (by simp [loopOf, hstage]) _ rfl
    · exact matches_nothing (by simp [loopOf, hstage]) _ rfl
  · split
    · split
      · exact matches_nothing rfl _ rfl
      · exact matches_nothing rfl _ rfl
    · exact matches_nothing rfl _ rfl

theorem matches_acquire (cfg : WorkerConfig) (s : Worker) :
    Matches cfg s (worker.acquireIn s) none [.acquire] := by
  obtain ⟨db, clock, cancelled, phase, orphan, available, tasks, heard⟩ := s
  cases phase with
  | dispatch claimed spawned job rest permit =>
    cases permit with
    | true => exact ⟨rfl, rfl⟩
    | false =>
      refine ⟨?_, rfl⟩
      simp only [worker.acquireIn, loopOf, stageOf, run_cons, run_nil, step, acquireIn]
      split <;> rfl
  | claiming wire => cases wire <;> exact ⟨rfl, rfl⟩
  | _ => exact ⟨rfl, rfl⟩

theorem matches_spawn (cfg : WorkerConfig) (s : Worker) :
    Matches cfg s (worker.spawnIn s).1 (worker.spawnIn s).2 [.spawn] := by
  obtain ⟨db, clock, cancelled, phase, orphan, available, tasks, heard⟩ := s
  cases phase with
  | dispatch claimed spawned job rest permit =>
    cases permit with
    | false => exact ⟨rfl, rfl⟩
    | true => cases rest <;> exact ⟨rfl, rfl⟩
  | claiming wire => cases wire <;> exact ⟨rfl, rfl⟩
  | _ => exact ⟨rfl, rfl⟩

theorem matches_finish (cfg : WorkerConfig) (s : Worker) (i : Nat) :
    Matches cfg s (worker.finishIn s i) none [.finish i] := by
  unfold worker.finishIn
  by_cases hi : i < s.tasks.length
  · rw [if_pos hi]
    have hget : (loopOf s).tasks[i]? = some (s.tasks[i].job) := by
      simp [loopOf, hi]
    have hstep : step cfg (loopOf s) (.finish i) =
        ({ loopOf s with tasks := (loopOf s).tasks.eraseIdx i,
                         available := (loopOf s).available + 1 },
          some (.ended s.tasks[i].job)) := by
      simp only [step, finishIn, hget]
    refine ⟨?_, ?_⟩
    · rw [run_cons, hstep]
      simp [loopOf, List.eraseIdx_map]
    · simp [hstep, handedOf, worker.handedOf]
  · rw [if_neg hi]
    have hget : (loopOf s).tasks[i]? = none := by
      simp [loopOf, Nat.le_of_not_lt hi]
    have hstep : step cfg (loopOf s) (.finish i) = (loopOf s, none) := by
      simp only [step, finishIn, hget]
    refine ⟨?_, ?_⟩
    · rw [run_cons, hstep]
      rfl
    · simp [hstep, handedOf, worker.handedOf]

theorem matches_drain (cfg : WorkerConfig) (s : Worker) :
    Matches cfg s (worker.drainedIn cfg s) none [.drained] ∧
      Matches cfg s (worker.graceIn cfg s) none [.grace] := by
  obtain ⟨db, clock, cancelled, phase, orphan, available, tasks, heard⟩ := s
  cases phase with
  | draining since =>
    refine ⟨⟨?_, rfl⟩, ⟨?_, rfl⟩⟩
    · simp only [worker.drainedIn, loopOf, stageOf, run_cons, run_nil, step, drainedIn]
      split <;> rfl
    · simp only [worker.graceIn, loopOf, stageOf, run_cons, run_nil, step, graceIn]
      split <;> rfl
  | claiming wire => cases wire <;> exact ⟨⟨rfl, rfl⟩, ⟨rfl, rfl⟩⟩
  | _ => exact ⟨⟨rfl, rfl⟩, ⟨rfl, rfl⟩⟩

/-- Each event of the worker is some events of the loop. -/
theorem matches_step (cfg : WorkerConfig) (s : Worker) (e : worker.Event) :
    Matches cfg s (worker.step cfg s e).1 (worker.step cfg s e).2 (actsOf cfg s e) := by
  cases e with
  | cancel => exact ⟨rfl, rfl⟩
  | tick usecs => exact ⟨rfl, rfl⟩
  | other op => exact matches_nothing rfl none rfl
  | connected =>
    obtain ⟨db, clock, cancelled, phase, orphan, available, tasks, heard⟩ := s
    cases phase with
    | claiming wire => cases wire <;> exact ⟨rfl, rfl⟩
    | _ => exact ⟨rfl, rfl⟩
  | connect_failed =>
    obtain ⟨db, clock, cancelled, phase, orphan, available, tasks, heard⟩ := s
    cases phase with
    | claiming wire => cases wire <;> exact ⟨rfl, rfl⟩
    | _ => exact ⟨rfl, rfl⟩
  | turn => exact matches_turn cfg s
  | send =>
    have hd : (worker.step cfg s .send).2 = none := by
      simp only [worker.step]
      split <;> rfl
    rw [hd]
    exact matches_send cfg s
  | execute plan => exact matches_execute cfg s plan
  | refuse =>
    obtain ⟨db, clock, cancelled, phase, orphan, available, tasks, heard⟩ := s
    cases phase with
    | claiming wire => cases wire <;> exact ⟨rfl, rfl⟩
    | _ => exact ⟨rfl, rfl⟩
  | reply => exact matches_reply cfg s
  | lost => exact matches_lost cfg s
  | recv => exact matches_wake cfg s _ _
  | recv_failed => exact matches_wake cfg s true _
  | timeout => exact matches_timeout cfg s
  | acquire => exact matches_acquire cfg s
  | spawn => exact matches_spawn cfg s
  | finish i => exact matches_finish cfg s i
  | drained => exact (matches_drain cfg s).1
  | grace => exact (matches_drain cfg s).2

/-- Each run of the worker on its database is a run of the loop, with the same jobs for the
handlers. -/
theorem a_worker_run_is_a_loop_run (cfg : WorkerConfig) (db : Db) (clock : Int)
    (events : List worker.Event) :
    ∃ acts, run (step cfg) (start cfg clock) acts =
        loopOf (run (worker.step cfg) (worker.start cfg db clock) events) ∧
      handed (met (step cfg) (start cfg clock) acts) =
        worker.handed (trace (worker.step cfg) (worker.start cfg db clock) events) := by
  have hstart : loopOf (worker.start cfg db clock) = start cfg clock := by
    simp only [loopOf, worker.start, start]
    split <;> rfl
  have hsim := @run_simulation _ _ _ (worker.step cfg) _ _ _ _ (step cfg) loopOf (actsOf cfg)
    (fun x => worker.handedOf x.2) (fun x => handedOf x.2) (matches_step cfg)
    (worker.start cfg db clock) events
  rw [hstart] at hsim
  obtain ⟨acts, hrun, hseen⟩ := hsim
  exact ⟨acts, hrun, (handed_met cfg _ acts).trans hseen⟩

end skip_locked.control_loop
