-- `src/worker.rs`: the worker loop, with the server and the other clients. The
-- loop races its claim against the token, and Postgres may have committed the
-- claim that the loop drops.
import SkipLocked.Ids

open jsonb postgres keyed_table event_runs

namespace skip_locked.worker

open claim lease retry

/-! ## The state -/

structure WorkerConfig where
  worker_id : Text
  kinds : List Text
  batch : Int
  fanout_concurrency : Nat
  poll_interval : Duration
  drain_grace : Duration

/-- `Semaphore::new` panics above this: `usize::MAX >> 3`. -/
def MAX_PERMITS : Nat := 2305843009213693951

/-- How far the statement of a claim is: not sent yet, sent, committed at a time with the
rows that it returns, or failed. -/
inductive Wire where
  | unsent
  | sent
  | committed (at_ : Int) (jobs : List Job)
  | failed

/-- Where the loop is. `dispatch` is the `for` over a batch that was claimed at a time: the
number of jobs spawned, the job that is next and the rest, and whether the loop holds the
permit for the next one. The claim time is there for the laws, no code reads it. -/
inductive Phase where
  | connecting
  | claiming (wire : Wire)
  | idle (since : Int)
  | dispatch (claimed : Int) (spawned : Nat) (job : Job) (rest : List Job) (permit : Bool)
  | draining (since : Int)
  | returned (ok : Bool)
  | panicked

/-- A spawned handler that has not ended: it holds one permit. -/
structure Task where
  job : Job
  claimed : Int
  started : Int

/-- The worker and the database. `orphan` is a statement that the loop dropped after it was
sent. `heard` counts the notifications that the listener has taken, with those from
before it listened. -/
structure Worker where
  db : Db
  clock : Int
  cancelled : Bool
  phase : Phase
  orphan : Bool
  available : Nat
  tasks : List Task
  heard : Nat

def start (cfg : WorkerConfig) (db : Db) (clock : Int) : Worker :=
  { db, clock, cancelled := false,
    phase := if cfg.fanout_concurrency ≤ MAX_PERMITS then .connecting else .panicked,
    orphan := false, available := cfg.fanout_concurrency, tasks := [], heard := 0 }

/-- The microseconds since `since` are at least the duration. -/
def elapsed (d : Duration) (since now : Int) : Bool :=
  decide (d.secs * 1000000000 + d.nanos ≤ (now - since) * 1000)

/-! ## The events -/

inductive Event where
  /-- The token fires, time passes, or somebody else calls the crate. -/
  | cancel
  | tick (usecs : Nat)
  | other (op : Op)
  /-- The listener connects and listens, or fails to. -/
  | connected
  | connect_failed
  /-- The loop is polled and finds the token cancelled. -/
  | turn
  /-- The claim goes out, Postgres runs it or refuses it, and its reply arrives or is lost. -/
  | send
  | execute (plan : Plan)
  | refuse
  | reply
  | lost
  /-- The idle loop takes a notification, or finds the listener broken, or the poll timer ends. -/
  | recv
  | recv_failed
  | timeout
  /-- The loop takes a permit, and spawns its handler. -/
  | acquire
  | spawn
  /-- A handler ends, or panics: its permit drops. -/
  | finish (i : Nat)
  /-- The drain gets its permits, or its grace ends. -/
  | drained
  | grace

/-- What the others can see: a claim of the worker commits, or a job goes to the handler. -/
inductive Deal where
  | took (jobs : List Job)
  | handed (job : Job)

def claimCall (cfg : WorkerConfig) (clock : Int) (plan : Plan) : Call :=
  ⟨clock, .claim_batch cfg.kinds cfg.batch cfg.worker_id plan⟩

/-- Postgres runs the statement of the loop, or the one that the loop dropped. -/
def executeIn (cfg : WorkerConfig) (s : Worker) (plan : Plan) : Worker × Option Deal :=
  match s.phase with
  | .claiming .sent =>
    match exec s.db (claimCall cfg s.clock plan) with
    | (db, .ok (.jobs jobs)) =>
      ({ s with db, phase := .claiming (.committed s.clock jobs) }, some (.took jobs))
    | (db, _) => ({ s with db, phase := .claiming .failed }, none)
  | _ =>
    if s.orphan then
      match exec s.db (claimCall cfg s.clock plan) with
      | (db, .ok (.jobs jobs)) => ({ s with db, orphan := false }, some (.took jobs))
      | (db, _) => ({ s with db, orphan := false }, none)
    else (s, none)

/-- The reply of the claim. An error leaves the function at once, without the drain. -/
def replyIn (s : Worker) : Worker :=
  if s.cancelled then s
  else
    match s.phase with
    | .claiming (.committed _ []) => { s with phase := .idle s.clock }
    | .claiming (.committed at_ (job :: rest)) => { s with phase := .dispatch at_ 0 job rest false }
    | .claiming .failed => { s with phase := .returned false }
    | _ => s

/-- The token is checked first at each poll of a `select!`: the claim is dropped. -/
def turnIn (s : Worker) : Worker :=
  if s.cancelled then
    match s.phase with
    | .claiming .sent => { s with phase := .draining s.clock, orphan := true }
    | .claiming _ => { s with phase := .draining s.clock }
    | .idle _ => { s with phase := .draining s.clock }
    | _ => s
  else s

/-- The connection breaks: the loop sees an error, whatever became of the statement. -/
def lostIn (s : Worker) : Worker :=
  if s.cancelled then s
  else
    match s.phase with
    | .claiming .sent => { s with phase := .returned false, orphan := true }
    | .claiming _ => { s with phase := .returned false }
    | _ => s

/-- The idle loop wakes up and claims again. -/
def wake (s : Worker) (ready : Bool) (heard : Nat) : Worker :=
  match s.phase with
  | .idle _ =>
    if !s.cancelled && ready then { s with phase := .claiming .unsent, heard } else s
  | _ => s

def acquireIn (s : Worker) : Worker :=
  match s.phase with
  | .dispatch claimed spawned job rest false =>
    if 0 < s.available then
      { s with available := s.available - 1, phase := .dispatch claimed spawned job rest true }
    else s
  | _ => s

def spawnIn (s : Worker) : Worker × Option Deal :=
  match s.phase with
  | .dispatch claimed spawned job rest true =>
    let tasks := ⟨job, claimed, s.clock⟩ :: s.tasks
    let phase := match rest with
      | [] => .claiming .unsent
      | next :: more => .dispatch claimed (spawned + 1) next more false
    ({ s with tasks, phase }, some (.handed job))
  | _ => (s, none)

def finishIn (s : Worker) (i : Nat) : Worker :=
  if i < s.tasks.length then
    { s with tasks := s.tasks.eraseIdx i, available := s.available + 1 }
  else s

/-- `acquire_many(fanout_concurrency as u32)`. -/
def drainedIn (cfg : WorkerConfig) (s : Worker) : Worker :=
  match s.phase with
  | .draining _ =>
    if cfg.fanout_concurrency % 2 ^ 32 ≤ s.available then { s with phase := .returned true } else s
  | _ => s

def graceIn (cfg : WorkerConfig) (s : Worker) : Worker :=
  match s.phase with
  | .draining since =>
    if elapsed cfg.drain_grace since s.clock then { s with phase := .returned true } else s
  | _ => s

def timeoutIn (cfg : WorkerConfig) (s : Worker) : Worker :=
  match s.phase with
  | .idle since => wake s (elapsed cfg.poll_interval since s.clock) s.heard
  | _ => s

/-- One event. An event that cannot happen in a state leaves it as it is. -/
def step (cfg : WorkerConfig) (s : Worker) : Event → Worker × Option Deal
  | .cancel => ({ s with cancelled := true }, none)
  | .tick usecs => ({ s with clock := s.clock + usecs }, none)
  | .other op => ({ s with db := (exec s.db ⟨s.clock, op⟩).1 }, none)
  | .connected =>
    match s.phase with
    | .connecting => ({ s with phase := .claiming .unsent, heard := s.db.notified }, none)
    | _ => (s, none)
  | .connect_failed =>
    match s.phase with
    | .connecting => ({ s with phase := .returned false }, none)
    | _ => (s, none)
  | .turn => (turnIn s, none)
  | .send =>
    match s.phase with
    | .claiming .unsent => (if s.cancelled then s else { s with phase := .claiming .sent }, none)
    | _ => (s, none)
  | .execute plan => executeIn cfg s plan
  | .refuse =>
    match s.phase with
    | .claiming .sent => ({ s with phase := .claiming .failed }, none)
    | _ => ({ s with orphan := false }, none)
  | .reply => (replyIn s, none)
  | .lost => (lostIn s, none)
  | .recv => (wake s (decide (s.heard < s.db.notified)) (s.heard + 1), none)
  | .recv_failed => (wake s true s.heard, none)
  | .timeout => (timeoutIn cfg s, none)
  | .acquire => (acquireIn s, none)
  | .spawn => spawnIn s
  | .finish i => (finishIn s i, none)
  | .drained => (drainedIn cfg s, none)
  | .grace => (graceIn cfg s, none)

/-! ## What an event does -/

theorem exec_claimCall {cfg : WorkerConfig} {db db' : Db} {clock : Int} {plan : Plan}
    {jobs : List Job}
    (h : claim_batch db clock cfg.kinds cfg.batch cfg.worker_id plan = .ok (db', jobs)) :
    exec db (claimCall cfg clock plan) = (db', .ok (.jobs jobs)) := by
  unfold exec claimCall
  dsimp only
  rw [h]
  rfl

/-- The rows of a claim that Postgres has committed and the loop has not seen. -/
def onTheWay : Phase → List Job
  | .claiming (.committed _ jobs) => jobs
  | _ => []

/-- The jobs between their claim and their handler. -/
def pending : Phase → List Job
  | .claiming (.committed _ jobs) => jobs
  | .dispatch _ _ job rest _ => job :: rest
  | _ => []

/-- The claim of the worker would take rows: its window has some, and each of them has an
attempt left that an `int4` can hold. -/
def Takes (cfg : WorkerConfig) (s : Worker) (plan : Plan) : Prop :=
  0 ≤ cfg.batch ∧ lockWindow s.db.jobs s.clock cfg.kinds cfg.batch.toNat plan ≠ [] ∧
    ∀ r ∈ lockWindow s.db.jobs s.clock cfg.kinds cfg.batch.toNat plan, r.attempts < INT4_MAX

/-- The event loses jobs: the loop drops a claim whose rows are on their way, for the token
or for a broken connection, or a claim that it has dropped takes rows. -/
def Loses (cfg : WorkerConfig) (s : Worker) : Event → Prop
  | .turn => s.cancelled = true ∧ onTheWay s.phase ≠ []
  | .lost => s.cancelled = false ∧ onTheWay s.phase ≠ []
  | .execute plan => s.phase ≠ .claiming .sent ∧ s.orphan = true ∧ Takes cfg s plan
  | _ => False

/-- All that an event can do. A quiet one moves no job, no permit and no row. -/
inductive Does (cfg : WorkerConfig) (s : Worker) : Event → Worker → Option Deal → Prop where
  | quiet {e : Event} (cancelled : Bool) (phase : Phase) (orphan : Bool) (heard : Nat) :
      ¬ Loses cfg s e → phase = s.phase ∨ (pending s.phase = [] ∧ pending phase = []) →
      Does cfg s e { s with cancelled, phase, orphan, heard } none
  | dropped {e : Event} (phase : Phase) : Loses cfg s e → onTheWay s.phase ≠ [] →
      pending phase = [] → Does cfg s e { s with phase } none
  | ticked (usecs : Nat) : Does cfg s (.tick usecs) { s with clock := s.clock + usecs } none
  | called (op : Op) : Does cfg s (.other op) { s with db := (exec s.db ⟨s.clock, op⟩).1 } none
  | took {plan : Plan} {db : Db} {jobs : List Job} : s.phase = .claiming .sent →
      claim_batch s.db s.clock cfg.kinds cfg.batch cfg.worker_id plan = .ok (db, jobs) →
      Does cfg s (.execute plan) { s with db, phase := .claiming (.committed s.clock jobs) }
        (some (.took jobs))
  | orphaned {plan : Plan} {db : Db} {jobs : List Job} : s.phase ≠ .claiming .sent →
      s.orphan = true →
      claim_batch s.db s.clock cfg.kinds cfg.batch cfg.worker_id plan = .ok (db, jobs) →
      Does cfg s (.execute plan) { s with db, orphan := false } (some (.took jobs))
  | received {at_ : Int} {job : Job} {rest : List Job} :
      s.phase = .claiming (.committed at_ (job :: rest)) →
      Does cfg s .reply { s with phase := .dispatch at_ 0 job rest false } none
  | acquired {claimed : Int} {spawned : Nat} {job : Job} {rest : List Job} :
      s.phase = .dispatch claimed spawned job rest false → 0 < s.available →
      Does cfg s .acquire { s with available := s.available - 1,
                                   phase := .dispatch claimed spawned job rest true } none
  | spawned_last {claimed : Int} {spawned : Nat} {job : Job} :
      s.phase = .dispatch claimed spawned job [] true →
      Does cfg s .spawn { s with tasks := ⟨job, claimed, s.clock⟩ :: s.tasks,
                                 phase := .claiming .unsent } (some (.handed job))
  | spawned_next {claimed : Int} {spawned : Nat} {job next : Job} {more : List Job} :
      s.phase = .dispatch claimed spawned job (next :: more) true →
      Does cfg s .spawn { s with tasks := ⟨job, claimed, s.clock⟩ :: s.tasks,
                                 phase := .dispatch claimed (spawned + 1) next more false }
        (some (.handed job))
  | finished {i : Nat} : i < s.tasks.length →
      Does cfg s (.finish i) { s with tasks := s.tasks.eraseIdx i,
                                      available := s.available + 1 } none

theorem does_still {cfg : WorkerConfig} {s : Worker} {e : Event} (h : ¬ Loses cfg s e) :
    Does cfg s e s none := Does.quiet s.cancelled s.phase s.orphan s.heard h (Or.inl rfl)

/-- An event that moves the loop from a phase without jobs to another one. -/
theorem does_move {cfg : WorkerConfig} {s : Worker} {e : Event} {phase : Phase} {heard : Nat}
    (h : ¬ Loses cfg s e) (hs : pending s.phase = []) (hp : pending phase = []) :
    Does cfg s e { s with phase, heard } none :=
  Does.quiet s.cancelled phase s.orphan heard h (Or.inr ⟨hs, hp⟩)

theorem does_wake {cfg : WorkerConfig} {s : Worker} {e : Event} (h : ¬ Loses cfg s e)
    (ready : Bool) (heard : Nat) : Does cfg s e (wake s ready heard) none := by
  unfold wake
  split
  · rename_i hp
    split
    · exact does_move h (by rw [hp]; rfl) rfl
    · exact does_still h
  · exact does_still h

/-- A claim that fails takes no rows. -/
theorem takes_of_claim {cfg : WorkerConfig} {s : Worker} {plan : Plan} :
    Takes cfg s plan ↔ ∃ db jobs, jobs ≠ [] ∧
      claim_batch s.db s.clock cfg.kinds cfg.batch cfg.worker_id plan = .ok (db, jobs) := by
  constructor
  · rintro ⟨hn, hne, hfit⟩
    obtain ⟨db, jobs, hok⟩ := claim_batch_runs hn hfit
    refine ⟨db, jobs, ?_, hok⟩
    obtain ⟨_, _, hperm⟩ := claim_batch_jobs hok
    rintro rfl
    exact hne (List.map_eq_nil_iff.mp hperm.symm.eq_nil)
  · rintro ⟨db, jobs, hne, hok⟩
    obtain ⟨hn, hfit, hperm⟩ := claim_batch_jobs hok
    refine ⟨hn, ?_, hfit⟩
    intro hnil
    rw [hnil] at hperm
    exact hne hperm.eq_nil

theorem does_execute (cfg : WorkerConfig) (s : Worker) (plan : Plan) :
    Does cfg s (.execute plan) (executeIn cfg s plan).1 (executeIn cfg s plan).2 := by
  unfold executeIn claimCall exec
  dsimp only
  cases hc : claim_batch s.db s.clock cfg.kinds cfg.batch cfg.worker_id plan with
  | error err =>
    have hno : ¬ Takes cfg s plan := by
      rw [takes_of_claim]
      rintro ⟨db, jobs, _, hok⟩
      rw [hc] at hok
      cases hok
    split
    · rename_i hp
      exact does_move (fun hl => hno hl.2.2) (by rw [hp]; rfl) rfl
    · split
      · exact Does.quiet s.cancelled s.phase false s.heard (fun hl => hno hl.2.2) (Or.inl rfl)
      · exact does_still (fun hl => hno hl.2.2)
  | ok res =>
    obtain ⟨db, jobs⟩ := res
    split
    · rename_i hp
      exact Does.took hp hc
    · rename_i hp
      split
      · rename_i ho
        exact Does.orphaned hp ho hc
      · rename_i ho
        exact does_still (fun hl => ho hl.2.1)

theorem does_reply (cfg : WorkerConfig) (s : Worker) : Does cfg s .reply (replyIn s) none := by
  have hno : ¬ Loses cfg s .reply := id
  unfold replyIn
  split
  · exact does_still hno
  split
  · rename_i hp
    exact does_move hno (by rw [hp]; rfl) rfl
  · rename_i hp
    exact Does.received hp
  · rename_i hp
    exact does_move hno (by rw [hp]; rfl) rfl
  · exact does_still hno

/-- The loop drops its claim, sent or not. -/
theorem does_drop {cfg : WorkerConfig} {s : Worker} {e : Event} {wire : Wire} {phase : Phase}
    (hp : s.phase = .claiming wire) (hphase : pending phase = [])
    (hl : Loses cfg s e ↔ onTheWay s.phase ≠ []) : Does cfg s e { s with phase } none := by
  by_cases hw : onTheWay s.phase = []
  · have hs : pending s.phase = [] := by
      rw [hp] at hw ⊢
      cases wire with
      | committed at_ jobs => exact hw
      | _ => rfl
    exact does_move (fun h => hl.mp h hw) hs hphase
  · exact Does.dropped phase (hl.mpr hw) hw hphase

theorem does_turn (cfg : WorkerConfig) (s : Worker) : Does cfg s .turn (turnIn s) none := by
  unfold turnIn
  split
  · rename_i hc
    have hl : Loses cfg s .turn ↔ onTheWay s.phase ≠ [] := and_iff_right hc
    split
    · rename_i hp
      have hs : ¬ Loses cfg s .turn := by rw [hl, hp]; simp [onTheWay]
      exact Does.quiet s.cancelled _ true s.heard hs (Or.inr ⟨by rw [hp]; rfl, rfl⟩)
    · rename_i hp
      exact does_drop hp rfl hl
    · rename_i hp
      exact does_move (by rw [hl, hp]; simp [onTheWay]) (by rw [hp]; rfl) rfl
    · rename_i hsent hclaim hidle
      refine does_still ?_
      rw [hl]
      cases hp : s.phase with
      | claiming wire => exact absurd hp (hclaim wire)
      | _ => simp [onTheWay]
  · rename_i hc
    exact does_still (fun hl => hc hl.1)

theorem does_lost (cfg : WorkerConfig) (s : Worker) : Does cfg s .lost (lostIn s) none := by
  unfold lostIn
  split
  · rename_i hc
    exact does_still (fun hl => by rw [hl.1] at hc; cases hc)
  · rename_i hc
    have hl : Loses cfg s .lost ↔ onTheWay s.phase ≠ [] :=
      and_iff_right (Bool.not_eq_true _ ▸ hc)
    split
    · rename_i hp
      have hs : ¬ Loses cfg s .lost := by rw [hl, hp]; simp [onTheWay]
      exact Does.quiet s.cancelled _ true s.heard hs (Or.inr ⟨by rw [hp]; rfl, rfl⟩)
    · rename_i hp
      exact does_drop hp rfl hl
    · rename_i hsent hclaim
      refine does_still ?_
      rw [hl]
      cases hp : s.phase with
      | claiming wire => exact absurd hp (hclaim wire)
      | _ => simp [onTheWay]

theorem does_spawn (cfg : WorkerConfig) (s : Worker) :
    Does cfg s .spawn (spawnIn s).1 (spawnIn s).2 := by
  unfold spawnIn
  split
  · rename_i claimed spawned job rest hp
    cases rest with
    | nil => exact Does.spawned_last hp
    | cons next more => exact Does.spawned_next hp
  · exact does_still id

/-- Every event does one of these. -/
theorem step_does (cfg : WorkerConfig) (s : Worker) (e : Event) :
    Does cfg s e (step cfg s e).1 (step cfg s e).2 := by
  unfold step
  cases e with
  | cancel => exact Does.quiet true s.phase s.orphan s.heard id (Or.inl rfl)
  | tick usecs => exact Does.ticked usecs
  | other op => exact Does.called op
  | connected =>
    dsimp only
    split
    · rename_i hp
      exact does_move id (by rw [hp]; rfl) rfl
    · exact does_still id
  | connect_failed =>
    dsimp only
    split
    · rename_i hp
      exact does_move id (by rw [hp]; rfl) rfl
    · exact does_still id
  | turn => exact does_turn cfg s
  | send =>
    dsimp only
    split
    · rename_i hp
      split
      · exact does_still id
      · exact does_move id (by rw [hp]; rfl) rfl
    · exact does_still id
  | execute plan => exact does_execute cfg s plan
  | refuse =>
    dsimp only
    split
    · rename_i hp
      exact does_move id (by rw [hp]; rfl) rfl
    · exact Does.quiet s.cancelled s.phase false s.heard id (Or.inl rfl)
  | reply => exact does_reply cfg s
  | lost => exact does_lost cfg s
  | recv => exact does_wake id _ _
  | recv_failed => exact does_wake id _ _
  | timeout =>
    dsimp only [timeoutIn]
    split
    · exact does_wake id _ _
    · exact does_still id
  | acquire =>
    dsimp only [acquireIn]
    split
    · rename_i hp
      split
      · rename_i ha
        exact Does.acquired hp ha
      · exact does_still id
    · exact does_still id
  | spawn => exact does_spawn cfg s
  | finish i =>
    dsimp only [finishIn]
    split
    · rename_i hi
      exact Does.finished hi
    · exact does_still id
  | drained =>
    dsimp only [drainedIn]
    split
    · rename_i hp
      split
      · exact does_move id (by rw [hp]; rfl) rfl
      · exact does_still id
    · exact does_still id
  | grace =>
    dsimp only [graceIn]
    split
    · rename_i hp
      split
      · exact does_move id (by rw [hp]; rfl) rfl
      · exact does_still id
    · exact does_still id

theorem pending_start (cfg : WorkerConfig) (db : Db) (clock : Int) :
    pending (start cfg db clock).phase = [] := by
  unfold start
  dsimp only
  split
  · rfl
  · rfl

/-- A claim of the worker sets the rows of its jobs to running, under its id, and no others. -/
theorem taken_rows {cfg : WorkerConfig} {s : Worker} {e : Event} {jobs : List Job}
    (h : (step cfg s e).2 = some (.took jobs)) :
    ∃ plan, Took s.db s.clock cfg.kinds cfg.worker_id plan (step cfg s e).1.db jobs := by
  have hdoes := step_does cfg s e
  rw [h] at hdoes
  generalize (step cfg s e).1 = s' at hdoes
  cases hdoes with
  | took hp hok => exact ⟨_, claim_batch_took hok⟩
  | orphaned hp ho hok => exact ⟨_, claim_batch_took hok⟩

/-- The database changes by a call of somebody else, or by a claim of the worker. -/
theorem db_next {cfg : WorkerConfig} {s s' : Worker} {e : Event} {d : Option Deal}
    (hd : Does cfg s e s' d) : s'.db = s.db ∨ ∃ c : Call, c.now = s.clock ∧
      s'.db = (exec s.db c).1 ∧ (e = .other c.op ∨ ∃ plan, c = claimCall cfg s.clock plan) := by
  cases hd with
  | called op => exact Or.inr ⟨⟨s.clock, op⟩, rfl, rfl, Or.inl rfl⟩
  | @took plan db jobs hs hok =>
    refine Or.inr ⟨claimCall cfg s.clock plan, rfl, ?_, Or.inr ⟨plan, rfl⟩⟩
    rw [exec_claimCall hok]
  | @orphaned plan db jobs hs ho hok =>
    refine Or.inr ⟨claimCall cfg s.clock plan, rfl, ?_, Or.inr ⟨plan, rfl⟩⟩
    rw [exec_claimCall hok]
  | _ => exact Or.inl rfl

theorem good_next {cfg : WorkerConfig} {s s' : Worker} {e : Event} {d : Option Deal}
    (hd : Does cfg s e s' d) (h : s.db.Good) : s'.db.Good := by
  rcases db_next hd with hdb | ⟨c, _, hdb, _⟩
  · rw [hdb]
    exact h
  · rw [hdb]
    exact exec_good h c

end skip_locked.worker
