-- `src/worker.rs`: the control of `run_worker`, for any replies of the database.
-- A poll of a `select!` looks at the token first and at its other arms after
-- that, and the token may fire between the two.
import SkipLocked.Worker

open event_runs

namespace skip_locked.control_loop

open worker

/-! ## The state -/

/-- Where the loop is. In a `select!`, `looked` says that the poll has looked at the token and
did not find it cancelled, and `begun` that the claim was polled once. In the `for` over a
batch, `permit` says that the loop holds the permit for `job`. -/
inductive Stage where
  | connecting
  | selecting (looked begun : Bool)
  | idle (since : Int) (looked : Bool)
  | dispatching (job : Job) (rest : List Job) (permit : Bool)
  | draining (since : Int)
  | returned (ok : Bool)
  | panicked

/-- The worker: the running handlers are its tasks, and each holds a permit. -/
structure Loop where
  clock : Int
  cancelled : Bool
  stage : Stage
  available : Nat
  tasks : List Job

def start (cfg : WorkerConfig) (clock : Int) : Loop :=
  { clock, cancelled := false,
    stage := if cfg.fanout_concurrency ≤ MAX_PERMITS then .connecting else .panicked,
    available := cfg.fanout_concurrency, tasks := [] }

inductive Event where
  /-- The token fires, or time passes. -/
  | cancel
  | tick (usecs : Nat)
  /-- The listener connects and listens, or fails to. -/
  | connected
  | connect_failed
  /-- A poll of a `select!` looks at the token, and a poll ends with nothing ready. -/
  | look
  | pend
  /-- The claim begins, and its reply arrives: a batch of any jobs, or an error. -/
  | begin
  | answer (batch : List Job)
  | fail
  /-- The idle loop takes a notification or finds the listener broken, or its timer ends. -/
  | wake
  | timeout
  /-- The loop takes a permit, and spawns its handler. -/
  | acquire
  | spawn
  /-- A handler ends or panics: its permit drops. -/
  | finish (i : Nat)
  /-- The drain gets its permits, or its grace ends. -/
  | drained
  | grace

/-- What a step reports: a claim begins, a batch comes, a job goes to the handler, a handler
ends. -/
inductive Deal where
  | begun
  | got (batch : List Job)
  | handed (job : Job)
  | ended (job : Job)

/-! ## The steps -/

def lookIn (s : Loop) : Loop :=
  match s.stage with
  | .selecting false begun =>
    if s.cancelled then { s with stage := .draining s.clock }
    else { s with stage := .selecting true begun }
  | .idle since false =>
    if s.cancelled then { s with stage := .draining s.clock }
    else { s with stage := .idle since true }
  | _ => s

def pendIn (s : Loop) : Loop :=
  match s.stage with
  | .selecting true true => { s with stage := .selecting false true }
  | .idle since true => { s with stage := .idle since false }
  | _ => s

/-- The loop with a batch: an empty one makes it wait. -/
def Stage.ofBatch (clock : Int) : List Job → Stage
  | [] => .idle clock false
  | job :: rest => .dispatching job rest false

/-- The loop with the jobs that the `for` has left. -/
def Stage.ofRest : List Job → Stage
  | [] => .selecting false false
  | job :: rest => .dispatching job rest false

def answerIn (s : Loop) (batch : List Job) : Loop × Option Deal :=
  match s.stage with
  | .selecting true true => ({ s with stage := .ofBatch s.clock batch }, some (.got batch))
  | _ => (s, none)

def wakeIn (s : Loop) : Loop :=
  match s.stage with
  | .idle _ true => { s with stage := .selecting false false }
  | _ => s

def timeoutIn (cfg : WorkerConfig) (s : Loop) : Loop :=
  match s.stage with
  | .idle since true =>
    if elapsed cfg.poll_interval since s.clock then { s with stage := .selecting false false }
    else s
  | _ => s

def acquireIn (s : Loop) : Loop :=
  match s.stage with
  | .dispatching job rest false =>
    if 0 < s.available then
      { s with available := s.available - 1, stage := .dispatching job rest true }
    else s
  | _ => s

def spawnIn (s : Loop) : Loop × Option Deal :=
  match s.stage with
  | .dispatching job rest true =>
    ({ s with tasks := job :: s.tasks, stage := .ofRest rest }, some (.handed job))
  | _ => (s, none)

def finishIn (s : Loop) (i : Nat) : Loop × Option Deal :=
  match s.tasks[i]? with
  | some job =>
    ({ s with tasks := s.tasks.eraseIdx i, available := s.available + 1 }, some (.ended job))
  | none => (s, none)

/-- `acquire_many(fanout_concurrency as u32)`. -/
def drainedIn (cfg : WorkerConfig) (s : Loop) : Loop :=
  match s.stage with
  | .draining _ =>
    if cfg.fanout_concurrency % 2 ^ 32 ≤ s.available then { s with stage := .returned true } else s
  | _ => s

def graceIn (cfg : WorkerConfig) (s : Loop) : Loop :=
  match s.stage with
  | .draining since =>
    if elapsed cfg.drain_grace since s.clock then { s with stage := .returned true } else s
  | _ => s

/-- One event. An event that cannot happen in a state leaves it as it is. -/
def step (cfg : WorkerConfig) (s : Loop) : Event → Loop × Option Deal
  | .cancel => ({ s with cancelled := true }, none)
  | .tick usecs => ({ s with clock := s.clock + usecs }, none)
  | .connected =>
    match s.stage with
    | .connecting => ({ s with stage := .selecting false false }, none)
    | _ => (s, none)
  | .connect_failed =>
    match s.stage with
    | .connecting => ({ s with stage := .returned false }, none)
    | _ => (s, none)
  | .look => (lookIn s, none)
  | .pend => (pendIn s, none)
  | .begin =>
    match s.stage with
    | .selecting true false => ({ s with stage := .selecting true true }, some .begun)
    | _ => (s, none)
  | .answer batch => answerIn s batch
  | .fail =>
    match s.stage with
    | .selecting true true => ({ s with stage := .returned false }, none)
    | _ => (s, none)
  | .wake => (wakeIn s, none)
  | .timeout => (timeoutIn cfg s, none)
  | .acquire => (acquireIn s, none)
  | .spawn => spawnIn s
  | .finish i => finishIn s i
  | .drained => (drainedIn cfg s, none)
  | .grace => (graceIn cfg s, none)

/-! ## What an event does -/

/-- The jobs of the batch that have no handler yet. -/
def waiting : Stage → List Job
  | .dispatching job rest _ => job :: rest
  | _ => []

/-- The permits that the loop holds between `acquire` and `spawn`. -/
def inHand : Stage → Nat
  | .dispatching _ _ true => 1
  | _ => 0

/-- The loop waits for a claim that it has begun. -/
def claiming : Stage → Bool
  | .selecting _ begun => begun
  | _ => false

/-- The loop is in one of its two `select!`s. -/
inductive InSelect : Stage → Prop where
  | selecting (looked begun : Bool) : InSelect (.selecting looked begun)
  | idle (since : Int) (looked : Bool) : InSelect (.idle since looked)

theorem InSelect.waits {p : Stage} (h : InSelect p) : waiting p = [] := by
  cases h <;> rfl

theorem InSelect.holds {p : Stage} (h : InSelect p) : inHand p = 0 := by
  cases h <;> rfl

@[simp] theorem waiting_ofBatch (clock : Int) (batch : List Job) :
    waiting (.ofBatch clock batch) = batch := by
  cases batch <;> rfl

@[simp] theorem inHand_ofBatch (clock : Int) (batch : List Job) :
    inHand (.ofBatch clock batch) = 0 := by
  cases batch <;> rfl

@[simp] theorem waiting_ofRest (rest : List Job) : waiting (.ofRest rest) = rest := by
  cases rest <;> rfl

@[simp] theorem inHand_ofRest (rest : List Job) : inHand (.ofRest rest) = 0 := by
  cases rest <;> rfl

/-- All that an event can do. -/
inductive Does (cfg : WorkerConfig) (s : Loop) : Event → Loop → Option Deal → Prop where
  | still {e : Event} : Does cfg s e s none
  | cancelled : Does cfg s .cancel { s with cancelled := true } none
  | ticked (usecs : Nat) : Does cfg s (.tick usecs) { s with clock := s.clock + usecs } none
  | connected : s.stage = .connecting →
      Does cfg s .connected { s with stage := .selecting false false } none
  | connect_failed : s.stage = .connecting →
      Does cfg s .connect_failed { s with stage := .returned false } none
  | turned {e : Event} (stage : Stage) : InSelect s.stage → InSelect stage →
      (claiming stage = true → claiming s.stage = true) → Does cfg s e { s with stage } none
  | left : InSelect s.stage → s.cancelled = true →
      Does cfg s .look { s with stage := .draining s.clock } none
  | begun : s.stage = .selecting true false →
      Does cfg s .begin { s with stage := .selecting true true } (some .begun)
  | got (batch : List Job) : s.stage = .selecting true true →
      Does cfg s (.answer batch) { s with stage := .ofBatch s.clock batch } (some (.got batch))
  | failed : s.stage = .selecting true true →
      Does cfg s .fail { s with stage := .returned false } none
  | acquired {job : Job} {rest : List Job} : s.stage = .dispatching job rest false →
      0 < s.available → Does cfg s .acquire
        { s with available := s.available - 1, stage := .dispatching job rest true } none
  | spawned {job : Job} {rest : List Job} : s.stage = .dispatching job rest true →
      Does cfg s .spawn { s with tasks := job :: s.tasks, stage := .ofRest rest }
        (some (.handed job))
  | finished {i : Nat} {job : Job} : s.tasks[i]? = some job →
      Does cfg s (.finish i)
        { s with tasks := s.tasks.eraseIdx i, available := s.available + 1 } (some (.ended job))
  | drained {since : Int} : s.stage = .draining since →
      cfg.fanout_concurrency % 2 ^ 32 ≤ s.available →
      Does cfg s .drained { s with stage := .returned true } none
  | graced {since : Int} : s.stage = .draining since →
      elapsed cfg.drain_grace since s.clock = true →
      Does cfg s .grace { s with stage := .returned true } none

theorem does_look (cfg : WorkerConfig) (s : Loop) : Does cfg s .look (lookIn s) none := by
  unfold lookIn
  split
  · rename_i begun hp
    have hin : InSelect s.stage := hp ▸ InSelect.selecting false begun
    split
    · rename_i hc
      exact Does.left hin hc
    · refine Does.turned _ hin (InSelect.selecting true begun) (fun hb => ?_)
      rw [hp]
      exact hb
  · rename_i since hp
    have hin : InSelect s.stage := hp ▸ InSelect.idle since false
    split
    · rename_i hc
      exact Does.left hin hc
    · exact Does.turned _ hin (InSelect.idle since true) (fun hb => absurd hb (by simp [claiming]))
  · exact Does.still

theorem does_pend (cfg : WorkerConfig) (s : Loop) : Does cfg s .pend (pendIn s) none := by
  unfold pendIn
  split
  · rename_i hp
    refine Does.turned _ (hp ▸ InSelect.selecting true true) (InSelect.selecting false true)
      (fun hb => ?_)
    rw [hp]
    exact hb
  · rename_i since hp
    exact Does.turned _ (hp ▸ InSelect.idle since true) (InSelect.idle since false)
      (fun hb => absurd hb (by simp [claiming]))
  · exact Does.still

theorem does_timeout (cfg : WorkerConfig) (s : Loop) :
    Does cfg s .timeout (timeoutIn cfg s) none := by
  unfold timeoutIn
  split
  · rename_i since hp
    split
    · exact Does.turned _ (hp ▸ InSelect.idle since true) (InSelect.selecting false false)
        (fun hb => absurd hb (by simp [claiming]))
    · exact Does.still
  · exact Does.still

/-- Every event does one of these. -/
theorem step_does (cfg : WorkerConfig) (s : Loop) (e : Event) :
    Does cfg s e (step cfg s e).1 (step cfg s e).2 := by
  unfold step
  cases e with
  | cancel => exact Does.cancelled
  | tick usecs => exact Does.ticked usecs
  | connected =>
    dsimp only
    split
    · rename_i hp
      exact Does.connected hp
    · exact Does.still
  | connect_failed =>
    dsimp only
    split
    · rename_i hp
      exact Does.connect_failed hp
    · exact Does.still
  | look => exact does_look cfg s
  | pend => exact does_pend cfg s
  | begin =>
    dsimp only
    split
    · rename_i hp
      exact Does.begun hp
    · exact Does.still
  | answer batch =>
    dsimp only [answerIn]
    split
    · rename_i hp
      exact Does.got batch hp
    · exact Does.still
  | fail =>
    dsimp only
    split
    · rename_i hp
      exact Does.failed hp
    · exact Does.still
  | wake =>
    dsimp only [wakeIn]
    split
    · rename_i since hp
      exact Does.turned _ (hp ▸ InSelect.idle since true) (InSelect.selecting false false)
        (fun hb => absurd hb (by simp [claiming]))
    · exact Does.still
  | timeout => exact does_timeout cfg s
  | acquire =>
    dsimp only [acquireIn]
    split
    · rename_i hp
      split
      · rename_i ha
        exact Does.acquired hp ha
      · exact Does.still
    · exact Does.still
  | spawn =>
    dsimp only [spawnIn]
    split
    · rename_i hp
      exact Does.spawned hp
    · exact Does.still
  | finish i =>
    dsimp only [finishIn]
    split
    · rename_i hi
      exact Does.finished hi
    · exact Does.still
  | drained =>
    dsimp only [drainedIn]
    split
    · rename_i hp
      split
      · rename_i ha
        exact Does.drained hp ha
      · exact Does.still
    · exact Does.still
  | grace =>
    dsimp only [graceIn]
    split
    · rename_i hp
      split
      · rename_i ha
        exact Does.graced hp ha
      · exact Does.still
    · exact Does.still

end skip_locked.control_loop
