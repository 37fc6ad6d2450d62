-- The laws of the ends of the loop: which returns have drained, and when a
-- cancelled loop gets to its return with no help of a handler.
import SkipLocked.Bookkeeping

open event_runs

namespace skip_locked.control_loop

open worker (WorkerConfig elapsed MAX_PERMITS)

/-! ## The drain before a return -/

/-- When the loop was left: an error leaves it in the moment of the return. -/
def leftAt (s : Loop) : Int :=
  match s.stage with
  | .draining since => since
  | _ => s.clock

/-- The event is the return of the worker. -/
def Returns (cfg : WorkerConfig) (s : Loop) (e : Event) : Prop :=
  (∀ ok, s.stage ≠ .returned ok) ∧ ∃ ok, (step cfg s e).1.stage = .returned ok

/-- A return comes when no handler is in flight, or when the grace is over. -/
def ReturnsDrained (cfg : WorkerConfig) (s : Loop) (e : Event) : Prop :=
  Returns cfg s e → (step cfg s e).1.tasks = [] ∨
    elapsed cfg.drain_grace (leftAt s) (step cfg s e).1.clock = true

/-- An error of a claim finds no handler in flight, or the grace is zero. And the permits that
the drain asks for are all that there are: the fan-out fits in a `u32`, or each permit is
back, or the grace is over. -/
def DrainFits (cfg : WorkerConfig) (s : Loop) (e : Event) : Prop :=
  (e = .fail → s.stage = .selecting true true →
    s.tasks = [] ∨ elapsed cfg.drain_grace s.clock s.clock = true) ∧
  (∀ since, e = .drained → s.stage = .draining since →
    cfg.fanout_concurrency % 2 ^ 32 ≤ s.available →
    cfg.fanout_concurrency < 2 ^ 32 ∨ s.available = cfg.fanout_concurrency ∨
      elapsed cfg.drain_grace since s.clock = true)

/-- No handler runs before the first claim. -/
structure Permits (cfg : WorkerConfig) (s : Loop) : Prop where
  sum : s.tasks.length + inHand s.stage + s.available = cfg.fanout_concurrency
  before : s.stage = .connecting → s.tasks = []

theorem permits_start (cfg : WorkerConfig) (clock : Int) : Permits cfg (start cfg clock) :=
  ⟨(booked_start cfg clock).permits, fun _ => rfl⟩

theorem permits_step {cfg : WorkerConfig} {s s' : Loop} {e : Event} {d : Option Deal}
    (hs : Permits cfg s) (h : Does cfg s e s' d) : Permits cfg s' := by
  refine ⟨(permits_move h).trans hs.sum, ?_⟩
  cases h with
  | still => exact hs.before
  | cancelled => exact hs.before
  | ticked usecs => exact hs.before
  | turned stage _ hin =>
    rintro rfl
    cases hin
  | got batch hp =>
    intro hstage
    cases batch with
    | nil => cases hstage
    | cons job rest => cases hstage
  | @spawned job rest hp =>
    intro hstage
    cases rest with
    | nil => cases hstage
    | cons next more => cases hstage
  | finished hi =>
    intro hstage
    rw [hs.before hstage] at hi
    simp at hi
  | _ =>
    intro hstage
    cases hstage

/-- All the permits are free just when no handler runs. -/
theorem tasks_nil_iff {cfg : WorkerConfig} {s : Loop} {since : Int} (hs : Permits cfg s)
    (hp : s.stage = .draining since) :
    s.tasks = [] ↔ s.available = cfg.fanout_concurrency := by
  have hsum := hs.sum
  rw [hp] at hsum
  simp only [inHand] at hsum
  rw [← List.length_eq_zero_iff]
  omega

/-- The ways out of the function. -/
inductive WayOut (cfg : WorkerConfig) (s : Loop) : Event → Prop where
  | connect_failed : s.stage = .connecting → WayOut cfg s .connect_failed
  | failed : s.stage = .selecting true true → WayOut cfg s .fail
  | drained {since : Int} : s.stage = .draining since →
      cfg.fanout_concurrency % 2 ^ 32 ≤ s.available → WayOut cfg s .drained
  | graced {since : Int} : s.stage = .draining since →
      elapsed cfg.drain_grace since s.clock = true → WayOut cfg s .grace

theorem stage_ofBatch_ne (clock : Int) (batch : List Job) (ok : Bool) :
    Stage.ofBatch clock batch ≠ .returned ok := by
  cases batch <;> simp [Stage.ofBatch]

theorem stage_ofRest_ne (rest : List Job) (ok : Bool) : Stage.ofRest rest ≠ .returned ok := by
  cases rest <;> simp [Stage.ofRest]

/-- A return is one of the ways out, and it moves no handler and takes no time. -/
theorem wayOut_of_returns {cfg : WorkerConfig} {s : Loop} {e : Event} (h : Returns cfg s e) :
    WayOut cfg s e ∧ (step cfg s e).1.tasks = s.tasks ∧ (step cfg s e).1.clock = s.clock := by
  obtain ⟨hno, ok, hret⟩ := h
  have hdoes := step_does cfg s e
  generalize (step cfg s e).1 = s' at hdoes hret
  generalize (step cfg s e).2 = d at hdoes
  cases hdoes with
  | still => exact absurd hret (hno ok)
  | cancelled => exact absurd hret (hno ok)
  | ticked usecs => exact absurd hret (hno ok)
  | connected _ => cases hret
  | connect_failed hp => exact ⟨WayOut.connect_failed hp, rfl, rfl⟩
  | turned stage _ hin =>
    simp only at hret
    rw [hret] at hin
    cases hin
  | left _ _ => cases hret
  | begun _ => cases hret
  | got batch _ => exact absurd hret (stage_ofBatch_ne _ _ _)
  | failed hp => exact ⟨WayOut.failed hp, rfl, rfl⟩
  | acquired _ _ => cases hret
  | spawned _ => exact absurd hret (stage_ofRest_ne _ _)
  | finished _ => exact absurd hret (hno ok)
  | drained hp ha => exact ⟨WayOut.drained hp ha, rfl, rfl⟩
  | graced hp hg => exact ⟨WayOut.graced hp hg, rfl, rfl⟩

theorem returns_of_wayOut {cfg : WorkerConfig} {s : Loop} {e : Event} (h : WayOut cfg s e) :
    Returns cfg s e := by
  cases h with
  | connect_failed hp => exact ⟨by simp [hp], false, by simp [step, hp]⟩
  | failed hp => exact ⟨by simp [hp], false, by simp [step, hp]⟩
  | drained hp ha => exact ⟨by simp [hp], true, by simp only [step, drainedIn, hp, if_pos ha]⟩
  | graced hp hg => exact ⟨by simp [hp], true, by simp [step, graceIn, hp, hg]⟩

/-- A return that is the way out of an error, or of the drain, is drained as the condition
says. -/
theorem returnsDrained_step {cfg : WorkerConfig} {s : Loop} (hs : Permits cfg s) (e : Event) :
    ReturnsDrained cfg s e ↔ DrainFits cfg s e := by
  constructor
  · intro h
    refine ⟨?_, ?_⟩
    · rintro rfl hp
      have hret : Returns cfg s .fail := returns_of_wayOut (WayOut.failed hp)
      obtain ⟨_, htasks, hclock⟩ := wayOut_of_returns hret
      have hl : leftAt s = s.clock := by simp [leftAt, hp]
      have := h hret
      rwa [htasks, hclock, hl] at this
    · rintro since rfl hp ha
      have hret : Returns cfg s .drained := returns_of_wayOut (WayOut.drained hp ha)
      obtain ⟨_, htasks, hclock⟩ := wayOut_of_returns hret
      have hl : leftAt s = since := by simp [leftAt, hp]
      have := h hret
      rw [htasks, hclock, hl, tasks_nil_iff hs hp] at this
      exact Or.inr this
  · rintro ⟨hfail, hdrain⟩ hret
    obtain ⟨hway, htasks, hclock⟩ := wayOut_of_returns hret
    rw [htasks, hclock]
    cases hway with
    | connect_failed hp => exact Or.inl (hs.before hp)
    | failed hp =>
      have hl : leftAt s = s.clock := by simp [leftAt, hp]
      rw [hl]
      exact hfail rfl hp
    | @drained since hp ha =>
      have hl : leftAt s = since := by simp [leftAt, hp]
      rw [hl, tasks_nil_iff hs hp]
      rcases hdrain since rfl hp ha with hfits | hrest
      · left
        have hsum := hs.sum
        rw [Nat.mod_eq_of_lt hfits] at ha
        omega
      · exact hrest
    | @graced since hp hg =>
      have hl : leftAt s = since := by simp [leftAt, hp]
      rw [hl]
      exact Or.inr hg

/-- Every return of a run has drained, if and only if each error of a claim finds no handler in
flight and each drain asks for all the permits. -/
theorem returns_are_drained_iff (cfg : WorkerConfig) (clock : Int) (events : List Event) :
    EveryStep (step cfg) (ReturnsDrained cfg) (start cfg clock) events ↔
      EveryStep (step cfg) (DrainFits cfg) (start cfg clock) events :=
  everyStep_congr (fun s _ => Permits cfg s) (fun _ e _ hs => returnsDrained_step hs e)
    (fun s e _ hs _ => permits_step hs (step_does cfg s e)) (permits_start cfg clock)

def slowJob : Job := ⟨1, "k", .null, 1⟩

/-- One job in flight, and then the database fails a claim. -/
def oneInFlight : List Event :=
  [.connected, .look, .begin, .answer [slowJob], .acquire, .spawn, .look, .begin]

/-- A fan-out of 2^32: as a `u32` it is 0. -/
def wideFanOut : WorkerConfig := { worker.oneAtATime with fanout_concurrency := 4294967296 }

/-- Two returns leave a handler in flight, with a grace of 30 seconds that has just begun: the
one of a claim that fails, and the one of a drain that asks for no permits. -/
theorem two_returns_leave_a_handler :
    ¬ EveryStep (step worker.oneAtATime) (ReturnsDrained worker.oneAtATime)
      (start worker.oneAtATime 0) (oneInFlight ++ [.fail]) ∧
    ¬ EveryStep (step wideFanOut) (ReturnsDrained wideFanOut) (start wideFanOut 0)
      (oneInFlight ++ [.cancel, .pend, .look] ++ [.drained]) := by
  constructor
  · intro hall
    obtain ⟨_, hlast, _⟩ := everyStep_append.mp hall
    rcases hlast (returns_of_wayOut (WayOut.failed rfl)) with htasks | hgrace
    · cases htasks
    · revert hgrace
      decide +kernel
  · intro hall
    obtain ⟨_, hlast, _⟩ := everyStep_append.mp hall
    rcases hlast (returns_of_wayOut (WayOut.drained rfl (by decide +kernel))) with htasks | hgrace
    · cases htasks
    · revert hgrace
      decide +kernel

/-! ## A return with no help of a handler -/

/-- The steps of the worker itself, the replies of the database, and the timers. -/
def Own : Event → Prop
  | .cancel => False
  | .wake => False
  | .finish _ => False
  | _ => True

/-- The worker can get to its return on its own. -/
def Stops (cfg : WorkerConfig) (s : Loop) : Prop :=
  ∃ events, (∀ e ∈ events, Own e) ∧ ∃ ok, (run (step cfg) s events).stage = .returned ok

/-- The permits that the rest of the batch still has to take. -/
def needed : Stage → Nat
  | .dispatching _ rest true => rest.length
  | .dispatching _ rest false => rest.length + 1
  | _ => 0

@[simp] theorem needed_ofRest (rest : List Job) : needed (.ofRest rest) = rest.length := by
  cases rest <;> rfl

theorem InSelect.needs {p : Stage} (h : InSelect p) : needed p = 0 := by
  cases h <;> rfl

theorem stops_of_step {cfg : WorkerConfig} {s : Loop} (e : Event) (hown : Own e)
    (h : Stops cfg (step cfg s e).1) : Stops cfg s := by
  obtain ⟨events, hall, ok, hret⟩ := h
  refine ⟨e :: events, ?_, ok, hret⟩
  intro e' he'
  rcases List.mem_cons.mp he' with rfl | he'
  · exact hown
  · exact hall e' he'

/-- The grace ends the drain, however many handlers hang. -/
theorem stops_draining {cfg : WorkerConfig} {s : Loop} {since : Int}
    (hp : s.stage = .draining since) : Stops cfg s := by
  obtain ⟨usecs, hover⟩ : ∃ usecs : Nat,
      elapsed cfg.drain_grace since (s.clock + usecs) = true := by
    refine ⟨(cfg.drain_grace.secs * 1000000000 + cfg.drain_grace.nanos +
      (since - s.clock)).toNat, ?_⟩
    unfold elapsed
    rw [decide_eq_true_eq]
    omega
  refine ⟨[.tick usecs, .grace], by simp [Own], true, ?_⟩
  simp only [run_cons, run_nil, step, graceIn, hp, hover, if_true]

theorem stops_selecting {cfg : WorkerConfig} {s : Loop} {looked begun : Bool}
    (hc : s.cancelled = true) (hp : s.stage = .selecting looked begun) : Stops cfg s := by
  have hfresh : ∀ (t : Loop) (b : Bool), t.cancelled = true → t.stage = .selecting false b →
      Stops cfg t := by
    intro t b hct hpt
    refine stops_of_step .look trivial ?_
    simp only [step, lookIn, hpt, hct, if_true]
    exact stops_draining rfl
  have hbegun : ∀ (t : Loop), t.cancelled = true → t.stage = .selecting true true →
      Stops cfg t := by
    intro t hct hpt
    refine stops_of_step .pend trivial ?_
    simp only [step, pendIn, hpt]
    exact hfresh _ true hct rfl
  cases looked with
  | false => exact hfresh s begun hc hp
  | true =>
    cases begun with
    | true => exact hbegun s hc hp
    | false =>
      refine stops_of_step .begin trivial ?_
      simp only [step, hp]
      exact hbegun _ hc rfl

theorem stops_idle {cfg : WorkerConfig} {s : Loop} {since : Int} {looked : Bool}
    (hc : s.cancelled = true) (hp : s.stage = .idle since looked) : Stops cfg s := by
  have hfresh : ∀ (t : Loop), t.cancelled = true → t.stage = .idle since false → Stops cfg t := by
    intro t hct hpt
    refine stops_of_step .look trivial ?_
    simp only [step, lookIn, hpt, hct, if_true]
    exact stops_draining rfl
  cases looked with
  | false => exact hfresh s hc hp
  | true =>
    refine stops_of_step .pend trivial ?_
    simp only [step, pendIn, hp]
    exact hfresh _ hc rfl

/-- With permits for the rest of the batch, the loop gets through it. -/
theorem stops_dispatching {cfg : WorkerConfig} {rest : List Job} {s : Loop} {job : Job}
    {permit : Bool} (hc : s.cancelled = true) (hp : s.stage = .dispatching job rest permit)
    (hn : needed s.stage ≤ s.available) : Stops cfg s := by
  induction rest generalizing s job permit with
  | nil =>
    have hheld : ∀ (t : Loop), t.cancelled = true → t.stage = .dispatching job [] true →
        Stops cfg t := by
      intro t hct hpt
      refine stops_of_step .spawn trivial ?_
      simp only [step, spawnIn, hpt]
      exact stops_selecting hct rfl
    cases permit with
    | true => exact hheld s hc hp
    | false =>
      rw [hp] at hn
      have hn : 1 ≤ s.available := hn
      refine stops_of_step .acquire trivial ?_
      simp only [step, acquireIn, hp]
      rw [if_pos (by omega)]
      exact hheld _ hc rfl
  | cons next more ih =>
    have hheld : ∀ (t : Loop), t.cancelled = true → t.stage = .dispatching job (next :: more) true →
        more.length + 1 ≤ t.available → Stops cfg t := by
      intro t hct hpt hnt
      refine stops_of_step .spawn trivial ?_
      simp only [step, spawnIn, hpt]
      exact ih hct rfl hnt
    rw [hp] at hn
    cases permit with
    | true => exact hheld s hc hp hn
    | false =>
      have hn : more.length + 1 + 1 ≤ s.available := hn
      refine stops_of_step .acquire trivial ?_
      simp only [step, acquireIn, hp]
      rw [if_pos (by omega)]
      refine hheld _ hc rfl ?_
      dsimp only
      omega

/-- A batch that needs more permits than are free stays so while no handler ends. -/
theorem stuck_step {cfg : WorkerConfig} {s s' : Loop} {e : Event} {d : Option Deal}
    (h : Does cfg s e s' d) (hown : Own e) (hs : s.available < needed s.stage) :
    s'.available < needed s'.stage := by
  cases h with
  | still => exact hs
  | cancelled => exact hs
  | ticked usecs => exact hs
  | turned stage hin _ =>
    rw [hin.needs] at hs
    omega
  | left hin _ =>
    rw [hin.needs] at hs
    omega
  | acquired hp ha =>
    rw [hp] at hs
    simp only [needed] at hs ⊢
    omega
  | spawned hp =>
    rw [hp] at hs
    rw [needed_ofRest]
    exact hs
  | finished _ => exact absurd hown id
  | connected hp => simp [hp, needed] at hs
  | connect_failed hp => simp [hp, needed] at hs
  | begun hp => simp [hp, needed] at hs
  | got _ hp => simp [hp, needed] at hs
  | failed hp => simp [hp, needed] at hs
  | drained hp _ => simp [hp, needed] at hs
  | graced hp _ => simp [hp, needed] at hs

theorem panicked_step {cfg : WorkerConfig} {s s' : Loop} {e : Event} {d : Option Deal}
    (h : Does cfg s e s' d) : s'.stage = .panicked ↔ s.stage = .panicked := by
  cases h with
  | still => exact Iff.rfl
  | cancelled => exact Iff.rfl
  | ticked usecs => exact Iff.rfl
  | turned stage hin hin' =>
    constructor
    · rintro rfl
      cases hin'
    · intro hp
      rw [hp] at hin
      cases hin
  | left hin _ =>
    constructor
    · intro hp
      cases hp
    · intro hp
      rw [hp] at hin
      cases hin
  | got batch hp => cases batch <;> simp [hp, Stage.ofBatch]
  | @spawned job rest hp => cases rest <;> simp [hp, Stage.ofRest]
  | finished _ => exact Iff.rfl
  | connected hp => simp [hp]
  | connect_failed hp => simp [hp]
  | begun hp => simp [hp]
  | failed hp => simp [hp]
  | acquired hp _ => simp [hp]
  | drained hp _ => simp [hp]
  | graced hp _ => simp [hp]

theorem stuck_run {cfg : WorkerConfig} {events : List Event} {s : Loop}
    (hall : ∀ e ∈ events, Own e) (hs : s.available < needed s.stage) :
    (run (step cfg) s events).available < needed (run (step cfg) s events).stage := by
  induction events generalizing s with
  | nil => exact hs
  | cons e rest ih =>
    refine ih (fun e' he' => hall e' (List.mem_cons_of_mem _ he')) ?_
    exact stuck_step (step_does cfg s e) (hall e List.mem_cons_self) hs

theorem not_stops_of_stuck {cfg : WorkerConfig} {s : Loop} (hs : s.available < needed s.stage) :
    ¬ Stops cfg s := by
  rintro ⟨events, hall, ok, hret⟩
  have hend := @stuck_run cfg events s hall hs
  rw [hret] at hend
  simp [needed] at hend

theorem panicked_run (cfg : WorkerConfig) (s : Loop) (events : List Event) :
    (run (step cfg) s events).stage = .panicked ↔ s.stage = .panicked :=
  run_invariant (P := fun t : Loop => t.stage = .panicked ↔ s.stage = .panicked) Iff.rfl
    (fun t e ht => (panicked_step (step_does cfg t e)).trans ht) events

theorem panicked_start (cfg : WorkerConfig) (clock : Int) :
    (start cfg clock).stage = .panicked ↔ MAX_PERMITS < cfg.fanout_concurrency := by
  unfold start
  dsimp only
  split
  · rename_i hle
    simp
    omega
  · rename_i hgt
    simp
    omega

/-- A cancelled worker gets to its return on its own, if and only if its semaphore was accepted
and the free permits are enough for the rest of its batch. -/
theorem a_cancelled_loop_stops_iff (cfg : WorkerConfig) (clock : Int) (events : List Event)
    (hc : (run (step cfg) (start cfg clock) events).cancelled = true) :
    Stops cfg (run (step cfg) (start cfg clock) events) ↔
      cfg.fanout_concurrency ≤ MAX_PERMITS ∧
      needed (run (step cfg) (start cfg clock) events).stage ≤
        (run (step cfg) (start cfg clock) events).available := by
  have hpanic := (panicked_run cfg (start cfg clock) events).trans (panicked_start cfg clock)
  generalize run (step cfg) (start cfg clock) events = s at hc hpanic
  constructor
  · intro hstops
    refine ⟨?_, ?_⟩
    · by_contra hgt
      obtain ⟨more, _, ok, hret⟩ := hstops
      have hp : s.stage = .panicked := hpanic.mpr (by omega)
      have hend := (panicked_run cfg s more).mpr hp
      rw [hret] at hend
      cases hend
    · by_contra hstuck
      exact not_stops_of_stuck (by omega) hstops
  · rintro ⟨haccepted, hn⟩
    cases hp : s.stage with
    | connecting =>
      refine stops_of_step .connected trivial ?_
      simp only [step, hp]
      exact stops_selecting hc rfl
    | selecting looked begun => exact stops_selecting hc hp
    | idle since looked => exact stops_idle hc hp
    | dispatching job rest permit => exact stops_dispatching hc hp hn
    | draining since => exact stops_draining hp
    | returned ok => exact ⟨[], by simp, ok, hp⟩
    | panicked =>
      have := hpanic.mp hp
      omega

/-- The token fires while a job waits for a permit that is free. -/
theorem a_free_permit_lets_it_stop :
    Stops worker.oneAtATime (run (step worker.oneAtATime) (start worker.oneAtATime 0)
      [.connected, .look, .begin, .answer [slowJob], .cancel]) :=
  (a_cancelled_loop_stops_iff worker.oneAtATime 0
    [.connected, .look, .begin, .answer [slowJob], .cancel] rfl).mpr
    ⟨by decide, by decide +kernel⟩

/-- The token fires while the second job of a batch waits for the permit of the first, whose
handler hangs: the worker never returns. -/
theorem a_hung_handler_holds_the_batch :
    (run (step worker.oneAtATime) (start worker.oneAtATime 0)
      [.connected, .look, .begin, .answer [slowJob, slowJob], .acquire, .spawn,
        .cancel]).cancelled = true ∧
    ¬ Stops worker.oneAtATime (run (step worker.oneAtATime) (start worker.oneAtATime 0)
      [.connected, .look, .begin, .answer [slowJob, slowJob], .acquire, .spawn, .cancel]) :=
  ⟨rfl, not_stops_of_stuck (by decide +kernel)⟩

end skip_locked.control_loop
