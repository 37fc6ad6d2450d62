-- The laws of the loop's books: the permits add up to the fan-out, each job of
-- a batch goes to the handler once and in its turn, and no claim begins while a
-- job waits or after the token was found cancelled.
import SkipLocked.Loop
import SkipLocked.Shutdown

open event_runs

namespace skip_locked.control_loop

open worker (WorkerConfig)

/-! ## The events of a run -/

/-- The batch that an event brings: the answer to the claim that the loop waits for. -/
def batchIn (s : Loop) : Event → List Job
  | .answer batch =>
    match s.stage with
    | .selecting true true => batch
    | _ => []
  | _ => []

/-- The job that an event gives to a handler: the next one, when the loop holds its permit. -/
def jobIn (s : Loop) : Event → List Job
  | .spawn =>
    match s.stage with
    | .dispatching job _ true => [job]
    | _ => []
  | _ => []

/-- The job whose handler ends or panics. -/
def endIn (s : Loop) : Event → List Job
  | .finish i => s.tasks[i]?.toList
  | _ => []

/-- The event begins a claim. -/
def Begins (cfg : WorkerConfig) (s : Loop) (e : Event) : Prop :=
  claiming s.stage = false ∧ claiming (step cfg s e).1.stage = true

/-- The jobs of all the batches that came, those that went to a handler, and those whose
handler has ended, for the events of a run with the states that they met. -/
def received (m : List (Loop × Event)) : List Job := m.flatMap (fun x => batchIn x.1 x.2)

def handed (m : List (Loop × Event)) : List Job := m.flatMap (fun x => jobIn x.1 x.2)

def ended (m : List (Loop × Event)) : List Job := m.flatMap (fun x => endIn x.1 x.2)

/-- The jobs are the end of one batch, and no claim has begun since that batch came. -/
def OfOneBatch (cfg : WorkerConfig) (m : List (Loop × Event)) (w : List Job) : Prop :=
  ∃ before s batch later, m = before ++ (s, .answer batch) :: later ∧
    s.stage = .selecting true true ∧ (∀ x ∈ later, ¬ Begins cfg x.1 x.2) ∧ w.IsSuffix batch

/-! ## What a step reports -/

def gotOf : Option Deal → List Job
  | some (.got batch) => batch
  | _ => []

def handedOf : Option Deal → List Job
  | some (.handed job) => [job]
  | _ => []

def endedOf : Option Deal → List Job
  | some (.ended job) => [job]
  | _ => []

theorem step_reports (cfg : WorkerConfig) (s : Loop) (e : Event) :
    gotOf (step cfg s e).2 = batchIn s e ∧ handedOf (step cfg s e).2 = jobIn s e ∧
      endedOf (step cfg s e).2 = endIn s e := by
  cases e with
  | answer batch =>
    simp only [step, answerIn, batchIn]
    cases s.stage with
    | selecting looked begun => cases looked <;> cases begun <;> exact ⟨rfl, rfl, rfl⟩
    | _ => exact ⟨rfl, rfl, rfl⟩
  | spawn =>
    simp only [step, spawnIn, jobIn]
    cases s.stage with
    | dispatching job rest permit => cases permit <;> exact ⟨rfl, rfl, rfl⟩
    | _ => exact ⟨rfl, rfl, rfl⟩
  | finish i =>
    simp only [step, finishIn, endIn]
    split
    · rename_i hi
      rw [hi]
      exact ⟨rfl, rfl, rfl⟩
    · rename_i hi
      rw [hi]
      exact ⟨rfl, rfl, rfl⟩
  | begin | connected | connect_failed | fail =>
    simp only [step]
    split <;> exact ⟨rfl, rfl, rfl⟩
  | _ => exact ⟨rfl, rfl, rfl⟩

/-- Only the event `begin` begins a claim, in a poll that has looked at the token. -/
theorem begins_iff {cfg : WorkerConfig} {s : Loop} {e : Event} :
    Begins cfg s e ↔ e = .begin ∧ s.stage = .selecting true false := by
  constructor
  · rintro ⟨hno, hyes⟩
    have hdoes := step_does cfg s e
    generalize (step cfg s e).1 = s' at hdoes hyes
    generalize (step cfg s e).2 = d at hdoes
    cases hdoes with
    | begun hp => exact ⟨rfl, hp⟩
    | turned stage _ _ hc => exact absurd (hc hyes) (by simp [hno])
    | got batch _ => cases batch <;> cases hyes
    | @spawned job rest _ => cases rest <;> cases hyes
    | still => exact absurd hyes (by simp [hno])
    | cancelled => exact absurd hyes (by simp [hno])
    | ticked usecs => exact absurd hyes (by simp [hno])
    | finished _ => exact absurd hyes (by simp [hno])
    | _ => cases hyes
  · rintro ⟨rfl, hp⟩
    simp [Begins, claiming, step, hp]

theorem begun_iff {cfg : WorkerConfig} {s : Loop} {e : Event} :
    (step cfg s e).2 = some .begun ↔ Begins cfg s e := by
  rw [begins_iff]
  constructor
  · intro hd
    have hdoes := step_does cfg s e
    rw [hd] at hdoes
    generalize (step cfg s e).1 = s' at hdoes
    cases hdoes with
    | begun hp => exact ⟨rfl, hp⟩
  · rintro ⟨rfl, hp⟩
    simp [step, hp]

/-! ## One event -/

theorem permits_move {cfg : WorkerConfig} {s s' : Loop} {e : Event} {d : Option Deal}
    (h : Does cfg s e s' d) :
    s'.tasks.length + inHand s'.stage + s'.available =
      s.tasks.length + inHand s.stage + s.available := by
  cases h with
  | still => rfl
  | cancelled => rfl
  | ticked usecs => rfl
  | connected hp => simp [hp, inHand]
  | connect_failed hp => simp [hp, inHand]
  | turned stage hs hs' => simp [hs.holds, hs'.holds]
  | left hs _ =>
    rw [hs.holds]
    rfl
  | begun hp => simp [hp, inHand]
  | got batch hp =>
    rw [hp, inHand_ofBatch]
    rfl
  | failed hp => simp [hp, inHand]
  | acquired hp ha =>
    simp only [hp, inHand]
    omega
  | spawned hp =>
    rw [hp, inHand_ofRest]
    simp only [inHand, List.length_cons]
  | finished hi =>
    obtain ⟨hlt, _⟩ := List.getElem?_eq_some_iff.mp hi
    simp only [List.length_eraseIdx_of_lt hlt]
    omega
  | drained hp _ => simp [hp, inHand]
  | graced hp _ => simp [hp, inHand]

/-- The jobs that wait and those that come are those that go to a handler and those that wait
then, in order. -/
theorem jobs_move {cfg : WorkerConfig} {s s' : Loop} {e : Event} {d : Option Deal}
    (h : Does cfg s e s' d) :
    waiting s.stage ++ gotOf d = handedOf d ++ waiting s'.stage := by
  cases h with
  | still => simp [gotOf, handedOf]
  | cancelled => simp [gotOf, handedOf]
  | ticked usecs => simp [gotOf, handedOf]
  | connected hp => simp [hp, waiting, gotOf, handedOf]
  | connect_failed hp => simp [hp, waiting, gotOf, handedOf]
  | turned stage hs hs' => simp [hs.waits, hs'.waits, gotOf, handedOf]
  | left hs _ =>
    rw [hs.waits]
    rfl
  | begun hp => simp [hp, waiting, gotOf, handedOf]
  | got batch hp =>
    rw [hp, waiting_ofBatch]
    rfl
  | failed hp => simp [hp, waiting, gotOf, handedOf]
  | acquired hp _ => simp [hp, waiting, gotOf, handedOf]
  | spawned hp =>
    rw [hp, waiting_ofRest]
    simp [waiting, gotOf, handedOf]
  | finished _ => simp [gotOf, handedOf]
  | drained hp _ => simp [hp, waiting, gotOf, handedOf]
  | graced hp _ => simp [hp, waiting, gotOf, handedOf]

theorem tasks_move {cfg : WorkerConfig} {s s' : Loop} {e : Event} {d : Option Deal}
    (h : Does cfg s e s' d) : (handedOf d ++ s.tasks).Perm (s'.tasks ++ endedOf d) := by
  cases h with
  | spawned hp => simp [handedOf, endedOf]
  | @finished i job hi =>
    obtain ⟨hlt, hget⟩ := List.getElem?_eq_some_iff.mp hi
    have hsplit : s.tasks = s.tasks.take i ++ job :: s.tasks.drop (i + 1) := by
      rw [← hget, List.getElem_cons_drop, List.take_append_drop]
    rw [List.eraseIdx_eq_take_drop_succ]
    conv_lhs => rw [hsplit]
    simp only [handedOf, endedOf, List.nil_append]
    exact List.perm_middle.trans (List.perm_append_singleton _ _).symm
  | _ => simp [handedOf, endedOf]

theorem ofOneBatch_more {cfg : WorkerConfig} {m : List (Loop × Event)} {w w' : List Job}
    {s : Loop} {e : Event} (hb : OfOneBatch cfg m w) (hw : w'.IsSuffix w)
    (hno : ¬ Begins cfg s e) : OfOneBatch cfg (m ++ [(s, e)]) w' := by
  obtain ⟨before, t, batch, later, rfl, ht, hlater, hsuf⟩ := hb
  refine ⟨before, t, batch, later ++ [(s, e)], by simp, ht, ?_, hw.trans hsuf⟩
  intro x hx
  rcases List.mem_append.mp hx with hx | hx
  · exact hlater x hx
  · rw [List.mem_singleton] at hx
    rw [hx]
    exact hno

theorem batch_moves {cfg : WorkerConfig} {s s' : Loop} {e : Event} {d : Option Deal}
    {m : List (Loop × Event)} (hdoes : Does cfg s e s' d) (hno : d ≠ some .begun → ¬ Begins cfg s e)
    (hb : waiting s.stage ≠ [] → OfOneBatch cfg m (waiting s.stage)) (hw : waiting s'.stage ≠ []) :
    OfOneBatch cfg (m ++ [(s, e)]) (waiting s'.stage) := by
  cases hdoes with
  | still => exact ofOneBatch_more (hb hw) List.suffix_rfl (hno (by simp))
  | cancelled => exact ofOneBatch_more (hb hw) List.suffix_rfl (hno (by simp))
  | ticked usecs => exact ofOneBatch_more (hb hw) List.suffix_rfl (hno (by simp))
  | turned stage _ hs' _ => exact absurd hs'.waits hw
  | got batch hp =>
    refine ⟨m, s, batch, [], rfl, hp, by simp, ?_⟩
    simp only [waiting_ofBatch, List.suffix_rfl]
  | acquired hp _ =>
    rw [hp] at hb
    exact ofOneBatch_more (hb (by simp [waiting])) List.suffix_rfl (hno (by simp))
  | @spawned job rest hp =>
    rw [hp] at hb
    rw [waiting_ofRest] at hw ⊢
    exact ofOneBatch_more (hb (by simp [waiting])) (List.suffix_cons job rest) (hno (by simp))
  | finished _ => exact ofOneBatch_more (hb hw) List.suffix_rfl (hno (by simp))
  | _ => exact absurd rfl hw

/-! ## Every run -/

/-- The books of a run that has come to a state. -/
structure Booked (cfg : WorkerConfig) (m : List (Loop × Event)) (s : Loop) : Prop where
  permits : s.tasks.length + inHand s.stage + s.available = cfg.fanout_concurrency
  order : received m = handed m ++ waiting s.stage
  tasks : (handed m).Perm (s.tasks ++ ended m)
  batch : waiting s.stage ≠ [] → OfOneBatch cfg m (waiting s.stage)

theorem moved_snoc (m : List (Loop × Event)) (s : Loop) (e : Event) :
    received (m ++ [(s, e)]) = received m ++ batchIn s e ∧
    handed (m ++ [(s, e)]) = handed m ++ jobIn s e ∧
    ended (m ++ [(s, e)]) = ended m ++ endIn s e := by
  simp [received, handed, ended]

theorem booked_start (cfg : WorkerConfig) (clock : Int) : Booked cfg [] (start cfg clock) := by
  have hw : waiting (start cfg clock).stage = [] := by
    unfold start
    dsimp only
    split <;> rfl
  have hh : inHand (start cfg clock).stage = 0 := by
    unfold start
    dsimp only
    split <;> rfl
  refine ⟨?_, ?_, ?_, fun hne => absurd hw hne⟩
  · rw [hh]
    simp [start]
  · rw [hw]
    rfl
  · exact List.Perm.refl []

theorem booked_step {cfg : WorkerConfig} {m : List (Loop × Event)} {s : Loop}
    (hs : Booked cfg m s) (e : Event) : Booked cfg (m ++ [(s, e)]) (step cfg s e).1 := by
  obtain ⟨hpermits, horder, htasks, hbatch⟩ := hs
  have hdoes := step_does cfg s e
  obtain ⟨hr, hh, he⟩ := moved_snoc m s e
  obtain ⟨hgot, hgave, hend⟩ := step_reports cfg s e
  have hjobs := jobs_move hdoes
  have hperm := tasks_move hdoes
  rw [hgot, hgave] at hjobs
  rw [hgave, hend] at hperm
  refine ⟨?_, ?_, ?_, batch_moves hdoes (mt begun_iff.mpr) hbatch⟩
  · rw [permits_move hdoes]
    exact hpermits
  · rw [hr, hh, horder, List.append_assoc, hjobs, List.append_assoc]
  · rw [hh, he]
    refine (htasks.append_right _).trans (List.perm_append_comm.trans ?_)
    rw [← List.append_assoc]
    refine (hperm.append_right _).trans ?_
    rw [List.append_assoc]
    exact List.perm_append_comm.append_left _

theorem booked_run (cfg : WorkerConfig) (clock : Int) (events : List Event) :
    Booked cfg (met (step cfg) (start cfg clock) events)
      (run (step cfg) (start cfg clock) events) :=
  met_induction (booked_start cfg clock) (fun _ _ e hs => booked_step hs e) events

/-- The steps of a run report the jobs that its events give to the handlers. -/
theorem handed_met (cfg : WorkerConfig) (s : Loop) (events : List Event) :
    handed (met (step cfg) s events) =
      (trace (step cfg) s events).flatMap (fun x => handedOf x.2) :=
  flatMap_met (step cfg) (fun t e => (step_reports cfg t e).2.1.symm) s events

/-! ## The claims of a run -/

/-- The loop was left. -/
inductive Left : Stage → Prop where
  | draining (since : Int) : Left (.draining since)
  | returned (ok : Bool) : Left (.returned ok)

theorem Left.waits {p : Stage} (h : Left p) : waiting p = [] := by
  cases h <;> rfl

theorem Left.outside {p : Stage} (h : Left p) : ¬ InSelect p := by
  intro hin
  cases h <;> cases hin

/-- The next poll of a `select!` finds the token cancelled. -/
inductive Finds (s : Loop) : Prop where
  | selecting (begun : Bool) : s.cancelled = true → s.stage = .selecting false begun → Finds s
  | idle (since : Int) : s.cancelled = true → s.stage = .idle since false → Finds s

theorem left_of_finds (cfg : WorkerConfig) {s : Loop} (h : Finds s) :
    Left (step cfg s .look).1.stage := by
  cases h with
  | selecting begun hc hp =>
    simp only [step, lookIn, hp, hc, if_true]
    exact Left.draining _
  | idle since hc hp =>
    simp only [step, lookIn, hp, hc, if_true]
    exact Left.draining _

/-- A loop that was left begins no claim, and it is never entered again. -/
theorem left_stays {cfg : WorkerConfig} {s s' : Loop} {e : Event} {d : Option Deal}
    (h : Does cfg s e s' d) (hl : Left s.stage) : Left s'.stage ∧ d ≠ some .begun := by
  cases h with
  | still => exact ⟨hl, by simp⟩
  | cancelled => exact ⟨hl, by simp⟩
  | ticked usecs => exact ⟨hl, by simp⟩
  | connected hp =>
    rw [hp] at hl
    cases hl
  | connect_failed hp =>
    rw [hp] at hl
    cases hl
  | turned _ hs _ => exact absurd hs hl.outside
  | left hs _ => exact absurd hs hl.outside
  | begun hp => exact absurd (hp ▸ InSelect.selecting true false) hl.outside
  | got _ hp => exact absurd (hp ▸ InSelect.selecting true true) hl.outside
  | failed hp => exact absurd (hp ▸ InSelect.selecting true true) hl.outside
  | acquired hp _ =>
    rw [hp] at hl
    cases hl
  | spawned hp =>
    rw [hp] at hl
    cases hl
  | finished _ => exact ⟨hl, by simp⟩
  | drained _ _ => exact ⟨Left.returned true, by simp⟩
  | graced _ _ => exact ⟨Left.returned true, by simp⟩

theorem no_claim_after_left {cfg : WorkerConfig} {s : Loop} (h : Left s.stage)
    (events : List Event) : EveryStep (step cfg) (fun t e => ¬ Begins cfg t e) s events :=
  (everyStep_of_law (I := fun t : Loop => Left t.stage) (P := fun _ _ => True)
    (fun t e ht _ => (left_stays (step_does cfg t e) ht).1)
    (fun t e ht _ => mt begun_iff.mpr (left_stays (step_does cfg t e) ht).2) h
    (everyStep_of (fun _ _ => trivial) s events)).1

/-- At each state of every run: the running handlers, the permit in the loop's hand and the
free permits are the fan-out. Each job of each batch waits, runs or has ended, and it has
gone to the handler once unless it waits. The jobs that wait are of one batch, and no claim
has begun since it came. When the loop was left, no job waits. No claim begins while a job
waits, and none begins after a `select!` has found the token cancelled. -/
theorem the_loop_keeps_its_books (cfg : WorkerConfig) (clock : Int) (events : List Event) :
    let s := run (step cfg) (start cfg clock) events
    let m := met (step cfg) (start cfg clock) events
    (s.tasks.length + inHand s.stage + s.available = cfg.fanout_concurrency ∧
      s.tasks.length ≤ cfg.fanout_concurrency) ∧
    ((received m).Perm (waiting s.stage ++ s.tasks ++ ended m) ∧
      received m = handed m ++ waiting s.stage) ∧
    (waiting s.stage ≠ [] → OfOneBatch cfg m (waiting s.stage)) ∧
    (Left s.stage → waiting s.stage = [] ∧ handed m = received m) ∧
    EveryStep (step cfg)
      (fun t e => (Begins cfg t e ↔ e = .begin ∧ t.stage = .selecting true false) ∧
        (Begins cfg t e → waiting t.stage = []))
      (start cfg clock) events ∧
    ∀ before later, events = before ++ .look :: later →
      Finds (run (step cfg) (start cfg clock) before) →
      EveryStep (step cfg) (fun t e => ¬ Begins cfg t e)
        (run (step cfg) (start cfg clock) (before ++ [.look])) later := by
  intro s m
  obtain ⟨hpermits, horder, htasks, hbatch⟩ := booked_run cfg clock events
  have hfan : (run (step cfg) (start cfg clock) events).tasks.length ≤ cfg.fanout_concurrency := by
    omega
  refine ⟨⟨hpermits, hfan⟩, ⟨?_, horder⟩, hbatch, ?_, ?_, ?_⟩
  · rw [horder, List.append_assoc]
    exact List.perm_append_comm.trans (htasks.append_left _)
  · intro hl
    have hw := hl.waits
    rw [hw, List.append_nil] at horder
    exact ⟨hw, horder.symm⟩
  · refine everyStep_of (fun t e => ⟨begins_iff, fun hb => ?_⟩) _ _
    rw [(begins_iff.mp hb).2]
    rfl
  · intro before later _ hf
    refine no_claim_after_left ?_ later
    rw [run_snoc]
    exact left_of_finds cfg hf

/-- A batch of two, of which one goes to its handler. -/
def twoJobs : List Job := [⟨1, "k", .null, 1⟩, ⟨2, "k", .null, 1⟩]

def firstOfTwo : List Event := [.connected, .look, .begin, .answer twoJobs, .acquire, .spawn]

/-- The handler of the first job has the only permit, and the second job waits. -/
theorem the_second_job_waits :
    let s := run (step worker.oneAtATime) (start worker.oneAtATime 0) firstOfTwo
    let m := met (step worker.oneAtATime) (start worker.oneAtATime 0) firstOfTwo
    received m = twoJobs ∧ (handed m).map (·.id) = [1] ∧ (waiting s.stage).map (·.id) = [2] ∧
      twoJobs.Perm (waiting s.stage ++ s.tasks ++ ended m) ∧
      OfOneBatch worker.oneAtATime m (waiting s.stage) := by
  intro s m
  obtain ⟨_, ⟨hperm, _⟩, hbatch, _⟩ := the_loop_keeps_its_books worker.oneAtATime 0 firstOfTwo
  exact ⟨rfl, rfl, rfl, hperm, hbatch (List.cons_ne_nil _ _)⟩

end skip_locked.control_loop
