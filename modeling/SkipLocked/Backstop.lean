-- The law of the poll backstop: an idle loop has claimed within its poll
-- interval, whatever became of the notifications. A job that waits there
-- longer was locked by somebody else at the last claim.
import SkipLocked.OldestFirst
import SkipLocked.Wakeups

open jsonb postgres keyed_table event_runs

namespace skip_locked.worker

open claim

/-! ## A loop that keeps its timer -/

/-- The whole microseconds after which a timer of this duration has run out. -/
def micros (d : Duration) : Int := ((d.secs * 1000000000 + d.nanos + 999) / 1000 : Nat)

theorem elapsed_iff {d : Duration} {since now : Int} :
    elapsed d since now = true ↔ micros d ≤ now - since := by
  unfold elapsed micros
  rw [decide_eq_true_iff]
  omega

/-- The answer of a claim comes within `D`, and the idle loop acts when its timer runs out.
No notification need ever come. -/
def Punctual (cfg : WorkerConfig) (D : Nat) (s : Worker) : Event → Prop
  | .tick usecs =>
    match s.phase with
    | .claiming (.committed at_ _) => s.clock + usecs ≤ at_ + D
    | .idle since => s.clock + usecs ≤ since + micros cfg.poll_interval
    | _ => True
  | _ => True

/-! ## What an event does to the claims that are due -/

/-- A claim has committed with no rows. -/
def emptyAnswer : Option Deal → Bool
  | some (.took []) => true
  | _ => false

/-- The empty answers that a loop in this phase can still get before it waits. -/
def dueIn : Phase → Nat
  | .connecting => 1
  | .claiming .unsent => 1
  | .claiming .sent => 1
  | .claiming (.committed _ (_ :: _)) => 1
  | .dispatch _ _ _ _ _ => 1
  | _ => 0

/-- A statement that the loop has dropped can answer too, to nobody. -/
def due (s : Worker) : Nat := dueIn s.phase + if s.orphan = true then 1 else 0

/-- When the wait began, or now. -/
def waitsFrom (s : Worker) : Int :=
  match s.phase with
  | .idle since => since
  | _ => s.clock

/-- The loop listens for notifications. -/
def Listening : Phase → Prop
  | .claiming _ => True
  | .idle _ => True
  | .dispatch _ _ _ _ _ => True
  | _ => False

/-- All that an event can do to the claims that are due, and to the answer that the loop has or
waits for. Only the end of a wait adds a claim. -/
inductive Paces (cfg : WorkerConfig) (s : Worker) : Event → Worker → Option Deal → Prop where
  | ticked (usecs : Nat) {s' : Worker} : s'.phase = s.phase → s'.orphan = s.orphan →
      s'.heard = s.heard → s'.clock = s.clock + usecs → Paces cfg s (.tick usecs) s' none
  | connected {s' : Worker} : s.phase = .connecting → s'.phase = .claiming .unsent →
      s'.orphan = s.orphan → s'.heard = s.db.notified → s'.clock = s.clock →
      Paces cfg s .connected s' none
  | woke {e : Event} {since : Int} {s' : Worker} : s.phase = .idle since →
      s'.phase = .claiming .unsent → s'.orphan = s.orphan → s'.clock = s.clock →
      (e = .recv ∧ s'.heard = s.heard + 1) ∨ (e = .recv_failed ∧ s'.heard = s.heard) ∨
        (micros cfg.poll_interval ≤ s.clock - since ∧ s'.heard = s.heard) →
      Paces cfg s e s' none
  | emptied {at_ : Int} {s' : Worker} : s.phase = .claiming (.committed at_ []) →
      s'.phase = .idle s.clock → s'.orphan = s.orphan → s'.heard = s.heard → s'.clock = s.clock →
      Paces cfg s .reply s' none
  | spent {e : Event} {s' : Worker} {d : Option Deal} :
      due s' + (if emptyAnswer d = true then 1 else 0) ≤ due s → s'.heard = s.heard →
      s'.clock = s.clock →
      s'.phase = s.phase ∨ ¬ Awaits s'.phase ∨ (TakesSnapshot s e ∧ waitsFrom s' = s.clock) →
      (Listening s'.phase → Listening s.phase) → Paces cfg s e s' d

theorem paces_still (cfg : WorkerConfig) (s : Worker) (e : Event) : Paces cfg s e s none :=
  Paces.spent (Nat.le_refl _) rfl rfl (Or.inl rfl) id

/-- An event that moves neither the loop nor the listener, and drops no statement. -/
theorem paces_kept {cfg : WorkerConfig} {s s' : Worker} {e : Event} (hphase : s'.phase = s.phase)
    (horphan : s'.orphan = s.orphan) (hheard : s'.heard = s.heard) (hclock : s'.clock = s.clock) :
    Paces cfg s e s' none := by
  refine Paces.spent ?_ hheard hclock (Or.inl hphase) (fun h => hphase ▸ h)
  unfold due
  rw [hphase, horphan]
  exact Nat.le_refl _

/-- The loop moves on, to no answer, and has no more claims due than before. -/
theorem paces_move {cfg : WorkerConfig} {s : Worker} {e : Event} {phase : Phase}
    (hdue : dueIn phase ≤ dueIn s.phase) (haway : ¬ Awaits phase)
    (hl : Listening phase → Listening s.phase) : Paces cfg s e { s with phase } none := by
  refine Paces.spent ?_ rfl rfl (Or.inr (Or.inl haway)) hl
  unfold due
  exact Nat.add_le_add_right hdue _

theorem emptyAnswer_le (jobs : List Job) (at_ : Int) :
    dueIn (.claiming (.committed at_ jobs)) +
      (if emptyAnswer (some (.took jobs)) = true then 1 else 0) ≤ 1 := by
  cases jobs with
  | nil => exact Nat.le_refl _
  | cons job rest => exact Nat.le_refl _

theorem emptyAnswer_le_one (d : Option Deal) : (if emptyAnswer d = true then 1 else 0) ≤ 1 := by
  split <;> omega

theorem paces_execute (cfg : WorkerConfig) (s : Worker) (plan : Plan) :
    Paces cfg s (.execute plan) (executeIn cfg s plan).1 (executeIn cfg s plan).2 := by
  unfold executeIn
  split
  · rename_i hp
    have hdue : dueIn s.phase = 1 := by
      rw [hp]
      rfl
    have hl : Listening s.phase := by
      rw [hp]
      trivial
    split
    · rename_i jobs _
      refine Paces.spent ?_ rfl rfl (Or.inr (Or.inr ⟨hp, rfl⟩)) (fun _ => hl)
      have hone := emptyAnswer_le jobs s.clock
      unfold due
      dsimp only
      omega
    · refine Paces.spent ?_ rfl rfl (Or.inr (Or.inr ⟨hp, rfl⟩)) (fun _ => hl)
      unfold due
      rw [hdue]
      exact Nat.add_le_add_right (Nat.zero_le 1) _
  · split
    · rename_i ho
      split
      · rename_i jobs _
        refine Paces.spent ?_ rfl rfl (Or.inl rfl) id
        have hone := emptyAnswer_le_one (some (.took jobs))
        unfold due
        rw [if_pos ho]
        exact Nat.add_le_add_left hone _
      · refine Paces.spent ?_ rfl rfl (Or.inl rfl) id
        unfold due
        rw [if_pos ho]
        exact Nat.add_le_add_left (Nat.zero_le 1) _
    · exact paces_still cfg s _

theorem paces_reply (cfg : WorkerConfig) (s : Worker) : Paces cfg s .reply (replyIn s) none := by
  unfold replyIn
  split
  · exact paces_still cfg s _
  split
  · rename_i hp
    exact Paces.emptied hp rfl rfl rfl rfl
  · rename_i hp
    exact paces_move (by rw [hp]; exact Nat.le_refl _) id (fun _ => by rw [hp]; trivial)
  · exact paces_move (Nat.zero_le _) id (fun h => absurd h id)
  · exact paces_still cfg s _

/-- The loop drops a statement that it has sent, and does not claim again. -/
theorem paces_drop {cfg : WorkerConfig} {s : Worker} {e : Event} {phase : Phase}
    (hp : s.phase = .claiming .sent) (hdue : dueIn phase = 0) (haway : ¬ Awaits phase)
    (hl : ¬ Listening phase) : Paces cfg s e { s with phase, orphan := true } none := by
  refine Paces.spent ?_ rfl rfl (Or.inr (Or.inl haway)) (fun h => absurd h hl)
  unfold due
  dsimp only
  rw [hp, hdue]
  show 0 + 1 + 0 ≤ 1 + _
  omega

theorem paces_turn (cfg : WorkerConfig) (s : Worker) : Paces cfg s .turn (turnIn s) none := by
  unfold turnIn
  split
  · split
    · rename_i hp
      exact paces_drop hp rfl id id
    · exact paces_move (Nat.zero_le _) id (fun h => absurd h id)
    · exact paces_move (Nat.zero_le _) id (fun h => absurd h id)
    · exact paces_still cfg s _
  · exact paces_still cfg s _

theorem paces_lost (cfg : WorkerConfig) (s : Worker) : Paces cfg s .lost (lostIn s) none := by
  unfold lostIn
  split
  · exact paces_still cfg s _
  split
  · rename_i hp
    exact paces_drop hp rfl id id
  · exact paces_move (Nat.zero_le _) id (fun h => absurd h id)
  · exact paces_still cfg s _

/-- The end of a wait, for one of the three reasons. -/
theorem paces_wake {cfg : WorkerConfig} {s : Worker} {e : Event} {ready : Bool} {heard : Nat}
    (hwhy : ∀ since, s.phase = .idle since → ready = true →
      (e = .recv ∧ heard = s.heard + 1) ∨ (e = .recv_failed ∧ heard = s.heard) ∨
        (micros cfg.poll_interval ≤ s.clock - since ∧ heard = s.heard)) :
    Paces cfg s e (wake s ready heard) none := by
  unfold wake
  split
  · rename_i since hp
    split
    · rename_i hgo
      rw [Bool.and_eq_true] at hgo
      exact Paces.woke hp rfl rfl rfl (hwhy since hp hgo.2)
    · exact paces_still cfg s e
  · exact paces_still cfg s e

theorem paces_spawn (cfg : WorkerConfig) (s : Worker) :
    Paces cfg s .spawn (spawnIn s).1 (spawnIn s).2 := by
  unfold spawnIn
  split
  · rename_i claimed spawned job rest hp
    have hdue : dueIn s.phase = 1 := by
      rw [hp]
      rfl
    have hl : Listening s.phase := by
      rw [hp]
      trivial
    cases rest with
    | nil =>
      refine Paces.spent ?_ rfl rfl (Or.inr (Or.inl id)) (fun _ => hl)
      unfold due
      rw [hdue]
      exact Nat.le_refl _
    | cons next more =>
      refine Paces.spent ?_ rfl rfl (Or.inr (Or.inl id)) (fun _ => hl)
      unfold due
      rw [hdue]
      exact Nat.le_refl _
  · exact paces_still cfg s _

/-- Every event does one of these. -/
theorem step_paces (cfg : WorkerConfig) (s : Worker) (e : Event) :
    Paces cfg s e (step cfg s e).1 (step cfg s e).2 := by
  cases e with
  | cancel => exact paces_kept rfl rfl rfl rfl
  | tick usecs => exact Paces.ticked usecs rfl rfl rfl rfl
  | other op => exact paces_kept rfl rfl rfl rfl
  | execute plan => exact paces_execute cfg s plan
  | reply => exact paces_reply cfg s
  | turn => exact paces_turn cfg s
  | lost => exact paces_lost cfg s
  | spawn => exact paces_spawn cfg s
  | recv => exact paces_wake (fun _ _ _ => Or.inl ⟨rfl, rfl⟩)
  | recv_failed => exact paces_wake (fun _ _ _ => Or.inr (Or.inl ⟨rfl, rfl⟩))
  | timeout =>
    dsimp only [step, timeoutIn]
    split
    · rename_i since hp
      refine paces_wake (fun since' hp' hready => Or.inr (Or.inr ⟨?_, rfl⟩))
      rw [hp] at hp'
      cases hp'
      exact elapsed_iff.mp hready
    · exact paces_still cfg s _
  | connected =>
    dsimp only [step]
    split
    · rename_i hp
      exact Paces.connected hp rfl rfl rfl rfl
    · exact paces_still cfg s _
  | connect_failed =>
    dsimp only [step]
    split
    · exact paces_move (Nat.zero_le _) id (fun h => absurd h id)
    · exact paces_still cfg s _
  | send =>
    dsimp only [step]
    split
    · rename_i hp
      split
      · exact paces_still cfg s _
      · exact paces_move (by rw [hp]; exact Nat.le_refl _) id (fun _ => by rw [hp]; trivial)
    · exact paces_still cfg s _
  | refuse =>
    dsimp only [step]
    split
    · rename_i hp
      exact paces_move (Nat.zero_le _) id (fun _ => by rw [hp]; trivial)
    · refine Paces.spent ?_ rfl rfl (Or.inl rfl) id
      unfold due
      exact Nat.add_le_add_left (Nat.zero_le _) _
  | acquire =>
    dsimp only [step, acquireIn]
    split
    · rename_i hp
      split
      · refine Paces.spent ?_ rfl rfl (Or.inr (Or.inl id)) (fun _ => by rw [hp]; trivial)
        unfold due
        rw [hp]
        exact Nat.le_refl _
      · exact paces_still cfg s _
    · exact paces_still cfg s _
  | finish i =>
    dsimp only [step, finishIn]
    split
    · exact paces_kept rfl rfl rfl rfl
    · exact paces_still cfg s _
  | drained =>
    dsimp only [step, drainedIn]
    split
    · split
      · exact paces_move (Nat.zero_le _) id (fun h => absurd h id)
      · exact paces_still cfg s _
    · exact paces_still cfg s _
  | grace =>
    dsimp only [step, graceIn]
    split
    · split
      · exact paces_move (Nat.zero_le _) id (fun h => absurd h id)
      · exact paces_still cfg s _
    · exact paces_still cfg s _

/-! ## Since the last claim -/

/-- The claim of `plan` in `s0` leaves no claimable job, but those that others have locked. -/
def LeavesNone (cfg : WorkerConfig) (s0 : Worker) (plan : Plan) : Prop :=
  ∀ r ∈ s0.db.jobs.rows, claimable s0.clock cfg.kinds r = true → r.id ∈ plan.locked

/-- What holds of a loop that has the answer of the claim of `plan` in `s0`, or waits because
of it. -/
def SincePoll (cfg : WorkerConfig) (D : Nat) (s0 : Worker) (plan : Plan) (s : Worker) : Prop :=
  match s.phase with
  | .claiming (.committed at_ jobs) =>
    at_ = s0.clock ∧ s.clock ≤ at_ + D ∧ (jobs = [] → LeavesNone cfg s0 plan)
  | .idle since =>
    since ≤ s0.clock + D ∧ s.clock ≤ since + micros cfg.poll_interval ∧ LeavesNone cfg s0 plan
  | _ => True

theorem sincePoll_of_left {cfg : WorkerConfig} {D : Nat} {s0 s : Worker} {plan : Plan}
    (h : ¬ Awaits s.phase) : SincePoll cfg D s0 plan s := by
  unfold SincePoll
  split
  · rename_i hp
    rw [hp] at h
    exact absurd trivial h
  · rename_i hp
    rw [hp] at h
    exact absurd trivial h
  · trivial

theorem sincePoll_congr {cfg : WorkerConfig} {D : Nat} {s0 s s' : Worker} {plan : Plan}
    (hphase : s'.phase = s.phase) (hclock : s'.clock = s.clock) (h : SincePoll cfg D s0 plan s) :
    SincePoll cfg D s0 plan s' := by
  unfold SincePoll at h ⊢
  rw [hphase, hclock]
  exact h

theorem micros_nonneg (d : Duration) : 0 ≤ micros d := Int.natCast_nonneg _

theorem sincePoll_step (cfg : WorkerConfig) {D : Nat} {s0 s : Worker} {plan : Plan} {e : Event}
    (h : SincePoll cfg D s0 plan s) (hp : Punctual cfg D s e) (hno : ¬ TakesSnapshot s e) :
    SincePoll cfg D s0 plan (step cfg s e).1 := by
  have hpaces := step_paces cfg s e
  generalize (step cfg s e).1 = s' at hpaces
  generalize (step cfg s e).2 = d at hpaces
  cases hpaces with
  | ticked usecs hphase _ _ hclock =>
    unfold SincePoll at h ⊢
    unfold Punctual at hp
    rw [hphase, hclock]
    split at h
    · rename_i hs
      rw [hs] at hp
      exact ⟨h.1, hp, h.2.2⟩
    · rename_i hs
      rw [hs] at hp
      exact ⟨h.1, hp, h.2.2⟩
    · trivial
  | connected _ hphase _ _ _ => exact sincePoll_of_left (by rw [hphase]; exact id)
  | woke _ hphase _ _ _ => exact sincePoll_of_left (by rw [hphase]; exact id)
  | emptied hphase hidle _ _ hclock =>
    unfold SincePoll at h ⊢
    rw [hphase] at h
    rw [hidle, hclock]
    obtain ⟨rfl, hle, hnone⟩ := h
    have := micros_nonneg cfg.poll_interval
    exact ⟨hle, by omega, hnone rfl⟩
  | spent _ _ hclock hmoved _ =>
    rcases hmoved with hphase | hleft | ⟨hsnapshot, _⟩
    · exact sincePoll_congr hphase hclock h
    · exact sincePoll_of_left hleft
    · exact absurd hsnapshot hno

/-- A claim that answers with no rows has seen no job that nobody had locked. -/
theorem leavesNone_of_empty {cfg : WorkerConfig} {s : Worker} {plan : Plan} {db : Db}
    (hbatch : 1 ≤ cfg.batch)
    (h : claim_batch s.db s.clock cfg.kinds cfg.batch cfg.worker_id plan = .ok (db, [])) :
    LeavesNone cfg s plan := by
  intro r hr hc
  by_contra hfree
  have hsize := (claim_batch_oldest h).size
  have hpos : 0 < (eligible s.db.jobs s.clock cfg.kinds plan.locked).length :=
    List.length_pos_of_mem (mem_eligible.mpr ⟨hr, hc, hfree⟩)
  rw [List.length_nil] at hsize
  omega

/-- The claim itself. -/
theorem sincePoll_start (cfg : WorkerConfig) (D : Nat) {s : Worker} (plan : Plan)
    (hbatch : 1 ≤ cfg.batch) (hsent : s.phase = .claiming .sent) :
    SincePoll cfg D s plan (step cfg s (.execute plan)).1 := by
  show SincePoll cfg D s plan (executeIn cfg s plan).1
  unfold executeIn
  rw [hsent]
  dsimp only
  cases hok : claim_batch s.db s.clock cfg.kinds cfg.batch cfg.worker_id plan with
  | error e =>
    have hexec : exec s.db (claimCall cfg s.clock plan) = (s.db, .error e) := by
      unfold exec claimCall
      dsimp only
      rw [hok]
      rfl
    rw [hexec]
    exact sincePoll_of_left id
  | ok p =>
    obtain ⟨db, jobs⟩ := p
    rw [exec_claimCall hok]
    refine ⟨rfl, by dsimp only; omega, ?_⟩
    rintro rfl
    exact leavesNone_of_empty hbatch hok

/-- The loop claims again by its own steps when its timer has run out. -/
theorem claims_again {cfg : WorkerConfig} {s : Worker} {since : Int} (hidle : s.phase = .idle since)
    (hlive : s.cancelled = false) (hdue : since + micros cfg.poll_interval ≤ s.clock) :
    (run (step cfg) s [.timeout, .send]).phase = .claiming .sent := by
  have helapsed : elapsed cfg.poll_interval since s.clock = true := elapsed_iff.mpr (by omega)
  simp [step, timeoutIn, wake, hidle, hlive, helapsed]

/-! ## The law -/

/-- In every run of a worker with any other clients, where answers come within `D` and the loop
acts on its timer: while the loop is idle, its last claim was sent no longer than the poll
interval and `D` ago, and it left no claimable job but those that others had locked. When
the timer has run out, the loop claims again by its own steps. So it finds each job with
no notification at all. -/
theorem the_poll_backstop_bounds_the_wait (cfg : WorkerConfig) (D : Nat) (calls : List Call)
    (clock : Int) (events : List Event) (hbatch : 1 ≤ cfg.batch)
    (hp : EveryStep (step cfg) (Punctual cfg D) (start cfg (after calls) clock) events) :
    let init := start cfg (after calls) clock
    let s := run (step cfg) init events
    ∀ since, s.phase = .idle since →
      (∃ before plan later, events = before ++ .execute plan :: later ∧
        let s0 := run (step cfg) init before
        s0.phase = .claiming .sent ∧ s.clock ≤ s0.clock + D + micros cfg.poll_interval ∧
        ∀ r ∈ s0.db.jobs.rows, claimable s0.clock cfg.kinds r = true → r.id ∈ plan.locked) ∧
      (s.cancelled = false → since + micros cfg.poll_interval ≤ s.clock →
        (run (step cfg) s [.timeout, .send]).phase = .claiming .sent) := by
  intro init s since hidle
  refine ⟨?_, claims_again hidle⟩
  have hw : Awaits s.phase := by
    rw [hidle]
    trivial
  obtain ⟨e, before, later, hsplit, ht, hrest⟩ :=
    a_snapshot_was_taken cfg (not_awaits_start cfg _ _) events hw
  cases e with
  | execute plan =>
    refine ⟨before, plan, later, hsplit, ht, ?_⟩
    rw [hsplit, everyStep_append] at hp
    rw [run_snoc] at hrest
    obtain ⟨_, hsince⟩ := everyStep_of_law
      (I := SincePoll cfg D (run (step cfg) init before) plan)
      (P := fun t e => Punctual cfg D t e ∧ ¬ TakesSnapshot t e) (Q := fun _ _ => True)
      (fun t e h hboth => sincePoll_step cfg h hboth.1 hboth.2) (fun _ _ _ _ => trivial)
      (sincePoll_start cfg D plan hbatch ht) (everyStep_and.mpr ⟨hp.2.2, hrest⟩)
    have hs : s =
        run (step cfg) (step cfg (run (step cfg) init before) (.execute plan)).1 later := by
      rw [← run_cons, ← run_append, ← hsplit]
    rw [← hs] at hsince
    unfold SincePoll at hsince
    rw [hidle] at hsince
    obtain ⟨hanswer, htimer, hnone⟩ := hsince
    exact ⟨by omega, hnone⟩
  | _ => exact absurd ht id

/-- A producer commits a job without a notification, and the poll interval of the idle loop
ends. -/
def silentJob : List Event :=
  [.connected, .send, .execute .alone, .reply, .other (.begin 1), .other (.enqueue 1 "k" .null),
    .other (.commit 1), .tick 1000000]

/-- The loop sends its next claim at once, with the job in the table. -/
theorem a_silent_job_is_found :
    let s := run (step oneAtATime) (start oneAtATime (after []) 0) silentJob
    s.heard = s.db.notified ∧ (s.db.jobs.find 1).isSome = true ∧
      (run (step oneAtATime) s [.timeout, .send]).phase = .claiming .sent := by
  intro s
  have hidle : s.phase = .idle 0 := rfl
  have hpunctual : EveryStep (step oneAtATime) (Punctual oneAtATime 0)
      (start oneAtATime (after []) 0) silentJob := by
    refine ⟨trivial, trivial, trivial, trivial, trivial, trivial, trivial, ?_, trivial⟩
    show (0 : Int) + 1000000 ≤ 0 + micros (.from_secs 1)
    decide
  obtain ⟨_, hnext⟩ := the_poll_backstop_bounds_the_wait oneAtATime 0 [] 0 silentJob (by decide)
    hpunctual 0 hidle
  exact ⟨by decide +kernel, by decide +kernel, hnext rfl (by decide +kernel)⟩

end skip_locked.worker
