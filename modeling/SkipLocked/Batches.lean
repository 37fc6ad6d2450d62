-- The law of the batch: the lock of a job starts with the claim of its whole
-- batch, and its handler starts when a permit is free. So a lease protects
-- the jobs of a live worker when it covers all the rounds of a batch.
import SkipLocked.Worker
import SkipLocked.Heartbeats
import SkipLocked.Slots

open jsonb postgres keyed_table event_runs greedy_slots

namespace skip_locked.worker

open claim lease retry

/-! ## The jobs of the worker -/

/-- A job in the hands of the worker, and the time of its claim. -/
structure Charge where
  job : Job
  claimed : Int

/-- The jobs that wait for their handler. -/
def waiting : Phase → List Charge
  | .claiming (.committed at_ jobs) => jobs.map (fun job => ⟨job, at_⟩)
  | .dispatch claimed _ job rest _ => (job :: rest).map (fun job => ⟨job, claimed⟩)
  | _ => []

/-- The jobs that the worker has claimed and whose handler has not ended. -/
def unfinished (s : Worker) : List Charge :=
  waiting s.phase ++ s.tasks.map (fun t => ⟨t.job, t.claimed⟩)

/-- How many rounds a full batch takes: one job for each permit in a round. -/
def rounds (cfg : WorkerConfig) : Nat :=
  (cfg.batch.toNat + cfg.fanout_concurrency - 1) / cfg.fanout_concurrency

/-- Time may pass here: no claim is open, and the loop waits for a permit only while there is
none. -/
def MayWait (available : Nat) : Phase → Prop
  | .claiming _ => False
  | .dispatch _ _ _ _ permit => permit = false ∧ available = 0
  | _ => True

instance (available : Nat) : (p : Phase) → Decidable (MayWait available p)
  | .dispatch _ _ _ _ permit => inferInstanceAs (Decidable (permit = false ∧ available = 0))
  | .claiming _ => isFalse id
  | .connecting => isTrue trivial
  | .idle _ => isTrue trivial
  | .draining _ => isTrue trivial
  | .returned _ => isTrue trivial
  | .panicked => isTrue trivial

/-- Claims and spawns take no time, a free permit is taken at once, and no handler runs
longer than `D`. -/
def Prompt (D : Nat) (s : Worker) : Event → Prop
  | .tick usecs =>
    MayWait s.available s.phase ∧ ∀ t ∈ s.tasks, s.clock + usecs ≤ t.started + D
  | _ => True

instance (D : Nat) (s : Worker) : (e : Event) → Decidable (Prompt D s e)
  | .tick usecs => inferInstanceAs (Decidable (MayWait s.available s.phase ∧
      ∀ t ∈ s.tasks, s.clock + usecs ≤ t.started + D))
  | .cancel | .other _ | .connected | .connect_failed | .turn | .send | .execute _ | .refuse
  | .reply | .lost | .recv | .recv_failed | .timeout | .acquire | .spawn | .finish _ | .drained
  | .grace => isTrue trivial

/-- Each reap has a lease for all the rounds of a batch, and for the round before it. -/
def LongLease (cfg : WorkerConfig) (D : Nat) : Event → Prop
  | .other (.reap l) =>
    ((rounds cfg + 1) * D : Nat) ≤ l.secs * USECS_PER_SEC ∧ l.secs < 2 ^ 63
  | _ => True

/-- A reap leaves each job of the worker as it is. -/
def Spares (s : Worker) : Event → Prop
  | .other (.reap l) => ∀ u ∈ unfinished s,
      (exec s.db ⟨s.clock, .reap l⟩).1.jobs.find u.job.id = s.db.jobs.find u.job.id
  | _ => True

/-! ## The schedule -/

/-- Where the loop is in its batch. -/
def InBatch (cfg : WorkerConfig) (D : Nat) (s : Worker) : Prop :=
  match s.phase with
  | .claiming (.committed at_ jobs) =>
    jobs ≠ [] → at_ = s.clock ∧ jobs.length ≤ cfg.batch.toNat
  | .dispatch claimed spawned _ rest _ =>
    OnTime cfg.fanout_concurrency D claimed spawned s.clock (s.tasks.map (·.started)) ∧
      spawned + rest.length + 1 ≤ cfg.batch.toNat
  | _ => True

/-- The permit that the loop holds for its next job. -/
def inHand : Phase → Nat
  | .dispatch _ _ _ _ true => 1
  | _ => 0

/-- The schedule of a prompt worker: each permit is free, in hand or with a handler, each
handler is within its time, and it started within the rounds of its batch. -/
structure Scheduled (cfg : WorkerConfig) (D : Nat) (s : Worker) : Prop where
  permits : s.available + s.tasks.length + inHand s.phase = cfg.fanout_concurrency
  young : ∀ t ∈ s.tasks, t.started ≤ s.clock ∧ s.clock ≤ t.started + D
  batch : InBatch cfg D s
  due : ∀ t ∈ s.tasks, t.started ≤ t.claimed + (rounds cfg * D : Nat)

theorem inHand_of_pending {p : Phase} (h : pending p = []) : inHand p = 0 := by
  cases p with
  | dispatch claimed spawned job rest permit => cases h
  | _ => rfl

theorem inBatch_of_pending {cfg : WorkerConfig} {D : Nat} {s : Worker}
    (h : pending s.phase = []) : InBatch cfg D s := by
  unfold InBatch
  split
  · rename_i hp
    intro hne
    rw [hp] at h
    exact absurd h hne
  · rename_i hp
    rw [hp] at h
    cases h
  · trivial

/-- A job of a batch starts within the rounds of the batch. -/
theorem round_le_rounds {cfg : WorkerConfig} {n more : Nat} (hf : 1 ≤ cfg.fanout_concurrency)
    (h : n + more + 1 ≤ cfg.batch.toNat) : n / cfg.fanout_concurrency + 1 ≤ rounds cfg := by
  unfold rounds
  rw [← Nat.add_div_right n hf]
  exact Nat.div_le_div_right (by omega)

/-- The handler that the loop spawns is in time, and its permit is no more in hand. -/
theorem scheduled_spawn {cfg : WorkerConfig} {D : Nat} (hf : 1 ≤ cfg.fanout_concurrency)
    {s : Worker} {claimed : Int} {spawned : Nat} {job : Job} {rest : List Job} {phase : Phase}
    (hs : s.phase = .dispatch claimed spawned job rest true) (h : Scheduled cfg D s)
    (hhand : inHand phase = 0)
    (hbatch : OnTime cfg.fanout_concurrency D claimed (spawned + 1) s.clock
        (s.clock :: s.tasks.map (·.started)) →
      spawned + rest.length + 1 ≤ cfg.batch.toNat →
      InBatch cfg D { s with tasks := ⟨job, claimed, s.clock⟩ :: s.tasks, phase }) :
    Scheduled cfg D { s with tasks := ⟨job, claimed, s.clock⟩ :: s.tasks, phase } := by
  obtain ⟨hpermits, hyoung, hin, hdue⟩ := h
  unfold InBatch at hin
  rw [hs] at hin hpermits
  obtain ⟨htime, hlen⟩ := hin
  refine ⟨?_, ?_, hbatch htime.begins hlen, ?_⟩
  · simp only [inHand] at hpermits
    rw [hhand]
    simp only [List.length_cons]
    omega
  · intro t ht
    rcases List.mem_cons.mp ht with rfl | ht
    · exact ⟨Int.le_refl _, by dsimp only; omega⟩
    · exact hyoung t ht
  · intro t ht
    rcases List.mem_cons.mp ht with rfl | ht
    · have hround := Nat.mul_le_mul_right D (round_le_rounds hf hlen)
      have hclock := htime.due hf
      dsimp only
      omega
    · exact hdue t ht

/-- The loop moves to a phase without jobs, and has no permit in hand. -/
theorem scheduled_move {cfg : WorkerConfig} {D : Nat} {s : Worker} (h : Scheduled cfg D s)
    (hhand : inHand s.phase = 0) {phase : Phase} (hphase : pending phase = [])
    (cancelled orphan : Bool) (heard : Nat) :
    Scheduled cfg D { s with cancelled, phase, orphan, heard } := by
  have hpermits := h.permits
  rw [hhand] at hpermits
  refine ⟨?_, h.young, inBatch_of_pending hphase, h.due⟩
  rw [inHand_of_pending hphase]
  exact hpermits

/-- Time passes: a loop that waits in its batch has all the permits with the handlers. -/
theorem scheduled_tick {cfg : WorkerConfig} {D : Nat} {s : Worker} {usecs : Nat}
    (h : Scheduled cfg D s) (hp : Prompt D s (.tick usecs)) :
    Scheduled cfg D { s with clock := s.clock + usecs } := by
  obtain ⟨hpermits, hyoung, hbatch, hdue⟩ := h
  obtain ⟨hwait, hlimit⟩ := hp
  refine ⟨hpermits, ?_, ?_, hdue⟩
  · intro t ht
    have := (hyoung t ht).1
    exact ⟨by dsimp only; omega, hlimit t ht⟩
  · unfold InBatch at hbatch ⊢
    cases hs : s.phase with
    | claiming wire =>
      rw [hs] at hwait
      exact hwait.elim
    | dispatch claimed spawned job rest permit =>
      rw [hs] at hwait hbatch
      obtain ⟨rfl, hnone⟩ := hwait
      rw [hs, hnone] at hpermits
      refine ⟨hbatch.1.waits ?_ ?_, hbatch.2⟩
      · simpa [inHand] using hpermits
      · intro t ht
        obtain ⟨task, htask, rfl⟩ := List.mem_map.mp ht
        exact hlimit task htask
    | _ => trivial

theorem scheduled_next {cfg : WorkerConfig} {D : Nat} (hf : 1 ≤ cfg.fanout_concurrency)
    {s s' : Worker} {e : Event} {d : Option Deal} (hp : Prompt D s e) (hd : Does cfg s e s' d)
    (h : Scheduled cfg D s) : Scheduled cfg D s' := by
  have hall := h
  obtain ⟨hpermits, hyoung, hbatch, hdue⟩ := h
  cases hd with
  | quiet cancelled phase orphan heard _ hphase =>
    rcases hphase with rfl | ⟨h1, h2⟩
    · exact ⟨hpermits, hyoung, hbatch, hdue⟩
    · exact scheduled_move hall (inHand_of_pending h1) h2 cancelled orphan heard
  | dropped phase _ hway hphase =>
    have hhand : inHand s.phase = 0 := by
      cases hs : s.phase with
      | dispatch claimed spawned job rest permit =>
        rw [hs] at hway
        exact absurd rfl hway
      | _ => rfl
    exact scheduled_move hall hhand hphase s.cancelled s.orphan s.heard
  | ticked usecs => exact scheduled_tick hall hp
  | called op => exact ⟨hpermits, hyoung, hbatch, hdue⟩
  | took hs hok =>
    refine ⟨?_, hyoung, ?_, hdue⟩
    · rw [hs] at hpermits
      exact hpermits
    · intro _
      obtain ⟨_, _, hperm⟩ := claim_batch_jobs hok
      refine ⟨rfl, ?_⟩
      rw [hperm.length_eq, List.length_map]
      exact List.length_take_le _ _
  | orphaned _ _ _ => exact ⟨hpermits, hyoung, hbatch, hdue⟩
  | received hs =>
    unfold InBatch at hbatch
    rw [hs] at hbatch hpermits
    obtain ⟨rfl, hlen⟩ := hbatch (List.cons_ne_nil _ _)
    refine ⟨hpermits, hyoung, ⟨OnTime.opens ?_, ?_⟩, hdue⟩
    · intro t ht
      obtain ⟨task, htask, rfl⟩ := List.mem_map.mp ht
      exact (hyoung task htask).1
    · rw [List.length_cons] at hlen
      omega
  | acquired hs hfree =>
    unfold InBatch at hbatch
    rw [hs] at hbatch hpermits
    refine ⟨?_, hyoung, hbatch, hdue⟩
    simp only [inHand] at hpermits ⊢
    omega
  | spawned_last hs =>
    exact scheduled_spawn hf hs hall rfl (fun _ _ => trivial)
  | spawned_next hs =>
    refine scheduled_spawn hf hs hall rfl (fun htime hlen => ?_)
    rw [List.length_cons] at hlen
    exact ⟨htime, by omega⟩
  | @finished i hi =>
    have hsub := List.eraseIdx_sublist s.tasks i
    refine ⟨?_, fun t ht => hyoung t (hsub.mem ht), ?_, fun t ht => hdue t (hsub.mem ht)⟩
    · dsimp only
      rw [List.length_eraseIdx, if_pos hi]
      omega
    · unfold InBatch at hbatch ⊢
      dsimp only
      split
      · rename_i hs
        rw [hs] at hbatch
        exact hbatch
      · rename_i hs
        rw [hs] at hbatch
        exact ⟨hbatch.1.ends (hsub.map _), hbatch.2⟩
      · trivial

/-- A job of a prompt worker ends within the rounds of its batch and the round before. -/
theorem Scheduled.in_time {cfg : WorkerConfig} {D : Nat} {s : Worker} (h : Scheduled cfg D s)
    (hf : 1 ≤ cfg.fanout_concurrency) {u : Charge} (hu : u ∈ unfinished s) :
    s.clock ≤ u.claimed + ((rounds cfg + 1) * D : Nat) := by
  rw [Nat.succ_mul]
  rcases List.mem_append.mp hu with hu | hu
  · have hbatch := h.batch
    unfold InBatch at hbatch
    unfold waiting at hu
    split at hu
    · rename_i at_ jobs hs
      rw [hs] at hbatch
      obtain ⟨job, hjob, rfl⟩ := List.mem_map.mp hu
      have := (hbatch (List.ne_nil_of_mem hjob)).1
      dsimp only
      omega
    · rename_i claimed spawned job rest permit hs
      rw [hs] at hbatch
      obtain ⟨_, _, rfl⟩ := List.mem_map.mp hu
      have hround := Nat.mul_le_mul_right D (round_le_rounds hf hbatch.2)
      have hclock := hbatch.1.due hf
      dsimp only
      omega
    · cases hu
  · obtain ⟨t, ht, rfl⟩ := List.mem_map.mp hu
    have hyoung := h.young t ht
    have hdue := h.due t ht
    dsimp only
    omega

/-! ## The rows -/

theorem waiting_of_pending {p : Phase} (h : pending p = []) : waiting p = [] := by
  cases p with
  | claiming wire =>
    cases wire with
    | committed at_ jobs => exact List.map_eq_nil_iff.mpr h
    | _ => rfl
  | dispatch claimed spawned job rest permit => cases h
  | _ => rfl

/-- A claim of the loop brings its jobs, and nothing else brings any. -/
theorem unfinished_next {cfg : WorkerConfig} {s s' : Worker} {e : Event} {d : Option Deal}
    (hd : Does cfg s e s' d) : (unfinished s').Subperm (unfinished s) ∨
      ∃ plan jobs, e = .execute plan ∧
        Took s.db s.clock cfg.kinds cfg.worker_id plan s'.db jobs ∧
        unfinished s' = jobs.map (fun job => ⟨job, s.clock⟩) ++ unfinished s := by
  cases hd with
  | quiet cancelled phase orphan heard _ hphase =>
    left
    rcases hphase with rfl | ⟨h1, h2⟩
    · exact List.Subperm.refl _
    · unfold unfinished
      rw [waiting_of_pending h1, waiting_of_pending h2]
  | dropped phase _ _ hphase =>
    left
    unfold unfinished
    rw [waiting_of_pending hphase]
    exact (List.sublist_append_right _ _).subperm
  | took hs hok =>
    right
    refine ⟨_, _, rfl, claim_batch_took hok, ?_⟩
    simp [unfinished, hs, waiting]
  | received hs =>
    left
    apply List.Perm.subperm
    simp [unfinished, hs, waiting]
  | acquired hs _ =>
    left
    apply List.Perm.subperm
    simp [unfinished, hs, waiting]
  | spawned_last hs =>
    left
    apply List.Perm.subperm
    simp [unfinished, hs, waiting]
  | spawned_next hs =>
    left
    apply List.Perm.subperm
    simp only [unfinished, hs, waiting, List.map_cons, List.cons_append]
    -- the next job comes before the one that has just been spawned
    refine List.Perm.trans ?_ (List.Perm.swap _ _ _)
    exact List.Perm.cons _ List.perm_middle
  | @finished i hi =>
    left
    exact (((List.eraseIdx_sublist s.tasks i).map _).append_left _).subperm
  | _ =>
    left
    exact List.Subperm.refl _

theorem clock_next {cfg : WorkerConfig} {s s' : Worker} {e : Event} {d : Option Deal}
    (hd : Does cfg s e s' d) : s.clock ≤ s'.clock := by
  cases hd with
  | ticked usecs =>
    dsimp only
    omega
  | _ => exact Int.le_refl _

/-- The lock of the row, if it has one, is not older than `t`. -/
def LockedSince (t : Int) (r : JobRow) : Prop := ∀ at_, r.locked_at = some at_ → t ≤ at_

/-- No call brings a lock that is older than itself. -/
theorem lockedSince_turn {j : Int} {c : Call} {a : Answer} {l l' : Life} {t : Int}
    (ht : Turn j c a l l') (hle : t ≤ c.now) (h : ∀ r, l = .live r → LockedSince t r) :
    ∀ r, l' = .live r → LockedSince t r := by
  cases ht with
  | still _ _ => exact h
  | born kind payload run_at _ _ =>
    rintro r hr at_ hat
    cases hr
    cases hat
  | claimed r _ _ _ _ _ =>
    rintro r' hr at_ hat
    cases hr
    cases hat
    exact hle
  | beat r _ _ =>
    rintro r' hr at_ hat
    cases hr
    cases hat
    exact hle
  | finished r _ =>
    rintro r' hr at_ hat
    cases hr
    cases hat
  | requeued r _ _ _ =>
    rintro r' hr at_ hat
    cases hr
    cases hat
  | died r _ =>
    rintro r' hr
    cases hr
  | reaped r _ _ _ =>
    rintro r' hr at_ hat
    cases hr
    cases hat

/-- The lock of each job of the worker is at least as young as its claim. -/
structure Fresh (s : Worker) : Prop where
  good : s.db.Good
  past : ∀ u ∈ unfinished s, u.claimed ≤ s.clock
  locked : ∀ u ∈ unfinished s, ∀ r, s.db.jobs.find u.job.id = some r → LockedSince u.claimed r

/-- A job that stays with the worker keeps a lock as young as its claim. -/
theorem lockedSince_next {cfg : WorkerConfig} {s s' : Worker} {e : Event} {d : Option Deal}
    (hd : Does cfg s e s' d) (h : Fresh s) {u : Charge} (hu : u ∈ unfinished s) {r : JobRow}
    (hr : s'.db.jobs.find u.job.id = some r) : LockedSince u.claimed r := by
  rcases db_next hd with hdb | ⟨c, hnow, hdb, _⟩
  · rw [hdb] at hr
    exact h.locked u hu r hr
  · rw [hdb] at hr
    refine lockedSince_turn (exec_turn h.good c u.job.id) (hnow ▸ h.past u hu) ?_ r
      (life_of_find hr)
    intro r' hr'
    exact h.locked u hu r' (life_live.mp hr')

theorem fresh_next {cfg : WorkerConfig} {s s' : Worker} {e : Event} {d : Option Deal}
    (hd : Does cfg s e s' d) (h : Fresh s) : Fresh s' := by
  have hclock := clock_next hd
  have hgood : s'.db.Good := good_next hd h.good
  rcases unfinished_next hd with hsub | ⟨plan, jobs, _, htook, heq⟩
  · refine ⟨hgood, ?_, ?_⟩
    · intro u hu
      have := h.past u (hsub.subset hu)
      omega
    · intro u hu r hr
      exact lockedSince_next hd h (hsub.subset hu) hr
  · refine ⟨hgood, ?_, ?_⟩
    · intro u hu
      rw [heq] at hu
      rcases List.mem_append.mp hu with hu | hu
      · obtain ⟨job, _, rfl⟩ := List.mem_map.mp hu
        exact hclock
      · have := h.past u hu
        omega
    · intro u hu r hr
      rw [heq] at hu
      rcases List.mem_append.mp hu with hu | hu
      · obtain ⟨job, hjob, rfl⟩ := List.mem_map.mp hu
        obtain ⟨_, _, _, hf⟩ := htook.find hjob
        rw [hf, Option.some.injEq] at hr
        subst hr
        rintro at_ hat
        cases hat
        exact Int.le_refl _
      · exact lockedSince_next hd h hu hr

/-- A reap in time leaves the rows of the worker. -/
theorem spares_of_lease {cfg : WorkerConfig} {D : Nat} (hf : 1 ≤ cfg.fanout_concurrency)
    {s : Worker} {e : Event} (h : Scheduled cfg D s) (hfresh : Fresh s)
    (hl : LongLease cfg D e) : Spares s e := by
  unfold Spares
  split
  · rename_i l
    obtain ⟨hlong, hfits⟩ := hl
    intro u hu
    rw [find_reap rfl]
    cases hcut : cutoffOf s.clock l with
    | error err => rfl
    | ok cutoff =>
      have hc := minusSeconds_ok hcut
      rw [asI64_of_lt hfits] at hc
      have htime := h.in_time hf hu
      cases hrow : s.db.jobs.find u.job.id with
      | none => rfl
      | some r =>
        have hleave : ¬ reapable cutoff r = true := by
          rw [reapable_iff, expired_iff]
          rintro ⟨⟨_, at_, hat, hlt⟩, _⟩
          have := hfresh.locked u hu r hrow at_ hat
          omega
        simp only [Option.map_some, if_neg hleave]
  · trivial

/-! ## The owner -/

/-- The event is a call that gives an outcome of job `j`. -/
def Event.settles (j : Int) : Event → Bool
  | .other op => op.settles j
  | _ => false

/-- The worker has job `j`, and nobody gives an outcome of it. -/
def Tends (j : Int) (s : Worker) (e : Event) : Prop :=
  j ∈ (unfinished s).map (·.job.id) ∧ e.settles j = false

instance (j : Int) (s : Worker) (e : Event) : Decidable (Tends j s e) :=
  inferInstanceAs (Decidable (j ∈ (unfinished s).map (·.job.id) ∧ e.settles j = false))

/-- No claim hands out job `j`. -/
def Unclaimed (cfg : WorkerConfig) (j : Int) (s : Worker) : Event → Prop
  | .other op => ¬ Delivers j (exec s.db ⟨s.clock, op⟩).2
  | .execute plan => ¬ Delivers j (exec s.db (claimCall cfg s.clock plan)).2
  | _ => True

/-- The worker holds the lock of job `j`. -/
def Holds (cfg : WorkerConfig) (j : Int) (s : Worker) : Prop :=
  ∃ r last, s.db.jobs.find j = some r ∧ HeldBy cfg.worker_id j last r

theorem unclaimed_of_holds {cfg : WorkerConfig} {j : Int} {s : Worker} (hgood : s.db.Good)
    (h : Holds cfg j s) (e : Event) : Unclaimed cfg j s e := by
  obtain ⟨r, last, hrow, hheld⟩ := h
  have hno : ∀ c : Call, ¬ Delivers j (exec s.db c).2 := by
    intro c
    have hturn := exec_turn hgood c j
    rw [life_of_find hrow] at hturn
    exact no_delivery_unless_ready hturn (by rw [hheld.running]; simp)
  cases e with
  | other op => exact hno ⟨s.clock, op⟩
  | execute plan => exact hno (claimCall cfg s.clock plan)
  | _ => trivial

/-- A call of somebody else leaves the job with the worker. -/
theorem undisturbed_other {cfg : WorkerConfig} {j last : Int} {s : Worker} {op : Op} {r : JobRow}
    (hgood : s.db.Good) (hrow : s.db.jobs.find j = some r)
    (hheld : HeldBy cfg.worker_id j last r) (hspares : Spares s (.other op))
    (hj : j ∈ (unfinished s).map (·.job.id)) :
    Undisturbed cfg.worker_id j s.db ⟨s.clock, op⟩ := by
  by_cases hreap : ∃ l, op = .reap l
  · obtain ⟨l, rfl⟩ := hreap
    obtain ⟨u, hu, rfl⟩ := List.mem_map.mp hj
    exact hspares u hu
  · exact undisturbed_else hgood (fun l hop => hreap ⟨l, hop⟩) hrow hheld

theorem holds_next {cfg : WorkerConfig} {j : Int} {s s' : Worker} {e : Event} {d : Option Deal}
    (hd : Does cfg s e s' d) (hgood : s.db.Good) (hspares : Spares s e) (htends : Tends j s e)
    (h : Holds cfg j s) : Holds cfg j s' := by
  obtain ⟨r, last, hrow, hheld⟩ := h
  rcases db_next hd with hdb | ⟨c, hnow, hdb, hwho⟩
  · unfold Holds
    rw [hdb]
    exact ⟨r, last, hrow, hheld⟩
  · have hquiet : c.op.settles j = false ∧ Undisturbed cfg.worker_id j s.db c := by
      obtain ⟨now, op⟩ := c
      subst hnow
      rcases hwho with rfl | ⟨plan, hc⟩
      · exact ⟨htends.2, undisturbed_other hgood hrow hheld hspares htends.1⟩
      · cases hc
        exact ⟨rfl, undisturbed_else hgood (fun l hop => by cases hop) hrow hheld⟩
    obtain ⟨r', hrow', hheld'⟩ := heldBy_next hgood hrow hheld hquiet.1 hquiet.2
    unfold Holds
    rw [hdb]
    exact ⟨r', _, hrow', hheld'⟩

/-- The worker holds the lock of each job that its claim takes. -/
theorem holds_of_took {cfg : WorkerConfig} {s : Worker} {e : Event} {jobs : List Job} {job : Job}
    (h : (step cfg s e).2 = some (.took jobs)) (hjob : job ∈ jobs) :
    Holds cfg job.id (step cfg s e).1 := by
  obtain ⟨plan, htook⟩ := taken_rows h
  obtain ⟨r, _, _, hrow⟩ := htook.find hjob
  exact ⟨_, s.clock, hrow, ⟨Table.key_of_find hrow, rfl, rfl, rfl⟩⟩

/-! ## The law -/

theorem scheduled_start (cfg : WorkerConfig) (D : Nat) (db : Db) (clock : Int) :
    Scheduled cfg D (start cfg db clock) := by
  refine ⟨?_, ?_, inBatch_of_pending (pending_start cfg db clock), ?_⟩
  · rw [inHand_of_pending (pending_start cfg db clock)]
    rfl
  · rintro t ⟨⟩
  · rintro t ⟨⟩

theorem unfinished_start (cfg : WorkerConfig) (db : Db) (clock : Int) :
    unfinished (start cfg db clock) = [] := by
  unfold unfinished
  rw [waiting_of_pending (pending_start cfg db clock)]
  rfl

/-- No reap takes a job from a prompt worker while each lease covers the rounds of a batch
and one more. And no claim hands out a job of the worker, from its own claim on, as long as
the worker has the job and nobody gives an outcome of it. -/
theorem a_long_lease_covers_a_batch {cfg : WorkerConfig} {D : Nat} {clock : Int}
    {events : List Event} (calls : List Call) (hf : 1 ≤ cfg.fanout_concurrency)
    (hrun : EveryStep (step cfg) (fun s e => Prompt D s e ∧ LongLease cfg D e)
      (start cfg (after calls) clock) events) :
    EveryStep (step cfg) Spares (start cfg (after calls) clock) events ∧
      ∀ before claim later jobs job, events = before ++ claim :: later →
        let s := run (step cfg) (start cfg (after calls) clock) before
        (step cfg s claim).2 = some (.took jobs) → job ∈ jobs →
        EveryStep (step cfg) (Tends job.id) (step cfg s claim).1 later →
        EveryStep (step cfg) (Unclaimed cfg job.id) (step cfg s claim).1 later := by
  have hstart : Scheduled cfg D (start cfg (after calls) clock) ∧
      Fresh (start cfg (after calls) clock) := by
    refine ⟨scheduled_start cfg D (after calls) clock, after_good calls, ?_, ?_⟩
    · rw [unfinished_start]
      rintro u ⟨⟩
    · rw [unfinished_start]
      rintro u ⟨⟩
  have hnext : ∀ s e, Scheduled cfg D s ∧ Fresh s → Prompt D s e ∧ LongLease cfg D e →
      Scheduled cfg D (step cfg s e).1 ∧ Fresh (step cfg s e).1 := by
    rintro s e ⟨hs, hfr⟩ ⟨hp, _⟩
    exact ⟨scheduled_next hf hp (step_does cfg s e) hs, fresh_next (step_does cfg s e) hfr⟩
  have hspares : ∀ s e, Scheduled cfg D s ∧ Fresh s → Prompt D s e ∧ LongLease cfg D e →
      Spares s e := by
    rintro s e ⟨hs, hfr⟩ ⟨_, hl⟩
    exact spares_of_lease hf hs hfr hl
  refine ⟨(everyStep_of_law hnext hspares hstart hrun).1, ?_⟩
  rintro before claim later jobs job rfl s htook hjob htends
  obtain ⟨hbefore, hclaim, hlater⟩ := everyStep_append.mp hrun
  have hs : Scheduled cfg D s ∧ Fresh s := (everyStep_of_law hnext hspares hstart hbefore).2
  have hlaw : EveryStep (step cfg) (Unclaimed cfg job.id) (step cfg s claim).1 later ∧
      ((Scheduled cfg D (run (step cfg) (step cfg s claim).1 later) ∧
        Fresh (run (step cfg) (step cfg s claim).1 later)) ∧
        Holds cfg job.id (run (step cfg) (step cfg s claim).1 later)) := by
    refine everyStep_of_law (I := fun s => (Scheduled cfg D s ∧ Fresh s) ∧ Holds cfg job.id s) ?_ ?_
      ⟨hnext s claim hs hclaim, holds_of_took htook hjob⟩ (everyStep_and.mpr ⟨hlater, htends⟩)
    · rintro t e ⟨ht, hh⟩ ⟨hp, htend⟩
      exact ⟨hnext t e ht hp,
        holds_next (step_does cfg t e) ht.2.good (hspares t e ht hp) htend hh⟩
    · rintro t e ⟨ht, hh⟩ _
      exact unclaimed_of_holds ht.2.good hh e
  exact hlaw.1

def threeInARow : WorkerConfig :=
  { worker_id := "a", kinds := ["k"], batch := 3, fanout_concurrency := 1,
    poll_interval := .from_secs 1, drain_grace := .from_secs 30 }

def threeReady : List Call :=
  [⟨0, .enqueue_pool "k" .null⟩, ⟨0, .enqueue_pool "k" .null⟩, ⟨0, .enqueue_pool "k" .null⟩]

/-- After one claim for three jobs, two handlers work for one second and mark their jobs done.
The third one works for half a second. -/
def threeRounds : List Event :=
  [.reply, .acquire, .spawn, .tick 1000000, .other (.mark_done 3), .finish 0, .acquire, .spawn,
    .tick 1000000, .other (.mark_done 2), .finish 0, .acquire, .spawn, .send, .execute .alone,
    .reply, .tick 500000]

/-- A lease of four seconds covers the three rounds and one more. -/
theorem four_seconds_cover_three_rounds :
    let s := start threeInARow (after threeReady) 0
    let later := threeRounds ++
      [.other (.reap (.from_secs 4)), .other (.claim_batch ["k"] 1 "b" .alone)]
    EveryStep (step threeInARow) Spares s ([.connected, .send] ++ .execute .alone :: later) ∧
      EveryStep (step threeInARow) (Unclaimed threeInARow 1)
        (run (step threeInARow) s [.connected, .send, .execute .alone]) later := by
  intro s later
  have hprompt : EveryStep (step threeInARow) (Prompt 1000000) s
      ([.connected, .send] ++ .execute .alone :: later) := by decide +kernel
  have hlong : EveryStep (step threeInARow) (fun _ e => LongLease threeInARow 1000000 e) s
      ([.connected, .send] ++ .execute .alone :: later) := by
    simp [later, threeRounds, EveryStep, LongLease, rounds, threeInARow, Duration.from_secs,
      USECS_PER_SEC]
  have htends : EveryStep (step threeInARow) (Tends 1)
      (run (step threeInARow) s [.connected, .send, .execute .alone]) later := by decide +kernel
  have hlaw := a_long_lease_covers_a_batch threeReady (by decide)
    (everyStep_and.mpr ⟨hprompt, hlong⟩)
  exact ⟨hlaw.1, hlaw.2 [.connected, .send] (.execute .alone) later
    [⟨3, "k", .null, 1⟩, ⟨2, "k", .null, 1⟩, ⟨1, "k", .null, 1⟩] ⟨1, "k", .null, 1⟩ rfl rfl
    (by simp) htends⟩

/-- A lease of two handlers does not cover three rounds: the reaper takes the last job from
its handler, and another worker runs it at the same time. -/
theorem a_batch_outlives_two_handlers :
    let s := run (step threeInARow) (start threeInARow (after threeReady) 0)
      ([.connected, .send, .execute .alone] ++ threeRounds)
    let s' := run (step threeInARow) s
      [.other (.reap (.from_secs 2)), .other (.claim_batch ["k"] 1 "b" .alone)]
    EveryStep (step threeInARow) (Prompt 1000000) (start threeInARow (after threeReady) 0)
        ([.connected, .send, .execute .alone] ++ threeRounds) ∧
      ¬ Spares s (.other (.reap (.from_secs 2))) ∧
      (unfinished s').map (·.job.id) = [1] ∧
      (s'.db.jobs.find 1).map (fun r => (r.state, r.locked_by)) =
        some (State.running, some ("b" : Text)) := by
  refine ⟨by decide +kernel, ?_, by decide +kernel, by decide +kernel⟩
  intro hspares
  have hrow := hspares ⟨⟨1, "k", .null, 1⟩, 0⟩ (List.mem_singleton.mpr rfl)
  have hstate := congrArg (Option.map (·.state)) hrow
  revert hstate
  decide +kernel

end skip_locked.worker
