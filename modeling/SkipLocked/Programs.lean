-- `examples/producer.rs` and `examples/worker.rs`: a producer enqueues a burst
-- in one transaction, and the handler of the worker marks its job done. The law
-- of the two together: each job is ready, at work or done, and the worker can
-- bring every job that is due to done.
import SkipLocked.QueueProgress

open jsonb postgres keyed_table event_runs

/-! ## The two programs -/

namespace skip_locked.producer

def carriers : List Text := ["A", "B", "C", "D"]

/-- The payload of job `i`, with its keys in the order of `jsonb`. -/
def payload (i : Nat) : Jsonb :=
  .object [("status", .string "in_transit"), ("event_id", .string ("evt-" ++ Text.ofNat i)),
    ("carrier_id", .string (carriers.getD (i % carriers.length) ""))]

/-- The statements of one run with `N = n`, in the transaction `xid`. -/
def main (n xid : Nat) : List Op :=
  .begin xid :: (List.range n).map (fun i => .enqueue xid "webhook.normalize" (payload i)) ++
    [.notify_ready xid, .commit xid]

end skip_locked.producer

namespace skip_locked.worker

open claim

/-- The configuration of `examples/worker.rs`. -/
def configOf (pid : Nat) : WorkerConfig :=
  { worker_id := "worker-" ++ Text.ofNat pid, kinds := ["webhook.normalize", "tracking.refresh"],
    batch := 64, fanout_concurrency := 32, poll_interval := .from_secs 1,
    drain_grace := .from_secs 30 }

/-! ## Their events -/

/-- A statement of a producer. -/
def produces : Op → Bool
  | .begin _ => true
  | .enqueue _ _ _ => true
  | .enqueue_at _ _ _ _ => true
  | .notify_ready _ => true
  | .commit _ => true
  | .rollback _ => true
  | .enqueue_pool _ _ => true
  | _ => false

theorem main_produces (n xid : Nat) : ∀ op ∈ producer.main n xid, produces op = true := by
  intro op hop
  unfold producer.main at hop
  rw [List.mem_append, List.mem_cons, List.mem_map] at hop
  rcases hop with (rfl | ⟨i, _, rfl⟩) | hlast
  · rfl
  · rfl
  · simp only [List.mem_cons, List.not_mem_nil, or_false] at hlast
    rcases hlast with rfl | rfl
    · rfl
    · rfl

def isDone (db : Db) (k : Int) : Bool := (db.jobs.find k).any (fun r => decide (r.state = .done))

/-- A producer calls, a handler marks its job, a handler ends after that, or the loop goes on
and loses no job. -/
def Shipped (cfg : WorkerConfig) (s : Worker) : Event → Prop
  | .other op => produces op = true ∨ ∃ t ∈ s.tasks, op = .mark_done t.job.id
  | .finish i => ∀ t, s.tasks[i]? = some t → isDone s.db t.job.id = true
  | .turn => ¬ Loses cfg s .turn
  | .lost => ¬ Loses cfg s .lost
  | .execute plan => ¬ Loses cfg s (.execute plan)
  | _ => True

/-- A burst of any size is a run of such events. -/
theorem shipped_main (cfg : WorkerConfig) (s : Worker) (n xid : Nat) :
    EveryStep (step cfg) (Shipped cfg) s ((producer.main n xid).map .other) := by
  have hall := main_produces n xid
  generalize producer.main n xid = ops at hall
  induction ops generalizing s with
  | nil => trivial
  | cons op rest ih =>
    obtain ⟨hfirst, hrest⟩ := List.forall_mem_cons.mp hall
    exact ⟨Or.inl hfirst, ih _ hrest⟩

/-- The same without the producers, the token and the errors. -/
def Unaided (cfg : WorkerConfig) (s : Worker) : Event → Prop
  | .other op => ∃ t ∈ s.tasks, op = .mark_done t.job.id
  | .finish i => ∀ t, s.tasks[i]? = some t → isDone s.db t.job.id = true
  | e => Goes cfg s e

theorem shipped_of_unaided {cfg : WorkerConfig} {s : Worker} {e : Event} (h : Unaided cfg s e) :
    Shipped cfg s e := by
  cases e with
  | other op => exact Or.inr h
  | finish i => exact h
  | turn => exact absurd h id
  | lost => exact absurd h id
  | execute plan => exact not_loses_of_goes (show Goes cfg s (.execute plan) from h)
  | _ => trivial

/-! ## The place of a job -/

/-- The jobs between their claim and the end of their handler. -/
def atWork (s : Worker) : List Int := (pending s.phase ++ s.tasks.map (·.job)).map (·.id)

/-- A job is ready and new, or it runs and the worker has it, or it is done. -/
def Placed (working : Prop) : Option JobRow → Prop
  | none => ¬ working
  | some r => (r.state = .ready ∧ r.attempts = 0 ∧ ¬ working) ∨ (r.state = .running ∧ working) ∨
      r.state = .done

structure Orderly (s : Worker) : Prop where
  good : s.db.Good
  placed : ∀ k, Placed (k ∈ atWork s) (s.db.jobs.find k)

theorem placed_congr {p q : Prop} {row : Option JobRow} (hpq : q ↔ p) (h : Placed p row) :
    Placed q row := (propext hpq) ▸ h

theorem find_of_life {db db' : Db} {k : Int} (h : db'.life k = db.life k) :
    db'.jobs.find k = db.jobs.find k := by
  cases hf : db.jobs.find k with
  | some r =>
    rw [life_of_find hf] at h
    exact life_live.mp h
  | none =>
    cases hf' : db'.jobs.find k with
    | none => rfl
    | some r =>
      rw [life_of_find hf'] at h
      rw [life_live.mp h.symm] at hf
      cases hf

theorem claimant_of_produces {op : Op} (h : produces op = true) : op.claimant = none := by
  cases op with
  | claim_batch kinds n worker_id plan => cases h
  | fair_claim kinds batch per_tenant_cap worker_id plan => cases h
  | _ => rfl

/-- A producer leaves a job as it is, or brings a new one into the table. -/
theorem turn_produces {k : Int} {c : Call} {a : Answer} {l l' : Life} (h : Turn k c a l l')
    (hop : produces c.op = true) : l' = l ∨
      l = .unborn ∧ ∃ kind payload run_at, l' = .live (newRow k kind payload run_at) := by
  cases h with
  | still l _ => exact Or.inl rfl
  | born kind payload run_at _ _ => exact Or.inr ⟨rfl, kind, payload, run_at, rfl⟩
  | claimed r hclaim _ _ _ _ =>
    rw [claimant_of_produces hop] at hclaim
    cases hclaim
  | beat r hc _ =>
    rw [hc] at hop
    cases hop
  | finished r hc =>
    rw [hc] at hop
    cases hop
  | requeued r hc _ _ =>
    rw [hc] at hop
    cases hop
  | died r hc =>
    rw [hc] at hop
    cases hop
  | reaped r hc _ _ =>
    rw [hc] at hop
    cases hop

theorem placed_produces {db : Db} (hg : db.Good) {c : Call} (hop : produces c.op = true) {k : Int}
    {working : Prop} (h : Placed working (db.jobs.find k)) :
    Placed working ((exec db c).1.jobs.find k) := by
  rcases turn_produces (exec_turn hg c k) hop with hsame | ⟨hunborn, kind, payload, run_at, hborn⟩
  · rw [find_of_life hsame]
    exact h
  · have hnone : db.jobs.find k = none := by
      cases hf : db.jobs.find k with
      | none => rfl
      | some r =>
        rw [life_of_find hf] at hunborn
        cases hunborn
    rw [hnone] at h
    rw [life_live.mp hborn]
    exact Or.inl ⟨rfl, rfl, h⟩

theorem placed_marked {db : Db} (now id : Int) {k : Int} {working : Prop}
    (h : Placed working (db.jobs.find k)) :
    Placed working ((exec db ⟨now, .mark_done id⟩).1.jobs.find k) := by
  show Placed working ((mark_done db id).jobs.find k)
  rw [find_mark_done]
  cases hf : db.jobs.find k with
  | none =>
    rw [hf] at h
    exact h
  | some r =>
    rw [hf] at h
    by_cases hk : k = id
    · simp only [Option.map_some, if_pos hk]
      exact Or.inr (Or.inr rfl)
    · simp only [Option.map_some, if_neg hk]
      exact h

/-- A claim moves the jobs that it takes to the worker. -/
theorem placed_took {db db' : Db} {now : Int} {kinds : List Text} {worker_id : Text}
    {plan : claim.Plan} {jobs : List Job} (ht : Took db now kinds worker_id plan db' jobs) {k : Int}
    {working : Prop} (h : Placed working (db.jobs.find k)) :
    Placed (k ∈ jobs.map (·.id) ∨ working) (db'.jobs.find k) := by
  rw [ht.row]
  by_cases hk : k ∈ jobs.map (·.id)
  · obtain ⟨job, hjob, rfl⟩ := List.mem_map.mp hk
    obtain ⟨r, hf, _⟩ := ht.taken job hjob
    rw [hf]
    simp only [Option.map_some, if_pos hk]
    exact Or.inr (Or.inl ⟨rfl, Or.inl hk⟩)
  · simp only [if_neg hk, Option.map_id']
    exact placed_congr (or_iff_right hk) h

theorem isDone_iff {db : Db} {k : Int} :
    isDone db k = true ↔ ∃ r, db.jobs.find k = some r ∧ r.state = .done := by
  simp [isDone, Option.any_eq_true]

theorem mem_eraseIdx_or {tasks : List Task} {i : Nat} (hi : i < tasks.length) (t : Task) :
    t ∈ tasks.eraseIdx i ∨ t = tasks[i] ↔ t ∈ tasks := by
  have hsplit : tasks = tasks.take i ++ tasks[i] :: tasks.drop (i + 1) := by
    rw [List.getElem_cons_drop, List.take_append_drop]
  have hmem : t ∈ tasks ↔ t ∈ tasks.take i ++ tasks[i] :: tasks.drop (i + 1) := by rw [← hsplit]
  rw [hmem, List.eraseIdx_eq_take_drop_succ, List.mem_append, List.mem_append, List.mem_cons]
  tauto

/-- One event of the two programs keeps each job in its place. -/
theorem orderly_next {cfg : WorkerConfig} {s s' : Worker} {e : Event} {d : Option Deal}
    (hd : Does cfg s e s' d) (hs : Shipped cfg s e) (h : Orderly s) : Orderly s' := by
  refine ⟨good_next hd h.good, ?_⟩
  intro k
  have hk := h.placed k
  unfold atWork at hk ⊢
  cases hd with
  | quiet cancelled phase orphan heard _ hp =>
    rcases hp with rfl | ⟨hold, hnew⟩
    · exact hk
    · dsimp only
      rw [hnew]
      rw [hold] at hk
      exact hk
  | dropped phase hloss _ _ =>
    cases e with
    | turn => exact absurd hloss hs
    | lost => exact absurd hloss hs
    | execute plan => exact absurd hloss hs
    | _ => exact absurd hloss id
  | ticked usecs => exact hk
  | called op =>
    rcases hs with hop | ⟨t, _, rfl⟩
    · exact placed_produces h.good hop hk
    · exact placed_marked s.clock t.job.id hk
  | took hp hok =>
    rw [hp] at hk
    refine placed_congr ?_ (placed_took (claim_batch_took hok) hk)
    simp [pending]
  | @orphaned plan db jobs hp ho hok =>
    have hnone : jobs = [] := by
      by_contra hne
      exact hs ⟨hp, ho, takes_of_claim.mpr ⟨db, jobs, hne, hok⟩⟩
    refine placed_congr ?_ (placed_took (claim_batch_took hok) hk)
    simp [hnone]
  | received hp =>
    rw [hp] at hk
    exact hk
  | acquired hp _ =>
    rw [hp] at hk
    exact hk
  | spawned_last hp =>
    rw [hp] at hk
    exact hk
  | spawned_next hp =>
    rw [hp] at hk
    refine placed_congr ?_ hk
    simp only [pending, List.map_append, List.map_cons, List.mem_append, List.mem_cons]
    tauto
  | @finished i hi =>
    have hdone := hs s.tasks[i] (List.getElem?_eq_getElem hi)
    by_cases hsame : k = s.tasks[i].job.id
    · obtain ⟨r, hf, hstate⟩ := isDone_iff.mp hdone
      rw [hsame, hf]
      exact Or.inr (Or.inr hstate)
    · refine placed_congr ?_ hk
      have hmem : ∀ t, t ∈ s.tasks.eraseIdx i ∨ t = s.tasks[i] ↔ t ∈ s.tasks := mem_eraseIdx_or hi
      simp only [List.mem_map, List.mem_append]
      constructor
      · rintro ⟨job, hjob | ⟨t, ht, rfl⟩, hid⟩
        · exact ⟨job, Or.inl hjob, hid⟩
        · exact ⟨t.job, Or.inr ⟨t, (hmem t).mp (Or.inl ht), rfl⟩, hid⟩
      · rintro ⟨job, hjob | ⟨t, ht, rfl⟩, hid⟩
        · exact ⟨job, Or.inl hjob, hid⟩
        · rcases (hmem t).mpr ht with hstill | rfl
          · exact ⟨t.job, Or.inr ⟨t, hstill, rfl⟩, hid⟩
          · exact absurd hid.symm hsame

theorem orderly_start (cfg : WorkerConfig) (clock : Int) :
    Orderly (start cfg (after []) clock) := by
  refine ⟨after_good [], ?_⟩
  intro k
  have hwork : atWork (start cfg (after []) clock) = [] := by
    unfold atWork
    rw [pending_start]
    rfl
  rw [hwork]
  exact List.not_mem_nil

theorem orderly_run {cfg : WorkerConfig} {clock : Int} {events : List Event}
    (h : EveryStep (step cfg) (Shipped cfg) (start cfg (after []) clock) events) :
    Orderly (run (step cfg) (start cfg (after []) clock) events) :=
  run_induction_every (P := fun _ s => Orderly s) (orderly_start cfg clock)
    (fun _ s e hs ho => orderly_next (step_does cfg s e) hs ho) h

theorem fits_of_orderly {s : Worker} (h : Orderly s) : AttemptsFit s.db := by
  intro r hr hready
  have hp := h.placed r.id
  rw [Table.find_of_mem hr] at hp
  rcases hp with ⟨_, hzero, _⟩ | ⟨hrunning, _⟩ | hdone
  · rw [hzero]
    decide
  · rw [hready] at hrunning
    cases hrunning
  · rw [hready] at hdone
    cases hdone

/-! ## The work of the handlers -/

/-- The handlers that have not marked their job. -/
def unmarked (s : Worker) : Nat := s.tasks.countP (fun t => !isDone s.db t.job.id)

/-- The steps left, with one more for each mark that is to come. -/
def marksLeft (cfg : WorkerConfig) (s : Worker) : Nat := 2 * stepsLeft cfg s + unmarked s

theorem unmarked_le {db db' : Db} {tasks : List Task}
    (h : ∀ t ∈ tasks, isDone db t.job.id = true → isDone db' t.job.id = true) :
    tasks.countP (fun t => !isDone db' t.job.id) ≤ tasks.countP (fun t => !isDone db t.job.id) := by
  apply List.countP_mono_left
  intro t ht hno
  rw [Bool.not_eq_true'] at hno ⊢
  by_contra hdone
  rw [Bool.not_eq_false] at hdone
  rw [h t ht hdone] at hno
  cases hno

/-- A claim takes no job that is done. -/
theorem isDone_took {db db' : Db} {now : Int} {kinds : List Text} {worker_id : Text}
    {plan : claim.Plan} {jobs : List Job} (ht : Took db now kinds worker_id plan db' jobs) {k : Int}
    (h : isDone db k = true) : isDone db' k = true := by
  obtain ⟨r, hf, hdone⟩ := isDone_iff.mp h
  refine isDone_iff.mpr ⟨r, ?_, hdone⟩
  rw [ht.row, hf, Option.map_some, if_neg]
  intro hk
  obtain ⟨job, hjob, rfl⟩ := List.mem_map.mp hk
  obtain ⟨r', hf', hready, _⟩ := ht.find hjob
  rw [hf, Option.some.injEq] at hf'
  rw [hf', hready] at hdone
  cases hdone

/-- An own step of the loop makes one more handler to wait for, at most. -/
theorem unmarked_next {cfg : WorkerConfig} {s s' : Worker} {e : Event} {d : Option Deal}
    (hd : Does cfg s e s' d) (hgoes : Goes cfg s e) : unmarked s' ≤ unmarked s + 1 := by
  unfold unmarked
  cases hd with
  | called op => exact absurd hgoes id
  | took _ hok =>
    exact Nat.le_succ_of_le (unmarked_le (fun _ _ h => isDone_took (claim_batch_took hok) h))
  | orphaned _ _ hok =>
    exact Nat.le_succ_of_le (unmarked_le (fun _ _ h => isDone_took (claim_batch_took hok) h))
  | spawned_last _ =>
    rw [List.countP_cons]
    dsimp only
    split <;> omega
  | spawned_next _ =>
    rw [List.countP_cons]
    dsimp only
    split <;> omega
  | finished _ => exact Nat.le_succ_of_le ((List.eraseIdx_sublist _ _).countP_le)
  | _ => exact Nat.le_succ _

theorem isDone_marked {db : Db} (now : Int) {id k : Int}
    (h : isDone db k = true ∨ (k = id ∧ ∃ r, db.jobs.find k = some r)) :
    isDone (exec db ⟨now, .mark_done id⟩).1 k = true := by
  show isDone (mark_done db id) k = true
  rw [isDone_iff, find_mark_done]
  rcases h with h | ⟨rfl, r, hf⟩
  · obtain ⟨r, hf, hdone⟩ := isDone_iff.mp h
    rw [hf]
    by_cases hk : k = id
    · exact ⟨setDone r, by simp [hk], rfl⟩
    · exact ⟨r, by simp [hk], hdone⟩
  · rw [hf]
    exact ⟨setDone r, by simp, rfl⟩

/-- A row that is ready after a mark was so before. -/
theorem ready_of_marked {db : Db} {now id : Int} {r : JobRow}
    (hr : r ∈ (exec db ⟨now, .mark_done id⟩).1.jobs.rows) (hready : r.state = .ready) :
    r ∈ db.jobs.rows := by
  have hf : (mark_done db id).jobs.find r.id = some r := Table.find_of_mem hr
  rw [find_mark_done] at hf
  obtain ⟨old, hold, hsame⟩ := Option.map_eq_some_iff.mp hf
  by_cases hk : r.id = id
  · rw [if_pos hk] at hsame
    rw [← hsame] at hready
    cases hready
  · rw [if_neg hk] at hsame
    rw [← hsame]
    exact Table.mem_of_find hold

/-- Fewer ready rows leave no more steps. -/
theorem stepsLeft_le {cfg : WorkerConfig} {s : Worker} {db : Db}
    (h : ∀ r ∈ db.jobs.rows, r.state = .ready → r ∈ s.db.jobs.rows) :
    stepsLeft cfg { s with db } ≤ stepsLeft cfg s := by
  have hcount : db.jobs.count (wanted cfg) ≤ s.db.jobs.count (wanted cfg) :=
    @count_wanted_le cfg s.db.jobs db.jobs [] (fun r hr hready => ⟨h r hr hready, List.not_mem_nil⟩)
      List.nodup_nil (fun k hk => absurd hk List.not_mem_nil)
  have hfinds : finds cfg { s with db } = true → finds cfg s = true := by
    intro hf
    obtain ⟨r, hr, hc⟩ := finds_iff.mp hf
    exact finds_iff.mpr ⟨r, h r hr (claimable_iff.mp hc).1, hc⟩
  have hin : stepsIn cfg { s with db } ≤ stepsIn cfg s := by
    obtain ⟨_, clock, _, phase, _, _, _, _⟩ := s
    cases phase with
    | claiming wire =>
      cases wire with
      | committed at_ jobs =>
        cases jobs with
        | nil =>
          simp only [stepsIn]
          split
          · rename_i hf
            rw [if_pos (hfinds hf)]
          · exact Nat.le_add_right _ _
        | cons job rest => exact Nat.le_refl _
      | _ => exact Nat.le_refl _
    | idle since =>
      simp only [stepsIn, stepsIdle]
      split
      · rename_i hf
        rw [if_pos (hfinds hf)]
      · exact Nat.zero_le _
    | _ => exact Nat.le_refl _
  unfold stepsLeft
  dsimp only
  omega

theorem unmarked_lt {db db' : Db} {tasks : List Task} {t : Task} (ht : t ∈ tasks)
    (hbefore : isDone db t.job.id = false) (hafter : isDone db' t.job.id = true)
    (h : ∀ t ∈ tasks, isDone db t.job.id = true → isDone db' t.job.id = true) :
    tasks.countP (fun t => !isDone db' t.job.id) < tasks.countP (fun t => !isDone db t.job.id) := by
  obtain ⟨a, b, rfl⟩ := List.append_of_mem ht
  have ha := @unmarked_le db db' a (fun t ht => h t (List.mem_append_left _ ht))
  have hb := @unmarked_le db db' b (fun t ht =>
    h t (List.mem_append_right _ (List.mem_cons_of_mem _ ht)))
  rw [List.countP_append, List.countP_append, List.countP_cons, List.countP_cons, hbefore, hafter]
  simp only [Bool.not_true, Bool.not_false, if_true]
  rw [if_neg (by simp)]
  omega

/-! ## Every job that is due can be done -/

/-- What the steps of the loop and the handlers keep. -/
structure Steady (cfg : WorkerConfig) (s : Worker) : Prop where
  going : Going cfg s
  orderly : Orderly s

/-- A handler marks its job. -/
theorem marks {cfg : WorkerConfig} {s : Worker} (h : Steady cfg s) {t : Task} (ht : t ∈ s.tasks)
    (hopen : isDone s.db t.job.id = false) :
    ∃ e, Unaided cfg s e ∧ Steady cfg (step cfg s e).1 ∧
      marksLeft cfg (step cfg s e).1 < marksLeft cfg s := by
  have hunaided : Unaided cfg s (.other (.mark_done t.job.id)) := ⟨t, ht, rfl⟩
  have horderly := orderly_next (step_does cfg s _) (shipped_of_unaided hunaided) h.orderly
  have hstep : (step cfg s (.other (.mark_done t.job.id))).1 =
      { s with db := (exec s.db ⟨s.clock, .mark_done t.job.id⟩).1 } := rfl
  have hrow : ∃ r, s.db.jobs.find t.job.id = some r := by
    have hwork : t.job.id ∈ atWork s := by
      unfold atWork
      rw [List.map_append, List.map_map]
      exact List.mem_append_right _ (List.mem_map_of_mem ht)
    have hp := h.orderly.placed t.job.id
    cases hf : s.db.jobs.find t.job.id with
    | none =>
      rw [hf] at hp
      exact absurd hwork hp
    | some r => exact ⟨r, rfl⟩
  have hless := unmarked_lt ht hopen (isDone_marked s.clock (Or.inr ⟨rfl, hrow⟩))
    (fun _ _ hd => isDone_marked s.clock (Or.inl hd))
  have hsteps : stepsLeft cfg { s with db := (exec s.db ⟨s.clock, .mark_done t.job.id⟩).1 } ≤
      stepsLeft cfg s := stepsLeft_le (fun r hr hready => ready_of_marked hr hready)
  refine ⟨_, hunaided, ⟨⟨?_, ?_, ?_, ?_⟩, horderly⟩, ?_⟩
  · rw [hstep]
    exact h.going.live
  · exact fits_of_orderly horderly
  · exact (permits_next (step_does cfg s _)).trans h.going.permits
  · exact waits_step (step_paces cfg s _) h.going.waits
  · rw [hstep]
    unfold marksLeft unmarked
    dsimp only
    omega

/-- A worker that is not at rest has a step of its own or of a handler. -/
theorem goes_on {cfg : WorkerConfig} {s : Worker} (hbatch : 1 ≤ cfg.batch)
    (hfan : 1 ≤ cfg.fanout_concurrency) (h : Steady cfg s) (hbusy : ¬ AtRest cfg s) :
    ∃ e, Unaided cfg s e ∧ Steady cfg (step cfg s e).1 ∧
      marksLeft cfg (step cfg s e).1 < marksLeft cfg s := by
  by_cases hall : ∀ t ∈ s.tasks, isDone s.db t.job.id = true
  · obtain ⟨e, hgoes, hgoing, hless⟩ := advances hbatch hfan h.going hbusy
    have hunaided : Unaided cfg s e := by
      cases e with
      | other op => exact absurd hgoes id
      | finish i => exact fun t ht => hall t (List.mem_of_getElem? ht)
      | _ => exact hgoes
    refine ⟨e, hunaided, ⟨hgoing, ?_⟩, ?_⟩
    · exact orderly_next (step_does cfg s e) (shipped_of_unaided hunaided) h.orderly
    · have hone := unmarked_next (step_does cfg s e) hgoes
      unfold marksLeft
      omega
  · simp only [not_forall, Bool.not_eq_true] at hall
    obtain ⟨t, ht, hopen⟩ := hall
    exact marks h ht hopen

/-- The rows of the start are still there, with their kind and their time. -/
structure Keeps (s t : Worker) : Prop where
  later : s.clock ≤ t.clock
  rows : ∀ k r, s.db.jobs.find k = some r → ∃ r', t.db.jobs.find k = some r' ∧ r'.kind = r.kind ∧
    r'.run_at = r.run_at

theorem keeps_next {cfg : WorkerConfig} {s t t' : Worker} {e : Event} {d : Option Deal}
    (hd : Does cfg t e t' d) (hu : Unaided cfg t e) (h : Keeps s t) : Keeps s t' := by
  obtain ⟨hlater, hrows⟩ := h
  have hclaim : ∀ {plan : claim.Plan} {db : Db} {jobs : List Job},
      claim_batch t.db t.clock cfg.kinds cfg.batch cfg.worker_id plan = .ok (db, jobs) →
      ∀ k r, s.db.jobs.find k = some r →
        ∃ r', db.jobs.find k = some r' ∧ r'.kind = r.kind ∧ r'.run_at = r.run_at := by
    intro plan db jobs hok k r hf
    obtain ⟨r', hf', hsame⟩ := hrows k r hf
    rw [(claim_batch_took hok).row, hf', Option.map_some]
    split
    · exact ⟨_, rfl, hsame⟩
    · exact ⟨_, rfl, hsame⟩
  cases hd with
  | called op =>
    obtain ⟨u, _, rfl⟩ := hu
    refine ⟨hlater, ?_⟩
    intro k r hf
    obtain ⟨r', hf', hsame⟩ := hrows k r hf
    show ∃ r', (mark_done t.db u.job.id).jobs.find k = some r' ∧ _
    rw [find_mark_done, hf', Option.map_some]
    split
    · exact ⟨_, rfl, hsame⟩
    · exact ⟨_, rfl, hsame⟩
  | ticked usecs =>
    refine ⟨?_, hrows⟩
    dsimp only
    omega
  | took _ hok => exact ⟨hlater, hclaim hok⟩
  | orphaned _ _ hok => exact ⟨hlater, hclaim hok⟩
  | _ => exact ⟨hlater, hrows⟩

/-- In every run of the two programs from empty tables, with any number of producers, each job
is ready and new, or it runs and the worker has it, or it is done. And from each state of a
live loop the worker and its handlers alone can go on until each job that is due is done. -/
theorem the_two_programs_finish_every_job (cfg : WorkerConfig) (clock : Int) (events : List Event)
    (hbatch : 1 ≤ cfg.batch) (hfan : 1 ≤ cfg.fanout_concurrency)
    (hshipped : EveryStep (step cfg) (Shipped cfg) (start cfg (after []) clock) events) :
    let s := run (step cfg) (start cfg (after []) clock) events
    (∀ k, Placed (k ∈ atWork s) (s.db.jobs.find k)) ∧
      (Live s → ∃ own, EveryStep (step cfg) (Unaided cfg) s own ∧
        AtRest cfg (run (step cfg) s own) ∧
        ∀ k r, s.db.jobs.find k = some r → r.kind ∈ cfg.kinds → r.run_at ≤ s.clock →
          isDone (run (step cfg) s own).db k = true) := by
  intro s
  have horderly : Orderly s := orderly_run hshipped
  refine ⟨horderly.placed, ?_⟩
  intro hlive
  have hsteady : Steady cfg s :=
    ⟨going_of_live [] clock events hlive (fits_of_orderly horderly), horderly⟩
  obtain ⟨own, hown, _, hend, hrest⟩ :=
    finishes_every (fun t ht hbusy => goes_on hbatch hfan ht hbusy) hsteady
  have hkeeps : Keeps s (run (step cfg) s own) :=
    run_induction_every (P := fun _ t => Keeps s t)
      ⟨Int.le_refl _, fun k r hf => ⟨r, hf, rfl, rfl⟩⟩
      (fun _ t e hu hk => keeps_next (step_does cfg t e) hu hk) hown
  refine ⟨own, hown, hrest, ?_⟩
  intro k r hf hkind hdue
  obtain ⟨⟨since, hidle⟩, htasks, hnone⟩ := hrest
  obtain ⟨r', hf', hkind', hdue'⟩ := hkeeps.rows k r hf
  have hp := hend.orderly.placed k
  rw [hf'] at hp
  rcases hp with ⟨hready, _, _⟩ | ⟨_, hwork⟩ | hdone
  · -- the loop would still find the job
    have hstill : finds cfg (run (step cfg) s own) = true := by
      refine finds_iff.mpr ⟨r', Table.mem_of_find hf', claimable_iff.mpr ⟨hready, ?_, ?_⟩⟩
      · rw [hdue']
        exact Int.le_trans hdue hkeeps.later
      · rw [hkind']
        exact hkind
    rw [hnone] at hstill
    cases hstill
  · unfold atWork at hwork
    rw [hidle, htasks] at hwork
    cases hwork
  · exact isDone_iff.mpr ⟨r', hf', hdone⟩

/-- A burst of two jobs, until one job is with its handler and one waits for its permit. -/
def burstOfTwo : List Event :=
  .connected :: (producer.main 2 1).map .other ++ [.send, .execute .alone, .reply, .acquire, .spawn]

theorem a_burst_of_two_is_done :
    let s := run (step (configOf 7)) (start (configOf 7) (after []) 0) burstOfTwo
    ∃ own, EveryStep (step (configOf 7)) (Unaided (configOf 7)) s own ∧
      isDone (run (step (configOf 7)) s own).db 1 = true ∧
      isDone (run (step (configOf 7)) s own).db 2 = true := by
  intro s
  have hshipped : EveryStep (step (configOf 7)) (Shipped (configOf 7))
      (start (configOf 7) (after []) 0) burstOfTwo := by
    apply everyStep_append.mpr
    refine ⟨⟨trivial, shipped_main _ _ 2 1⟩, trivial, ?_, trivial, trivial, trivial, trivial⟩
    exact fun hl => hl.1 rfl
  obtain ⟨_, hlive⟩ := the_two_programs_finish_every_job (configOf 7) 0 burstOfTwo (by decide)
    (by decide) hshipped
  obtain ⟨own, hown, _, hdone⟩ := hlive ⟨rfl, trivial⟩
  have hdue : ∀ k ∈ [1, 2], (s.db.jobs.find k).any (fun r =>
      decide (r.kind ∈ (configOf 7).kinds) && decide (r.run_at ≤ s.clock)) = true := by
    decide +kernel
  have hboth : ∀ k ∈ [1, 2], isDone (run (step (configOf 7)) s own).db k = true := by
    intro k hk
    obtain ⟨r, hf, hr⟩ := Option.any_eq_true _ _ |>.mp (hdue k hk)
    rw [Bool.and_eq_true, decide_eq_true_eq, decide_eq_true_eq] at hr
    exact hdone k r hf hr.1 hr.2
  exact ⟨own, hown, hboth 1 (by decide), hboth 2 (by decide)⟩

end skip_locked.worker
