-- The law of the wakeups: an idle worker has a notification in its buffer for
-- each job that was committed after the snapshot of its last claim. Only a
-- commit sends a notification.
import SkipLocked.Life
import SkipLocked.Shutdown

open jsonb postgres keyed_table event_runs

namespace skip_locked

open claim lease retry

/-! ## The notifications of a call -/

/-- The call sends a notification: the commit of a transaction that asked for one, or an
`enqueue_pool` that succeeds. -/
def Sends (db : Db) (c : Call) : Prop :=
  match c.op with
  | .commit xid => ∃ tx, db.transactions.find xid = some tx ∧ tx.notify = true
  | .enqueue_pool .. => ∃ id, (exec db c).2 = .ok (.id id)
  | _ => False

/-- A transaction that commits rows has asked for a notification. -/
def Announces (db : Db) (c : Call) : Prop :=
  ∀ xid tx, c.op = .commit xid → db.transactions.find xid = some tx → tx.inserted ≠ [] →
    tx.notify = true

theorem notified_answer {α : Type} {db : Db} {reply : α → Reply} {res : Except PgError (Db × α)}
    (h : ∀ db' a, res = .ok (db', a) → db'.notified = db.notified) :
    (answer db reply res).1.notified = db.notified := by
  rcases res with e | ⟨db', a⟩
  · rfl
  · exact h db' a rfl

theorem notified_insertIn {db : Db} {xid : Nat}
    {insert : Transaction → Except PgError (Db × Transaction × Int)}
    (h : ∀ tx db' tx' id, insert tx = .ok (db', tx', id) → db'.notified = db.notified) :
    (insertIn db xid insert).1.notified = db.notified := by
  unfold insertIn
  split
  · rfl
  split
  · rfl
  · rename_i hok
    have hsame := h _ _ _ _ hok
    exact hsame

theorem notified_insertJob {db db' : Db} {tx tx' : Transaction} {kind : Text} {payload : Jsonb}
    {run_at : Int} {id : Int} (h : insertJob db tx kind payload run_at = .ok (db', tx', id)) :
    db'.notified = db.notified := by
  obtain ⟨_, rfl, _⟩ := insertJob_ok h
  rfl

theorem notified_commitIn {db : Db} (h : db.Good) {xid : Nat} {tx : Transaction}
    (hf : db.transactions.find xid = some tx) :
    (commitIn db xid).1.notified = if tx.notify then db.notified + 1 else db.notified := by
  obtain ⟨jobs, _, hc⟩ := commit_ok h hf
  simp only [commitIn, hf, hc]
  rfl

/-- A call sends one notification, or it leaves their number. -/
theorem exec_notified {db : Db} (h : db.Good) (c : Call) :
    (Sends db c ∧ (exec db c).1.notified = db.notified + 1) ∨
      (¬ Sends db c ∧ (exec db c).1.notified = db.notified) := by
  unfold Sends exec
  cases hop : c.op with
  | begin xid =>
    refine Or.inr ⟨id, ?_⟩
    dsimp only [beginIn]
    split <;> rfl
  | enqueue xid kind payload =>
    exact Or.inr ⟨id, notified_insertIn (fun _ _ _ _ hok => notified_insertJob hok)⟩
  | enqueue_at xid kind payload run_at =>
    exact Or.inr ⟨id, notified_insertIn (fun _ _ _ _ hok => notified_insertJob (enqueue_at_ok hok))⟩
  | notify_ready xid =>
    refine Or.inr ⟨id, ?_⟩
    dsimp only [notifyIn]
    split <;> rfl
  | commit xid =>
    dsimp only
    cases hf : db.transactions.find xid with
    | none =>
      refine Or.inr ⟨by simp, ?_⟩
      simp only [commitIn, hf]
    | some tx =>
      rw [notified_commitIn h hf]
      cases hn : tx.notify with
      | true => exact Or.inl ⟨⟨tx, rfl, hn⟩, rfl⟩
      | false =>
        refine Or.inr ⟨?_, rfl⟩
        rintro ⟨tx', htx, hno⟩
        cases htx
        rw [hn] at hno
        cases hno
  | rollback xid => exact Or.inr ⟨id, rfl⟩
  | enqueue_pool kind payload =>
    dsimp only
    cases hres : skip_locked.enqueue_pool db c.now kind payload with
    | error e =>
      refine Or.inr ⟨?_, rfl⟩
      rintro ⟨id, hid⟩
      cases hid
    | ok res =>
      obtain ⟨db', id⟩ := res
      obtain ⟨_, hs, _⟩ := enqueue_pool_ok hres
      refine Or.inl ⟨⟨id, rfl⟩, ?_⟩
      have hsame := congrArg Db.notified hs
      exact hsame
  | claim_batch kinds n worker_id plan =>
    exact Or.inr ⟨id, notified_answer (fun _ _ hok => by rw [(claim_batch_took hok).same])⟩
  | fair_claim kinds batch per_tenant_cap worker_id plan =>
    exact Or.inr ⟨id, notified_answer (fun _ _ hok => by rw [(fair_claim_took hok).same])⟩
  | heartbeat ids worker_id => exact Or.inr ⟨id, rfl⟩
  | mark_done i => exact Or.inr ⟨id, rfl⟩
  | requeue i err =>
    refine Or.inr ⟨id, notified_answer (fun db' n hok => ?_)⟩
    rcases requeue_ok hok with ⟨_, rfl, _⟩ | ⟨_, _, _, _, _, _, hs, _⟩
    · rfl
    · rw [hs]
  | dead_letter i err => exact Or.inr ⟨id, rfl⟩
  | reap l =>
    refine Or.inr ⟨id, notified_answer (fun db' n hok => ?_)⟩
    obtain ⟨_, _, _, rfl⟩ := reap_ok hok
    rfl

/-- A call that brings a job into the table sends a notification, when it announces its rows. -/
theorem a_birth_sends {db : Db} (h : db.Good) {c : Call} {j : Int} (ha : Announces db c)
    (hbefore : db.life j = .unborn) (hafter : (exec db c).1.life j ≠ .unborn) : Sends db c := by
  have hturn := exec_turn h c j
  rw [hbefore] at hturn
  have hbirth : c.op.births = true := by
    generalize hl : (exec db c).1.life j = l' at hturn hafter
    generalize (exec db c).2 = a at hturn
    cases hturn with
    | still _ _ => exact absurd rfl hafter
    | born _ _ _ _ hb => exact hb
  cases hop : c.op with
  | commit xid =>
    have hex : exec db c = commitIn db xid := by simp only [exec, hop]
    rw [hex] at hafter
    cases hf : db.transactions.find xid with
    | none =>
      have hsame : commitIn db xid = (db, .error .no_such_transaction) := by
        simp only [commitIn, hf]
      rw [hsame] at hafter
      exact absurd hbefore hafter
    | some tx =>
      unfold Sends
      rw [hop]
      refine ⟨tx, hf, ha xid tx hop hf ?_⟩
      intro hnil
      have hfind := find_commitIn h hf j
      have hd : (commitIn db xid).1.jobs_dead = db.jobs_dead := by
        obtain ⟨jobs, _, hc⟩ := commit_ok h hf
        simp only [commitIn, hf, hc]
        rfl
      rw [hnil] at hfind
      exact hafter ((life_same hd hfind).trans hbefore)
  | enqueue_pool kind payload =>
    have hex : exec db c = answer db .id (skip_locked.enqueue_pool db c.now kind payload) := by
      simp only [exec, hop]
    unfold Sends
    rw [hop, hex]
    rw [hex] at hafter
    cases hres : skip_locked.enqueue_pool db c.now kind payload with
    | error e =>
      rw [hres] at hafter
      exact absurd hbefore hafter
    | ok res => exact ⟨res.2, rfl⟩
  | _ =>
    rw [hop] at hbirth
    cases hbirth

end skip_locked

namespace skip_locked.worker

open claim

/-! ## The listener of the loop -/

/-- The loop has an answer of its claim, or waits because of it. -/
def Awaits : Phase → Prop
  | .claiming (.committed _ _) => True
  | .idle _ => True
  | _ => False

/-- The event takes the snapshot of a claim of the loop. -/
def TakesSnapshot (s : Worker) : Event → Prop
  | .execute _ => s.phase = .claiming .sent
  | _ => False

/-- All that an event can do to what the listener has heard. -/
inductive Listens (s : Worker) : Event → Worker → Prop where
  | snapshot {plan : Plan} {s' : Worker} : s.phase = .claiming .sent → s'.heard = s.heard →
      Listens s (.execute plan) s'
  | listened {s' : Worker} : s'.phase = .claiming .unsent → s'.heard = s.db.notified →
      s'.db = s.db → Listens s .connected s'
  | woke {s' : Worker} : s'.phase = .claiming .unsent → s.heard < s.db.notified →
      s'.heard = s.heard + 1 → s'.db = s.db → Listens s .recv s'
  | kept {e : Event} {s' : Worker} : s'.heard = s.heard → (Awaits s'.phase → Awaits s.phase) →
      Listens s e s'

theorem listens_still (s : Worker) (e : Event) : Listens s e s := Listens.kept rfl id

theorem listens_leaves {s s' : Worker} {e : Event} (hh : s'.heard = s.heard)
    (hp : ¬ Awaits s'.phase) : Listens s e s' := Listens.kept hh (fun h => absurd h hp)

theorem listens_execute (cfg : WorkerConfig) (s : Worker) (plan : Plan) :
    Listens s (.execute plan) (executeIn cfg s plan).1 := by
  unfold executeIn
  split
  · rename_i hp
    split
    · exact Listens.snapshot hp rfl
    · exact Listens.snapshot hp rfl
  · split
    · split
      · exact Listens.kept rfl id
      · exact Listens.kept rfl id
    · exact listens_still s _

theorem listens_reply (s : Worker) : Listens s .reply (replyIn s) := by
  unfold replyIn
  split
  · exact listens_still s _
  split
  · rename_i hp
    exact Listens.kept rfl (fun _ => by rw [hp]; trivial)
  · exact listens_leaves rfl id
  · exact listens_leaves rfl id
  · exact listens_still s _

theorem listens_turn (s : Worker) : Listens s .turn (turnIn s) := by
  unfold turnIn
  split
  · split
    · exact listens_leaves rfl id
    · exact listens_leaves rfl id
    · exact listens_leaves rfl id
    · exact listens_still s _
  · exact listens_still s _

theorem listens_lost (s : Worker) : Listens s .lost (lostIn s) := by
  unfold lostIn
  split
  · exact listens_still s _
  split
  · exact listens_leaves rfl id
  · exact listens_leaves rfl id
  · exact listens_still s _

/-- The wait ends, with nothing taken from the buffer. -/
theorem listens_wake (s : Worker) (e : Event) (ready : Bool) :
    Listens s e (wake s ready s.heard) := by
  unfold wake
  split
  · split
    · exact listens_leaves rfl id
    · exact listens_still s _
  · exact listens_still s _

theorem listens_recv (s : Worker) :
    Listens s .recv (wake s (decide (s.heard < s.db.notified)) (s.heard + 1)) := by
  unfold wake
  split
  · split
    · rename_i hgo
      rw [Bool.and_eq_true, decide_eq_true_eq] at hgo
      exact Listens.woke rfl hgo.2 rfl rfl
    · exact listens_still s _
  · exact listens_still s _

theorem listens_spawn (s : Worker) : Listens s .spawn (spawnIn s).1 := by
  unfold spawnIn
  split
  · rename_i rest _
    refine listens_leaves rfl ?_
    cases rest <;> exact id
  · exact listens_still s _

/-- Every event does one of these. -/
theorem step_listens (cfg : WorkerConfig) (s : Worker) (e : Event) :
    Listens s e (step cfg s e).1 := by
  unfold step
  cases e with
  | cancel => exact Listens.kept rfl id
  | tick usecs => exact Listens.kept rfl id
  | other op => exact Listens.kept rfl id
  | connected =>
    dsimp only
    split
    · exact Listens.listened rfl rfl rfl
    · exact listens_still s _
  | connect_failed =>
    dsimp only
    split
    · exact listens_leaves rfl id
    · exact listens_still s _
  | turn => exact listens_turn s
  | send =>
    dsimp only
    split
    · split
      · exact listens_still s _
      · exact listens_leaves rfl id
    · exact listens_still s _
  | execute plan => exact listens_execute cfg s plan
  | refuse =>
    dsimp only
    split
    · exact listens_leaves rfl id
    · exact Listens.kept rfl id
  | reply => exact listens_reply s
  | lost => exact listens_lost s
  | recv => exact listens_recv s
  | recv_failed => exact listens_wake s _ true
  | timeout =>
    dsimp only [timeoutIn]
    split
    · exact listens_wake s _ _
    · exact listens_still s _
  | acquire =>
    dsimp only [acquireIn]
    split
    · split
      · exact listens_leaves rfl id
      · exact listens_still s _
    · exact listens_still s _
  | spawn => exact listens_spawn s
  | finish i =>
    dsimp only [finishIn]
    split
    · exact Listens.kept rfl id
    · exact listens_still s _
  | drained =>
    dsimp only [drainedIn]
    split
    · split
      · exact listens_leaves rfl id
      · exact listens_still s _
    · exact listens_still s _
  | grace =>
    dsimp only [graceIn]
    split
    · split
      · exact listens_leaves rfl id
      · exact listens_still s _
    · exact listens_still s _

/-! ## The buffer of the listener -/

/-- The notifications sent are those taken and those in the buffer. -/
structure Buffered (s : Worker) : Prop where
  good : s.db.Good
  heard : s.heard ≤ s.db.notified

/-- The call of an event of somebody else announces its rows. -/
def Announced (s : Worker) (e : Event) : Prop := ∀ op, e = .other op → Announces s.db ⟨s.clock, op⟩

/-- The event sends a notification. -/
def Notifies (s : Worker) (e : Event) : Prop := ∃ op, e = .other op ∧ Sends s.db ⟨s.clock, op⟩

theorem not_sends_claimCall (cfg : WorkerConfig) (db : Db) (clock : Int) (plan : Plan) :
    ¬ Sends db (claimCall cfg clock plan) := id

/-- An event that notifies puts one notification into the buffer, another event none. -/
theorem notified_step (cfg : WorkerConfig) {s : Worker} (h : s.db.Good) (e : Event) :
    (Notifies s e ∧ (step cfg s e).1.db.notified = s.db.notified + 1) ∨
      (¬ Notifies s e ∧ (step cfg s e).1.db.notified = s.db.notified) := by
  by_cases hother : ∃ op, e = .other op
  · obtain ⟨op, rfl⟩ := hother
    have hiff : Notifies s (.other op) ↔ Sends s.db ⟨s.clock, op⟩ := by
      constructor
      · rintro ⟨op', hop, hs⟩
        cases hop
        exact hs
      · exact fun hs => ⟨op, rfl, hs⟩
    rw [hiff]
    exact exec_notified h ⟨s.clock, op⟩
  · have hno : ¬ Notifies s e := fun ⟨op, he, _⟩ => hother ⟨op, he⟩
    refine Or.inr ⟨hno, ?_⟩
    rcases db_next (step_does cfg s e) with hsame | ⟨c, _, hdb, hc⟩
    · rw [hsame]
    · rcases hc with he | ⟨plan, rfl⟩
      · exact absurd ⟨c.op, he⟩ hother
      · rw [hdb]
        rcases exec_notified h (claimCall cfg s.clock plan) with ⟨hs, _⟩ | ⟨_, hsame⟩
        · exact absurd hs (not_sends_claimCall cfg s.db s.clock plan)
        · exact hsame

theorem notified_mono (cfg : WorkerConfig) {s : Worker} (h : s.db.Good) (e : Event) :
    s.db.notified ≤ (step cfg s e).1.db.notified := by
  rcases notified_step cfg h e with ⟨_, hn⟩ | ⟨_, hn⟩ <;> omega

theorem good_step (cfg : WorkerConfig) {s : Worker} (h : s.db.Good) (e : Event) :
    (step cfg s e).1.db.Good := good_next (step_does cfg s e) h

theorem buffered_step (cfg : WorkerConfig) {s : Worker} (h : Buffered s) (e : Event) :
    Buffered (step cfg s e).1 := by
  refine ⟨good_step cfg h.good e, ?_⟩
  have hmono := notified_mono cfg h.good e
  have hheard := h.heard
  have hl := step_listens cfg s e
  generalize (step cfg s e).1 = s' at hl hmono
  cases hl with
  | snapshot _ hh => omega
  | listened _ hh hdb =>
    rw [hdb]
    omega
  | woke _ hlt hh hdb =>
    rw [hdb]
    omega
  | kept hh _ => omega

theorem buffered_run (cfg : WorkerConfig) (calls : List Call) (clock : Int)
    (events : List Event) : Buffered (run (step cfg) (start cfg (after calls) clock) events) := by
  have h0 : Buffered (start cfg (after calls) clock) := ⟨after_good calls, Nat.zero_le _⟩
  exact run_invariant h0 (fun _ e h => buffered_step cfg h e) events

/-! ## The snapshot of the last claim -/

/-- What holds of `s` when `s0` is the state before the last snapshot. -/
structure SinceSnapshot (s0 s : Worker) : Prop where
  good : s.db.Good
  sent : s0.db.notified ≤ s.db.notified
  kept : Awaits s.phase → s.heard = s0.heard
  born : ∀ j, s0.db.life j = .unborn → s.db.life j ≠ .unborn → s0.db.notified < s.db.notified

/-- An event that is announced brings no job into the table without a notification. -/
theorem born_step (cfg : WorkerConfig) {s : Worker} (h : s.db.Good) {e : Event} {j : Int}
    (ha : Announced s e) (hbefore : s.db.life j = .unborn)
    (hafter : (step cfg s e).1.db.life j ≠ .unborn) :
    s.db.notified < (step cfg s e).1.db.notified := by
  have hsends : Notifies s e := by
    rcases db_next (step_does cfg s e) with hsame | ⟨c, hnow, hdb, hc⟩
    · rw [hsame] at hafter
      exact absurd hbefore hafter
    · rw [hdb] at hafter
      rcases hc with rfl | ⟨plan, rfl⟩
      · obtain ⟨now, op⟩ := c
        cases hnow
        exact ⟨op, rfl, a_birth_sends h (ha op rfl) hbefore hafter⟩
      · have hannounce : Announces s.db (claimCall cfg s.clock plan) := by
          rintro xid tx hop
          cases hop
        exact absurd (a_birth_sends h hannounce hbefore hafter)
          (not_sends_claimCall cfg s.db s.clock plan)
  rcases notified_step cfg h e with ⟨_, hn⟩ | ⟨hno, _⟩
  · omega
  · exact absurd hsends hno

theorem born_since (cfg : WorkerConfig) {s0 s : Worker} {e : Event} (hgood : s.db.Good)
    (hsent : s0.db.notified ≤ s.db.notified)
    (hborn : ∀ j, s0.db.life j = .unborn → s.db.life j ≠ .unborn →
      s0.db.notified < s.db.notified)
    (ha : Announced s e) (j : Int) (hbefore : s0.db.life j = .unborn)
    (hafter : (step cfg s e).1.db.life j ≠ .unborn) :
    s0.db.notified < (step cfg s e).1.db.notified := by
  have hmono := notified_mono cfg hgood e
  by_cases hj : s.db.life j = .unborn
  · have := born_step cfg hgood ha hj hafter
    omega
  · have := hborn j hbefore hj
    omega

/-- The snapshot itself. -/
theorem sinceSnapshot_start (cfg : WorkerConfig) {s : Worker} (plan : Plan) (h : s.db.Good) :
    SinceSnapshot s (step cfg s (.execute plan)).1 where
  good := good_step cfg h _
  sent := notified_mono cfg h _
  kept := by
    intro _
    have hl := step_listens cfg s (.execute plan)
    generalize (step cfg s (.execute plan)).1 = s' at hl
    cases hl with
    | snapshot _ hh => exact hh
    | kept hh _ => exact hh
  born := by
    refine born_since cfg h (Nat.le_refl _) (fun j hb ha => absurd hb ha) ?_
    rintro op hop
    cases hop

theorem sinceSnapshot_step (cfg : WorkerConfig) {s0 s : Worker} {e : Event}
    (h : SinceSnapshot s0 s) (ha : Announced s e) (hno : ¬ TakesSnapshot s e) :
    SinceSnapshot s0 (step cfg s e).1 where
  good := good_step cfg h.good e
  sent := Nat.le_trans h.sent (notified_mono cfg h.good e)
  kept := by
    have hkept := h.kept
    have hl := step_listens cfg s e
    generalize (step cfg s e).1 = s' at hl
    intro hw
    cases hl with
    | snapshot hp _ => exact absurd hp hno
    | listened hp _ _ =>
      rw [hp] at hw
      exact absurd hw id
    | woke hp _ _ _ =>
      rw [hp] at hw
      exact absurd hw id
    | kept hh hwait => rw [hh, hkept (hwait hw)]
  born := born_since cfg h.good h.sent h.born ha

/-- A loop that waits because of its claim has taken the snapshot of that claim. -/
theorem a_snapshot_was_taken (cfg : WorkerConfig) {s : Worker} (h0 : ¬ Awaits s.phase)
    (events : List Event) (hw : Awaits (run (step cfg) s events).phase) :
    ∃ e, LastStep (step cfg) TakesSnapshot s events e := by
  induction events using List.reverseRecOn with
  | nil => exact absurd hw h0
  | append_singleton events e ih =>
    by_cases ht : TakesSnapshot (run (step cfg) s events) e
    · exact ⟨e, lastStep_snoc.mpr (Or.inl ⟨ht, rfl⟩)⟩
    · rw [run_snoc] at hw
      have hl := step_listens cfg (run (step cfg) s events) e
      generalize (step cfg (run (step cfg) s events) e).1 = s' at hl hw
      have hbefore : Awaits (run (step cfg) s events).phase := by
        cases hl with
        | snapshot hp _ => exact absurd hp ht
        | listened hp _ _ =>
          rw [hp] at hw
          exact absurd hw id
        | woke hp _ _ _ =>
          rw [hp] at hw
          exact absurd hw id
        | kept _ hwait => exact hwait hw
      obtain ⟨e', hlast⟩ := ih hbefore
      exact ⟨e', lastStep_snoc.mpr (Or.inr ⟨ht, hlast⟩)⟩

theorem not_awaits_start (cfg : WorkerConfig) (db : Db) (clock : Int) :
    ¬ Awaits (start cfg db clock).phase := by
  unfold start
  dsimp only
  split
  · exact id
  · exact id

/-- The notifications of a step: one for a commit that asks for it, or for an `enqueue_pool`
that succeeds, and none for a rollback, which forgets what its transaction asked for. And
`recv` wakes the idle loop just when the buffer is not empty, and takes one. -/
structure Heeds (cfg : WorkerConfig) (s : Worker) (e : Event) : Prop where
  sends : (Notifies s e ∧ (step cfg s e).1.db.notified = s.db.notified + 1) ∨
    (¬ Notifies s e ∧ (step cfg s e).1.db.notified = s.db.notified)
  rollback : ∀ xid, e = .other (.rollback xid) → ¬ Notifies s e ∧
    (step cfg s e).1.db.transactions.find xid = none
  recv : ∀ since, e = .recv → s.phase = .idle since → s.cancelled = false →
    ((s.heard < s.db.notified ∧ (step cfg s e).1.phase = .claiming .unsent ∧
        (step cfg s e).1.heard = s.heard + 1) ∨
      (s.heard = s.db.notified ∧ (step cfg s e).1 = s))

/-- A job that comes into the table after the last snapshot has left a notification in the
buffer of a loop that waits. -/
theorem heard_of_birth (cfg : WorkerConfig) {s0 : Worker} (h0 : Buffered s0) (plan : Plan)
    {later : List Event}
    (ha : EveryStep (step cfg) Announced (step cfg s0 (.execute plan)).1 later)
    (hlast : EveryStep (step cfg) (fun t e => ¬ TakesSnapshot t e)
      (step cfg s0 (.execute plan)).1 later)
    (hw : Awaits (run (step cfg) s0 (.execute plan :: later)).phase) {j : Int}
    (hbefore : s0.db.life j = .unborn)
    (hafter : (run (step cfg) s0 (.execute plan :: later)).db.life j ≠ .unborn) :
    (run (step cfg) s0 (.execute plan :: later)).heard <
      (run (step cfg) s0 (.execute plan :: later)).db.notified := by
  obtain ⟨_, hsince⟩ := everyStep_of_law (I := SinceSnapshot s0)
    (P := fun t e => Announced t e ∧ ¬ TakesSnapshot t e) (Q := fun _ _ => True)
    (fun t e ht hp => sinceSnapshot_step cfg ht hp.1 hp.2) (fun _ _ _ _ => trivial)
    (sinceSnapshot_start cfg plan h0.good) (everyStep_and.mpr ⟨ha, hlast⟩)
  calc (run (step cfg) s0 (.execute plan :: later)).heard = s0.heard := hsince.kept hw
    _ ≤ s0.db.notified := h0.heard
    _ < (run (step cfg) s0 (.execute plan :: later)).db.notified := hsince.born j hbefore hafter

theorem heeds_step (cfg : WorkerConfig) {s : Worker} (h : Buffered s) (e : Event) :
    Heeds cfg s e where
  sends := notified_step cfg h.good e
  rollback := by
    rintro xid rfl
    refine ⟨?_, ?_⟩
    · rintro ⟨op, hop, hs⟩
      cases hop
      exact hs
    · show (s.db.transactions.delete _).find xid = none
      rw [Table.find_delete, Option.filter_eq_none_iff]
      intro tx hf
      simp [Table.key_of_find hf]
  recv := by
    rintro since rfl hp hc
    have hheard := h.heard
    simp only [step, wake, hp, hc]
    by_cases hlt : s.heard < s.db.notified
    · exact Or.inl ⟨hlt, by simp [hlt], by simp [hlt]⟩
    · refine Or.inr ⟨by omega, by simp [hlt]⟩

/-- In every run of a worker with any other clients whose commits of jobs ask for a
notification: if the loop is idle, its last claim had a snapshot, and if a job of the table
was not in it yet, there is a notification in the buffer. At each step of the run, the
notifications sent and taken are as they should be. -/
theorem no_wakeup_is_lost (cfg : WorkerConfig) (calls : List Call) (clock : Int)
    (events : List Event)
    (ha : EveryStep (step cfg) Announced (start cfg (after calls) clock) events) :
    let init := start cfg (after calls) clock
    let s := run (step cfg) init events
    (∀ since, s.phase = .idle since → ∃ before plan later,
      events = before ++ .execute plan :: later ∧
      (run (step cfg) init before).phase = .claiming .sent ∧
      EveryStep (step cfg) (fun t e => ¬ TakesSnapshot t e)
        (run (step cfg) init (before ++ [.execute plan])) later ∧
      ∀ j r, (run (step cfg) init before).db.life j = .unborn → s.db.jobs.find j = some r →
        s.heard < s.db.notified) ∧
    EveryStep (step cfg) (Heeds cfg) init events := by
  intro init s
  have hbuf := buffered_run cfg calls clock
  refine ⟨?_, ?_⟩
  · intro since hidle
    have hw : Awaits s.phase := by
      rw [hidle]
      trivial
    obtain ⟨e, before, later, hsplit, ht, hrest⟩ :=
      a_snapshot_was_taken cfg (not_awaits_start cfg _ _) events hw
    cases e with
    | execute plan =>
      have hp : (run (step cfg) init before).phase = .claiming .sent := ht
      refine ⟨before, plan, later, hsplit, hp, hrest, ?_⟩
      intro j r hbefore hfind
      have hs : s = run (step cfg) (run (step cfg) init before) (.execute plan :: later) := by
        rw [← run_append, ← hsplit]
      rw [hsplit, everyStep_append] at ha
      rw [run_snoc] at hrest
      rw [hs] at hw hfind ⊢
      exact heard_of_birth cfg (hbuf before) plan ha.2.2 hrest hw hbefore
        (by rw [life_of_find hfind]; simp)
    | _ => exact absurd ht id
  · exact (everyStep_of_law (I := Buffered) (P := fun _ _ => True)
      (fun t e ht _ => buffered_step cfg ht e) (fun t e ht _ => heeds_step cfg ht e)
      (hbuf []) (everyStep_of (fun _ _ => trivial) init events)).1

/-- A producer commits between the snapshot of the claim and its empty reply. -/
def lateJob : List Event :=
  [.connected, .send, .execute .alone, .other (.begin 1), .other (.enqueue 1 "k" .null),
    .other (.notify_ready 1), .other (.commit 1), .reply]

theorem lateJob_announced :
    EveryStep (step oneAtATime) Announced (start oneAtATime (after []) 0) lateJob := by
  have hcall : ∀ (s : Worker) (e : Event), (∀ xid, e ≠ .other (.commit xid)) → Announced s e := by
    rintro s e hno op rfl xid tx hop
    exact absurd (congrArg Event.other hop) (hno xid)
  have hcommit : ∀ s : Worker, (s.db.transactions.find 1).map (·.notify) = some true →
      Announced s (.other (.commit 1)) := by
    rintro s hn op hop xid tx hc hf _
    cases hop
    cases hc
    rw [hf] at hn
    exact Option.some.inj hn
  refine ⟨hcall _ _ ?_, hcall _ _ ?_, hcall _ _ ?_, hcall _ _ ?_, hcall _ _ ?_, hcall _ _ ?_,
    hcommit _ ?_, hcall _ _ ?_, trivial⟩
  case refine_7 => decide +kernel
  all_goals simp

/-- The loop is idle with the notification of that job in its buffer. -/
theorem a_late_job_is_heard :
    let s := run (step oneAtATime) (start oneAtATime (after []) 0) lateJob
    s.phase = .idle 0 ∧ (s.db.jobs.find 1).isSome = true ∧ s.heard < s.db.notified := by
  intro s
  have hidle : s.phase = .idle 0 := rfl
  have hthere : (s.db.jobs.find 1).isSome = true := by decide +kernel
  obtain ⟨r, hr⟩ := Option.isSome_iff_exists.mp hthere
  obtain ⟨hlaw, _⟩ := no_wakeup_is_lost oneAtATime [] 0 lateJob lateJob_announced
  obtain ⟨before, plan, later, hsplit, _, _, hborn⟩ := hlaw 0 hidle
  have hbefore : before = [.connected, .send] := by
    simp only [lateJob, List.cons_eq_append_iff] at hsplit
    simp at hsplit
    exact hsplit.1
  subst hbefore
  exact ⟨hidle, hthere, hborn 1 r rfl hr⟩

end skip_locked.worker
