-- The queue with the idempotent handler on its jobs. The queue hands a job out
-- at least once: after a crash, a reap or a requeue it hands it out again. The
-- handler makes the effect of each key happen at most once. Together: the key
-- of the event of a job that is `done` has had its effect exactly once.
import SkipLocked.Deliveries
import SkipLocked.EventKeys
import SkipLocked.HandlerProgress

open jsonb postgres keyed_table event_runs

namespace skip_locked

def Op.marksDone : Op → Bool
  | .mark_done _ => true
  | _ => false

end skip_locked

namespace skip_locked.effects

open idempotency

/-! ## The queue and its handlers -/

/-- A delivery of a job, and its last call of the handler. -/
structure Execution where
  job : Job
  call : Option Nat

structure System where
  db : Db
  handlers : idempotency.State
  executions : List Execution

def System.start : System := ⟨Db.empty, State.empty, []⟩

/-- What happens: a call of the crate by anyone, a call of `process` by a delivery, a step of
the call `n` of `process`, and a `mark_done` by a delivery. A delivery whose worker crashes
has no more events. -/
inductive Event where
  | queue (c : Call)
  | process (i : Nat)
  | act (n : Nat) (a : Action)
  | mark_done (i : Nat) (now : Int)

def issueOfJob (job : Job) : Issue := ⟨job.id, job.kind, job.payload⟩

def executionsOf (a : Answer) : List Execution := (jobsOf a).map (fun job => ⟨job, none⟩)

/-- The event that a call of `process` is about. Two events may share a key. -/
def aboutOf (h : Handling) : Text × Text := (h.carrier_id, h.event_id)

/-- The call of `process` has returned. -/
def replied (h : Handling) : Bool := (idempotency.answerOf h.stage).isSome

/-- The call of `process` that the delivery made has returned. -/
def System.processed (s : System) (e : Execution) : Bool :=
  (e.call.bind (fun n => s.handlers.calls[n]?)).any replied

variable (eventOf : Issue → Text × Text)

/-- The key of the event that a job is about. -/
def keyFor (i : Issue) : Text := keyOf (eventOf i).1 (eventOf i).2

def processIn (s : System) (i : Nat) (e : Execution) : System :=
  let event := eventOf (issueOfJob e.job)
  { s with
    handlers := (idempotency.step s.handlers (.call event.1 event.2)).1
    executions := s.executions.set i { e with call := some s.handlers.calls.length } }

/-- One event, with the call of the crate that it makes. A delivery marks its job only when its
call of `process` has returned, and nobody else marks a job. -/
def step (s : System) : Event → System × Option (Call × Answer)
  | .queue c =>
    if c.op.marksDone then (s, none)
    else
      let (db, a) := exec s.db c
      ({ s with db, executions := s.executions ++ executionsOf a }, some (c, a))
  | .process i =>
    match s.executions[i]? with
    | none => (s, none)
    | some e => (processIn eventOf s i e, none)
  | .act n a => ({ s with handlers := (idempotency.step s.handlers (.act n a)).1 }, none)
  | .mark_done i now =>
    match s.executions[i]? with
    | none => (s, none)
    | some e =>
      if s.processed e then
        let c : Call := ⟨now, .mark_done e.job.id⟩
        let (db, a) := exec s.db c
        ({ s with db }, some (c, a))
      else (s, none)

/-- The calls of the crate in a run. -/
def made (h : List (Event × Option (Call × Answer))) : List Call :=
  h.filterMap (fun x => x.2.map Prod.fst)

/-! ## What the handlers do -/

/-- A step of a call moves it, or it changes nothing. -/
theorem act_cases (s : idempotency.State) (i : Nat) (a : Action) :
    (idempotency.step s (.act i a)).1 = s ∨
      ∃ g tables stage, s.calls[i]? = some g ∧ move s g a = some (tables, stage) ∧
        (idempotency.step s (.act i a)).1 =
          { tables, calls := s.calls.set i { g with stage } } := by
  cases hi : s.calls[i]? with
  | none =>
    refine Or.inl ?_
    simp only [idempotency.step, hi]
  | some g =>
    cases hm : move s g a with
    | none =>
      refine Or.inl ?_
      simp only [idempotency.step, hi, hm]
    | some x =>
      obtain ⟨tables, stage⟩ := x
      exact Or.inr ⟨g, tables, stage, rfl, hm, step_moved hi hm⟩

/-- A step of a call leaves the tables, or it commits the key of the call. -/
theorem move_tables {s : idempotency.State} {h : Handling} {a : Action} {tables : Store}
    {stage : Stage} (hm : move s h a = some (tables, stage)) :
    tables = s.tables ∨ tables = s.tables.add h.key := by
  cases a with
  | insert =>
    simp only [move] at hm
    split at hm
    · obtain ⟨st, _, he⟩ := Option.map_eq_some_iff.mp hm
      cases he
      exact Or.inl rfl
    · cases hm
  | commit =>
    simp only [move] at hm
    split at hm
    · cases hm
      exact Or.inr rfl
    · cases hm
  | _ =>
    simp only [move] at hm
    split at hm
    all_goals first | (cases hm; done) | (cases hm; exact Or.inl rfl)

theorem returned_of_replied {h : Handling} (hr : replied h = true) :
    ∃ o, h.stage = .returned o := by
  unfold replied at hr
  cases hs : h.stage with
  | returned o => exact ⟨o, rfl⟩
  | _ =>
    rw [hs] at hr
    cases hr

/-- A call that has returned has no more steps. -/
theorem replied_stays {s : idempotency.State} {h : Handling} (hr : replied h = true) (a : Action) :
    move s h a = none := by
  obtain ⟨o, ho⟩ := returned_of_replied hr
  cases a <;> simp [move, ho]

/-- Every call keeps its event, and a call that has returned stays as it is. -/
theorem calls_kept (s : idempotency.State) (e : idempotency.Event) {n : Nat} {h : Handling}
    (hn : s.calls[n]? = some h) :
    ∃ g, (idempotency.step s e).1.calls[n]? = some g ∧ aboutOf g = aboutOf h ∧
      (replied h = true → replied g = true) := by
  cases e with
  | call carrier_id event_id =>
    have hlt : n < s.calls.length := (List.getElem?_eq_some_iff.mp hn).1
    refine ⟨h, ?_, rfl, id⟩
    simp only [idempotency.step]
    rw [List.getElem?_append_left hlt, hn]
  | act i a =>
    rcases act_cases s i a with hsame | ⟨g, tables, stage, hi, hm, hnext⟩
    · rw [hsame]
      exact ⟨h, hn, rfl, id⟩
    rw [hnext]
    by_cases hin : i = n
    · subst hin
      rw [hi, Option.some.injEq] at hn
      subst hn
      refine ⟨{ g with stage }, ?_, rfl, ?_⟩
      · obtain ⟨hlt, _⟩ := List.getElem?_eq_some_iff.mp hi
        exact List.getElem?_set_self hlt
      · intro hr
        rw [replied_stays hr] at hm
        cases hm
    · refine ⟨h, ?_, rfl, id⟩
      rw [List.getElem?_set_ne hin, hn]

theorem mem_calls_kept {s : idempotency.State} (e : idempotency.Event) {h : Handling}
    (hh : h ∈ s.calls) :
    ∃ g ∈ (idempotency.step s e).1.calls, aboutOf g = aboutOf h ∧
      (replied h = true → replied g = true) := by
  obtain ⟨n, hn⟩ := List.mem_iff_getElem?.mp hh
  obtain ⟨g, hg, habout, hr⟩ := calls_kept s e hn
  exact ⟨g, List.mem_of_getElem? hg, habout, hr⟩

/-- The call that is new is the one that the event makes. -/
theorem call_made (s : idempotency.State) (e : idempotency.Event) {h : Handling}
    (hh : h ∈ (idempotency.step s e).1.calls) :
    (∃ g ∈ s.calls, aboutOf g = aboutOf h) ∨ e = .call h.carrier_id h.event_id := by
  cases e with
  | call carrier_id event_id =>
    rcases List.mem_append.mp hh with hh | hh
    · exact Or.inl ⟨h, hh, rfl⟩
    · obtain rfl := List.mem_singleton.mp hh
      exact Or.inr rfl
  | act i a =>
    refine Or.inl ?_
    rcases act_cases s i a with hsame | ⟨g, tables, stage, hi, _, hnext⟩
    · rw [hsame] at hh
      exact ⟨h, hh, rfl⟩
    rw [hnext] at hh
    rcases List.mem_or_eq_of_mem_set hh with hh | rfl
    · exact ⟨h, hh, rfl⟩
    · exact ⟨g, List.mem_of_getElem? hi, rfl⟩

/-- An effect that is new is that of a call. -/
theorem effect_made (s : idempotency.State) (e : idempotency.Event) {k : Text}
    (hk : k ∈ (idempotency.step s e).1.tables.notifications) :
    k ∈ s.tables.notifications ∨ ∃ g ∈ s.calls, g.key = k := by
  cases e with
  | call carrier_id event_id => exact Or.inl hk
  | act i a =>
    rcases act_cases s i a with hsame | ⟨g, tables, stage, hi, hm, hnext⟩
    · rw [hsame] at hk
      exact Or.inl hk
    rw [hnext] at hk
    rcases move_tables hm with rfl | rfl
    · exact Or.inl hk
    · rcases List.mem_append.mp hk with hk | hk
      · exact Or.inl hk
      · exact Or.inr ⟨g, List.mem_of_getElem? hi, (List.mem_singleton.mp hk).symm⟩

/-! ## What the queue does -/

/-- A job that is done was done before, or the call marked it. -/
theorem done_turn {j : Int} {c : Call} {a : Answer} {l l' : Life} (ht : Turn j c a l l')
    {r' : JobRow} (hl : l' = .live r') (hd : r'.state = .done) :
    c.op = .mark_done j ∨ ∃ r, l = .live r ∧ r.state = .done ∧ issueOf r = issueOf r' := by
  cases ht with
  | still l _ => exact Or.inr ⟨r', hl, hd, rfl⟩
  | finished r hop => exact Or.inl hop
  | beat r _ _ =>
    cases hl
    exact Or.inr ⟨r, rfl, hd, rfl⟩
  | _ =>
    cases hl
    try cases hd

/-- The law of the system after the calls `calls` of the crate. -/
structure Sound (calls : List Call) (s : System) : Prop where
  served : s.db = after calls
  handed : s.executions.map (·.job) = delivered (history calls)
  agrees : Agrees s.handlers
  called : ∀ e ∈ s.executions, ∀ n, e.call = some n →
    ∃ h, s.handlers.calls[n]? = some h ∧ aboutOf h = eventOf (issueOfJob e.job)
  caused : ∀ h ∈ s.handlers.calls, ∃ i ∈ committed (history calls), eventOf i = aboutOf h
  noted : ∀ k ∈ s.handlers.tables.notifications, ∃ h ∈ s.handlers.calls, h.key = k
  done : ∀ j r, s.db.jobs.find j = some r → r.state = .done →
    ∃ h ∈ s.handlers.calls, aboutOf h = eventOf (issueOf r) ∧ replied h = true

theorem key_of_about {h : Handling} {p : Text × Text} (he : aboutOf h = p) :
    h.key = keyOf p.1 p.2 := by
  rw [← he]
  rfl

theorem sound_start : Sound eventOf [] System.start := by
  refine ⟨rfl, rfl, agrees_empty, ?_, ?_, ?_, ?_⟩
  · intro e he
    cases he
  · intro h hh
    cases hh
  · intro k hk
    cases hk
  · intro j r hf
    cases hf

variable {eventOf}

/-- A call that marks no job. -/
theorem sound_queue {calls : List Call} {s : System} (h : Sound eventOf calls s) {c : Call}
    (hc : c.op.marksDone = false) :
    Sound eventOf (calls ++ [c])
      { s with
        db := (exec s.db c).1
        executions := s.executions ++ executionsOf (exec s.db c).2 } := by
  have hgood : s.db.Good := h.served ▸ after_good calls
  refine ⟨?_, ?_, h.agrees, ?_, ?_, h.noted, ?_⟩
  · show (exec s.db c).1 = after (calls ++ [c])
    rw [h.served]
    exact (run_snoc exec _ calls c).symm
  · show (s.executions ++ executionsOf (exec s.db c).2).map (·.job) = _
    have hnew : (executionsOf (exec s.db c).2).map (·.job) = jobsOf (exec s.db c).2 := by
      unfold executionsOf
      rw [List.map_map]
      exact List.map_id _
    rw [history_snoc, delivered_snoc, List.map_append, h.handed, hnew, h.served]
  · intro e he n hn
    rcases List.mem_append.mp he with he | he
    · exact h.called e he n hn
    · obtain ⟨job, _, rfl⟩ := List.mem_map.mp he
      cases hn
  · intro g hg
    obtain ⟨i, hi, hkey⟩ := h.caused g hg
    rw [history_snoc]
    exact ⟨i, committed_snoc hi _, hkey⟩
  · intro j r hf hd
    rcases done_turn (exec_turn hgood c j) (life_of_find hf) hd with hop | ⟨old, hl, hold, hissue⟩
    · rw [hop] at hc
      cases hc
    · rw [← hissue]
      exact h.done j old (life_live.mp hl) hold

/-- The row of a job that was handed out is the job. -/
theorem issue_of_execution {calls : List Call} {s : System} (h : Sound eventOf calls s)
    {e : Execution} (he : e ∈ s.executions) :
    ((after calls).life e.job.id).issue = some (issueOfJob e.job) := by
  have hjob : e.job ∈ delivered (history calls) := by
    rw [← h.handed]
    exact List.mem_map_of_mem he
  exact (matches_after calls).same _ (delivered_committed calls hjob)

/-- A delivery whose call has returned knows that call. -/
theorem call_of_processed {s : System} {e : Execution} (hp : s.processed e = true) :
    ∃ n h, e.call = some n ∧ s.handlers.calls[n]? = some h ∧ replied h = true := by
  unfold System.processed at hp
  cases hb : e.call.bind (fun n => s.handlers.calls[n]?) with
  | none =>
    rw [hb] at hp
    cases hp
  | some h =>
    rw [hb, Option.any_some] at hp
    obtain ⟨n, hn, hh⟩ := Option.bind_eq_some_iff.mp hb
    exact ⟨n, h, hn, hh, hp⟩

/-- A `mark_done` of a job whose event was processed. -/
theorem sound_mark_done {calls : List Call} {s : System} (h : Sound eventOf calls s)
    {e : Execution} (he : e ∈ s.executions) (hp : s.processed e = true) (now : Int) :
    Sound eventOf (calls ++ [⟨now, .mark_done e.job.id⟩])
      { s with db := (exec s.db ⟨now, .mark_done e.job.id⟩).1 } := by
  have hgood : s.db.Good := h.served ▸ after_good calls
  refine ⟨?_, ?_, h.agrees, h.called, ?_, h.noted, ?_⟩
  · show (exec s.db ⟨now, .mark_done e.job.id⟩).1 = after (calls ++ [⟨now, .mark_done e.job.id⟩])
    rw [h.served]
    exact (run_snoc exec _ calls _).symm
  · rw [history_snoc, delivered_snoc]
    exact h.handed.trans (List.append_nil _).symm
  · intro g hg
    obtain ⟨i, hi, hkey⟩ := h.caused g hg
    rw [history_snoc]
    exact ⟨i, committed_snoc hi _, hkey⟩
  · intro j r hf hd
    rcases done_turn (exec_turn hgood _ j) (life_of_find hf) hd with hop | ⟨old, hl, hold, hissue⟩
    · have hj : e.job.id = j := by
        cases hop
        rfl
      obtain ⟨n, g, hn, hg, hr⟩ := call_of_processed hp
      obtain ⟨g', hg', hkey⟩ := h.called e he n hn
      rw [hg, Option.some.injEq] at hg'
      rw [← hg'] at hkey
      have hissue : (((exec s.db ⟨now, .mark_done e.job.id⟩).1).life j).issue =
          some (issueOfJob e.job) := by
        rw [issue_turn (exec_turn hgood _ j) (Or.inl rfl), ← hj, h.served]
        exact issue_of_execution h he
      rw [life_of_find hf] at hissue
      have hrow : issueOf r = issueOfJob e.job := Option.some.inj hissue
      refine ⟨g, List.mem_of_getElem? hg, ?_, hr⟩
      rw [hrow]
      exact hkey
    · rw [← hissue]
      exact h.done j old (life_live.mp hl) hold

/-- An event of the handlers. A new call is about a committed job. -/
theorem sound_handlers {calls : List Call} {s : System} (h : Sound eventOf calls s)
    {e : idempotency.Event} (hnew : ∀ carrier_id event_id, e = .call carrier_id event_id →
      ∃ i ∈ committed (history calls), eventOf i = (carrier_id, event_id)) :
    Sound eventOf calls { s with handlers := (idempotency.step s.handlers e).1 } := by
  refine ⟨h.served, h.handed, agrees_step h.agrees e, ?_, ?_, ?_, ?_⟩
  · intro x hx n hn
    obtain ⟨g, hg, hkey⟩ := h.called x hx n hn
    obtain ⟨g', hg', hkey', _⟩ := calls_kept s.handlers e hg
    exact ⟨g', hg', hkey'.trans hkey⟩
  · intro g hg
    rcases call_made s.handlers e hg with ⟨g', hg', hkey⟩ | he
    · obtain ⟨i, hi, hcause⟩ := h.caused g' hg'
      exact ⟨i, hi, hcause.trans hkey⟩
    · exact hnew _ _ he
  · intro k hk
    have hold : ∃ g ∈ s.handlers.calls, g.key = k := by
      rcases effect_made s.handlers e hk with hk | hg
      · exact h.noted k hk
      · exact hg
    obtain ⟨g, hg, hkey⟩ := hold
    obtain ⟨g', hg', habout, _⟩ := mem_calls_kept e hg
    exact ⟨g', hg', (key_of_about habout).trans hkey⟩
  · intro j r hf hd
    obtain ⟨g, hg, hkey, hr⟩ := h.done j r hf hd
    obtain ⟨g', hg', hkey', hr'⟩ := mem_calls_kept e hg
    exact ⟨g', hg', hkey'.trans hkey, hr' hr⟩

/-- A delivery calls `process`. -/
theorem sound_process {calls : List Call} {s : System} (h : Sound eventOf calls s) {i : Nat}
    {e : Execution} (hi : s.executions[i]? = some e) :
    Sound eventOf calls (processIn eventOf s i e) := by
  have he : e ∈ s.executions := List.mem_of_getElem? hi
  have hissue := committed_of_life (issue_of_execution h he)
  have hcalled := sound_handlers h (e := .call (eventOf (issueOfJob e.job)).1
    (eventOf (issueOfJob e.job)).2) (by
      intro carrier_id event_id hev
      cases hev
      exact ⟨_, hissue, rfl⟩)
  refine ⟨hcalled.served, ?_, hcalled.agrees, ?_, hcalled.caused, hcalled.noted, hcalled.done⟩
  · rw [← h.handed]
    apply List.ext_getElem?
    intro k
    simp only [processIn, List.getElem?_map]
    by_cases hik : i = k
    · subst hik
      obtain ⟨hlt, _⟩ := List.getElem?_eq_some_iff.mp hi
      rw [List.getElem?_set_self hlt, hi]
      rfl
    · rw [List.getElem?_set_ne hik]
  · intro x hx n hn
    rcases List.mem_or_eq_of_mem_set hx with hx | rfl
    · exact hcalled.called x hx n hn
    · cases hn
      refine ⟨⟨_, _, .began⟩, List.getElem?_concat_length, rfl⟩

/-- One event keeps the law. -/
theorem sound_step {calls : List Call} {s : System} (h : Sound eventOf calls s) (e : Event) :
    Sound eventOf (calls ++ ((step eventOf s e).2.map Prod.fst).toList) (step eventOf s e).1 := by
  have hstill : Sound eventOf (calls ++ []) s := by
    rw [List.append_nil]
    exact h
  cases e with
  | queue c =>
    simp only [step]
    cases hc : c.op.marksDone with
    | true => exact hstill
    | false => exact sound_queue h hc
  | process i =>
    simp only [step]
    cases hi : s.executions[i]? with
    | none => exact hstill
    | some e =>
      show Sound eventOf (calls ++ []) _
      rw [List.append_nil]
      exact sound_process h hi
  | act n a =>
    show Sound eventOf (calls ++ []) _
    rw [List.append_nil]
    exact sound_handlers h (fun _ _ he => by cases he)
  | mark_done i now =>
    simp only [step]
    cases hi : s.executions[i]? with
    | none => exact hstill
    | some e =>
      dsimp only
      split
      · rename_i hp
        exact sound_mark_done h (List.mem_of_getElem? hi) hp now
      · exact hstill

theorem sound_run (events : List Event) :
    Sound eventOf (made (trace (step eventOf) System.start events))
      (run (step eventOf) System.start events) := by
  refine run_induction (P := fun h s => Sound eventOf (made h) s) (sound_start eventOf) ?_ events
  intro h s e hs
  have hsnoc : made (h ++ [(e, (step eventOf s e).2)]) =
      made h ++ ((step eventOf s e).2.map Prod.fst).toList := by
    unfold made
    rw [List.filterMap_append]
    cases (step eventOf s e).2 <;> rfl
  rw [hsnoc]
  exact sound_step hs e

/-! ## Exactly once -/

/-- A call with the key of a committed job's event is about that event, when no events of
committed jobs clash. -/
theorem about_of_key {calls : List Call} {s : System} (h : Sound eventOf calls s)
    (hno : ∀ i ∈ committed (history calls), ∀ i' ∈ committed (history calls),
      ¬ Clash (eventOf i) (eventOf i')) {i : Issue} (hi : i ∈ committed (history calls))
    {g : Handling} (hg : g ∈ s.handlers.calls) (hkey : g.key = keyFor eventOf i) :
    aboutOf g = eventOf i := by
  obtain ⟨i', hi', habout⟩ := h.caused g hg
  have hkeys : keyOf (aboutOf g).1 (aboutOf g).2 = keyOf (eventOf i).1 (eventOf i).2 := hkey
  rcases keyOf_eq_iff.mp hkeys with he | hc | hc
  · exact he
  · rw [← habout] at hc
    exact absurd hc (hno i' hi' i hi)
  · rw [← habout] at hc
    exact absurd hc (hno i hi i' hi')

/-- After any events, with crashes, reaps, requeues and repeated deliveries anywhere: the key
of the event of a job that is `done` has had its effect exactly once, after a call about that
event has returned. No key has had more than one effect, and each effect has the key of a job
that a producer committed. Each job was delivered 20 times at most. When no two events of
committed jobs clash, all calls with the key of a `done` job are about its event, so the one
effect is the effect of that event. -/
theorem the_key_of_a_done_job_took_effect_once (events : List Event) :
    let s := run (step eventOf) System.start events
    let calls := made (trace (step eventOf) System.start events)
    let effects := s.handlers.tables.notifications
    s.db = after calls ∧
    (∀ j r, s.db.jobs.find j = some r → r.state = .done →
      effects.count (keyFor eventOf (issueOf r)) = 1 ∧
      ∃ h ∈ s.handlers.calls, aboutOf h = eventOf (issueOf r) ∧ replied h = true) ∧
    (∀ k, effects.count k ≤ 1) ∧
    (∀ k ∈ effects, ∃ i ∈ committed (history calls), keyFor eventOf i = k) ∧
    (∀ j, s.executions.countP (fun e => decide (e.job.id = j)) ≤ 20) ∧
    ((∀ i ∈ committed (history calls), ∀ i' ∈ committed (history calls),
        ¬ Clash (eventOf i) (eventOf i')) →
      ∀ j r, s.db.jobs.find j = some r → r.state = .done →
        ∀ h ∈ s.handlers.calls, h.key = keyFor eventOf (issueOf r) →
          aboutOf h = eventOf (issueOf r)) := by
  intro s calls effects
  have hs : Sound eventOf calls s := sound_run events
  refine ⟨hs.served, ?_, ?_, ?_, ?_, ?_⟩
  · intro j r hf hd
    obtain ⟨h, hh, habout, hr⟩ := hs.done j r hf hd
    obtain ⟨o, ho⟩ := returned_of_replied hr
    have hkey : h.key = keyFor eventOf (issueOf r) := key_of_about habout
    rw [← hkey]
    exact ⟨(once_of_returned hs.agrees hh ho).2, h, hh, habout, hr⟩
  · intro k
    have hone := hs.agrees.unique k
    have hsame := hs.agrees.balanced k
    show s.handlers.tables.notifications.count k ≤ 1
    omega
  · intro k hk
    obtain ⟨h, hh, hkey⟩ := hs.noted k hk
    obtain ⟨i, hi, hcause⟩ := hs.caused h hh
    exact ⟨i, hi, (key_of_about hcause.symm).symm.trans hkey⟩
  · intro j
    have hcount := delivered_count j calls
    rw [← hs.handed, List.countP_map] at hcount
    exact hcount.trans_le (deliveries_few j calls)
  · intro hno j r hf hd h hh hkey
    rw [hs.served] at hf
    have hissue : ((after calls).life j).issue = some (issueOf r) := by
      rw [life_of_find hf]
      rfl
    exact about_of_key hs hno (committed_of_life hissue) hh hkey

/-- A job about one event, delivered, processed and marked. -/
def oneDelivery : List Event :=
  [.queue ⟨0, .enqueue_pool "k" .null⟩, .queue ⟨1, .claim_batch ["k"] 1 "w" .alone⟩, .process 0,
    .act 0 .insert, .act 0 .notify, .act 0 .commit, .act 0 .reply, .mark_done 0 2]

def sameEvent : Issue → Text × Text := fun _ => ("carrier", "event")

theorem one_delivery_took_effect_once :
    let s := run (step sameEvent) System.start oneDelivery
    ∃ r, s.db.jobs.find 1 = some r ∧ r.state = .done ∧
      s.handlers.tables.notifications.count (keyFor sameEvent (issueOf r)) = 1 := by
  intro s
  have hdone : (s.db.jobs.find 1).map JobRow.state = some .done := by decide +kernel
  obtain ⟨r, hf, hd⟩ := Option.map_eq_some_iff.mp hdone
  obtain ⟨_, honce, _⟩ := @the_key_of_a_done_job_took_effect_once sameEvent oneDelivery
  exact ⟨r, hf, hd, (honce 1 r hf hd).1⟩

end skip_locked.effects
