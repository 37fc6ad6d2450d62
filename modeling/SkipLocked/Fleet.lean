-- Any number of `run_worker` processes over one database, with other clients
-- of the crate. Each worker of the fleet sees the others as clients: what it
-- does there is a run of one worker. So the laws of one worker hold in a fleet,
-- and no two handlers of a fleet get the same attempt of a job.
import SkipLocked.Shutdown
import SkipLocked.Deliveries
import Mathlib.Data.List.Perm.Subperm

open jsonb postgres keyed_table event_runs

namespace skip_locked.fleet

open claim worker

/-! ## The fleet -/

/-- What a worker has for itself: all but the database and the clock. -/
structure Process where
  cancelled : Bool
  phase : Phase
  orphan : Bool
  available : Nat
  tasks : List Task
  heard : Nat

def Process.of (s : Worker) : Process :=
  ⟨s.cancelled, s.phase, s.orphan, s.available, s.tasks, s.heard⟩

structure Fleet (ω : Type) where
  db : Db
  clock : Int
  processes : ω → Process

/-- Time passes, somebody outside calls the crate, or a worker goes on. -/
inductive Event (ω : Type) where
  | tick (usecs : Nat)
  | other (op : Op)
  | act (k : ω) (e : worker.Event)

section
variable {ω : Type}

/-- The fleet as one of its workers sees it. -/
def Fleet.view (f : Fleet ω) (k : ω) : Worker :=
  let p := f.processes k
  { db := f.db, clock := f.clock, cancelled := p.cancelled, phase := p.phase, orphan := p.orphan,
    available := p.available, tasks := p.tasks, heard := p.heard }

def start (cfgs : ω → WorkerConfig) (db : Db) (clock : Int) : Fleet ω :=
  { db, clock, processes := fun k => .of (worker.start (cfgs k) db clock) }

/-- What the workers show in a run. -/
def deals (h : List (Event ω × Option (ω × Deal))) : List (ω × Deal) := h.filterMap Prod.snd

/-- The jobs in what the workers show, each with its worker. -/
def jobsIn (of : Option Deal → List Job) (h : List (Event ω × Option (ω × Deal))) :
    List (ω × Job) :=
  (deals h).flatMap (fun x => (of (some x.2)).map (fun job => (x.1, job)))

/-- The jobs that went to the handlers. -/
def handed (h : List (Event ω × Option (ω × Deal))) : List (ω × Job) := jobsIn handedOf h

/-- The jobs that the claims of the workers took. -/
def taken (h : List (Event ω × Option (ω × Deal))) : List (ω × Job) := jobsIn tookOf h

theorem taken_append (a b : List (Event ω × Option (ω × Deal))) :
    taken (a ++ b) = taken a ++ taken b := by
  unfold taken jobsIn deals
  rw [List.filterMap_append, List.flatMap_append]

/-- The call of somebody outside the fleet. -/
def Event.op : Event ω → Option Op
  | .other op => some op
  | .act _ (.other op) => some op
  | _ => none

end

section
variable {ω : Type} [DecidableEq ω]

def Fleet.put (f : Fleet ω) (k : ω) (s : Worker) : Fleet ω :=
  { db := s.db, clock := s.clock, processes := fun i => if i = k then .of s else f.processes i }

def step (cfgs : ω → WorkerConfig) (f : Fleet ω) : Event ω → Fleet ω × Option (ω × Deal)
  | .tick usecs => ({ f with clock := f.clock + usecs }, none)
  | .other op => ({ f with db := (exec f.db ⟨f.clock, op⟩).1 }, none)
  | .act k e =>
    let (s, d) := worker.step (cfgs k) (f.view k) e
    (f.put k s, d.map (fun d => (k, d)))

end

/-! ## What an event of a worker is to the others -/

/-- Postgres has a statement of the worker to run. -/
def waits (s : Worker) : Bool :=
  match s.phase with
  | .claiming .sent => true
  | _ => s.orphan

/-- The calls that an event makes of the database. -/
def callsOf (cfg : WorkerConfig) (s : Worker) : worker.Event → List Call
  | .other op => [⟨s.clock, op⟩]
  | .execute plan => if waits s then [claimCall cfg s.clock plan] else []
  | _ => []

/-- The event, as a worker beside it sees it. -/
def outside (cfg : WorkerConfig) (s : Worker) : worker.Event → List worker.Event
  | .tick usecs => [.tick usecs]
  | e => (callsOf cfg s e).map (fun c => .other c.op)

/-- The calls of an event of the fleet. -/
def callsIn {ω : Type} (cfgs : ω → WorkerConfig) (f : Fleet ω) : Event ω → List Call
  | .tick _ => []
  | .other op => [⟨f.clock, op⟩]
  | .act k e => callsOf (cfgs k) (f.view k) e

theorem returns_callsIn {ω : Type} (cfgs : ω → WorkerConfig) (j : Int) (f : Fleet ω) (e : Event ω) :
    returns j (trace exec f.db (callsIn cfgs f e)) =
      if e.op.any (Op.returns j) = true then 1 else 0 := by
  have hone : ∀ (db : Db) (c : Call), returns j (trace exec db [c]) =
      if c.op.returns j = true then 1 else 0 := by
    intro db c
    exact List.countP_singleton
  cases e with
  | tick usecs => rfl
  | other op => exact hone f.db ⟨f.clock, op⟩
  | act k e =>
    cases e with
    | other op => exact hone f.db ⟨f.clock, op⟩
    | execute plan =>
      dsimp only [callsIn, callsOf, Event.op]
      split
      · exact hone _ _
      · rfl
    | _ => rfl

/-- What an event of the fleet is to worker `k`. -/
def seenBy {ω : Type} [DecidableEq ω] (cfgs : ω → WorkerConfig) (k : ω) (f : Fleet ω) :
    Event ω → List worker.Event
  | .tick usecs => [.tick usecs]
  | .other op => [.other op]
  | .act i e => if i = k then [e] else outside (cfgs i) (f.view i) e

/-- An event that is no call and no tick leaves the database and the clock. -/
theorem same_of_does {cfg : WorkerConfig} {s s' : Worker} {e : worker.Event} {d : Option Deal}
    (h : Does cfg s e s' d) (htick : ∀ usecs, e ≠ .tick usecs) (hother : ∀ op, e ≠ .other op)
    (hexec : ∀ plan, e ≠ .execute plan) : s'.db = s.db ∧ s'.clock = s.clock ∧ tookOf d = [] := by
  cases h with
  | ticked usecs => exact absurd rfl (htick usecs)
  | called op => exact absurd rfl (hother op)
  | took _ _ => exact absurd rfl (hexec _)
  | orphaned _ _ _ => exact absurd rfl (hexec _)
  | _ => exact ⟨rfl, rfl, rfl⟩

theorem execute_idle {cfg : WorkerConfig} {s : Worker} (plan : Plan) (h : waits s = false) :
    executeIn cfg s plan = (s, none) := by
  unfold waits at h
  unfold executeIn
  split
  · rename_i hp
    rw [hp] at h
    cases h
  · split at h
    · cases h
    · rw [h]
      rfl

/-- The statement of the worker, as the database runs it. -/
theorem execute_calls (cfg : WorkerConfig) (s : Worker) (plan : Plan) :
    (executeIn cfg s plan).1.db = run exec s.db (callsOf cfg s (.execute plan)) ∧
      (executeIn cfg s plan).1.clock = s.clock ∧
      tookOf (executeIn cfg s plan).2 =
        delivered (trace exec s.db (callsOf cfg s (.execute plan))) := by
  cases hw : waits s with
  | false =>
    have hcalls : callsOf cfg s (.execute plan) = [] := by simp [callsOf, hw]
    rw [hcalls, execute_idle plan hw]
    exact ⟨rfl, rfl, rfl⟩
  | true =>
    have hcalls : callsOf cfg s (.execute plan) = [claimCall cfg s.clock plan] := by
      simp [callsOf, hw]
    have hdelivered : delivered (trace exec s.db [claimCall cfg s.clock plan]) =
        jobsOf (exec s.db (claimCall cfg s.clock plan)).2 := List.append_nil _
    rw [hcalls, hdelivered, run_cons, run_nil]
    unfold executeIn
    rcases exec s.db (claimCall cfg s.clock plan) with ⟨db, a⟩
    split
    · rcases a with e | reply
      · exact ⟨rfl, rfl, rfl⟩
      · cases reply with
        | _ => exact ⟨rfl, rfl, rfl⟩
    · rename_i hno
      have horphan : s.orphan = true := by
        unfold waits at hw
        split at hw
        · exact absurd ‹_› hno
        · exact hw
      rw [if_pos horphan]
      rcases a with e | reply
      · exact ⟨rfl, rfl, rfl⟩
      · cases reply with
        | _ => exact ⟨rfl, rfl, rfl⟩

/-- An event of a worker makes its calls, and takes what they hand out to it. -/
theorem step_calls (cfg : WorkerConfig) (s : Worker) (e : worker.Event) :
    (worker.step cfg s e).1.db = run exec s.db (callsOf cfg s e) ∧
      (tookOf (worker.step cfg s e).2).Sublist (delivered (trace exec s.db (callsOf cfg s e))) := by
  have hdoes := step_does cfg s e
  cases e with
  | other op => exact ⟨rfl, List.nil_sublist _⟩
  | execute plan =>
    obtain ⟨hdb, _, htook⟩ := execute_calls cfg s plan
    refine ⟨hdb, ?_⟩
    rw [← htook]
    exact List.Sublist.refl _
  | tick usecs => exact ⟨rfl, List.nil_sublist _⟩
  | _ =>
    obtain ⟨hdb, _, htook⟩ := same_of_does hdoes (by simp) (by simp) (by simp)
    refine ⟨hdb, ?_⟩
    rw [htook]
    exact List.nil_sublist _

/-- Beside the event, a worker of the same database sees the calls and the time. -/
theorem outside_run (cfg cfg' : WorkerConfig) (s t : Worker) (e : worker.Event)
    (hdb : t.db = s.db) (hclock : t.clock = s.clock) :
    run (worker.step cfg') t (outside cfg s e) =
        { t with db := (worker.step cfg s e).1.db, clock := (worker.step cfg s e).1.clock } ∧
      (trace (worker.step cfg') t (outside cfg s e)).flatMap (·.2.toList) = [] := by
  have hdoes := step_does cfg s e
  cases e with
  | tick usecs =>
    refine ⟨?_, rfl⟩
    show { t with clock := t.clock + usecs } = { t with db := s.db, clock := s.clock + usecs }
    rw [hclock, ← hdb]
  | other op =>
    refine ⟨?_, rfl⟩
    show { t with db := (exec t.db ⟨t.clock, op⟩).1 } =
      { t with db := (exec s.db ⟨s.clock, op⟩).1, clock := s.clock }
    rw [hdb, ← hclock]
  | execute plan =>
    obtain ⟨hdb', hclock', _⟩ := execute_calls cfg s plan
    show run (worker.step cfg') t ((callsOf cfg s (.execute plan)).map (fun c => .other c.op)) =
        { t with db := (executeIn cfg s plan).1.db, clock := (executeIn cfg s plan).1.clock } ∧
      (trace (worker.step cfg') t
        ((callsOf cfg s (.execute plan)).map (fun c => .other c.op))).flatMap (·.2.toList) = []
    rw [hdb', hclock']
    cases hw : waits s with
    | false =>
      have hcalls : callsOf cfg s (.execute plan) = [] := by simp [callsOf, hw]
      rw [hcalls, run_nil, ← hdb, ← hclock]
      exact ⟨rfl, rfl⟩
    | true =>
      have hcalls : callsOf cfg s (.execute plan) = [claimCall cfg s.clock plan] := by
        simp [callsOf, hw]
      rw [hcalls, run_cons, run_nil, ← hdb, ← hclock]
      exact ⟨rfl, rfl⟩
  | _ =>
    obtain ⟨hdb', hclock', _⟩ := same_of_does hdoes (by simp) (by simp) (by simp)
    rw [hdb', hclock', ← hdb, ← hclock]
    exact ⟨rfl, rfl⟩

/-! ## A worker of a fleet is a worker -/

section
variable {ω : Type} [DecidableEq ω] (cfgs : ω → WorkerConfig)

theorem view_put (f : Fleet ω) (k : ω) (s : Worker) : (f.put k s).view k = s := by
  simp [Fleet.view, Fleet.put, Process.of]

theorem view_put_ne (f : Fleet ω) {i k : ω} (s : Worker) (h : k ≠ i) :
    (f.put i s).view k = { f.view k with db := s.db, clock := s.clock } := by
  simp [Fleet.view, Fleet.put, h]

/-- What worker `k` shows of an event. -/
def dealAt (k : ω) (x : Event ω × Option (ω × Deal)) : List Deal :=
  (x.2.filter (fun d => decide (d.1 = k))).toList.map Prod.snd

theorem dealAt_self (k : ω) (e : Event ω) (d : Option Deal) :
    dealAt k (e, d.map (fun d => (k, d))) = d.toList := by
  cases d with
  | none => rfl
  | some d => simp [dealAt]

theorem dealAt_ne {i k : ω} (h : i ≠ k) (e : Event ω) (d : Option Deal) :
    dealAt k (e, d.map (fun d => (i, d))) = [] := by
  cases d with
  | none => rfl
  | some d => simp [dealAt, h]

/-- An event of the fleet is to worker `k` what it sees of it. -/
theorem view_step (k : ω) (f : Fleet ω) (e : Event ω) :
    run (worker.step (cfgs k)) (f.view k) (seenBy cfgs k f e) = (step cfgs f e).1.view k ∧
      (trace (worker.step (cfgs k)) (f.view k) (seenBy cfgs k f e)).flatMap (·.2.toList) =
        dealAt k (e, (step cfgs f e).2) := by
  cases e with
  | tick usecs => exact ⟨rfl, rfl⟩
  | other op => exact ⟨rfl, rfl⟩
  | act i e =>
    dsimp only [seenBy, step]
    by_cases hi : i = k
    · subst hi
      rw [if_pos rfl, view_put, dealAt_self]
      exact ⟨rfl, List.append_nil _⟩
    · obtain ⟨hrun, hshown⟩ := outside_run (cfgs i) (cfgs k) (f.view i) (f.view k) e rfl rfl
      rw [if_neg hi, view_put_ne f _ (Ne.symm hi), dealAt_ne hi]
      exact ⟨hrun, hshown⟩

/-- What a worker of a fleet does in a run, and what it shows, is a run of one worker. -/
theorem a_worker_sees_clients (k : ω) (f : Fleet ω) (events : List (Event ω)) :
    ∃ own, run (worker.step (cfgs k)) (f.view k) own = (run (step cfgs) f events).view k ∧
      (trace (worker.step (cfgs k)) (f.view k) own).flatMap (·.2.toList) =
        (trace (step cfgs) f events).flatMap (dealAt k) :=
  run_simulation (view_step cfgs k) f events

/-! ## What the workers hand out -/

theorem handed_step {cfg : WorkerConfig} {s s' : Worker} {e : worker.Event} {d : Option Deal}
    (h : Does cfg s e s' d) :
    (handedOf d ++ pending s'.phase).Sublist (pending s.phase ++ tookOf d) := by
  by_cases hl : Loses cfg s e
  · cases h with
    | quiet _ _ _ _ hno _ => exact absurd hl hno
    | dropped phase _ _ hp =>
      rw [hp]
      exact List.nil_sublist _
    | took hp _ => exact absurd hp hl.1
    | orphaned _ _ _ => exact List.sublist_append_left _ _
    | _ => exact absurd hl id
  · rw [carries h hl]

/-- The handlers of a worker get a part of what its claims took, in order. -/
theorem handed_sublist (cfg : WorkerConfig) (s : Worker) (events : List worker.Event) :
    (worker.handed (trace (worker.step cfg) s events) ++
        pending (run (worker.step cfg) s events).phase).Sublist
      (pending s.phase ++ worker.taken (trace (worker.step cfg) s events)) := by
  induction events generalizing s with
  | nil => simp [worker.handed, worker.taken]
  | cons e rest ih =>
    obtain ⟨htaken, hhanded⟩ := trace_deals cfg s e rest
    have hfirst := handed_step (step_does cfg s e)
    have hrest := ih (worker.step cfg s e).1
    rw [htaken, hhanded, run_cons, List.append_assoc]
    refine (List.Sublist.append_left hrest _).trans ?_
    rw [← List.append_assoc, ← List.append_assoc]
    exact List.Sublist.append_right hfirst _

theorem filter_jobsIn (of : Option Deal → List Job) (k : ω)
    (h : List (Event ω × Option (ω × Deal))) :
    (jobsIn of h).filter (fun x => decide (x.1 = k)) =
      ((h.flatMap (dealAt k)).flatMap (fun d => of (some d))).map (fun job => (k, job)) := by
  induction h with
  | nil => rfl
  | cons x rest ih =>
    obtain ⟨e, d⟩ := x
    cases d with
    | none => exact ih
    | some d =>
      obtain ⟨i, d⟩ := d
      have hcons : jobsIn of ((e, some (i, d)) :: rest) =
          (of (some d)).map (fun job => (i, job)) ++ jobsIn of rest := rfl
      rw [hcons, List.filter_append, ih, List.flatMap_cons, List.flatMap_append, List.map_append]
      congr 1
      by_cases hi : i = k
      · subst hi
        have hdeal : dealAt i (e, some (i, d)) = [d] := dealAt_self i e (some d)
        rw [hdeal, List.flatMap_singleton]
        simp [List.filter_map, Function.comp_def]
      · have hdeal : dealAt k (e, some (i, d)) = [] := dealAt_ne hi e (some d)
        rw [hdeal]
        simp [List.filter_map, Function.comp_def, hi]

theorem flatMap_deals {of : Option Deal → List Job} (hnone : of none = [])
    (tr : List (worker.Event × Option Deal)) :
    tr.flatMap (fun x => of x.2) = (tr.flatMap (·.2.toList)).flatMap (fun d => of (some d)) := by
  rw [List.flatMap_assoc]
  congr 1
  funext x
  obtain ⟨e, d⟩ := x
  cases d with
  | none => exact hnone
  | some d => exact (List.append_nil _).symm

/-- A list has no more of each part than another, so it has no more in all. -/
theorem subperm_of_parts {α : Type} {part : α → ω} {l l' : List α}
    (h : ∀ k, (l.filter (fun x => decide (part x = k))).Sublist
      (l'.filter (fun x => decide (part x = k)))) : l.Subperm l' := by
  classical
  apply List.subperm_ext_iff.mpr
  intro x _
  have hle := (h (part x)).count_le x
  rwa [List.count_filter (by simp), List.count_filter (by simp)] at hle

/-- The handlers of a fleet get no more than its claims took, each worker its own. -/
theorem handed_subperm (db : Db) (clock : Int) (events : List (Event ω)) :
    (handed (trace (step cfgs) (start cfgs db clock) events)).Subperm
      (taken (trace (step cfgs) (start cfgs db clock) events)) := by
  refine @subperm_of_parts ω _ _ Prod.fst _ _ ?_
  intro k
  obtain ⟨own, _, hshown⟩ := a_worker_sees_clients cfgs k (start cfgs db clock) events
  have hown := handed_sublist (cfgs k) ((start cfgs db clock).view k) own
  have hstart : pending ((start cfgs db clock).view k).phase = [] := pending_start (cfgs k) db clock
  rw [hstart, List.nil_append] at hown
  have hpart := (List.sublist_append_left _ _).trans hown
  unfold worker.handed worker.taken at hpart
  rw [flatMap_deals rfl, flatMap_deals rfl, hshown] at hpart
  unfold handed taken
  rw [filter_jobsIn, filter_jobsIn]
  exact hpart.map _

/-! ## The queue under a fleet -/

/-- The database of a fleet runs the calls of each event, and they hand out what it takes. -/
theorem step_queue (f : Fleet ω) (e : Event ω) :
    (step cfgs f e).1.db = run exec f.db (callsIn cfgs f e) ∧
      ((taken [(e, (step cfgs f e).2)]).map Prod.snd).Sublist
        (delivered (trace exec f.db (callsIn cfgs f e))) := by
  cases e with
  | tick usecs => exact ⟨rfl, List.nil_sublist _⟩
  | other op => exact ⟨rfl, List.nil_sublist _⟩
  | act k e =>
    obtain ⟨hdb, htook⟩ := step_calls (cfgs k) (f.view k) e
    refine ⟨hdb, ?_⟩
    have hsame : ((taken [(Event.act k e, (step cfgs f (.act k e)).2)]).map Prod.snd) =
        tookOf (worker.step (cfgs k) (f.view k) e).2 := by
      dsimp only [step]
      cases (worker.step (cfgs k) (f.view k) e).2 with
      | none => rfl
      | some d => simp [taken, jobsIn, deals, Function.comp_def]
    rw [hsame]
    exact htook

/-- What the workers took was handed out by the queue, to them. -/
structure Serves (calls made : List Call) (tr : List (Event ω × Option (ω × Deal))) (f : Fleet ω) :
    Prop where
  db : f.db = after (calls ++ made)
  taken : ((taken tr).map Prod.snd).Sublist (delivered (history (calls ++ made)))
  kinds : ∀ x ∈ fleet.taken tr, x.2.kind ∈ (cfgs x.1).kinds
  returns : ∀ j, returns j (history (calls ++ made)) =
    returns j (history calls) + tr.countP (fun x => x.1.op.any (Op.returns j))

theorem kinds_step {f : Fleet ω} {e : Event ω} {x : ω × Job}
    (h : x ∈ taken [(e, (step cfgs f e).2)]) : x.2.kind ∈ (cfgs x.1).kinds := by
  cases e with
  | tick usecs => cases h
  | other op => cases h
  | act k e =>
    dsimp only [step] at h
    cases hd : (worker.step (cfgs k) (f.view k) e).2 with
    | none =>
      rw [hd] at h
      cases h
    | some d =>
      rw [hd] at h
      cases d with
      | handed job => cases h
      | took jobs =>
        obtain ⟨plan, htook⟩ := taken_rows hd
        obtain ⟨job, hjob, rfl⟩ : ∃ job ∈ jobs, (k, job) = x := by
          simpa [taken, jobsIn, deals, tookOf] using h
        obtain ⟨r, _, hc, _, _, he⟩ := htook.taken job hjob
        rw [he]
        exact (claimable_iff.mp hc).2.2

theorem serves_step {calls made : List Call} {tr : List (Event ω × Option (ω × Deal))}
    {f : Fleet ω} (h : Serves cfgs calls made tr f) (e : Event ω) :
    ∃ made', Serves cfgs calls made' (tr ++ [(e, (step cfgs f e).2)]) (step cfgs f e).1 := by
  obtain ⟨hdb, htaken, hkinds, hreturns⟩ := h
  obtain ⟨hdb', htook⟩ := step_queue cfgs f e
  have hback : ∀ j, _ := fun j => returns_callsIn cfgs j f e
  rw [hdb] at hdb' htook hback
  have hhist : history (calls ++ (made ++ callsIn cfgs f e)) =
      history (calls ++ made) ++ trace exec (after (calls ++ made)) (callsIn cfgs f e) := by
    rw [← List.append_assoc]
    exact trace_append exec _ _ _
  refine ⟨made ++ callsIn cfgs f e, ?_, ?_, ?_, ?_⟩
  · rw [hdb', ← List.append_assoc]
    exact (run_append exec _ _ _).symm
  · rw [hhist, taken_append, List.map_append]
    unfold delivered at htaken htook ⊢
    rw [List.flatMap_append]
    exact htaken.append htook
  · intro x hx
    rw [taken_append] at hx
    rcases List.mem_append.mp hx with hx | hx
    · exact hkinds x hx
    · exact kinds_step cfgs hx
  · intro j
    have hsplit : skip_locked.returns j (history (calls ++ made) ++
        trace exec (after (calls ++ made)) (callsIn cfgs f e)) =
        skip_locked.returns j (history (calls ++ made)) +
          skip_locked.returns j (trace exec (after (calls ++ made)) (callsIn cfgs f e)) :=
      List.countP_append
    rw [hhist, hsplit, hreturns j, hback j, List.countP_append, List.countP_singleton,
      Nat.add_assoc]

theorem serves_run (calls : List Call) (clock : Int) (events : List (Event ω)) :
    ∃ made, Serves cfgs calls made (trace (step cfgs) (start cfgs (after calls) clock) events)
      (run (step cfgs) (start cfgs (after calls) clock) events) := by
  apply run_induction (P := fun tr f => ∃ made, Serves cfgs calls made tr f)
  · refine ⟨[], ?_, List.nil_sublist _, fun x hx => absurd hx List.not_mem_nil, fun j => ?_⟩
    · rw [List.append_nil]
      rfl
    · rw [List.append_nil]
      rfl
  · rintro tr f e ⟨made, h⟩
    exact serves_step cfgs h e

/-! ## The law -/

/-- In every run of a fleet, with any other clients: the database is that of some calls of the
crate; no two handlers get the same attempt of a job; the attempts of a job are 1 to 20; each
handler gets a job of the kinds of its worker, as a producer committed it; and after its first
handler, a job meets another one only for a requeue of it or a reap. -/
theorem a_fleet_hands_out_each_attempt_once (calls : List Call) (clock : Int)
    (events : List (Event ω)) :
    let init := start cfgs (after calls) clock
    let jobs := handed (trace (step cfgs) init events)
    ∃ made, (run (step cfgs) init events).db = after (calls ++ made) ∧
      (jobs.map (fun x => execution x.2)).Nodup ∧
      (∀ x ∈ jobs, 1 ≤ x.2.attempts ∧ x.2.attempts ≤ 20 ∧ x.2.kind ∈ (cfgs x.1).kinds ∧
        ⟨x.2.id, x.2.kind, x.2.payload⟩ ∈ committed (history (calls ++ made))) ∧
      ∀ j, jobs.countP (fun x => decide (x.2.id = j)) ≤ 1 + returns j (history calls) +
        events.countP (fun e => e.op.any (Op.returns j)) := by
  intro init jobs
  obtain ⟨made, hdb, htaken, hkinds, hreturns⟩ := serves_run cfgs calls clock events
  have hsub := handed_subperm cfgs (after calls) clock events
  obtain ⟨part, hperm, hpart⟩ := hsub
  have hdelivered : (part.map Prod.snd).Sublist (delivered (history (calls ++ made))) :=
    (hpart.map Prod.snd).trans htaken
  refine ⟨made, hdb, ?_, ?_, ?_⟩
  · have hnodup := (hdelivered.map execution).nodup (delivered_nodup (calls ++ made))
    rw [List.map_map] at hnodup
    exact (hperm.map _).nodup_iff.mp hnodup
  · intro x hx
    have hx : x ∈ part := hperm.mem_iff.mpr hx
    have hjob : x.2 ∈ delivered (history (calls ++ made)) :=
      hdelivered.subset (List.mem_map_of_mem hx)
    obtain ⟨hfirst, hlast⟩ := delivered_number (calls ++ made) hjob
    have hfew := deliveries_few x.2.id (calls ++ made)
    exact ⟨hfirst, by omega, hkinds x (hpart.subset hx), delivered_committed (calls ++ made) hjob⟩
  · intro j
    have hcount : jobs.countP (fun x => decide (x.2.id = j)) ≤
        (delivered (history (calls ++ made))).countP (fun job => decide (job.id = j)) := by
      rw [← hperm.countP_eq]
      have hle := hdelivered.countP_le (p := fun job => decide (job.id = j))
      rwa [List.countP_map] at hle
    have hback := deliveries_le_returns j (calls ++ made)
    have hevents : (trace (step cfgs) init events).countP (fun x => x.1.op.any (Op.returns j)) =
        events.countP (fun e => e.op.any (Op.returns j)) := by
      have hmap := List.countP_map (p := fun e : Event ω => e.op.any (Op.returns j)) (f := Prod.fst)
        (l := trace (step cfgs) init events)
      rw [trace_map_fst] at hmap
      exact hmap.symm
    rw [delivered_count] at hcount
    rw [hreturns j, hevents] at hback
    omega

end

end skip_locked.fleet
