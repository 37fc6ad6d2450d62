-- What the claims of a run handed out: each delivery is an execution with a
-- number of its own, of a job that a producer committed, and a job comes back
-- to the workers only through a requeue of it or a reap.
import SkipLocked.Conservation
import SkipLocked.Attempts

open jsonb postgres keyed_table event_runs

namespace skip_locked

open claim lease retry

/-! ## The deliveries of a run -/

def jobsOf : Answer → List Job
  | .ok (.jobs jobs) => jobs
  | _ => []

/-- The jobs that the claims handed out, oldest first. -/
def delivered (h : List (Call × Answer)) : List Job := h.flatMap (fun e => jobsOf e.2)

/-- The job of a delivery, and the number of the delivery. -/
def execution (job : Job) : Int × Int := (job.id, job.attempts)

/-- The kinds that a claim asks for. -/
def Op.kinds : Op → List Text
  | .claim_batch kinds _ _ _ => kinds
  | .fair_claim kinds _ _ _ _ => kinds
  | _ => []

theorem history_snoc (calls : List Call) (c : Call) :
    history (calls ++ [c]) = history calls ++ [(c, (exec (after calls) c).2)] :=
  trace_snoc exec _ calls c

theorem delivered_snoc (h : List (Call × Answer)) (e : Call × Answer) :
    delivered (h ++ [e]) = delivered h ++ jobsOf e.2 := by
  simp [delivered]

theorem delivers_of_mem {job : Job} {a : Answer} (h : job ∈ jobsOf a) : Delivers job.id a := by
  unfold jobsOf at h
  split at h
  · exact List.mem_map_of_mem h
  · cases h

/-- A turn that hands out its job is a claim of it. -/
theorem claimant_of_delivery {db : Db} (hg : db.Good) {c : Call} {j : Int}
    (hd : Delivers j (exec db c).2) : ∃ worker_id, c.op.claimant = some worker_id := by
  have hturn := exec_turn hg c j
  generalize (exec db c).1.life j = l' at hturn
  generalize db.life j = l at hturn
  generalize (exec db c).2 = a at hturn hd
  cases hturn with
  | still _ ha => exact absurd hd ha
  | born _ _ _ ha _ => exact absurd hd ha
  | claimed r hop _ _ _ _ => exact ⟨_, hop⟩
  | _ => cases hd

/-- A call that hands out jobs is a claim that took them. -/
theorem exec_took {db : Db} (hg : db.Good) {c : Call} (hne : jobsOf (exec db c).2 ≠ []) :
    ∃ worker_id plan, c.op.claimant = some worker_id ∧
      Took db c.now c.op.kinds worker_id plan (exec db c).1 (jobsOf (exec db c).2) := by
  obtain ⟨job, hjob⟩ := List.exists_mem_of_ne_nil _ hne
  obtain ⟨w, hw⟩ := claimant_of_delivery hg (delivers_of_mem hjob)
  obtain ⟨now, op⟩ := c
  cases op with
  | claim_batch kinds n worker_id plan =>
    dsimp only [exec] at hne ⊢
    cases hok : claim.claim_batch db now kinds n worker_id plan with
    | error e =>
      rw [hok] at hne
      exact absurd rfl hne
    | ok p => exact ⟨worker_id, plan, rfl, claim_batch_took hok⟩
  | fair_claim kinds batch per_tenant_cap worker_id plan =>
    dsimp only [exec] at hne ⊢
    cases hok : claim.fair_claim db now kinds batch per_tenant_cap worker_id plan with
    | error e =>
      rw [hok] at hne
      exact absurd rfl hne
    | ok p => exact ⟨worker_id, plan, rfl, fair_claim_took hok⟩
  | _ => cases hw

theorem jobsOf_nodup {db : Db} (hg : db.Good) (c : Call) :
    ((jobsOf (exec db c).2).map (·.id)).Nodup := by
  by_cases hne : jobsOf (exec db c).2 = []
  · rw [hne]
    exact List.nodup_nil
  · obtain ⟨_, _, _, htook⟩ := exec_took hg hne
    exact htook.nodup

/-! ## Their numbers -/

/-- The deliveries so far have the numbers up to their count. -/
theorem delivered_number (calls : List Call) {job : Job} (h : job ∈ delivered (history calls)) :
    1 ≤ job.attempts ∧ job.attempts ≤ deliveries job.id (history calls) := by
  obtain ⟨⟨c, a⟩, he, hjob⟩ := List.mem_flatMap.mp h
  obtain ⟨pre, post, hsplit⟩ := List.append_of_mem he
  cases a with
  | error e => cases hjob
  | ok reply =>
    cases reply with
    | jobs jobs =>
      have hnumber := a_delivery_counts_itself calls hsplit hjob
      have hpost : deliveries job.id (history calls) = deliveries job.id pre +
          deliveries job.id ((c, .ok (.jobs jobs)) :: post) := by
        rw [hsplit]
        exact List.countP_append
      have hone : 1 ≤ deliveries job.id ((c, .ok (.jobs jobs)) :: post) := by
        apply List.countP_pos_iff.mpr
        exact ⟨_, List.mem_cons_self, decide_eq_true (List.mem_map_of_mem hjob)⟩
      omega
    | _ => cases hjob

/-- No job is handed out more than 20 times. -/
theorem deliveries_few (j : Int) (calls : List Call) : deliveries j (history calls) ≤ 20 := by
  have hlaw := life_induction (j := j)
    (P := fun h l => Counted j h l ∧ l.DefaultMax ∧ deliveries j h ≤ 20)
    ⟨rfl, trivial, Nat.zero_le _⟩ ?_ calls
  · exact hlaw.2.2
  · rintro h c a l l' ht ⟨hcounted, hmax, hfew⟩
    have hcounted' := counted_turn ht hcounted
    have hmax' := defaultMax_turn ht hmax
    exact ⟨hcounted', hmax', few_of_turn ht hcounted' hmax' hfew⟩

/-- No two deliveries of a run have the same job and the same number. -/
theorem delivered_nodup (calls : List Call) :
    ((delivered (history calls)).map execution).Nodup := by
  induction calls using List.reverseRecOn with
  | nil => exact List.nodup_nil
  | append_singleton calls c ih =>
    have hgood := after_good calls
    have hhist := history_snoc calls c
    rw [hhist, delivered_snoc, List.map_append, List.nodup_append]
    refine ⟨ih, ?_, ?_⟩
    · apply List.Nodup.of_map Prod.fst
      rw [List.map_map]
      exact jobsOf_nodup hgood c
    · intro x hx y hy hxy
      obtain ⟨old, hold, rfl⟩ := List.mem_map.mp hx
      obtain ⟨job, hjob, rfl⟩ := List.mem_map.mp hy
      obtain ⟨hid, hattempts⟩ := Prod.mk.injEq .. ▸ hxy
      have hle := (delivered_number calls hold).2
      have hnumber : job.attempts = deliveries job.id (history calls) + 1 := by
        cases ha : (exec (after calls) c).2 with
        | error e =>
          rw [ha] at hjob
          cases hjob
        | ok reply =>
          rw [ha] at hjob hhist
          cases reply with
          | jobs jobs => exact a_delivery_counts_itself (calls ++ [c]) hhist hjob
          | _ => cases hjob
      rw [hid] at hle
      omega

theorem jobsOf_count {db : Db} (hg : db.Good) (c : Call) (j : Int) :
    (jobsOf (exec db c).2).countP (fun job => decide (job.id = j)) =
      if Delivers j (exec db c).2 then 1 else 0 := by
  have hnodup := jobsOf_nodup hg c
  generalize (exec db c).2 = a at hnodup
  cases a with
  | error e => rfl
  | ok reply =>
    cases reply with
    | jobs jobs =>
      have hcount : jobs.countP (fun job => decide (job.id = j)) = (jobs.map (·.id)).count j := by
        rw [List.count_eq_countP, List.countP_map]
        rfl
      dsimp only [jobsOf]
      rw [hcount]
      split
      · rename_i hj
        exact List.count_eq_one_of_mem hnodup hj
      · rename_i hj
        exact List.count_eq_zero_of_not_mem hj
    | _ => rfl

theorem delivered_count (j : Int) (calls : List Call) :
    (delivered (history calls)).countP (fun job => decide (job.id = j)) =
      deliveries j (history calls) := by
  induction calls using List.reverseRecOn with
  | nil => rfl
  | append_singleton calls c ih =>
    rw [history_snoc, delivered_snoc, List.countP_append, ih, deliveries_snoc,
      jobsOf_count (after_good calls)]

/-! ## Their jobs -/

/-- A delivery shows the kind and the payload that a producer committed, and its kind is one
that the claim asks for. -/
theorem delivered_issue (calls : List Call) (c : Call) {job : Job}
    (h : job ∈ jobsOf (exec (after calls) c).2) :
    ⟨job.id, job.kind, job.payload⟩ ∈ committed (history calls) ∧ job.kind ∈ c.op.kinds := by
  have hgood := after_good calls
  have hne : jobsOf (exec (after calls) c).2 ≠ [] := List.ne_nil_of_mem h
  obtain ⟨w, plan, _, htook⟩ := exec_took hgood hne
  obtain ⟨r, hf, hc, _, _, he⟩ := htook.taken job h
  have hissue : ((after calls).life job.id).issue = some (issueOf r) := by
    rw [life_of_find hf]
    rfl
  rw [he]
  exact ⟨committed_of_life hissue, (claimable_iff.mp hc).2.2⟩

theorem committed_snoc {h : List (Call × Answer)} {i : Issue} (hi : i ∈ committed h)
    (e : Call × Answer) : i ∈ committed (h ++ [e]) := by
  unfold committed at hi ⊢
  rw [ledger_snoc]
  unfold Ledger.record
  split
  · unfold Ledger.insert
    split <;> exact hi
  · unfold Ledger.insert
    split <;> exact hi
  · unfold Ledger.commit
    split
    · exact List.mem_append_right _ hi
    · exact hi
  · exact hi
  · unfold Ledger.enqueue_pool
    split
    · exact List.mem_cons_of_mem _ hi
    · exact hi
  · exact hi

/-- All that was handed out was committed. -/
theorem delivered_committed (calls : List Call) {job : Job} (h : job ∈ delivered (history calls)) :
    ⟨job.id, job.kind, job.payload⟩ ∈ committed (history calls) := by
  induction calls using List.reverseRecOn with
  | nil => cases h
  | append_singleton calls c ih =>
    rw [history_snoc, delivered_snoc] at h
    rw [history_snoc]
    apply committed_snoc
    rcases List.mem_append.mp h with h | h
    · exact ih h
    · exact (delivered_issue calls c h).1

/-! ## How a job comes back -/

/-- The call may give job `j` back to the claims. -/
def Op.returns (j : Int) : Op → Bool
  | .requeue id _ => decide (id = j)
  | .reap _ => true
  | _ => false

def returns (j : Int) (h : List (Call × Answer)) : Nat := h.countP (fun e => e.1.op.returns j)

/-- A job was handed out once more than it came back, at most. When it is ready, no more often
than it came back. -/
structure ComesBack (j : Int) (h : List (Call × Answer)) (l : Life) : Prop where
  some : l ≠ .unborn → deliveries j h ≤ returns j h + 1
  ready : ∀ r, l = .live r → r.state = .ready → deliveries j h ≤ returns j h
  none : l = .unborn → deliveries j h = 0

theorem returns_snoc (j : Int) (h : List (Call × Answer)) (e : Call × Answer) :
    returns j (h ++ [e]) = returns j h + if e.1.op.returns j = true then 1 else 0 := by
  unfold returns
  rw [List.countP_append, List.countP_singleton]

theorem comesBack_turn {j : Int} {h : List (Call × Answer)} {c : Call} {a : Answer} {l l' : Life}
    (ht : Turn j c a l l') (hl : ComesBack j h l) : ComesBack j (h ++ [(c, a)]) l' := by
  have hd := deliveries_snoc j h c a
  have hr := returns_snoc j h (c, a)
  have hquiet : ¬ Delivers j a → deliveries j (h ++ [(c, a)]) = deliveries j h := by
    intro hno
    rw [hd, if_neg hno, Nat.add_zero]
  obtain ⟨hsome, hready, hnone⟩ := hl
  cases ht with
  | still l hno =>
    have hsame := hquiet hno
    refine ⟨?_, ?_, ?_⟩
    · intro hl
      have := hsome hl
      omega
    · intro r hl hs
      have := hready r hl hs
      omega
    · intro hl
      have := hnone hl
      omega
  | born kind payload run_at hno _ =>
    have hsame := hquiet hno
    have := hnone rfl
    exact ⟨fun _ => by omega, fun _ _ _ => by omega, fun hl => by cases hl⟩
  | claimed r _ hs _ hj _ =>
    have hj : Delivers j (.ok (.jobs _)) := hj
    rw [if_pos hj] at hd
    have := hready r rfl hs
    refine ⟨fun _ => by omega, ?_, fun hl => by cases hl⟩
    intro r' hl hs'
    cases hl
    cases hs'
  | beat r _ hheld =>
    have hsame := hquiet id
    have := hsome (by simp)
    refine ⟨fun _ => by omega, ?_, fun hl => by cases hl⟩
    intro r' hl hs'
    cases hl
    have := hready r rfl hs'
    omega
  | finished r _ =>
    have hsame := hquiet id
    have := hsome (by simp)
    refine ⟨fun _ => by omega, ?_, fun hl => by cases hl⟩
    intro r' hl hs'
    cases hl
    cases hs'
  | requeued r hop _ _ =>
    have hsame := hquiet id
    have hback : (c.op.returns j) = true := by
      rw [hop]
      exact decide_eq_true rfl
    rw [if_pos hback] at hr
    have := hsome (by simp)
    exact ⟨fun _ => by omega, fun _ _ _ => by omega, fun hl => by cases hl⟩
  | died r _ =>
    have hsame := hquiet id
    have := hsome (by simp)
    exact ⟨fun _ => by omega, fun _ hl => (by cases hl), fun hl => by cases hl⟩
  | reaped r hop _ _ =>
    have hsame := hquiet id
    have hback : (c.op.returns j) = true := by
      rw [hop]
      rfl
    rw [if_pos hback] at hr
    have := hsome (by simp)
    exact ⟨fun _ => by omega, fun _ _ _ => by omega, fun hl => by cases hl⟩

/-- Each delivery of a job but the first needs a requeue of it or a reap. -/
theorem deliveries_le_returns (j : Int) (calls : List Call) :
    deliveries j (history calls) ≤ returns j (history calls) + 1 := by
  have hlaw : ComesBack j (history calls) ((after calls).life j) := by
    apply life_induction
    · exact ⟨fun h => absurd rfl h, fun _ h => (by cases h), fun _ => rfl⟩
    · intro h c a l l' ht hl
      exact comesBack_turn ht hl
  by_cases hl : (after calls).life j = .unborn
  · have := hlaw.none hl
    omega
  · exact hlaw.some hl

end skip_locked
