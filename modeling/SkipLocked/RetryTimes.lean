-- The law of the retry times: between two deliveries of a job lie the waits of
-- all the attempts in between that a requeue ended. An attempt that a reap
-- ended adds no wait, and several requeues of one attempt add one.
import SkipLocked.Backoff
import SkipLocked.Deliveries

open jsonb postgres keyed_table event_runs

namespace skip_locked

open claim lease retry

/-! ## The waits of a history -/

/-- A requeue of `j` that took effect. -/
def setsBack (j : Int) : Call × Answer → Bool
  | (⟨_, .requeue id _⟩, .ok (.rows n)) => decide (id = j) && decide (n = 1)
  | _ => false

/-- The wait of attempt `n`, when a requeue ended it. -/
def owed (n : Int) (failed : Bool) : Int := if failed then waitOf n else 0

/-- The waits of the attempts that a history ends, from attempt `n` on. -/
def waits (j : Int) : Int → Bool → List (Call × Answer) → Int
  | _, _, [] => 0
  | n, failed, e :: rest =>
    if Delivers j e.2 then owed n failed + waits j (n + 1) false rest
    else waits j n (failed || setsBack j e) rest

/-- The waits of `m` attempts in a row. -/
def backoffs (n : Int) : Nat → Int
  | 0 => 0
  | m + 1 => waitOf n + backoffs (n + 1) m

/-- A job that fails 19 times waits for more than 9 hours in all. -/
example : backoffs 1 19 = 32894 * USECS_PER_SEC := by decide

theorem setsBack_iff {j : Int} {e : Call × Answer} :
    setsBack j e = true ↔ (∃ err, e.1.op = .requeue j err) ∧ e.2 = .ok (.rows 1) := by
  obtain ⟨⟨now, op⟩, a⟩ := e
  constructor
  · intro h
    unfold setsBack at h
    split at h
    · rename_i id err n heq
      cases heq
      rw [Bool.and_eq_true, decide_eq_true_eq, decide_eq_true_eq] at h
      obtain ⟨rfl, rfl⟩ := h
      exact ⟨⟨err, rfl⟩, rfl⟩
    · cases h
  · rintro ⟨⟨err, hop⟩, ha⟩
    cases hop
    cases ha
    simp [setsBack]

/-! ## The steps -/

/-- The job is at attempt `n`, which began at `base` or later. When a requeue ended the attempt,
the job is not due before its wait is over. -/
def Waiting (base n : Int) (failed : Bool) : Life → Prop
  | .unborn => False
  | .live r => r.attempts = n ∧ (failed = true → base + waitOf n ≤ r.run_at)
  | .buried _ => True

/-- A delivery ends the wait of the attempt before it. -/
theorem waiting_delivered {j base n : Int} {failed : Bool} {c : Call} {a : Answer} {l l' : Life}
    (ht : Turn j c a l l') (hd : Delivers j a) (hnow : base ≤ c.now)
    (h : Waiting base n failed l) :
    base + owed n failed ≤ c.now ∧ Waiting (base + owed n failed) (n + 1) false l' := by
  cases ht with
  | still _ ha => exact absurd hd ha
  | born _ _ _ ha _ => exact absurd hd ha
  | claimed r _ _ hdue _ _ =>
    obtain ⟨hatt, hwait⟩ := h
    refine ⟨?_, ?_, fun hf => by cases hf⟩
    · unfold owed
      split
      · rename_i hfailed
        exact (hwait hfailed).trans hdue
      · omega
    · simp only [setRunning]
      omega
  | _ => cases hd

/-- A requeue that takes effect starts the wait of its attempt. -/
theorem waiting_setBack {db : Db} {j base n : Int} {failed : Bool} {c : Call} (hn : 0 ≤ n)
    (hnow : base ≤ c.now) (h : Waiting base n failed (db.life j))
    (hback : setsBack j (c, (exec db c).2) = true) :
    Waiting base n true ((exec db c).1.life j) := by
  obtain ⟨⟨err, hop⟩, hone⟩ := setsBack_iff.mp hback
  obtain ⟨r, run_at, hf, _, hb, hf'⟩ := requeued_row hop hone
  rw [life_of_find hf] at h
  obtain ⟨hatt, _⟩ := h
  subst hatt
  have hdue : run_at = c.now + waitOf r.attempts := backoff_waits hn hb
  rw [life_of_find hf']
  refine ⟨rfl, fun _ => ?_⟩
  simp only [setRetry]
  omega

/-- The other calls leave the wait. -/
theorem waiting_quiet {j base n : Int} {failed : Bool} {c : Call} {a : Answer} {l l' : Life}
    (ht : Turn j c a l l') (hd : ¬ Delivers j a) (hback : setsBack j (c, a) = false)
    (h : Waiting base n failed l) : Waiting base n failed l' := by
  cases ht with
  | still _ _ => exact h
  | born _ _ _ _ _ => exact h.elim
  | claimed r _ _ _ hj _ => exact absurd hj hd
  | requeued r hop _ _ =>
    have htrue : setsBack j (c, .ok (.rows 1)) = true := setsBack_iff.mpr ⟨⟨_, hop⟩, rfl⟩
    rw [hback] at htrue
    cases htrue
  | died r _ => trivial
  | _ => exact h

theorem waiting_exec {db : Db} (hg : db.Good) {j base n : Int} {failed : Bool} {c : Call}
    (hn : 0 ≤ n) (hnow : base ≤ c.now) (h : Waiting base n failed (db.life j))
    (hd : ¬ Delivers j (exec db c).2) :
    Waiting base n (failed || setsBack j (c, (exec db c).2)) ((exec db c).1.life j) := by
  cases hback : setsBack j (c, (exec db c).2) with
  | true =>
    rw [Bool.or_true]
    exact waiting_setBack hn hnow h hback
  | false =>
    rw [Bool.or_false]
    exact waiting_quiet (exec_turn hg c j) hd hback h

/-! ## The runs -/

/-- From attempt `n` at time `base` on, the waits are over when a later claim delivers. -/
theorem waits_over {j : Int} {db : Db} (hg : db.Good) {base n : Int} {failed : Bool} (hn : 0 ≤ n)
    (h : Waiting base n failed (db.life j)) (between : List Call) (c : Call)
    (htime : Timely (between ++ [c])) (hbase : ∀ d ∈ between ++ [c], base ≤ d.now)
    (hd : Delivers j (exec (run exec db between) c).2) :
    base + waits j n failed (trace exec db (between ++ [c])) ≤ c.now := by
  induction between generalizing db base n failed with
  | nil =>
    have hd : Delivers j (exec db c).2 := hd
    have hstep := waiting_delivered (exec_turn hg c j) hd (hbase c (by simp)) h
    simp only [List.nil_append, trace_cons, trace_nil, waits]
    rw [if_pos hd, Int.add_zero]
    exact hstep.1
  | cons d rest ih =>
    have hdnow := hbase d (by simp)
    obtain ⟨hfirst, hrest⟩ := List.pairwise_cons.mp htime
    simp only [List.cons_append, trace_cons, waits]
    by_cases hdel : Delivers j (exec db d).2
    · obtain ⟨hover, hnext⟩ := waiting_delivered (exec_turn hg d j) hdel hdnow h
      have hih := ih (exec_good hg d) (by omega) hnext hrest
        (fun x hx => hover.trans (hfirst x.now (List.mem_map_of_mem hx))) hd
      rw [if_pos hdel]
      omega
    · have hnext := waiting_exec hg hn hdnow h hdel
      have hih := ih (exec_good hg d) hn hnext hrest
        (fun x hx => hbase x (List.mem_cons_of_mem _ hx)) hd
      rw [if_neg hdel]
      exact hih

/-- A job that is ready was set back by a requeue. -/
def BackByRequeue (failed : Bool) : Life → Prop
  | .unborn => False
  | .live r => r.state = .ready → failed = true
  | .buried _ => True

theorem backByRequeue_delivered {j : Int} {failed : Bool} {c : Call} {a : Answer} {l l' : Life}
    (ht : Turn j c a l l') (hd : Delivers j a) (h : BackByRequeue failed l) :
    failed = true ∧ BackByRequeue false l' := by
  cases ht with
  | still _ ha => exact absurd hd ha
  | born _ _ _ ha _ => exact absurd hd ha
  | claimed r _ hready _ _ _ => exact ⟨h hready, fun hs => by cases hs⟩
  | _ => cases hd

theorem backByRequeue_quiet {j : Int} {failed : Bool} {c : Call} {a : Answer} {l l' : Life}
    (ht : Turn j c a l l') (hd : ¬ Delivers j a) (hreap : ∀ lease, c.op ≠ .reap lease)
    (h : BackByRequeue failed l) : BackByRequeue (failed || setsBack j (c, a)) l' := by
  cases ht with
  | still l _ =>
    cases l with
    | unborn => exact h
    | live r => exact fun hs => by rw [h hs, Bool.true_or]
    | buried d => trivial
  | born _ _ _ _ _ => exact h.elim
  | claimed r _ _ _ hj _ => exact absurd hj hd
  | beat r _ _ => exact fun hs => by rw [h hs, Bool.true_or]
  | finished r _ => exact fun hs => by cases hs
  | requeued r hop _ _ =>
    have htrue : setsBack j (c, .ok (.rows 1)) = true := setsBack_iff.mpr ⟨⟨_, hop⟩, rfl⟩
    exact fun _ => by rw [htrue, Bool.or_true]
  | died r _ => trivial
  | reaped r hop _ _ => exact absurd hop (hreap _)

/-- When no reap comes between, every attempt adds its wait. -/
theorem waits_all {j : Int} {db : Db} (hg : db.Good) (n : Int) {failed : Bool}
    (h : BackByRequeue failed (db.life j)) (between : List Call) (c : Call)
    (hreap : ∀ d ∈ between, ∀ lease, d.op ≠ .reap lease)
    (hd : Delivers j (exec (run exec db between) c).2) :
    waits j n failed (trace exec db (between ++ [c])) =
      backoffs n (deliveries j (trace exec db (between ++ [c]))) := by
  induction between generalizing db n failed with
  | nil =>
    have hd : Delivers j (exec db c).2 := hd
    obtain ⟨hfailed, _⟩ := backByRequeue_delivered (exec_turn hg c j) hd h
    subst hfailed
    have hone : deliveries j [(c, (exec db c).2)] = 1 := by
      unfold deliveries
      rw [List.countP_singleton]
      exact if_pos (decide_eq_true hd)
    simp only [List.nil_append, trace_cons, trace_nil, waits]
    rw [if_pos hd, hone]
    rfl
  | cons d rest ih =>
    have hrest : ∀ x ∈ rest, ∀ lease, x.op ≠ .reap lease :=
      fun x hx => hreap x (List.mem_cons_of_mem _ hx)
    simp only [List.cons_append, trace_cons, waits]
    by_cases hdel : Delivers j (exec db d).2
    · obtain ⟨hfailed, hnext⟩ := backByRequeue_delivered (exec_turn hg d j) hdel h
      subst hfailed
      have hih := ih (exec_good hg d) (n + 1) hnext hrest hd
      have hcount : deliveries j ((d, (exec db d).2) :: trace exec (exec db d).1 (rest ++ [c])) =
          deliveries j (trace exec (exec db d).1 (rest ++ [c])) + 1 := by
        unfold deliveries
        rw [List.countP_cons, if_pos (decide_eq_true hdel)]
      rw [if_pos hdel, hih, hcount]
      rfl
    · have hnext := backByRequeue_quiet (exec_turn hg d j) hdel (hreap d List.mem_cons_self) h
      have hih := ih (exec_good hg d) n hnext hrest hd
      have hcount : deliveries j ((d, (exec db d).2) :: trace exec (exec db d).1 (rest ++ [c])) =
          deliveries j (trace exec (exec db d).1 (rest ++ [c])) := by
        unfold deliveries
        rw [List.countP_cons, if_neg (by simpa using hdel), Nat.add_zero]
      rw [if_neg hdel, hih, hcount]

/-! ## The law -/

/-- Between a delivery of a job and a later one lie the waits of all the attempts in between that
a requeue ended. Without a reap in between, those are all the attempts. -/
theorem the_waits_add_up (before between : List Call) (c d : Call) (j : Int)
    (htime : Timely (before ++ c :: (between ++ [d])))
    (hfirst : Delivers j (exec (after before) c).2)
    (hlater : Delivers j (exec (after (before ++ c :: between)) d).2) :
    c.now + waits j (deliveries j (history before) + 1) false
        (trace exec (after (before ++ [c])) (between ++ [d])) ≤ d.now ∧
    ((∀ x ∈ between, ∀ lease, x.op ≠ .reap lease) →
      c.now + backoffs (deliveries j (history before) + 1)
        (deliveries j (trace exec (after (before ++ [c])) (between ++ [d]))) ≤ d.now) := by
  have hsnoc : after (before ++ [c]) = (exec (after before) c).1 := run_snoc exec _ before c
  have hgood := after_good (before ++ [c])
  have hrun : after (before ++ c :: between) = run exec (after (before ++ [c])) between := by
    have happ := run_append exec Db.empty (before ++ [c]) between
    rw [List.append_assoc] at happ
    exact happ
  obtain ⟨w, hw⟩ := claimant_of_delivery (after_good before) hfirst
  obtain ⟨r, hf, _⟩ := delivered_row (after_good before) hw hfirst
  rw [← hsnoc] at hf
  have hattempts : (setRunning c.now w r).attempts = deliveries j (history before) + 1 := by
    have hcounted := counted_after j (before ++ [c])
    rw [life_of_find hf] at hcounted
    rw [history_snoc] at hcounted
    obtain ⟨hnumber, _⟩ := hcounted
    rw [deliveries_snoc, if_pos hfirst] at hnumber
    exact_mod_cast hnumber
  unfold Timely at htime
  rw [List.map_append, List.pairwise_append, List.map_cons, List.pairwise_cons] at htime
  obtain ⟨_, ⟨hbase, hbetween⟩, _⟩ := htime
  have hwaiting : Waiting c.now (deliveries j (history before) + 1) false
      ((after (before ++ [c])).life j) := by
    rw [life_of_find hf]
    exact ⟨hattempts, fun h => by cases h⟩
  have hback : BackByRequeue false ((after (before ++ [c])).life j) := by
    rw [life_of_find hf]
    exact fun hs => by cases hs
  rw [hrun] at hlater
  have hover := waits_over hgood (by omega) hwaiting between d hbetween
    (fun x hx => hbase x.now (List.mem_map_of_mem hx)) hlater
  refine ⟨hover, fun hreap => ?_⟩
  rw [← waits_all hgood _ hback between d hreap hlater]
  exact hover

/-- Two failures of a job, with a late second requeue of the first. -/
def twoFailures : List Call :=
  [⟨1000000, .requeue 1 "timeout"⟩, ⟨2000000, .requeue 1 "late"⟩,
    ⟨5000000, .claim_batch ["k"] 1 "w" .alone⟩, ⟨6000000, .requeue 1 "timeout"⟩]

/-- The third claim comes at second 11: two seconds and four seconds after the first, at least. -/
theorem two_failures_wait_six_seconds :
    0 + waits 1 (deliveries 1 (history [⟨0, .enqueue_pool "k" .null⟩]) + 1) false
        (trace exec (after ([⟨0, .enqueue_pool "k" .null⟩] ++
          [⟨0, .claim_batch ["k"] 1 "w" .alone⟩]))
          (twoFailures ++ [⟨11000000, .claim_batch ["k"] 1 "w" .alone⟩])) ≤ 11000000 ∧
      0 + backoffs (deliveries 1 (history [⟨0, .enqueue_pool "k" .null⟩]) + 1)
        (deliveries 1 (trace exec (after ([⟨0, .enqueue_pool "k" .null⟩] ++
          [⟨0, .claim_batch ["k"] 1 "w" .alone⟩]))
          (twoFailures ++ [⟨11000000, .claim_batch ["k"] 1 "w" .alone⟩]))) ≤ 11000000 := by
  have hlaw := the_waits_add_up [⟨0, .enqueue_pool "k" .null⟩] twoFailures
    ⟨0, .claim_batch ["k"] 1 "w" .alone⟩ ⟨11000000, .claim_batch ["k"] 1 "w" .alone⟩ 1
    (by
      unfold Timely
      decide)
    (by decide +kernel) (by decide +kernel)
  refine ⟨hlaw.1, hlaw.2 ?_⟩
  intro x hx lease hop
  simp only [twoFailures, List.mem_cons, List.not_mem_nil, or_false] at hx
  rcases hx with rfl | rfl | rfl | rfl
  all_goals cases hop

end skip_locked
