-- The law of the backoff: after a requeue that took effect, no call brings the
-- job forward. A later requeue comes at a later time and at no fewer attempts,
-- so it schedules the job no earlier.
import SkipLocked.Attempts

open jsonb postgres keyed_table event_runs

namespace skip_locked

open claim lease retry

/-! ## The wait after a failure -/

/-- The wait of a job that failed with `attempts` attempts: one hour at most. -/
def waitOf (attempts : Int) : Int := min (2 ^ attempts.toNat) 3600 * USECS_PER_SEC

theorem waitOf_pos (attempts : Int) : 0 < waitOf attempts := by
  have hpow : (0 : Int) < 2 ^ attempts.toNat := Int.pow_pos (by decide)
  unfold waitOf USECS_PER_SEC
  omega

theorem waitOf_le (attempts : Int) : waitOf attempts ≤ 3600 * USECS_PER_SEC := by
  unfold waitOf USECS_PER_SEC
  omega

theorem waitOf_mono {a b : Int} (h : a ≤ b) : waitOf a ≤ waitOf b := by
  have hpow : (2 : Int) ^ a.toNat ≤ 2 ^ b.toNat := by
    exact_mod_cast Nat.pow_le_pow_right (by decide) (Int.toNat_le_toNat h)
  unfold waitOf USECS_PER_SEC
  omega

/-- The power fails from 1024 attempts on, and the time when it is no timestamp. -/
theorem backoff_iff (now : Int) {attempts t : Int} (h0 : 0 ≤ attempts) :
    backoff now attempts = .ok t ↔
      attempts < 1024 ∧ InRange (now + waitOf attempts) ∧ t = now + waitOf attempts := by
  unfold backoff
  by_cases hlt : attempts < 1024
  · rw [leastPower_of_nonneg 3600 h0 hlt]
    simp only [hlt, true_and]
    exact checked_eq
  · have hpower : leastPower attempts 3600 = .error .double_out_of_range := if_pos (by omega)
    rw [hpower]
    constructor
    · intro h
      cases h
    · rintro ⟨hsmall, _⟩
      exact absurd hsmall hlt

theorem backoff_waits {now attempts t : Int} (h0 : 0 ≤ attempts)
    (h : backoff now attempts = .ok t) : t = now + waitOf attempts :=
  ((backoff_iff now h0).mp h).2.2

/-! ## Nothing brings the job forward -/

/-- The job has at least `a` attempts and is not due before `due`, or it is dead. -/
def Held (a due : Int) : Life → Prop
  | .unborn => False
  | .live r => a ≤ r.attempts ∧ due ≤ r.run_at
  | .buried _ => True

theorem held_turn {j a start : Int} {c : Call} {ans : Answer} {l l' : Life}
    (ht : Turn j c ans l l') (h0 : 0 ≤ a) (hnow : start ≤ c.now)
    (h : Held a (start + waitOf a) l) :
    Held a (start + waitOf a) l' ∧ (Delivers j ans → start + waitOf a ≤ c.now) := by
  cases ht with
  | still _ ha => exact ⟨h, fun hd => absurd hd ha⟩
  | born _ _ _ _ _ => exact h.elim
  | claimed r _ _ hdue _ _ =>
    obtain ⟨hatt, hrun⟩ := h
    refine ⟨⟨?_, hrun⟩, fun _ => hrun.trans hdue⟩
    simp only [setRunning]
    omega
  | beat r _ _ => exact ⟨h, fun hd => hd.elim⟩
  | finished r _ => exact ⟨h, fun hd => hd.elim⟩
  | requeued r _ _ hb =>
    obtain ⟨hatt, _⟩ := h
    have hdue := backoff_waits (h0.trans hatt) hb
    have hmono := waitOf_mono hatt
    refine ⟨⟨hatt, ?_⟩, fun hd => hd.elim⟩
    simp only [setRetry]
    omega
  | died r _ => exact ⟨trivial, fun hd => hd.elim⟩
  | reaped r _ _ _ => exact ⟨h, fun hd => hd.elim⟩

/-- After a requeue that took effect, through any later calls: no claim returns the job before
its time, and each later requeue that takes effect schedules it no earlier. -/
theorem a_backoff_is_honoured (before later : List Call) (c : Call) (j : Int) (err : Text)
    (htime : Timely (before ++ c :: later)) (hop : c.op = .requeue j err)
    (hone : (exec (after before) c).2 = .ok (.rows 1)) :
    ∃ r r', (after before).jobs.find j = some r ∧ (after (before ++ [c])).jobs.find j = some r' ∧
      0 ≤ r.attempts ∧
      r'.run_at = c.now + min (2 ^ r.attempts.toNat) 3600 * USECS_PER_SEC ∧
      c.now < r'.run_at ∧ r'.run_at ≤ c.now + 3600 * USECS_PER_SEC ∧
      EveryStep exec (fun db d => Delivers j (exec db d).2 → r'.run_at ≤ d.now)
        (after (before ++ [c])) later ∧
      EveryStep exec (fun db d => ∀ err', d.op = .requeue j err' → (exec db d).2 = .ok (.rows 1) →
        ∃ s, (exec db d).1.jobs.find j = some s ∧ r'.run_at ≤ s.run_at)
        (after (before ++ [c])) later := by
  have hsnoc : after (before ++ [c]) = (exec (after before) c).1 := run_snoc exec _ before c
  have hg := after_good before
  obtain ⟨r, run_at, hf, _, hb, hf'⟩ := requeued_row hop hone
  have h0 : 0 ≤ r.attempts := by
    have hcounted := counted_after j before
    rw [life_of_find hf] at hcounted
    have := hcounted.1
    omega
  have hdue := backoff_waits h0 hb
  have hpos := waitOf_pos r.attempts
  have hle := waitOf_le r.attempts
  have hlater : ∀ d ∈ later, c.now ≤ d.now := by
    intro d hd
    unfold Timely at htime
    rw [List.map_append, List.pairwise_append, List.map_cons, List.pairwise_cons] at htime
    exact htime.2.1.1 d.now (List.mem_map_of_mem hd)
  have hstart : (exec (after before) c).1.Good ∧
      Held r.attempts (c.now + waitOf r.attempts) ((exec (after before) c).1.life j) := by
    refine ⟨exec_good hg c, ?_⟩
    rw [life_of_find hf']
    exact ⟨le_refl _, le_of_eq hdue.symm⟩
  rw [hsnoc]
  refine ⟨r, setRetry run_at err r, hf, hf', h0, hdue, ?_, ?_, ?_⟩
  · simp only [setRetry]
    omega
  · simp only [setRetry]
    omega
  rw [← everyStep_and]
  simp only [setRetry, hdue]
  refine (everyStep_of_law (I := fun db => db.Good ∧
    Held r.attempts (c.now + waitOf r.attempts) (db.life j)) (P := fun _ d => c.now ≤ d.now)
    ?_ ?_ hstart (everyStep_of_inputs hlater)).1
  · rintro db d ⟨hdb, hheld⟩ hnow
    exact ⟨exec_good hdb d, (held_turn (exec_turn hdb d j) h0 hnow hheld).1⟩
  · rintro db d ⟨hdb, hheld⟩ hnow
    obtain ⟨hheld', hclaim⟩ := held_turn (exec_turn hdb d j) h0 hnow hheld
    refine ⟨hclaim, ?_⟩
    intro err' hop' hone'
    obtain ⟨s, run_at', _, _, _, hfs⟩ := requeued_row hop' hone'
    rw [life_of_find hfs] at hheld'
    exact ⟨_, hfs, hheld'.2⟩

/-- A job fails at its first attempt, one second after its claim, and is due two seconds later. -/
def oneFailure : List Call := [⟨0, .enqueue_pool "k" .null⟩, ⟨0, .claim_batch ["k"] 1 "w" .alone⟩]

/-- A late requeue and a claim after the first requeue: the claim finds the job when it is due. -/
theorem a_backoff_of_two_seconds :
    ∃ r r', (after oneFailure).jobs.find 1 = some r ∧
      (after (oneFailure ++ [⟨1000000, .requeue 1 "timeout"⟩])).jobs.find 1 = some r' ∧
      0 ≤ r.attempts ∧
      r'.run_at = 1000000 + min (2 ^ r.attempts.toNat) 3600 * USECS_PER_SEC ∧
      1000000 < r'.run_at ∧ r'.run_at ≤ 1000000 + 3600 * USECS_PER_SEC ∧
      EveryStep exec (fun db d => Delivers 1 (exec db d).2 → r'.run_at ≤ d.now)
        (after (oneFailure ++ [⟨1000000, .requeue 1 "timeout"⟩]))
        [⟨2000000, .requeue 1 "late"⟩, ⟨5000000, .claim_batch ["k"] 1 "w" .alone⟩] ∧
      EveryStep exec (fun db d => ∀ err', d.op = .requeue 1 err' → (exec db d).2 = .ok (.rows 1) →
        ∃ s, (exec db d).1.jobs.find 1 = some s ∧ r'.run_at ≤ s.run_at)
        (after (oneFailure ++ [⟨1000000, .requeue 1 "timeout"⟩]))
        [⟨2000000, .requeue 1 "late"⟩, ⟨5000000, .claim_batch ["k"] 1 "w" .alone⟩] := by
  apply a_backoff_is_honoured oneFailure [⟨2000000, .requeue 1 "late"⟩,
    ⟨5000000, .claim_batch ["k"] 1 "w" .alone⟩] ⟨1000000, .requeue 1 "timeout"⟩ 1 "timeout"
  · unfold Timely
    decide
  · rfl
  · rfl

end skip_locked
