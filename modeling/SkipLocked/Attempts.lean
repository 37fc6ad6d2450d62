-- The law of attempts: the `attempts` of a job is the number of claims that
-- handed it out, and a job that is ready has an attempt left.
import SkipLocked.Life

open jsonb postgres keyed_table event_runs

namespace skip_locked

open claim lease retry

theorem deliveries_snoc (j : Int) (h : List (Call × Answer)) (c : Call) (a : Answer) :
    deliveries j (h ++ [(c, a)]) = deliveries j h + if Delivers j a then 1 else 0 := by
  unfold deliveries
  rw [List.countP_append]
  by_cases ha : Delivers j a
  · simp [ha]
  · simp [ha]

/-- The attempts of a job, against the deliveries so far. The claim itself never looks at
`max_attempts`: a ready job has an attempt left, and that bounds the claim. -/
def Counted (j : Int) (h : List (Call × Answer)) : Life → Prop
  | .unborn => deliveries j h = 0
  | .live r => r.attempts = deliveries j h ∧ r.attempts ≤ r.max_attempts ∧
      (r.state = .ready → r.attempts < r.max_attempts)
  | .buried d => d.attempts = deliveries j h ∧ d.attempts ≤ d.max_attempts

theorem counted_turn {j : Int} {h : List (Call × Answer)} {c : Call} {a : Answer} {l l' : Life}
    (ht : Turn j c a l l') (hc : Counted j h l) : Counted j (h ++ [(c, a)]) l' := by
  have hs := deliveries_snoc j h c a
  cases ht with
  | still l ha =>
    rw [if_neg ha, Nat.add_zero] at hs
    unfold Counted at *
    rwa [hs]
  | born kind payload run_at ha _ =>
    rw [if_neg ha, Nat.add_zero] at hs
    simp only [Counted] at hc ⊢
    rw [hs, hc]
    simp [newRow]
  | claimed r _ hready _ hj _ =>
    have hd : Delivers j (.ok (.jobs _)) := hj
    rw [if_pos hd] at hs
    obtain ⟨h1, h2, h3⟩ := hc
    have := h3 hready
    refine ⟨?_, ?_, ?_⟩
    · rw [hs]
      simp only [setRunning]
      omega
    · simp only [setRunning]
      omega
    · intro h
      simp [setRunning] at h
  | beat r _ hheld =>
    rw [if_neg (by simp [Delivers]), Nat.add_zero] at hs
    obtain ⟨h1, h2, h3⟩ := hc
    exact ⟨hs ▸ h1, h2, h3⟩
  | finished r _ =>
    rw [if_neg (by simp [Delivers]), Nat.add_zero] at hs
    obtain ⟨h1, h2, h3⟩ := hc
    exact ⟨hs ▸ h1, h2, by simp [setDone]⟩
  | requeued r _ hlt _ =>
    rw [if_neg (by simp [Delivers]), Nat.add_zero] at hs
    obtain ⟨h1, h2, h3⟩ := hc
    exact ⟨hs ▸ h1, h2, fun _ => hlt⟩
  | died r _ =>
    rw [if_neg (by simp [Delivers]), Nat.add_zero] at hs
    obtain ⟨h1, h2, h3⟩ := hc
    exact ⟨hs ▸ h1, h2⟩
  | reaped r _ _ hr =>
    rw [if_neg (by simp [Delivers]), Nat.add_zero] at hs
    obtain ⟨h1, h2, h3⟩ := hc
    exact ⟨hs ▸ h1, h2, fun _ => (reapable_iff.mp hr).2⟩

theorem counted_after (j : Int) (calls : List Call) :
    Counted j (history calls) ((after calls).life j) :=
  life_induction rfl (fun _ _ _ _ _ ht hc => counted_turn ht hc) calls

/-- No statement sets `max_attempts`, so it keeps its default. -/
def Life.DefaultMax : Life → Prop
  | .live r => r.max_attempts = 20
  | _ => True

theorem defaultMax_turn {j : Int} {c : Call} {a : Answer} {l l' : Life} (ht : Turn j c a l l')
    (h : l.DefaultMax) : l'.DefaultMax := by
  cases ht with
  | born kind payload run_at _ _ => rfl
  | died r _ => trivial
  | _ => exact h

/-- No turn hands a job out more than 20 times. -/
theorem few_of_turn {j : Int} {h : List (Call × Answer)} {c : Call} {a : Answer} {l l' : Life}
    (ht : Turn j c a l l') (hc : Counted j (h ++ [(c, a)]) l') (hmax : l'.DefaultMax)
    (hfew : deliveries j h ≤ 20) : deliveries j (h ++ [(c, a)]) ≤ 20 := by
  cases l' with
  | unborn =>
    have hnone : deliveries j (h ++ [(c, a)]) = 0 := hc
    omega
  | live r =>
    obtain ⟨heq, hle, _⟩ := hc
    have hdefault : r.max_attempts = 20 := hmax
    omega
  | buried d =>
    -- the turn that buries a job delivers nothing
    have hno : ¬ Delivers j a := by
      cases ht with
      | still _ ha => exact ha
      | died _ _ => exact id
    rw [deliveries_snoc, if_neg hno]
    exact hfew

theorem max_attempts_after (calls : List Call) {r : JobRow} (hr : r ∈ (after calls).jobs.rows) :
    r.max_attempts = 20 := by
  have hmax : ((after calls).life r.id).DefaultMax :=
    life_induction (P := fun _ l => l.DefaultMax) trivial
      (fun _ _ _ _ _ ht h => defaultMax_turn ht h) calls
  rw [life_of_row hr] at hmax
  exact hmax

/-- The next claim of a ready job has an attempt left that an `int4` can hold. -/
theorem ready_fits (calls : List Call) {r : JobRow} (hr : r ∈ (after calls).jobs.rows)
    (hready : r.state = .ready) : r.attempts < INT4_MAX := by
  have hmax := max_attempts_after calls hr
  have hcounted := counted_after r.id calls
  rw [life_of_row hr] at hcounted
  have hlt := hcounted.2.2 hready
  unfold INT4_MAX
  omega

/-- The row that a delivery hands out, before and after it. -/
theorem delivered_turn {j : Int} {c : Call} {jobs : List Job} {l l' : Life} {job : Job}
    (ht : Turn j c (.ok (.jobs jobs)) l l') (hjob : job ∈ jobs) (hid : job.id = j) :
    ∃ r, l = .live r ∧ job.attempts = r.attempts + 1 := by
  cases ht with
  | still l ha => exact absurd (List.mem_map.mpr ⟨job, hjob, hid⟩) ha
  | born _ _ _ ha _ => exact absurd (List.mem_map.mpr ⟨job, hjob, hid⟩) ha
  | claimed r _ _ _ _ hall => exact ⟨r, rfl, by rw [hall job hjob hid]; rfl⟩

theorem a_delivery_counts_itself (calls : List Call) {pre post : List (Call × Answer)} {c : Call}
    {jobs : List Job} (h : history calls = pre ++ (c, .ok (.jobs jobs)) :: post) {job : Job}
    (hjob : job ∈ jobs) : job.attempts = deliveries job.id pre + 1 := by
  obtain ⟨before, later, _, rfl, he⟩ := history_split h
  have ht := exec_turn (after_good before) c job.id
  rw [← he] at ht
  obtain ⟨r, hl, hatt⟩ := delivered_turn ht hjob rfl
  have hc := counted_after job.id before
  rw [hl] at hc
  rw [hatt, hc.1]

/-- The attempts of a job are the claims that handed it out so far, in `jobs` and in its copy
in `jobs_dead`. The k-th claim that hands out a job hands it out with `attempts = k`. A
ready job has an attempt left, and no job has more attempts than `max_attempts`, so none
is handed out more often than that. -/
theorem attempts_count_the_deliveries (calls : List Call) :
    (∀ r ∈ (after calls).jobs.rows, r.attempts = deliveries r.id (history calls) ∧
      r.attempts ≤ r.max_attempts ∧ (r.state = .ready → r.attempts < r.max_attempts)) ∧
    (∀ d ∈ (after calls).jobs_dead, d.attempts = deliveries d.id (history calls) ∧
      d.attempts ≤ d.max_attempts) ∧
    (∀ (pre : List (Call × Answer)) (c : Call) (jobs : List Job) (post : List (Call × Answer)),
      history calls = pre ++ (c, .ok (.jobs jobs)) :: post →
        ∀ job ∈ jobs, job.attempts = deliveries job.id pre + 1) ∧
    (∀ j, deliveries j (history calls) = 0 ∨
      (∃ r ∈ (after calls).jobs.rows, r.id = j ∧ deliveries j (history calls) ≤ r.max_attempts) ∨
      ∃ d ∈ (after calls).jobs_dead, d.id = j ∧ deliveries j (history calls) ≤ d.max_attempts) := by
  refine ⟨?_, ?_, ?_, ?_⟩
  · intro r hr
    have hc := counted_after r.id calls
    rwa [life_of_row hr] at hc
  · intro d hd
    have hc := counted_after d.id calls
    rwa [life_of_dead (after_good calls) hd] at hc
  · intro pre c jobs post h job hjob
    exact a_delivery_counts_itself calls h hjob
  · intro j
    have hc := counted_after j calls
    cases hl : (after calls).life j with
    | unborn =>
      rw [hl] at hc
      exact Or.inl hc
    | live r =>
      rw [hl] at hc
      obtain ⟨h1, h2, _⟩ := hc
      have hf := life_live.mp hl
      exact Or.inr (Or.inl ⟨r, Table.mem_of_find hf, Table.key_of_find hf, by omega⟩)
    | buried d =>
      rw [hl] at hc
      obtain ⟨h1, h2⟩ := hc
      obtain ⟨hmem, hid⟩ := dead_of_life hl
      exact Or.inr (Or.inr ⟨d, hmem, hid, by omega⟩)

end skip_locked
