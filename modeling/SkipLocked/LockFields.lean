-- The lock fields of `jobs`: the schema has no CHECK constraint, so each
-- statement must keep the state, the lock and the times of a row in step.
import SkipLocked.Life

open jsonb postgres keyed_table event_runs

namespace skip_locked

open claim lease retry

/-- The lock fields of a row at time `now`: a running row has both, and no other row has
one. A running row was due when it was locked. -/
structure LockFields (now : Int) (r : JobRow) : Prop where
  states : r.state = .ready ∨ r.state = .running ∨ r.state = .done
  locked_at : r.state = .running ↔ r.locked_at.isSome
  locked_by : r.state = .running ↔ r.locked_by.isSome
  attempts : r.state = .running → 1 ≤ r.attempts
  times : ∀ t, r.locked_at = some t → r.run_at ≤ t ∧ t ≤ now

def Life.LockFields (now : Int) : Life → Prop
  | .live r => 0 ≤ r.attempts ∧ skip_locked.LockFields now r
  | _ => True

/-- A row with no lock, in a state that has none. -/
theorem lockFields_free {now : Int} {r : JobRow} (hs : r.state = .ready ∨ r.state = .done)
    (ha : r.locked_at = none) (hb : r.locked_by = none) : LockFields now r := by
  have hne : r.state ≠ .running := by
    rcases hs with h | h
    · simp [h]
    · simp [h]
  refine ⟨?_, ?_, ?_, fun h => absurd h hne, ?_⟩
  · rcases hs with h | h
    · exact Or.inl h
    · exact Or.inr (Or.inr h)
  · simp [hne, ha]
  · simp [hne, hb]
  · simp [ha]

theorem LockFields.mono {now later : Int} {r : JobRow} (h : LockFields now r)
    (hle : now ≤ later) : LockFields later r := by
  obtain ⟨h1, h2, h3, h4, h5⟩ := h
  exact ⟨h1, h2, h3, h4, fun t ht => ⟨(h5 t ht).1, (h5 t ht).2.trans hle⟩⟩

/-- One turn at the time of its call keeps the lock fields. -/
theorem lockFields_turn {j : Int} {c : Call} {a : Answer} {l l' : Life} (ht : Turn j c a l l')
    (h : l.LockFields c.now) : l'.LockFields c.now := by
  cases ht with
  | still l ha => exact h
  | born kind payload run_at ha _ => exact ⟨by simp [newRow], lockFields_free (Or.inl rfl) rfl rfl⟩
  | claimed r _ _ hdue _ _ =>
    obtain ⟨h0, _⟩ := h
    refine ⟨by simp only [setRunning]; omega, Or.inr (Or.inl rfl), by simp [setRunning],
      by simp [setRunning], fun _ => by simp only [setRunning]; omega, ?_⟩
    intro t ht
    simp only [setRunning, Option.some.injEq] at ht
    subst ht
    exact ⟨hdue, le_refl _⟩
  | beat r _ hheld =>
    obtain ⟨h0, h1, h2, h3, h4, h5⟩ := h
    obtain ⟨_, _, hrun⟩ := held_iff.mp hheld
    obtain ⟨t, hat⟩ := Option.isSome_iff_exists.mp (h2.mp hrun)
    refine ⟨h0, h1, by simp [setLockedAt, hrun], h3, h4, ?_⟩
    intro t' ht'
    simp only [setLockedAt, Option.some.injEq] at ht'
    subst ht'
    have := h5 t hat
    simp only [setLockedAt]
    omega
  | finished r _ => exact ⟨h.1, lockFields_free (Or.inr rfl) rfl rfl⟩
  | requeued r _ _ _ => exact ⟨h.1, lockFields_free (Or.inl rfl) rfl rfl⟩
  | died r _ => trivial
  | reaped r _ _ _ => exact ⟨h.1, lockFields_free (Or.inl rfl) rfl rfl⟩

theorem lockFields_after {calls : List Call} (htime : Timely calls) {now : Int}
    (hnow : ∀ c ∈ calls, c.now ≤ now) (j : Int) : ((after calls).life j).LockFields now := by
  refine life_induction_timely (P := Life.LockFields) (fun _ => trivial) ?_
    (fun _ _ _ _ ht h => lockFields_turn ht h) htime hnow
  intro now later l hle h
  cases l with
  | live r => exact ⟨h.1, h.2.mono hle⟩
  | unborn => trivial
  | buried d => trivial

/-- Every row of `jobs` keeps its lock fields in step, after any calls under a clock that
never goes back. So a row that a reap puts back is due at once: it meets the claim's
`WHERE` at that moment, and no old `run_at` delays it. -/
theorem lock_fields_stay_in_step (calls : List Call) (htime : Timely calls) (now : Int)
    (hnow : ∀ c ∈ calls, c.now ≤ now) :
    (∀ r ∈ (after calls).jobs.rows, LockFields now r) ∧
    ∀ l db n, reap (after calls) now l = .ok (db, n) →
      ∀ r ∈ (after calls).jobs.rows, ∀ r' ∈ db.jobs.rows, r'.id = r.id → r.state ≠ .ready →
        r'.state = .ready → r'.run_at ≤ now ∧ r'.run_at = r.run_at ∧
          ∀ kinds, r'.kind ∈ kinds → claimable now kinds r' = true := by
  have hrows : ∀ r ∈ (after calls).jobs.rows, LockFields now r := by
    intro r hr
    have hl := lockFields_after htime hnow r.id
    rw [life_of_row hr] at hl
    exact hl.2
  refine ⟨hrows, ?_⟩
  intro l db n hreap r hr r' hr' hid hne hready
  obtain ⟨cutoff, _, _, rfl⟩ := reap_ok hreap
  have hf := Table.find_of_mem hr'
  rw [hid, Table.find_update, Table.find_of_mem hr, Option.map_some, Option.some.injEq] at hf
  split at hf
  · rename_i hw
    obtain ⟨hexp, _⟩ := reapable_iff.mp hw
    obtain ⟨_, t, hat, _⟩ := expired_iff.mp hexp
    have hdue := (hrows r hr).times t hat
    have hrun : r'.run_at = r.run_at := by rw [← hf]; rfl
    have hle : r'.run_at ≤ now := by omega
    exact ⟨hle, hrun, fun kinds hk => claimable_iff.mpr ⟨hready, hle, hk⟩⟩
  · exact absurd (hf ▸ hready) hne

theorem lock_fields_of_a_reaped_row :
    let calls : List Call := [⟨0, .enqueue_pool "k" .null⟩, ⟨5, .claim_batch ["k"] 1 "w" .alone⟩]
    let r := setRunning 5 "w" (newRow 1 "k" .null 0)
    LockFields 2000000 r ∧ ∃ db n,
      reap (after calls) 2000000 (.from_secs 1) = .ok (db, n) ∧
      setReady r ∈ db.jobs.rows ∧ claimable 2000000 ["k"] (setReady r) = true := by
  intro calls r
  have hlaw := lock_fields_stay_in_step calls (by simp [calls, Timely]) 2000000 (by simp [calls])
  have hr : r ∈ (after calls).jobs.rows := List.mem_singleton.mpr rfl
  have hcut : cutoffOf 2000000 (.from_secs 1) = .ok 1000000 := by decide
  have hreap := reap_of_cutoff (after calls) hcut
  have hr' :
      setReady r ∈ ((after calls).jobs.update (reapable 1000000) setReady setReady_id).rows :=
    List.mem_singleton.mpr rfl
  obtain ⟨_, _, hclaim⟩ := hlaw.2 _ _ _ hreap r hr _ hr' rfl (by simp [r, setRunning]) rfl
  exact ⟨hlaw.1 r hr, _, _, hreap, hr', hclaim ["k"] (List.mem_singleton.mpr rfl)⟩

end skip_locked
