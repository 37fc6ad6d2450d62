-- The law of the reaper: a reap leaves no expired row behind but those on
-- their last attempt. Those fail its guard, and no other call looks for them.
import SkipLocked.Life

open jsonb postgres keyed_table event_runs

namespace skip_locked

open claim lease retry

/-! ## What a reap leaves behind -/

/-- No row of `jobs` is running with a lock older than the lease, at time `now`. -/
def NoneStranded (db : Db) (now : Int) (lease : Duration) : Prop :=
  ∀ r ∈ db.jobs.rows, ∀ t, r.state = .running → r.locked_at = some t →
    now - lease.secs * USECS_PER_SEC ≤ t

/-- A row is on its last attempt: a requeue refuses it, and so does the reaper. -/
def Exhausted (r : JobRow) : Prop := r.max_attempts ≤ r.attempts

/-- The holder of the row let the lease run out. -/
def Abandoned (now : Int) (lease : Duration) (r : JobRow) : Prop :=
  expired (now - lease.secs * USECS_PER_SEC) r = true

theorem noneStranded_iff {db : Db} {now : Int} {lease : Duration} :
    NoneStranded db now lease ↔ ∀ r ∈ db.jobs.rows, ¬ Abandoned now lease r := by
  constructor
  · rintro h r hr hab
    obtain ⟨hrun, t, ht, hlt⟩ := expired_iff.mp hab
    have := h r hr t hrun ht
    omega
  · intro h r hr t hrun ht
    by_contra hlt
    exact h r hr (expired_iff.mpr ⟨hrun, t, ht, by omega⟩)

/-- Each row after a reap is a row that the reap took, or one that it left as it was. -/
theorem reaped_rows {db db' : Db} {now : Int} {lease : Duration} {n : Nat}
    (h : reap db now lease = .ok (db', n)) {r' : JobRow} (hr' : r' ∈ db'.jobs.rows) :
    r'.state = .ready ∨
      ∃ cutoff, cutoffOf now lease = .ok cutoff ∧ reapable cutoff r' = false ∧
        r' ∈ db.jobs.rows := by
  obtain ⟨cutoff, hcut, _, rfl⟩ := reap_ok h
  obtain ⟨r, hr, he⟩ := List.mem_map.mp hr'
  by_cases hreap : reapable cutoff r = true
  · rw [if_pos hreap] at he
    left
    rw [← he]
    rfl
  · rw [if_neg hreap] at he
    subst he
    exact Or.inr ⟨cutoff, hcut, by simpa using hreap, hr⟩

theorem abandoned_expired {now cutoff : Int} {lease : Duration} {r : JobRow}
    (hcut : cutoffOf now lease = .ok cutoff) (h : Abandoned now lease r) :
    expired cutoff r = true := by
  obtain ⟨hrun, t, ht, hlt⟩ := expired_iff.mp h
  have hle := lease_le_cutoff hcut
  exact expired_iff.mpr ⟨hrun, t, ht, by omega⟩

/-- No reap changes an exhausted row, whatever its lease. -/
theorem a_reap_leaves_the_exhausted {db db' : Db} {now : Int} {lease : Duration} {n : Nat}
    (h : reap db now lease = .ok (db', n)) {r : JobRow} (hr : r ∈ db.jobs.rows)
    (hex : Exhausted r) : r ∈ db'.jobs.rows := by
  obtain ⟨cutoff, _, _, rfl⟩ := reap_ok h
  have hno : ¬ reapable cutoff r = true := fun hreap => by
    have hlt := (reapable_iff.mp hreap).2
    unfold Exhausted at hex
    omega
  exact List.mem_map.mpr ⟨r, hr, if_neg hno⟩

theorem noneStranded_reap {db db' : Db} {now : Int} {lease : Duration} {n : Nat}
    (h : reap db now lease = .ok (db', n)) :
    NoneStranded db' now lease ↔ ∀ r ∈ db.jobs.rows, Abandoned now lease r → ¬ Exhausted r := by
  rw [noneStranded_iff]
  constructor
  · intro hnone r hr hab hex
    exact hnone r (a_reap_leaves_the_exhausted h hr hex) hab
  · intro hlast r' hr' hab
    obtain ⟨hrun, _⟩ := expired_iff.mp hab
    rcases reaped_rows h hr' with hready | ⟨cutoff, hcut, hno, hr⟩
    · rw [hrun] at hready
      cases hready
    · have hlt : r'.attempts < r'.max_attempts := by
        have := hlast r' hr hab
        unfold Exhausted at this
        omega
      rw [reapable_iff.mpr ⟨abandoned_expired hcut hab, hlt⟩] at hno
      cases hno

/-! ## The law -/

/-- After any calls, a reap strands no row exactly when each row whose holder let the
lease run out has an attempt left. -/
theorem a_reap_strands_only_the_exhausted (calls : List Call) (now : Int) (lease : Duration)
    (db : Db) (n : Nat) (h : reap (after calls) now lease = .ok (db, n)) :
    NoneStranded db now lease ↔
      ∀ r ∈ (after calls).jobs.rows, Abandoned now lease r → r.attempts < r.max_attempts := by
  rw [noneStranded_reap h]
  constructor
  · intro hlast r hr hab
    have := hlast r hr hab
    unfold Exhausted at this
    omega
  · intro hlast r hr hab hex
    have := hlast r hr hab
    unfold Exhausted at hex
    omega

def aClaim (now : Int) : Call := ⟨now, .claim_batch ["k"] 1 "w" .alone⟩

/-- A first death: the reap finds the row. -/
theorem a_first_death_strands_no_row :
    ∃ db n, reap (after [⟨0, .enqueue_pool "k" .null⟩, aClaim 0]) 4000000 (.from_secs 1) =
        .ok (db, n) ∧
      NoneStranded db 4000000 (.from_secs 1) := by
  have hcut : cutoffOf 4000000 (.from_secs 1) = .ok 3000000 := by decide
  have hreap := reap_of_cutoff (after [⟨0, .enqueue_pool "k" .null⟩, aClaim 0]) hcut
  refine ⟨_, _, hreap, (a_reap_strands_only_the_exhausted _ _ _ _ _ hreap).mpr ?_⟩
  intro r hr _
  have hall : (after [⟨0, .enqueue_pool "k" .null⟩, aClaim 0]).jobs.rows.all
      (fun r => decide (r.attempts < r.max_attempts)) = true := by decide +kernel
  simpa using List.all_eq_true.mp hall r hr

/-- The job is claimed, its holder dies, and a reap finds the row: nineteen times. -/
def nineteenDeaths : List Call :=
  ⟨0, .enqueue_pool "k" .null⟩ :: (List.range 19).flatMap (fun k =>
    [aClaim (k * 10000000), ⟨k * 10000000 + 4000000, .reap (.from_secs 1)⟩])

/-- The holder dies for the twentieth time, on the last attempt: the reap finds no row. -/
theorem the_last_death_strands_its_row :
    ∃ db, reap (after (nineteenDeaths ++ [aClaim 190000000])) 1000000000 (.from_secs 1) =
        .ok (db, 0) ∧
      ¬ NoneStranded db 1000000000 (.from_secs 1) := by
  have hcut : cutoffOf 1000000000 (.from_secs 1) = .ok 999000000 := by decide
  have hreap := reap_of_cutoff (after (nineteenDeaths ++ [aClaim 190000000])) hcut
  have hzero :
      (after (nineteenDeaths ++ [aClaim 190000000])).jobs.count (reapable 999000000) = 0 := by
    decide +kernel
  have hany : (after (nineteenDeaths ++ [aClaim 190000000])).jobs.rows.any
      (fun r => expired 999000000 r && decide (r.max_attempts ≤ r.attempts)) = true := by
    decide +kernel
  obtain ⟨r, hr, hstuck⟩ := List.any_eq_true.mp hany
  rw [Bool.and_eq_true, decide_eq_true_eq] at hstuck
  rw [hzero] at hreap
  refine ⟨_, hreap, ?_⟩
  rw [noneStranded_reap hreap]
  intro hlast
  have hcutoff :
      (1000000000 : Int) - (Duration.from_secs 1).secs * USECS_PER_SEC = 999000000 := by decide
  refine hlast r hr ?_ hstuck.2
  unfold Abandoned
  rw [hcutoff]
  exact hstuck.1

end skip_locked
