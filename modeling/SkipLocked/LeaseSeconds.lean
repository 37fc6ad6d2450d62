-- The law of the lease: which jobs a reap takes inside their lease. The lease
-- loses its fraction of a second, and the cast from u64 to i64 wraps it at 2^63
-- seconds; in all other cases the reaper keeps to it.
import SkipLocked.Queue

open postgres keyed_table event_runs

namespace skip_locked

open lease

/-! ## What a lease promises -/

/-- At time `now`, a lock of the time `at_` is not older than the lease. -/
def InsideLease (now : Int) (lease : Duration) (at_ : Int) : Prop :=
  (now - at_) * 1000 ≤ lease.as_nanos

/-- A reap that goes through changes only running rows, and none inside its lease. -/
def SparesTheLease (db : Db) (now : Int) (lease : Duration) : Prop :=
  ∀ db' n, reap db now lease = .ok (db', n) → db' = { db with jobs := db'.jobs } ∧
    ∀ k, db'.jobs.find k ≠ db.jobs.find k → ∃ r t, db.jobs.find k = some r ∧
      r.state = .running ∧ r.locked_at = some t ∧ ¬ InsideLease now lease t

/-- What a reap with the second lease takes, a reap with the first takes as well. -/
def ReapsNoMore (db : Db) (now : Int) (lease1 lease2 : Duration) : Prop :=
  ∀ db1 n1 db2 n2, reap db now lease1 = .ok (db1, n1) → reap db now lease2 = .ok (db2, n2) →
    ∀ k, db2.jobs.find k ≠ db.jobs.find k → db1.jobs.find k ≠ db.jobs.find k

/-- A row that the reaper looks for: running, with an attempt left, locked at `at_`. -/
def Reclaimable (r : JobRow) (at_ : Int) : Prop :=
  r.state = .running ∧ r.attempts < r.max_attempts ∧ r.locked_at = some at_

/-- The row is not taken: it is inside the whole seconds of the lease. From 2^63 seconds on
the lease counts from `now` into the future, and the row is locked no earlier than that.
When the time of the comparison is no timestamp, the reap fails. -/
def Spared (now : Int) (lease : Duration) (at_ : Int) : Prop :=
  if lease.secs < 2 ^ 63 then
    InRange (now - lease.secs * USECS_PER_SEC) → now - at_ ≤ lease.secs * USECS_PER_SEC
  else
    InRange (now + (2 ^ 64 - lease.secs) * USECS_PER_SEC) →
      now + (2 ^ 64 - lease.secs) * USECS_PER_SEC ≤ at_

/-! ## The cutoff of a reap -/

theorem cutoffOf_eq {now cutoff : Int} {lease : Duration} :
    cutoffOf now lease = .ok cutoff ↔
      InRange (now - asI64 lease.secs * USECS_PER_SEC) ∧
        cutoff = now - asI64 lease.secs * USECS_PER_SEC :=
  checked_eq

/-- The cutoff of a lease that wraps lies in the future. -/
theorem wrapped_cutoff (now : Int) {n : Nat} (h : 2 ^ 63 ≤ n) :
    now - asI64 n * USECS_PER_SEC = now + (2 ^ 64 - n) * USECS_PER_SEC := by
  unfold asI64
  rw [if_neg (by omega)]
  ring

theorem spared_iff {now : Int} {lease : Duration} {at_ : Int} :
    Spared now lease at_ ↔ ∀ cutoff, cutoffOf now lease = .ok cutoff → cutoff ≤ at_ := by
  have hcut : (∀ cutoff, cutoffOf now lease = .ok cutoff → cutoff ≤ at_) ↔
      (InRange (now - asI64 lease.secs * USECS_PER_SEC) →
        now - asI64 lease.secs * USECS_PER_SEC ≤ at_) := by
    simp only [cutoffOf_eq]
    constructor
    · intro h hin
      exact h _ ⟨hin, rfl⟩
    · rintro h cutoff ⟨hin, rfl⟩
      exact h hin
  rw [hcut]
  unfold Spared
  split
  · next hfits =>
    rw [asI64_of_lt hfits]
    apply imp_congr_right
    intro _
    omega
  · next hwraps =>
    rw [wrapped_cutoff now (by omega)]

/-- A reap changes the rows that it matches, and no others. -/
theorem reap_changes {db db' : Db} {now cutoff : Int} {lease : Duration} {n : Nat}
    (h : reap db now lease = .ok (db', n)) (hcut : cutoffOf now lease = .ok cutoff) (k : Int) :
    db'.jobs.find k ≠ db.jobs.find k ↔
      ∃ r, db.jobs.find k = some r ∧ reapable cutoff r = true := by
  rw [reap_of_cutoff db hcut] at h
  cases h
  rw [Table.find_update]
  cases hf : db.jobs.find k with
  | none => simp
  | some r =>
    by_cases hr : reapable cutoff r = true
    · have hrun := (expired_iff.mp (reapable_iff.mp hr).1).1
      have hne : setReady r ≠ r := by
        intro he
        rw [← he] at hrun
        cases hrun
      simp [hr, hne]
    · simp [hr]

theorem reapable_cutoff {cutoff : Int} {r : JobRow} :
    reapable cutoff r = true ↔ ∃ t, Reclaimable r t ∧ t < cutoff := by
  rw [reapable_iff, expired_iff]
  constructor
  · rintro ⟨⟨hrun, t, ht, hlt⟩, hleft⟩
    exact ⟨t, ⟨hrun, hleft, ht⟩, hlt⟩
  · rintro ⟨t, ⟨hrun, hleft, ht⟩, hlt⟩
    exact ⟨⟨hrun, t, ht, hlt⟩, hleft⟩

/-! ## The laws -/

theorem sparesTheLease_iff {db : Db} {now : Int} {lease : Duration} :
    SparesTheLease db now lease ↔ ∀ r ∈ db.jobs.rows, ∀ t, Reclaimable r t →
      InsideLease now lease t → Spared now lease t := by
  constructor
  · intro h r hr t hrec hin
    rw [spared_iff]
    intro cutoff hcut
    by_contra hlt
    have hok := reap_of_cutoff db hcut
    have hchanged := (reap_changes hok hcut r.id).mpr
      ⟨r, Table.find_of_mem hr, reapable_cutoff.mpr ⟨t, hrec, by omega⟩⟩
    obtain ⟨s, u, hf, _, hu, hout⟩ := (h _ _ hok).2 r.id hchanged
    rw [Table.find_of_mem hr, Option.some.injEq] at hf
    subst hf
    rw [hrec.2.2, Option.some.injEq] at hu
    subst hu
    exact hout hin
  · intro h db' n hok
    obtain ⟨cutoff, hcut, _, hdb⟩ := reap_ok hok
    refine ⟨by rw [hdb], ?_⟩
    intro k hk
    obtain ⟨r, hf, hre⟩ := (reap_changes hok hcut k).mp hk
    obtain ⟨t, hrec, hlt⟩ := reapable_cutoff.mp hre
    refine ⟨r, t, hf, hrec.1, hrec.2.2, ?_⟩
    intro hin
    have := spared_iff.mp (h r (Table.mem_of_find hf) t hrec hin) cutoff hcut
    omega

/-- Two reaps in terms of their cutoffs. -/
theorem reapsNoMore_cutoffs {db : Db} {now : Int} {lease1 lease2 : Duration} :
    ReapsNoMore db now lease1 lease2 ↔
      ∀ cutoff1 cutoff2, cutoffOf now lease1 = .ok cutoff1 → cutoffOf now lease2 = .ok cutoff2 →
        ∀ r ∈ db.jobs.rows, ∀ t, Reclaimable r t → t < cutoff2 → t < cutoff1 := by
  constructor
  · intro h cutoff1 cutoff2 hcut1 hcut2 r hr t hrec hlt
    have hok1 := reap_of_cutoff db hcut1
    have hok2 := reap_of_cutoff db hcut2
    have hchanged := h _ _ _ _ hok1 hok2 r.id ((reap_changes hok2 hcut2 r.id).mpr
      ⟨r, Table.find_of_mem hr, reapable_cutoff.mpr ⟨t, hrec, hlt⟩⟩)
    obtain ⟨s, hf, hre⟩ := (reap_changes hok1 hcut1 r.id).mp hchanged
    rw [Table.find_of_mem hr, Option.some.injEq] at hf
    subst hf
    obtain ⟨u, hrec', hlt'⟩ := reapable_cutoff.mp hre
    rw [← hrec.2.2.symm.trans hrec'.2.2 |> Option.some.inj] at hlt'
    exact hlt'
  · intro h db1 n1 db2 n2 hok1 hok2 k hk
    obtain ⟨cutoff1, hcut1, _⟩ := reap_ok hok1
    obtain ⟨cutoff2, hcut2, _⟩ := reap_ok hok2
    obtain ⟨r, hf, hre⟩ := (reap_changes hok2 hcut2 k).mp hk
    obtain ⟨t, hrec, hlt⟩ := reapable_cutoff.mp hre
    apply (reap_changes hok1 hcut1 k).mpr
    exact ⟨r, hf, reapable_cutoff.mpr
      ⟨t, hrec, h cutoff1 cutoff2 hcut1 hcut2 r (Table.mem_of_find hf) t hrec hlt⟩⟩

/-- No row is locked after the cutoff of a lease that fits and before that of a lease that
wraps. -/
def NothingBetween (db : Db) (now : Int) (lease1 lease2 : Duration) : Prop :=
  lease1.secs < 2 ^ 63 → 2 ^ 63 ≤ lease2.secs →
    InRange (now - lease1.secs * USECS_PER_SEC) →
    InRange (now + (2 ^ 64 - lease2.secs) * USECS_PER_SEC) →
      ∀ r ∈ db.jobs.rows, ∀ t, Reclaimable r t →
        t < now + (2 ^ 64 - lease2.secs) * USECS_PER_SEC → t < now - lease1.secs * USECS_PER_SEC

theorem asI64_mono {a b : Nat} (h : a ≤ b) (hb : b < 2 ^ 64) (hside : b < 2 ^ 63 ∨ 2 ^ 63 ≤ a) :
    asI64 a ≤ asI64 b := by
  rcases hside with hlt | hge
  · rw [asI64_of_lt hlt, asI64_of_lt (by omega)]
    omega
  · unfold asI64
    rw [if_neg (by omega), if_neg (by omega)]
    omega

theorem reapsNoMore_iff {db : Db} {now : Int} {lease1 lease2 : Duration} (hle : lease1 ≤ lease2) :
    ReapsNoMore db now lease1 lease2 ↔ NothingBetween db now lease1 lease2 := by
  rw [reapsNoMore_cutoffs]
  constructor
  · intro h hfits hwraps hin1 hin2
    rw [← asI64_of_lt hfits] at hin1
    rw [← wrapped_cutoff now hwraps] at hin2
    have hbetween := h _ _ (cutoffOf_eq.mpr ⟨hin1, rfl⟩) (cutoffOf_eq.mpr ⟨hin2, rfl⟩)
    rwa [asI64_of_lt hfits, wrapped_cutoff now hwraps] at hbetween
  · intro h cutoff1 cutoff2 hcut1 hcut2 r hr t hrec hlt
    obtain ⟨hin1, rfl⟩ := cutoffOf_eq.mp hcut1
    obtain ⟨hin2, rfl⟩ := cutoffOf_eq.mp hcut2
    by_cases hsides : lease1.secs < 2 ^ 63 ∧ 2 ^ 63 ≤ lease2.secs
    · obtain ⟨hfits, hwraps⟩ := hsides
      rw [asI64_of_lt hfits] at hin1 ⊢
      rw [wrapped_cutoff now hwraps] at hin2 hlt
      exact h hfits hwraps hin1 hin2 r hr t hrec hlt
    · -- both leases fit, or both wrap: the cast keeps their order
      have hmono := asI64_mono (Duration.secs_le hle) lease2.secs_lt (by omega)
      unfold USECS_PER_SEC at hlt ⊢
      omega

/-- A reap keeps to its lease exactly when each row that it looks for, and that is inside the
lease, is inside its whole seconds, in the range of an i64. A longer lease reaps no more,
unless it alone wraps and a row is locked between the two cutoffs. -/
theorem a_reap_keeps_to_its_lease (db : Db) (now : Int) :
    (∀ lease, SparesTheLease db now lease ↔ ∀ r ∈ db.jobs.rows, ∀ t, Reclaimable r t →
      InsideLease now lease t → Spared now lease t) ∧
    (∀ lease1 lease2 : Duration, lease1 ≤ lease2 →
      (ReapsNoMore db now lease1 lease2 ↔ NothingBetween db now lease1 lease2)) :=
  ⟨fun _ => sparesTheLease_iff, fun _ _ => reapsNoMore_iff⟩

/-- A job that a worker claimed at time 0. -/
def claimedAtZero : Db :=
  after [⟨0, .enqueue_pool "k" .null⟩, ⟨0, .claim_batch ["k"] 1 "w" .alone⟩]

/-- 1.9 seconds. -/
def fractional : Duration := ⟨1, 900000000, by decide, by decide⟩

/-- `Duration::MAX`. -/
def Duration_MAX : Duration := ⟨18446744073709551615, 999999999, by decide, by decide⟩

/-- A lease of two seconds spares the job after 1.5 seconds, and reaps no more than one of 1.9. -/
theorem whole_seconds_spare_the_job :
    SparesTheLease claimedAtZero 1500000 (.from_secs 2) ∧
      ReapsNoMore claimedAtZero 1500000 fractional (.from_secs 2) := by
  have hlaw := a_reap_keeps_to_its_lease claimedAtZero 1500000
  refine ⟨(hlaw.1 (.from_secs 2)).mpr ?_, (hlaw.2 fractional (.from_secs 2) (by decide)).mpr ?_⟩
  · intro r _ t _ hin
    have hnanos : (Duration.from_secs 2).as_nanos = 2000000000 := by decide
    have hsecs : (Duration.from_secs 2).secs = 2 := by decide
    unfold InsideLease at hin
    unfold Spared USECS_PER_SEC
    rw [hnanos] at hin
    rw [hsecs, if_pos (by decide)]
    intro _
    omega
  · intro _ hwraps
    exact absurd hwraps (by decide)

theorem claimedAtZero_row : ∃ r ∈ claimedAtZero.jobs.rows, Reclaimable r 0 := by
  have hany : claimedAtZero.jobs.rows.any (fun r => decide (r.state = .running) &&
      decide (r.attempts < r.max_attempts) && decide (r.locked_at = some 0)) = true := by
    decide +kernel
  obtain ⟨r, hr, hrow⟩ := List.any_eq_true.mp hany
  simp only [Bool.and_eq_true, decide_eq_true_eq] at hrow
  exact ⟨r, hr, hrow.1.1, hrow.1.2, hrow.2⟩

/-- A lease of 1.9 seconds does not spare the job after 1.5 seconds. `Duration::MAX` takes it
as well, and a lease of two seconds does not. -/
theorem the_reaper_drops_the_fraction :
    ¬ SparesTheLease claimedAtZero 1500000 fractional ∧
      ¬ ReapsNoMore claimedAtZero 1500000 (.from_secs 2) Duration_MAX := by
  obtain ⟨r, hr, hrec⟩ := claimedAtZero_row
  constructor
  · rw [sparesTheLease_iff]
    intro h
    have hspared := h r hr 0 hrec (by unfold InsideLease; decide)
    unfold Spared at hspared
    exact absurd hspared (by decide)
  · rw [reapsNoMore_iff (by decide)]
    intro h
    have hlt := h (by decide) (by decide) (by decide) (by decide) r hr 0 hrec (by decide)
    exact absurd hlt (by decide)

end skip_locked
