-- `src/lease.rs`: the heartbeat and the reaper.
import SkipLocked.Schema

open postgres keyed_table

namespace skip_locked.lease

/-- `WHERE id = ANY($1) AND locked_by = $2 AND state = 'running'`. -/
def held (ids : List Int) (worker_id : Text) (r : JobRow) : Bool :=
  ids.contains r.id && decide (r.locked_by = some worker_id) && decide (r.state = .running)

def setLockedAt (now : Int) (r : JobRow) : JobRow := { r with locked_at := some now }

@[simp] theorem setLockedAt_id (now : Int) (r : JobRow) :
    (setLockedAt now r).id = r.id := rfl

def heartbeat (db : Db) (now : Int) (ids : List Int) (worker_id : Text) : Db × Nat :=
  let jobs := db.jobs.update (held ids worker_id) (setLockedAt now) (setLockedAt_id now)
  ({ db with jobs }, db.jobs.count (held ids worker_id))

/-- The row is running and its `locked_at` is before `cutoff`. -/
def expired (cutoff : Int) (r : JobRow) : Bool :=
  decide (r.state = .running) && r.locked_at.any (fun at_ => decide (at_ < cutoff))

/-- The `WHERE` of the reaper. -/
def reapable (cutoff : Int) (r : JobRow) : Bool :=
  expired cutoff r && decide (r.attempts < r.max_attempts)

def setReady (r : JobRow) : JobRow :=
  { r with state := .ready, locked_at := none, locked_by := none }

@[simp] theorem setReady_id (r : JobRow) : (setReady r).id = r.id := rfl

/-- `now() - make_interval(secs => $1)`, with `lease.as_secs() as i64` for `$1`. -/
def cutoffOf (now : Int) (lease : Duration) : Except PgError Int :=
  minusSeconds now (asI64 lease.secs)

def reap (db : Db) (now : Int) (lease : Duration) : Except PgError (Db × Nat) := do
  let cutoff ← cutoffOf now lease
  let jobs := db.jobs.update (reapable cutoff) setReady setReady_id
  return ({ db with jobs }, db.jobs.count (reapable cutoff))

/-! ## What they do to the row of one id -/

theorem held_iff {ids : List Int} {worker_id : Text} {r : JobRow} :
    held ids worker_id r = true ↔
      r.id ∈ ids ∧ r.locked_by = some worker_id ∧ r.state = .running := by
  simp [held, and_assoc]

theorem expired_iff {cutoff : Int} {r : JobRow} :
    expired cutoff r = true ↔ r.state = .running ∧ ∃ t, r.locked_at = some t ∧ t < cutoff := by
  unfold expired
  cases r.locked_at with
  | none => simp
  | some t => simp

theorem reapable_iff {cutoff : Int} {r : JobRow} :
    reapable cutoff r = true ↔ expired cutoff r = true ∧ r.attempts < r.max_attempts := by
  simp [reapable]

theorem find_heartbeat (db : Db) (now : Int) (ids : List Int) (worker_id : Text)
    (k : Int) :
    (heartbeat db now ids worker_id).1.jobs.find k =
      (db.jobs.find k).map (fun r => if held ids worker_id r then setLockedAt now r else r) :=
  Table.find_update _ _ _ (setLockedAt_id now) k

theorem reap_ok {db db' : Db} {now : Int} {lease : Duration} {n : Nat}
    (h : reap db now lease = .ok (db', n)) :
    ∃ cutoff, cutoffOf now lease = .ok cutoff ∧ n = db.jobs.count (reapable cutoff) ∧
      db' = { db with jobs := db.jobs.update (reapable cutoff) setReady setReady_id } := by
  obtain ⟨cutoff, hc, h⟩ := bind_ok h
  cases h
  exact ⟨cutoff, hc, rfl, rfl⟩

theorem reap_of_cutoff (db : Db) {now cutoff : Int} {lease : Duration}
    (h : cutoffOf now lease = .ok cutoff) :
    reap db now lease =
      .ok ({ db with jobs := db.jobs.update (reapable cutoff) setReady setReady_id },
        db.jobs.count (reapable cutoff)) := by
  unfold reap
  rw [h]
  rfl

/-- A wrapped lease moves the cutoff later, never earlier: the cutoff is at the end of the
lease, or after it. -/
theorem lease_le_cutoff {now cutoff : Int} {lease : Duration}
    (h : cutoffOf now lease = .ok cutoff) : now - lease.secs * USECS_PER_SEC ≤ cutoff := by
  have hc := minusSeconds_ok h
  have hle := asI64_le lease.secs
  unfold USECS_PER_SEC at *
  omega

end skip_locked.lease
