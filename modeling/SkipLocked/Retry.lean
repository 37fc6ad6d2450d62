-- `src/retry.rs`: the class of a failure, the backoff, and the dead letters.
import SkipLocked.Schema

open postgres keyed_table

namespace skip_locked.retry

inductive Class where
  | Transient
  | Permanent
deriving DecidableEq, Repr

inductive HandlerError where
  | Transient (s : String)
  | Permanent (s : String)
deriving DecidableEq, Repr

def classify : HandlerError → Class
  | .Transient _ => .Transient
  | .Permanent _ => .Permanent

/-- `now() + (least(power(2, attempts), 3600) * interval '1 second')`. -/
def backoff (now : Int) (attempts : Int) : Except PgError Int := do
  let wait ← leastPower attempts 3600
  checked (now + wait)

def setRetry (run_at : Int) (last_error : Text) (r : JobRow) : JobRow :=
  { r with state := .ready, run_at, locked_at := none, locked_by := none,
           last_error := some last_error }

@[simp] theorem setRetry_id (run_at : Int) (last_error : Text) (r : JobRow) :
    (setRetry run_at last_error r).id = r.id := rfl

/-- The `SET` is computed only for the row that the `WHERE` matches. -/
def requeue (db : Db) (now : Int) (id : Int) (last_error : Text) :
    Except PgError (Db × Nat) :=
  let wanted := fun r : JobRow => decide (r.id = id) && decide (r.attempts < r.max_attempts)
  match db.jobs.rows.find? wanted with
  | none => .ok (db, 0)
  | some r => do
    let run_at ← backoff now r.attempts
    let jobs := db.jobs.update wanted (setRetry run_at last_error)
      (setRetry_id run_at last_error)
    return ({ db with jobs }, 1)

/-- The row that `dead_letter` inserts for a deleted one. -/
def deadRow (now : Int) (err : Text) (r : JobRow) : DeadRow :=
  { r with state := .dead, last_error := some err, died_at := now }

def dead_letter (db : Db) (now : Int) (id : Int) (err : Text) : Db × Nat :=
  let dead := db.jobs.matching (fun r => decide (r.id = id))
  ({ db with
      jobs := db.jobs.delete (fun r => decide (r.id = id)),
      jobs_dead := db.jobs_dead ++ dead.map (deadRow now err) },
    dead.length)

/-! ## What they do to the row of one id -/

/-- The row that `requeue` matches. -/
theorem requeue_eq (db : Db) (now : Int) (id : Int) (last_error : Text) :
    requeue db now id last_error =
      match (db.jobs.find id).filter (fun r => decide (r.attempts < r.max_attempts)) with
      | none => .ok (db, 0)
      | some r => do
        let run_at ← backoff now r.attempts
        let jobs := db.jobs.update
          (fun r => decide (r.id = id) && decide (r.attempts < r.max_attempts))
          (setRetry run_at last_error) (setRetry_id run_at last_error)
        return ({ db with jobs }, 1) := by
  unfold requeue
  dsimp only
  rw [Table.find?_key db.jobs _ id (by simp +contextual)]
  cases hf : db.jobs.find id with
  | none => rfl
  | some r => simp [Option.filter, Table.key_of_find hf]

/-- What a `requeue` that goes through did: nothing, when no row has the id and a retry
left, and else it sets that one row. -/
theorem requeue_ok {db db' : Db} {now : Int} {id : Int} {last_error : Text} {n : Nat}
    (h : requeue db now id last_error = .ok (db', n)) :
    (n = 0 ∧ db' = db ∧ ∀ r, db.jobs.find id = some r → r.max_attempts ≤ r.attempts) ∨
    (n = 1 ∧ ∃ r run_at, db.jobs.find id = some r ∧ r.attempts < r.max_attempts ∧
      backoff now r.attempts = .ok run_at ∧ db' = { db with jobs := db'.jobs } ∧
      ∀ k, db'.jobs.find k =
        if k = id then some (setRetry run_at last_error r) else db.jobs.find k) := by
  rw [requeue_eq] at h
  cases hf : db.jobs.find id with
  | none =>
    rw [hf] at h
    cases h
    exact Or.inl ⟨rfl, rfl, by simp⟩
  | some r =>
    rw [hf] at h
    by_cases hlt : r.attempts < r.max_attempts
    · rw [Option.filter_some_pos (by simpa using hlt)] at h
      obtain ⟨run_at, hb, h⟩ := bind_ok h
      cases h
      refine Or.inr ⟨rfl, r, run_at, rfl, hlt, hb, rfl, ?_⟩
      intro k
      rw [Table.find_update]
      by_cases hk : k = id
      · subst hk
        simp [hf, Table.key_of_find hf, hlt]
      · cases hfk : db.jobs.find k with
        | none => simp [hk]
        | some s => simp [Table.key_of_find hfk, hk]
    · rw [Option.filter_some_neg (by simpa using hlt)] at h
      cases h
      exact Or.inl ⟨rfl, rfl, by simpa using hlt⟩

theorem dead_letter_eq (db : Db) (now : Int) (id : Int) (err : Text) :
    dead_letter db now id err =
      ({ db with
          jobs := db.jobs.delete (fun r => decide (r.id = id)),
          jobs_dead := db.jobs_dead ++ ((db.jobs.find id).map (deadRow now err)).toList },
        if (db.jobs.find id).isSome then 1 else 0) := by
  unfold dead_letter
  rw [Table.matching_key db.jobs _ id (by simp)]
  cases hf : db.jobs.find id with
  | none => rfl
  | some r => simp [Table.key_of_find hf]

theorem find_dead_letter (db : Db) (now : Int) (id : Int) (err : Text) (k : Int) :
    (dead_letter db now id err).1.jobs.find k = if k = id then none else db.jobs.find k := by
  unfold dead_letter
  rw [Table.find_delete]
  by_cases hk : k = id
  · cases hf : db.jobs.find k with
    | none => simp
    | some r => simp [Table.key_of_find hf, hk]
  · cases hf : db.jobs.find k with
    | none => simp
    | some r => simp [Table.key_of_find hf, hk]

end skip_locked.retry
