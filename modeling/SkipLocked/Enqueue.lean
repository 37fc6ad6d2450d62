-- `src/lib.rs`: the transactional enqueue, its notification, and `mark_done`.
-- A row that a producer inserts is in its transaction until the commit.
import SkipLocked.Schema

open jsonb postgres keyed_table

namespace skip_locked

/-- `pool.begin()`. `now()` is the start of the transaction in each of its statements. -/
def Transaction.start (xid : Nat) (now : Int) : Transaction :=
  { xid, now, inserted := [], notify := false }

/-- The `INSERT INTO jobs … RETURNING id`. The identity column takes its next value, and
a rollback does not give the value back. -/
def insertJob (db : Db) (tx : Transaction) (kind : Text) (payload : Jsonb)
    (run_at : Int) : Except PgError (Db × Transaction × Int) :=
  if INT8_MAX < db.next_id then .error .sequence_limit
  else .ok ({ db with next_id := db.next_id + 1 },
    { tx with inserted := newRow db.next_id kind payload run_at :: tx.inserted }, db.next_id)

def enqueue (db : Db) (tx : Transaction) (kind : Text) (payload : Jsonb) :
    Except PgError (Db × Transaction × Int) := insertJob db tx kind payload tx.now

def enqueue_at (db : Db) (tx : Transaction) (kind : Text) (payload : Jsonb)
    (run_at : Int) : Except PgError (Db × Transaction × Int) := do
  let run_at ← checked run_at
  insertJob db tx kind payload run_at

/-- `SELECT pg_notify('jobs_ready', '')`: one notification at the commit, however often
the transaction asks for it. -/
def notify_ready (tx : Transaction) : Transaction := { tx with notify := true }

/-- The rows of a transaction enter the table, the oldest first. -/
def insertAll (jobs : Table JobRow.id) : List JobRow → Option (Table JobRow.id)
  | [] => some jobs
  | r :: older => do
    let jobs ← insertAll jobs older
    jobs.insert r

/-- `tx.commit()`. The rows become visible and the notification goes out together. -/
def commit (db : Db) (tx : Transaction) : Except PgError Db :=
  match insertAll db.jobs tx.inserted with
  | none => .error .unique_violation
  | some jobs =>
    .ok { db with jobs, notified := if tx.notify then db.notified + 1 else db.notified }

def enqueue_pool (db : Db) (now : Int) (kind : Text) (payload : Jsonb) :
    Except PgError (Db × Int) := do
  let tx := Transaction.start 0 now
  let (db, tx, id) ← enqueue db tx kind payload
  let tx := notify_ready tx
  let db ← commit db tx
  return (db, id)

def setDone (r : JobRow) : JobRow :=
  { r with state := .done, locked_at := none, locked_by := none }

@[simp] theorem setDone_id (r : JobRow) : (setDone r).id = r.id := rfl

/-- It reports success for any id, also when no row matches. -/
def mark_done (db : Db) (id : Int) : Db :=
  { db with jobs := db.jobs.update (fun r => decide (r.id = id)) setDone setDone_id }

/-! ## What they do to the row of one id -/

theorem find_mark_done (db : Db) (id k : Int) :
    (mark_done db id).jobs.find k =
      (db.jobs.find k).map (fun r => if k = id then setDone r else r) := by
  unfold mark_done
  rw [Table.find_update]
  cases hf : db.jobs.find k with
  | none => rfl
  | some r => simp [Table.key_of_find hf]

/-- Each statement of a producer leaves the committed rows as they were. -/
theorem insertJob_ok {db db' : Db} {tx tx' : Transaction} {kind : Text} {payload : Jsonb}
    {run_at : Int} {id : Int}
    (h : insertJob db tx kind payload run_at = .ok (db', tx', id)) :
    id = db.next_id ∧ db' = { db with next_id := db.next_id + 1 } ∧
      tx' = { tx with inserted := newRow id kind payload run_at :: tx.inserted } := by
  unfold insertJob at h
  split at h
  · cases h
  · cases h
    exact ⟨rfl, rfl, rfl⟩

theorem enqueue_at_ok {db db' : Db} {tx tx' : Transaction} {kind : Text} {payload : Jsonb}
    {run_at : Int} {id : Int}
    (h : enqueue_at db tx kind payload run_at = .ok (db', tx', id)) :
    insertJob db tx kind payload run_at = .ok (db', tx', id) := by
  obtain ⟨t, ht, h⟩ := bind_ok h
  rw [checked_ok ht] at h
  exact h

/-- The table after the insert of some rows: the row of a new id, and each old row. -/
theorem find_insertAll {jobs jobs' : Table JobRow.id} {rows : List JobRow}
    (h : insertAll jobs rows = some jobs') (k : Int) :
    jobs'.find k = (rows.find? (fun r => decide (r.id = k))).or (jobs.find k) := by
  induction rows generalizing jobs' with
  | nil => cases h; rfl
  | cons r older ih =>
    simp only [insertAll, Option.bind_eq_bind, Option.bind_eq_some_iff] at h
    obtain ⟨mid, hmid, h⟩ := h
    rw [Table.find_insert h, ih hmid]
    by_cases hk : r.id = k
    · simp [hk]
    · simp [hk]

/-- Rows with new and distinct ids always enter the table. -/
theorem insertAll_isSome {jobs : Table JobRow.id} {rows : List JobRow}
    (hnew : ∀ r ∈ rows, jobs.find r.id = none) (hnd : (rows.map (·.id)).Nodup) :
    ∃ jobs', insertAll jobs rows = some jobs' := by
  induction rows with
  | nil => exact ⟨jobs, rfl⟩
  | cons r older ih =>
    rw [List.map_cons, List.nodup_cons] at hnd
    obtain ⟨mid, hmid⟩ := ih (fun s hs => hnew s (List.mem_cons_of_mem _ hs)) hnd.2
    have hfree : mid.find r.id = none := by
      rw [find_insertAll hmid, hnew r List.mem_cons_self, Option.or_none, List.find?_eq_none]
      intro s hs he
      exact hnd.1 (by rw [← of_decide_eq_true he]; exact List.mem_map_of_mem hs)
    obtain ⟨jobs', h⟩ := Table.insert_isSome hfree
    exact ⟨jobs', by simp [insertAll, hmid, h]⟩

end skip_locked
