-- The tables of `migrations/0001_jobs.sql`, the `Job` that a claim returns,
-- and the database that the functions of the crate share. Their texts, and
-- those that the functions take, are texts of Postgres: none has U+0000.
import SkipLocked.Jsonb
import SkipLocked.Postgres
import SkipLocked.Table

open jsonb postgres keyed_table

namespace skip_locked

/-- The texts that the statements write to a `state` column. -/
inductive State where
  | ready
  | running
  | done
  | dead
deriving DecidableEq, Repr

/-- A row of `jobs`. A time is a `timestamptz`, in microseconds. -/
structure JobRow where
  id : Int
  kind : Text
  payload : Jsonb
  state : State
  run_at : Int
  locked_at : Option Int
  locked_by : Option Text
  attempts : Int
  max_attempts : Int
  last_error : Option Text

/-- A row of `jobs_dead`: the same columns, and the time of its death. -/
structure DeadRow extends JobRow where
  died_at : Int

/-- What a claim hands to a worker. -/
structure Job where
  id : Int
  kind : Text
  payload : Jsonb
  attempts : Int

/-- An open transaction of a producer: its `now()`, the rows that it inserted, and
whether it sends `NOTIFY jobs_ready` at its commit. -/
structure Transaction where
  xid : Nat
  now : Int
  inserted : List JobRow
  notify : Bool

/-- The database: the two tables as committed, the next value of the identity column,
the open transactions, and the number of notifications sent. `jobs_dead` has no
primary key. -/
structure Db where
  jobs : Table JobRow.id
  jobs_dead : List DeadRow
  next_id : Int
  transactions : Table Transaction.xid
  notified : Nat

/-- The tables after the migration. -/
def Db.empty : Db :=
  { jobs := Table.empty, jobs_dead := [], next_id := 1, transactions := Table.empty, notified := 0 }

/-- The defaults of `jobs`: a row as an insert of `kind`, `payload` and `run_at` makes it. -/
def newRow (id : Int) (kind : Text) (payload : Jsonb) (run_at : Int) : JobRow :=
  { id, kind, payload, state := .ready, run_at, locked_at := none, locked_by := none,
    attempts := 0, max_attempts := 20, last_error := none }

end skip_locked
