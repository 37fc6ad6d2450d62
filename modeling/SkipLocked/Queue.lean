-- The crate as one machine: each call is a step on the database, and any
-- list of calls is a run.
import SkipLocked.Enqueue
import SkipLocked.Claim
import SkipLocked.Lease
import SkipLocked.Retry
import SkipLocked.Runs

open jsonb postgres keyed_table event_runs

namespace skip_locked

open claim lease retry

/-! ## The calls -/

/-- The statements of a producer in its transaction, and the calls of the crate. A call with a
string that is no text of Postgres is none of them: it is an error, and it changes no table. In a
transaction it is a `rollback`. -/
inductive Op where
  | begin (xid : Nat)
  | enqueue (xid : Nat) (kind : Text) (payload : Jsonb)
  | enqueue_at (xid : Nat) (kind : Text) (payload : Jsonb) (run_at : Int)
  | notify_ready (xid : Nat)
  | commit (xid : Nat)
  | rollback (xid : Nat)
  | enqueue_pool (kind : Text) (payload : Jsonb)
  | claim_batch (kinds : List Text) (n : Int) (worker_id : Text) (plan : Plan)
  | fair_claim (kinds : List Text) (batch per_tenant_cap : Int) (worker_id : Text) (plan : Plan)
  | heartbeat (ids : List Int) (worker_id : Text)
  | mark_done (id : Int)
  | requeue (id : Int) (last_error : Text)
  | dead_letter (id : Int) (err : Text)
  | reap (lease : Duration)

/-- A call, and its `now()`. -/
structure Call where
  now : Int
  op : Op

inductive Reply where
  | unit
  | id (n : Int)
  | jobs (l : List Job)
  | rows (n : Nat)

abbrev Answer := Except PgError Reply

/-- A statement that fails changes nothing. -/
def answer {α : Type} (db : Db) (reply : α → Reply) : Except PgError (Db × α) → Db × Answer
  | .error e => (db, .error e)
  | .ok (db', a) => (db', .ok (reply a))

def Db.close (db : Db) (xid : Nat) : Db :=
  { db with transactions := db.transactions.delete (fun tx => decide (tx.xid = xid)) }

def Transaction.set (tx : Transaction) (t : Transaction) : Transaction :=
  { tx with xid := t.xid }

@[simp] theorem Transaction.set_xid (tx t : Transaction) : (tx.set t).xid = t.xid := rfl

def Db.store (db : Db) (tx : Transaction) : Db :=
  let transactions := db.transactions.update (fun t => decide (t.xid = tx.xid)) tx.set tx.set_xid
  { db with transactions }

/-- An insert in an open transaction. An insert that fails ends its transaction. -/
def insertIn (db : Db) (xid : Nat)
    (insert : Transaction → Except PgError (Db × Transaction × Int)) : Db × Answer :=
  match db.transactions.find xid with
  | none => (db, .error .no_such_transaction)
  | some tx =>
    match insert tx with
    | .error e => (db.close xid, .error e)
    | .ok (db', tx', id) => (db'.store tx', .ok (.id id))

def beginIn (db : Db) (xid : Nat) (now : Int) : Db × Answer :=
  match db.transactions.insert (Transaction.start xid now) with
  | none => (db, .error .no_such_transaction)
  | some transactions => ({ db with transactions }, .ok .unit)

def notifyIn (db : Db) (xid : Nat) : Db × Answer :=
  match db.transactions.find xid with
  | none => (db, .error .no_such_transaction)
  | some tx => (db.store (skip_locked.notify_ready tx), .ok .unit)

def commitIn (db : Db) (xid : Nat) : Db × Answer :=
  match db.transactions.find xid with
  | none => (db, .error .no_such_transaction)
  | some tx =>
    match skip_locked.commit db tx with
    | .error e => (db.close xid, .error e)
    | .ok db' => (db'.close xid, .ok .unit)

/-- One call, on its own: each statement is atomic. -/
def exec (db : Db) (c : Call) : Db × Answer :=
  match c.op with
  | .begin xid => beginIn db xid c.now
  | .enqueue xid kind payload => insertIn db xid (fun tx => skip_locked.enqueue db tx kind payload)
  | .enqueue_at xid kind payload run_at =>
    insertIn db xid (fun tx => skip_locked.enqueue_at db tx kind payload run_at)
  | .notify_ready xid => notifyIn db xid
  | .commit xid => commitIn db xid
  | .rollback xid => (db.close xid, .ok .unit)
  | .enqueue_pool kind payload => answer db .id (skip_locked.enqueue_pool db c.now kind payload)
  | .claim_batch kinds n worker_id plan =>
    answer db .jobs (claim.claim_batch db c.now kinds n worker_id plan)
  | .fair_claim kinds batch per_tenant_cap worker_id plan =>
    answer db .jobs (claim.fair_claim db c.now kinds batch per_tenant_cap worker_id plan)
  | .heartbeat ids worker_id =>
    let (db', n) := lease.heartbeat db c.now ids worker_id
    (db', .ok (.rows n))
  | .mark_done id => (skip_locked.mark_done db id, .ok .unit)
  | .requeue id last_error => answer db .rows (retry.requeue db c.now id last_error)
  | .dead_letter id err =>
    let (db', n) := retry.dead_letter db c.now id err
    (db', .ok (.rows n))
  | .reap l => answer db .rows (lease.reap db c.now l)

/-- The database after a list of calls on empty tables. -/
def after (calls : List Call) : Db := run exec Db.empty calls

/-- The calls with their answers. -/
def history (calls : List Call) : List (Call × Answer) := trace exec Db.empty calls

/-- The clock of the server never goes back. -/
def Timely (calls : List Call) : Prop := (calls.map (·.now)).Pairwise (· ≤ ·)

/-- The answer hands job `j` to a worker. -/
def Delivers (j : Int) : Answer → Prop
  | .ok (.jobs l) => j ∈ l.map (·.id)
  | _ => False

instance (j : Int) : (a : Answer) → Decidable (Delivers j a)
  | .ok (.jobs l) => inferInstanceAs (Decidable (j ∈ l.map (·.id)))
  | .ok .unit => isFalse id
  | .ok (.id _) => isFalse id
  | .ok (.rows _) => isFalse id
  | .error _ => isFalse id

/-- How often a claim handed job `j` to a worker. -/
def deliveries (j : Int) (h : List (Call × Answer)) : Nat :=
  h.countP (fun e => decide (Delivers j e.2))

/-- The calls that bring new rows into `jobs`. -/
def Op.births : Op → Bool
  | .commit _ => true
  | .enqueue_pool .. => true
  | _ => false

/-- The worker id that a claim writes to its rows. -/
def Op.claimant : Op → Option Text
  | .claim_batch _ _ worker_id _ => some worker_id
  | .fair_claim _ _ _ worker_id _ => some worker_id
  | _ => none

/-- The call gives an outcome of job `j`. -/
def Op.settles (j : Int) : Op → Bool
  | .mark_done id => decide (id = j)
  | .requeue id _ => decide (id = j)
  | .dead_letter id _ => decide (id = j)
  | _ => false

end skip_locked
