-- `src/claim.rs`: the two claims. Both lock a window of claimable rows in the
-- order of `run_at`, skip the rows that others hold, and set the rows they
-- keep to running.
import SkipLocked.Schema
import Mathlib.Data.List.Sort

open jsonb postgres keyed_table

namespace skip_locked.claim

/-- An order that Postgres is free to choose. -/
structure Reorder (α : Type) where
  order : List α → List α
  perm : ∀ l, (order l).Perm l

def Reorder.asIs (α : Type) : Reorder α := ⟨fun l => l, fun _ => List.Perm.refl _⟩

/-- What one claim meets and does not choose: the ids of the rows that other open
transactions hold locked, the order in which the scan finds its rows, the order in which
the ranking reads its window, and the order of `RETURNING`. The first two orders decide
between rows with the same `run_at`. -/
structure Plan where
  locked : List Int
  scan : Reorder JobRow
  rank : Reorder JobRow
  returning : Reorder Job

/-- A claim that meets no lock and takes each order as it stands. -/
def Plan.alone : Plan := ⟨[], .asIs JobRow, .asIs JobRow, .asIs Job⟩

/-- `WHERE state = 'ready' AND run_at <= now() AND kind = ANY($kinds)`. -/
def claimable (now : Int) (kinds : List Text) (r : JobRow) : Bool :=
  decide (r.state = .ready) && decide (r.run_at ≤ now) && kinds.contains r.kind

/-- `ORDER BY run_at`, stable. -/
def byRunAt (rows : List JobRow) : List JobRow :=
  rows.insertionSort (fun a b => a.run_at ≤ b.run_at)

/-- `LIMIT $n`. -/
def limitOf (n : Int) : Except PgError Nat :=
  if n < 0 then .error .negative_limit else .ok n.toNat

/-- `SELECT … WHERE … ORDER BY run_at FOR NO KEY UPDATE SKIP LOCKED LIMIT $n`: the rows
that the claim locks. -/
def lockWindow (jobs : Table JobRow.id) (now : Int) (kinds : List Text) (limit : Nat)
    (plan : Plan) : List JobRow :=
  ((byRunAt (plan.scan.order (jobs.rows.filter (claimable now kinds)))).filter
    (fun r => !plan.locked.contains r.id)).take limit

def jobOf (r : JobRow) : Job :=
  { id := r.id, kind := r.kind, payload := r.payload, attempts := r.attempts }

/-- `SET state = 'running', locked_at = now(), locked_by = $w, attempts = attempts + 1`. -/
def setRunning (now : Int) (worker_id : Text) (r : JobRow) : JobRow :=
  { r with state := .running, locked_at := some now, locked_by := some worker_id,
           attempts := r.attempts + 1 }

@[simp] theorem setRunning_id (now : Int) (worker_id : Text) (r : JobRow) :
    (setRunning now worker_id r).id = r.id := rfl

/-- `UPDATE jobs SET … WHERE id IN (…) RETURNING id, kind, payload, attempts`. -/
def takeRows (db : Db) (now : Int) (worker_id : Text) (ids : List Int) (plan : Plan) :
    Except PgError (Db × List Job) :=
  let listed := fun r : JobRow => ids.contains r.id
  if (db.jobs.matching listed).any (fun r => decide (INT4_MAX ≤ r.attempts)) then
    .error .integer_out_of_range
  else
    let jobs := db.jobs.update listed (setRunning now worker_id) (setRunning_id now worker_id)
    .ok ({ db with jobs },
      plan.returning.order ((db.jobs.matching listed).map
        (fun r => jobOf (setRunning now worker_id r))))

def claim_batch (db : Db) (now : Int) (kinds : List Text) (n : Int)
    (worker_id : Text) (plan : Plan) : Except PgError (Db × List Job) := do
  let limit ← limitOf n
  let window := lockWindow db.jobs now kinds limit plan
  takeRows db now worker_id (window.map (·.id)) plan

/-- `payload->>'carrier_id'`. -/
def carrier_id (r : JobRow) : Option Text := r.payload.arrowText "carrier_id"

/-- `row_number() OVER (PARTITION BY …)` over rows in order: the number of a row counts
the rows before it in its partition. NULL is a partition like any other value. -/
def rowNumbers {α π : Type} [DecidableEq π] (part : α → π) :
    List π → List α → List (α × Int)
  | _, [] => []
  | seen, r :: rest => (r, seen.count (part r) + 1) :: rowNumbers part (part r :: seen) rest

/-- The ids of the rows whose number in their carrier is within the cap. -/
def keptIds (per_tenant_cap : Int) (plan : Plan) (locked : List JobRow) : List Int :=
  let ranked := rowNumbers carrier_id [] (byRunAt (plan.rank.order locked))
  let kept := ranked.filter (fun x => decide (x.2 ≤ per_tenant_cap))
  kept.map (·.1.id)

def fair_claim (db : Db) (now : Int) (kinds : List Text) (batch per_tenant_cap : Int)
    (worker_id : Text) (plan : Plan) : Except PgError (Db × List Job) := do
  let wide := batch * 4
  if wide < INT8_MIN ∨ INT8_MAX < wide then throw .bigint_out_of_range
  let limit ← limitOf wide
  let locked := lockWindow db.jobs now kinds limit plan
  takeRows db now worker_id (keptIds per_tenant_cap plan locked) plan

/-! ## The rows that a claim takes -/

theorem byRunAt_perm (rows : List JobRow) : (byRunAt rows).Perm rows :=
  List.perm_insertionSort _ rows

theorem claimable_iff {now : Int} {kinds : List Text} {r : JobRow} :
    claimable now kinds r = true ↔ r.state = .ready ∧ r.run_at ≤ now ∧ r.kind ∈ kinds := by
  simp [claimable, and_assoc]

/-- Each row of the window is in the table, claimable, and not locked by another. -/
theorem mem_lockWindow {jobs : Table JobRow.id} {now : Int} {kinds : List Text}
    {limit : Nat} {plan : Plan} {r : JobRow} (h : r ∈ lockWindow jobs now kinds limit plan) :
    r ∈ jobs.rows ∧ claimable now kinds r = true ∧ r.id ∉ plan.locked := by
  have h := List.mem_of_mem_take h
  rw [List.mem_filter, (byRunAt_perm _).mem_iff, (plan.scan.perm _).mem_iff, List.mem_filter] at h
  obtain ⟨⟨hr, hc⟩, hl⟩ := h
  exact ⟨hr, hc, by simpa using hl⟩

theorem mem_rowNumbers {α π : Type} [DecidableEq π] {part : α → π} {seen : List π} {l : List α}
    {x : α × Int} (h : x ∈ rowNumbers part seen l) : x.1 ∈ l := by
  induction l generalizing seen with
  | nil => simp [rowNumbers] at h
  | cons r rest ih =>
    rcases List.mem_cons.mp h with rfl | h
    · exact List.mem_cons_self
    · exact List.mem_cons_of_mem _ (ih h)

theorem mem_keptIds {per_tenant_cap : Int} {plan : Plan} {locked : List JobRow} {k : Int}
    (h : k ∈ keptIds per_tenant_cap plan locked) : ∃ r ∈ locked, r.id = k := by
  obtain ⟨x, hx, rfl⟩ := List.mem_map.mp h
  have hx := mem_rowNumbers (List.mem_filter.mp hx).1
  rw [(byRunAt_perm _).mem_iff, (plan.rank.perm _).mem_iff] at hx
  exact ⟨x.1, hx, rfl⟩

/-- What both claims do to the database: they take some claimable rows, they return those
rows and no others, and they change nothing else. -/
structure Took (db : Db) (now : Int) (kinds : List Text) (worker_id : Text)
    (plan : Plan) (db' : Db) (jobs : List Job) : Prop where
  same : db' = { db with jobs := db'.jobs }
  row : ∀ k, db'.jobs.find k = (db.jobs.find k).map
    (fun r => if k ∈ jobs.map (·.id) then setRunning now worker_id r else r)
  taken : ∀ job ∈ jobs, ∃ r, db.jobs.find job.id = some r ∧ claimable now kinds r = true ∧
    r.id ∉ plan.locked ∧ r.attempts < INT4_MAX ∧ job = jobOf (setRunning now worker_id r)
  nodup : (jobs.map (·.id)).Nodup

/-- The row of a job that the claim returns: it was ready, and now it runs. -/
theorem Took.find {db db' : Db} {now : Int} {kinds : List Text} {worker_id : Text}
    {plan : Plan} {jobs : List Job} (h : Took db now kinds worker_id plan db' jobs) {job : Job}
    (hjob : job ∈ jobs) : ∃ r, db.jobs.find job.id = some r ∧ r.state = .ready ∧
      db'.jobs.find job.id = some (setRunning now worker_id r) := by
  obtain ⟨r, hf, hc, _⟩ := h.taken job hjob
  refine ⟨r, hf, (claimable_iff.mp hc).1, ?_⟩
  rw [h.row, hf, Option.map_some, if_pos (List.mem_map_of_mem hjob)]

theorem takeRows_took {db db' : Db} {now : Int} {kinds : List Text} {worker_id : Text}
    {plan : Plan} {ids : List Int} {jobs : List Job}
    (hids : ∀ k ∈ ids, ∃ r ∈ db.jobs.rows, r.id = k ∧ claimable now kinds r = true ∧
      r.id ∉ plan.locked)
    (h : takeRows db now worker_id ids plan = .ok (db', jobs)) :
    Took db now kinds worker_id plan db' jobs := by
  unfold takeRows at h
  dsimp only at h
  split at h
  · cases h
  rename_i hfit
  cases h
  have hmem : ∀ job, job ∈ plan.returning.order ((db.jobs.matching fun r => ids.contains r.id).map
      (fun r => jobOf (setRunning now worker_id r))) ↔
      ∃ r, (r ∈ db.jobs.rows ∧ r.id ∈ ids) ∧ jobOf (setRunning now worker_id r) = job := by
    intro job
    rw [(plan.returning.perm _).mem_iff]
    simp [Table.mem_matching]
  have hid : ∀ r ∈ db.jobs.rows, (r.id ∈ (plan.returning.order ((db.jobs.matching
      fun r => ids.contains r.id).map (fun r => jobOf (setRunning now worker_id r)))).map (·.id) ↔
      r.id ∈ ids) := by
    intro r hr
    rw [List.mem_map]
    constructor
    · rintro ⟨job, hjob, he⟩
      obtain ⟨s, ⟨_, hs⟩, rfl⟩ := (hmem job).mp hjob
      exact he ▸ hs
    · intro hk
      exact ⟨_, (hmem _).mpr ⟨r, ⟨hr, hk⟩, rfl⟩, rfl⟩
  refine ⟨rfl, ?_, ?_, ?_⟩
  · intro k
    rw [Table.find_update]
    cases hf : db.jobs.find k with
    | none => rfl
    | some r =>
      have hrk := Table.key_of_find hf
      have := hid r (Table.mem_of_find hf)
      rw [hrk] at this
      simp only [Option.map_some, hrk, List.contains_iff_mem, this]
  · intro job hjob
    obtain ⟨r, ⟨hr, hk⟩, rfl⟩ := (hmem job).mp hjob
    obtain ⟨s, hs, hsk, hc, hl⟩ := hids r.id hk
    obtain rfl : r = s := Table.eq_of_key hr hs hsk.symm
    refine ⟨r, Table.find_of_mem hr, hc, hl, ?_, rfl⟩
    have hall := hfit
    rw [List.any_eq_true] at hall
    push Not at hall
    have := hall r (Table.mem_matching.mpr ⟨hr, by simpa using hk⟩)
    simpa using this
  · rw [((plan.returning.perm _).map _).nodup_iff, List.map_map]
    exact Table.matching_nodup db.jobs _

theorem claim_batch_took {db db' : Db} {now : Int} {kinds : List Text} {n : Int}
    {worker_id : Text} {plan : Plan} {jobs : List Job}
    (h : claim_batch db now kinds n worker_id plan = .ok (db', jobs)) :
    Took db now kinds worker_id plan db' jobs := by
  unfold claim_batch at h
  obtain ⟨limit, _, h⟩ := bind_ok h
  apply takeRows_took _ h
  intro k hk
  obtain ⟨r, hr, rfl⟩ := List.mem_map.mp hk
  obtain ⟨hr, hc, hl⟩ := mem_lockWindow hr
  exact ⟨r, hr, rfl, hc, hl⟩

theorem lockWindow_nodup (jobs : Table JobRow.id) (now : Int) (kinds : List Text)
    (limit : Nat) (plan : Plan) :
    ((lockWindow jobs now kinds limit plan).map (·.id)).Nodup := by
  have hfound : ((jobs.rows.filter (claimable now kinds)).map (·.id)).Nodup :=
    jobs.pk.sublist (List.filter_sublist.map _)
  have hperm := (byRunAt_perm _).trans (plan.scan.perm (jobs.rows.filter (claimable now kinds)))
  have hsorted := (hperm.map (·.id)).nodup_iff.mpr hfound
  exact hsorted.sublist (((List.take_sublist _ _).trans List.filter_sublist).map _)

/-- An update of listed rows of the table: it fails on a row that has no attempt left in an
`int4`, and else it returns these rows. -/
theorem takeRows_cases {db : Db} {rows : List JobRow} (now : Int) (worker_id : Text)
    (plan : Plan) (hkeys : (rows.map (·.id)).Nodup) (hsub : ∀ r ∈ rows, r ∈ db.jobs.rows) :
    ((∃ r ∈ rows, INT4_MAX ≤ r.attempts) ∧
      takeRows db now worker_id (rows.map (·.id)) plan = .error .integer_out_of_range) ∨
    ((∀ r ∈ rows, r.attempts < INT4_MAX) ∧ ∃ db' jobs,
      takeRows db now worker_id (rows.map (·.id)) plan = .ok (db', jobs) ∧
      jobs.Perm (rows.map (fun r => jobOf (setRunning now worker_id r)))) := by
  have hperm := Table.matching_perm hkeys hsub
  unfold takeRows
  dsimp only
  split
  · rename_i hlast
    obtain ⟨r, hr, hfull⟩ := List.any_eq_true.mp hlast
    exact Or.inl ⟨⟨r, hperm.mem_iff.mp hr, by simpa using hfull⟩, rfl⟩
  · rename_i hfit
    refine Or.inr ⟨?_, _, _, rfl, (plan.returning.perm _).trans (hperm.map _)⟩
    intro r hr
    by_contra hlast
    refine hfit (List.any_eq_true.mpr ⟨r, hperm.mem_iff.mpr hr, ?_⟩)
    simpa using hlast

/-- The claim returns the rows of its window, and it fails when one of them has no attempt
left that an `int4` can hold. -/
theorem claim_batch_cases {db : Db} {now : Int} {kinds : List Text} {n : Int}
    {worker_id : Text} {plan : Plan} (hn : 0 ≤ n) :
    ((∃ r ∈ lockWindow db.jobs now kinds n.toNat plan, INT4_MAX ≤ r.attempts) ∧
      claim_batch db now kinds n worker_id plan = .error .integer_out_of_range) ∨
    ((∀ r ∈ lockWindow db.jobs now kinds n.toNat plan, r.attempts < INT4_MAX) ∧ ∃ db' jobs,
      claim_batch db now kinds n worker_id plan = .ok (db', jobs) ∧
      jobs.Perm ((lockWindow db.jobs now kinds n.toNat plan).map
        (fun r => jobOf (setRunning now worker_id r)))) := by
  have hlimit : limitOf n = .ok n.toNat := if_neg (by omega)
  unfold claim_batch
  rw [hlimit]
  exact takeRows_cases now worker_id plan (lockWindow_nodup db.jobs now kinds n.toNat plan)
    (fun r hr => (mem_lockWindow hr).1)

theorem claim_batch_jobs {db db' : Db} {now : Int} {kinds : List Text} {n : Int}
    {worker_id : Text} {plan : Plan} {jobs : List Job}
    (h : claim_batch db now kinds n worker_id plan = .ok (db', jobs)) :
    0 ≤ n ∧ (∀ r ∈ lockWindow db.jobs now kinds n.toNat plan, r.attempts < INT4_MAX) ∧
      jobs.Perm ((lockWindow db.jobs now kinds n.toNat plan).map
        (fun r => jobOf (setRunning now worker_id r))) := by
  have hn : 0 ≤ n := by
    by_contra hneg
    have hlimit : limitOf n = .error .negative_limit := if_pos (by omega)
    unfold claim_batch at h
    rw [hlimit] at h
    cases h
  rcases claim_batch_cases hn with ⟨_, herr⟩ | ⟨hfit, db'', jobs', hok, hperm⟩
  · rw [herr] at h
    cases h
  · rw [hok] at h
    cases h
    exact ⟨hn, hfit, hperm⟩

theorem claim_batch_runs {db : Db} {now : Int} {kinds : List Text} {n : Int}
    {worker_id : Text} {plan : Plan} (hn : 0 ≤ n)
    (hfit : ∀ r ∈ lockWindow db.jobs now kinds n.toNat plan, r.attempts < INT4_MAX) :
    ∃ db' jobs, claim_batch db now kinds n worker_id plan = .ok (db', jobs) := by
  rcases claim_batch_cases hn with ⟨⟨r, hr, hlast⟩, _⟩ | ⟨_, db', jobs, hok, _⟩
  · have := hfit r hr
    omega
  · exact ⟨db', jobs, hok⟩

theorem fair_claim_took {db db' : Db} {now : Int} {kinds : List Text}
    {batch per_tenant_cap : Int} {worker_id : Text} {plan : Plan} {jobs : List Job}
    (h : fair_claim db now kinds batch per_tenant_cap worker_id plan = .ok (db', jobs)) :
    Took db now kinds worker_id plan db' jobs := by
  unfold fair_claim at h
  dsimp only at h
  split at h
  · cases h
  obtain ⟨limit, _, h⟩ := bind_ok h
  apply takeRows_took _ h
  intro k hk
  obtain ⟨r, hr, rfl⟩ := mem_keptIds hk
  obtain ⟨hr, hc, hl⟩ := mem_lockWindow hr
  exact ⟨r, hr, rfl, hc, hl⟩

end skip_locked.claim
