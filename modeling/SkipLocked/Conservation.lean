-- The law of conservation: a job that a producer committed is in exactly one
-- of the two tables, once, and a dead letter stays as it is. The ledger reads
-- the commits from the calls and their answers alone.
import SkipLocked.Life

open jsonb postgres keyed_table event_runs

namespace skip_locked

open claim lease retry

/-! ## The ledger of the producers -/

/-- The answer to one enqueue: the id, with the kind and the payload given. -/
structure Issue where
  id : Int
  kind : Text
  payload : Jsonb

/-- The inserts of the open transactions, and the inserts committed so far. -/
structure Ledger where
  opened : List (Nat × Issue)
  committed : List Issue

def Ledger.of (g : Ledger) (xid : Nat) : List Issue :=
  (g.opened.filter (fun p => decide (p.1 = xid))).map Prod.snd

def Ledger.close (g : Ledger) (xid : Nat) : Ledger :=
  { g with opened := g.opened.filter (fun p => decide (p.1 ≠ xid)) }

/-- What an insert leaves in the ledger. An insert that fails ends its transaction. -/
def Ledger.insert (g : Ledger) (xid : Nat) (kind : Text) (payload : Jsonb) : Answer → Ledger
  | .ok (.id n) => { g with opened := (xid, ⟨n, kind, payload⟩) :: g.opened }
  | .error _ => g.close xid
  | _ => g

def Ledger.commit (g : Ledger) (xid : Nat) : Answer → Ledger
  | .ok _ => { g.close xid with committed := g.of xid ++ g.committed }
  | .error _ => g.close xid

def Ledger.enqueue_pool (g : Ledger) (kind : Text) (payload : Jsonb) : Answer → Ledger
  | .ok (.id n) => { g with committed := ⟨n, kind, payload⟩ :: g.committed }
  | _ => g

def Ledger.record (g : Ledger) (e : Call × Answer) : Ledger :=
  match e.1.op with
  | .enqueue xid kind payload => g.insert xid kind payload e.2
  | .enqueue_at xid kind payload _ => g.insert xid kind payload e.2
  | .commit xid => g.commit xid e.2
  | .rollback xid => g.close xid
  | .enqueue_pool kind payload => g.enqueue_pool kind payload e.2
  | _ => g

def ledger (h : List (Call × Answer)) : Ledger := h.foldl Ledger.record ⟨[], []⟩

/-- The enqueues whose transaction committed, as the callers saw them. -/
def committed (h : List (Call × Answer)) : List Issue := (ledger h).committed

theorem ledger_snoc (h : List (Call × Answer)) (e : Call × Answer) :
    ledger (h ++ [e]) = (ledger h).record e := by
  simp [ledger, List.foldl_append]

theorem of_close (g : Ledger) (xid x : Nat) :
    (g.close xid).of x = if x = xid then [] else g.of x := by
  unfold Ledger.of Ledger.close
  rw [List.filter_filter]
  split
  · rename_i hx
    rw [List.filter_eq_nil_iff.mpr]
    · rfl
    · intro p _
      simp [hx]
  · rename_i hx
    congr 1
    apply List.filter_congr
    intro p _
    by_cases hp : p.1 = x
    · simp [hp, hx]
    · simp [hp]

/-! ## The ledger and the database -/

def issueOf (r : JobRow) : Issue := ⟨r.id, r.kind, r.payload⟩

/-- How often id `k` is in the two tables. -/
def Db.places (db : Db) (k : Int) : Nat := db.liveCopies k + db.deadCopies k

def Life.issue : Life → Option Issue
  | .unborn => none
  | .live r => some (issueOf r)
  | .buried d => some (issueOf d.toJobRow)

structure Matches (g : Ledger) (db : Db) : Prop where
  opened : ∀ xid, g.of xid =
    ((db.transactions.find xid).map (fun tx => tx.inserted.map issueOf)).getD []
  count : ∀ k, g.committed.countP (fun i => decide (i.id = k)) = db.places k
  same : ∀ i ∈ g.committed, (db.life i.id).issue = some i

theorem places_eq {db : Db} (h : db.Good) (k : Int) :
    db.places k = if (db.life k).issue.isSome then 1 else 0 := by
  have hone := h.once k
  have hun : db.life k = .unborn ↔ db.liveCopies k = 0 ∧ db.deadCopies k = 0 := life_unborn
  unfold Db.places
  unfold Db.copies at hone
  cases hl : db.life k with
  | unborn =>
    obtain ⟨h1, h2⟩ := hun.mp hl
    simp [Life.issue, h1, h2]
  | live r =>
    have : ¬ (db.liveCopies k = 0 ∧ db.deadCopies k = 0) := fun hz => by simp [hun.mpr hz] at hl
    simp only [Life.issue, Option.isSome_some, if_true]
    omega
  | buried d =>
    have : ¬ (db.liveCopies k = 0 ∧ db.deadCopies k = 0) := fun hz => by simp [hun.mpr hz] at hl
    simp only [Life.issue, Option.isSome_some, if_true]
    omega

/-- No call but a commit changes what a job is. -/
theorem issue_turn {j : Int} {c : Call} {a : Answer} {l l' : Life} (ht : Turn j c a l l')
    (hb : c.op.births = false ∨ l ≠ .unborn) : l'.issue = l.issue := by
  cases ht with
  | born _ _ _ _ hop =>
    rcases hb with hb | hb
    · rw [hop] at hb
      cases hb
    · exact absurd rfl hb
  | _ => rfl

theorem matches_still {g : Ledger} {db db' : Db} (h : Matches g db)
    (ht : db'.transactions = db.transactions) (hg : db.Good) (hg' : db'.Good)
    (hl : ∀ j, (db'.life j).issue = (db.life j).issue) : Matches g db' := by
  obtain ⟨h1, h2, h3⟩ := h
  refine ⟨?_, ?_, ?_⟩
  · rw [ht]
    exact h1
  · intro k
    rw [h2, places_eq hg, places_eq hg', hl]
  · intro i hi
    rw [hl]
    exact h3 i hi

theorem find_close (db : Db) (xid x : Nat) :
    (db.close xid).transactions.find x = if x = xid then none else db.transactions.find x := by
  simp only [Db.close, Table.find_delete]
  cases hf : db.transactions.find x with
  | none => simp
  | some tx =>
    have hx : tx.xid = x := Table.key_of_find hf
    by_cases h : x = xid
    · simp [hx, h]
    · simp [hx, h]

theorem find_store (db : Db) {xid : Nat} {tx tx' : Transaction}
    (hf : db.transactions.find xid = some tx) (hx : tx'.xid = xid) (x : Nat) :
    (db.store tx').transactions.find x = if x = xid then some tx' else db.transactions.find x := by
  subst hx
  simp only [Db.store, Table.find_update]
  by_cases h : x = tx'.xid
  · subst h
    have hx : tx.xid = tx'.xid := Table.key_of_find hf
    simp [hf, hx, Transaction.set]
  · cases hfx : db.transactions.find x with
    | none => simp [h]
    | some t =>
      have hx : t.xid = x := Table.key_of_find hfx
      simp [hx, h]

theorem matches_close {g : Ledger} {db : Db} (h : Matches g db) (xid : Nat) :
    Matches (g.close xid) (db.close xid) := by
  obtain ⟨h1, h2, h3⟩ := h
  refine ⟨?_, h2, h3⟩
  intro x
  rw [of_close, find_close, h1]
  split <;> rfl

/-! ## The calls of a producer -/

theorem matches_begin {g : Ledger} {db : Db} (h : Matches g db) (xid : Nat) (now : Int) :
    Matches g (beginIn db xid now).1 := by
  unfold beginIn
  split
  · exact h
  · rename_i transactions hi
    obtain ⟨h1, h2, h3⟩ := h
    refine ⟨?_, h2, h3⟩
    intro x
    have hfind := Table.find_insert hi x
    have hnone := Table.find_of_insert hi
    simp only at hfind ⊢
    rw [hfind, h1]
    by_cases hx : xid = x
    · subst hx
      simp only [Transaction.start] at hnone
      simp [Transaction.start, hnone]
    · simp [Transaction.start, hx]

theorem of_insert (g : Ledger) (xid x : Nat) (i : Issue) :
    Ledger.of { g with opened := (xid, i) :: g.opened } x =
      if x = xid then i :: g.of x else g.of x := by
  unfold Ledger.of
  by_cases hx : x = xid
  · simp [hx]
  · simp [hx, Ne.symm hx]

theorem matches_insert {g : Ledger} {db : Db} (h : Matches g db) (xid : Nat) (kind : Text)
    (payload : Jsonb) {insert : Transaction → Except PgError (Db × Transaction × Int)}
    (hi : ∀ tx db' tx' id, insert tx = .ok (db', tx', id) →
      ∃ run_at, insertJob db tx kind payload run_at = .ok (db', tx', id)) :
    Matches (g.insert xid kind payload (insertIn db xid insert).2) (insertIn db xid insert).1 := by
  unfold insertIn
  split
  · rename_i hf
    have hclose := matches_close h xid
    rwa [close_of_none hf] at hclose
  rename_i tx hf
  split
  · exact matches_close h xid
  rename_i db' tx' id hok
  obtain ⟨run_at, hj⟩ := hi _ _ _ _ hok
  obtain ⟨hid, hdb, htx⟩ := insertJob_ok hj
  have hf' : db'.transactions.find xid = some tx := by rw [hdb]; exact hf
  have hx : tx.xid = xid := Table.key_of_find hf
  have hx' : tx'.xid = xid := by rw [htx]; exact hx
  obtain ⟨h1, h2, h3⟩ := h
  refine ⟨?_, ?_, ?_⟩
  · intro x
    dsimp only [Ledger.insert]
    rw [of_insert, find_store db' hf' hx', h1]
    by_cases hxx : x = xid
    · simp [hxx, hf, htx, issueOf, newRow]
    · simp [hxx, hdb]
  · rw [hdb]
    exact h2
  · rw [hdb]
    exact h3

theorem matches_notify {g : Ledger} {db : Db} (h : Matches g db) (xid : Nat) :
    Matches g (notifyIn db xid).1 := by
  unfold notifyIn
  split
  · exact h
  rename_i tx hf
  have hx : tx.xid = xid := Table.key_of_find hf
  obtain ⟨h1, h2, h3⟩ := h
  refine ⟨?_, h2, h3⟩
  intro x
  dsimp only
  rw [find_store db hf (show (skip_locked.notify_ready tx).xid = xid from hx), h1]
  by_cases hxx : x = xid
  · simp [hxx, hf, skip_locked.notify_ready]
  · simp [hxx]

theorem matches_commit {g : Ledger} {db : Db} (hg : db.Good) (h : Matches g db) (xid : Nat) :
    Matches (g.commit xid (commitIn db xid).2) (commitIn db xid).1 := by
  have hg' := good_commit hg xid
  cases hf : db.transactions.find xid with
  | none =>
    have hclose := matches_close h xid
    rw [close_of_none hf] at hclose
    simpa [commitIn, hf, Ledger.commit] using hclose
  | some tx =>
    obtain ⟨jobs, hjobs, hcm⟩ := commit_ok hg hf
    have hans : (commitIn db xid).2 = .ok .unit := by simp [commitIn, hf, hcm]
    have htx : (commitIn db xid).1.transactions = (db.close xid).transactions := by
      simp only [commitIn, hf, hcm]
      rfl
    have hof : g.of xid = tx.inserted.map issueOf := by rw [h.opened, hf]; rfl
    have hclose := matches_close h xid
    rw [hans]
    refine ⟨?_, ?_, ?_⟩
    · intro x
      rw [htx]
      exact hclose.opened x
    · intro k
      have hlive := liveCopies_commitIn hg hf k
      have hdead : (commitIn db xid).1.deadCopies k = db.deadCopies k := by
        simp only [commitIn, hf, hcm]
        rfl
      have hcount := h.count k
      have hnew : (tx.inserted.map issueOf).countP (fun i => decide (i.id = k)) = tx.copies k := by
        rw [List.countP_map]
        rfl
      simp only [Ledger.commit, List.countP_append, hof, hnew]
      unfold Db.places at *
      omega
    · intro i hi
      simp only [Ledger.commit, hof, List.mem_append, List.mem_map] at hi
      rcases hi with ⟨r, hr, rfl⟩ | hi
      · obtain ⟨s, hs⟩ : ∃ s, tx.inserted.find? (fun x => decide (x.id = r.id)) = some s := by
          rw [← Option.isSome_iff_exists, List.find?_isSome]
          exact ⟨r, hr, by simp⟩
        have hone : tx.copies r.id ≤ 1 := by
          have := copies_le_open hf r.id
          have := hg.once r.id
          unfold Db.copies at this
          omega
        have hrs : r = s := eq_of_countP_le_one hone hr (by simp) (List.mem_of_find?_eq_some hs)
          (by simpa using List.find?_some hs)
        have hfind := find_commitIn hg hf r.id
        rw [hs, Option.some_or, ← hrs] at hfind
        rw [show (issueOf r).id = r.id from rfl, life_of_find hfind]
        rfl
      · have hsame := h.same i hi
        have ht := turn_commit (j := i.id) (c := ⟨0, .commit xid⟩) hg rfl
        rw [issue_turn ht (Or.inr (fun hu => by rw [hu] at hsame; cases hsame))]
        exact hsame

theorem matches_enqueue_pool {g : Ledger} {db db' : Db} (hg : db.Good) (h : Matches g db)
    {now : Int} {kind : Text} {payload : Jsonb} {id : Int}
    (hok : skip_locked.enqueue_pool db now kind payload = .ok (db', id)) :
    Matches { g with committed := ⟨id, kind, payload⟩ :: g.committed } db' := by
  obtain ⟨rfl, hs, hi⟩ := enqueue_pool_ok hok
  have htx : db'.transactions = db.transactions := by rw [hs]
  have hg' := good_enqueue_pool hg hok
  refine ⟨?_, ?_, ?_⟩
  · intro x
    rw [htx]
    exact h.opened x
  · intro k
    have hlive := liveCopies_enqueue_pool hok k
    have hdead : db'.deadCopies k = db.deadCopies k := by rw [hs]; rfl
    have hcount := h.count k
    simp only [List.countP_cons, decide_eq_true_eq]
    unfold Db.places at *
    omega
  · intro i hin
    rcases List.mem_cons.mp hin with rfl | hin
    · have hfind := (Table.find_insert hi db.next_id).trans (if_pos rfl)
      rw [life_of_find hfind]
      rfl
    · have hsame := h.same i hin
      have ht := turn_enqueue_pool (j := i.id) (c := ⟨now, .enqueue_pool kind payload⟩) hg rfl hok
      rw [issue_turn ht (Or.inr (fun hu => by rw [hu] at hsame; cases hsame))]
      exact hsame

/-! ## Every call -/

/-- A call that only rewrites rows of `jobs` leaves the ledger alone. -/
theorem matches_rewrites {g : Ledger} {db : Db} (hg : db.Good) (h : Matches g db) (c : Call)
    (hb : c.op.births = false) (hc : c.op.rewrites = true) : Matches g (exec db c).1 := by
  have ht : (exec db c).1.transactions = db.transactions := by rw [exec_rewrites hc]
  exact matches_still h ht hg (exec_good hg c) (fun j => issue_turn (exec_turn hg c j) (Or.inl hb))

theorem matches_exec {g : Ledger} {db : Db} (hg : db.Good) (h : Matches g db) (c : Call) :
    Matches (g.record (c, (exec db c).2)) (exec db c).1 := by
  obtain ⟨now, op⟩ := c
  cases op with
  | begin xid => exact matches_begin h xid now
  | enqueue xid kind payload =>
    exact matches_insert h xid kind payload (fun tx _ _ _ hok => ⟨tx.now, hok⟩)
  | enqueue_at xid kind payload run_at =>
    exact matches_insert h xid kind payload (fun _ _ _ _ hok => ⟨run_at, enqueue_at_ok hok⟩)
  | notify_ready xid => exact matches_notify h xid
  | commit xid => exact matches_commit hg h xid
  | rollback xid => exact matches_close h xid
  | enqueue_pool kind payload =>
    dsimp only [exec]
    cases hok : skip_locked.enqueue_pool db now kind payload with
    | error e => exact h
    | ok p => exact matches_enqueue_pool hg h hok
  | claim_batch kinds n worker_id plan => exact matches_rewrites hg h _ rfl rfl
  | fair_claim kinds batch per_tenant_cap worker_id plan => exact matches_rewrites hg h _ rfl rfl
  | heartbeat ids worker_id => exact matches_rewrites hg h _ rfl rfl
  | mark_done id => exact matches_rewrites hg h _ rfl rfl
  | requeue id err => exact matches_rewrites hg h _ rfl rfl
  | dead_letter id err =>
    exact matches_still h rfl hg (exec_good hg _)
      (fun j => issue_turn (exec_turn hg ⟨now, .dead_letter id err⟩ j) (Or.inl rfl))
  | reap l => exact matches_rewrites hg h _ rfl rfl

theorem matches_empty : Matches ⟨[], []⟩ Db.empty := by
  refine ⟨?_, ?_, ?_⟩
  · intro xid
    rfl
  · intro k
    rfl
  · intro i hi
    cases hi

theorem matches_after (calls : List Call) : Matches (ledger (history calls)) (after calls) := by
  have hboth : (after calls).Good ∧ Matches (ledger (history calls)) (after calls) := by
    refine run_induction (P := fun h (db : Db) => db.Good ∧ Matches (ledger h) db)
      ⟨good_empty, matches_empty⟩ ?_ calls
    rintro h db c ⟨hg, hm⟩
    refine ⟨exec_good hg c, ?_⟩
    rw [ledger_snoc]
    exact matches_exec hg hm c
  exact hboth.2

/-! ## The dead letters -/

/-- The rows that a call appends to `jobs_dead`. -/
def burials (db : Db) (c : Call) : List DeadRow :=
  match c.op with
  | .dead_letter id err => ((db.jobs.find id).map (deadRow c.now err)).toList
  | _ => []

theorem dead_insertIn {db : Db} {xid : Nat}
    {insert : Transaction → Except PgError (Db × Transaction × Int)}
    (hi : ∀ tx db' tx' id, insert tx = .ok (db', tx', id) →
      ∃ kind payload run_at, insertJob db tx kind payload run_at = .ok (db', tx', id)) :
    (insertIn db xid insert).1.jobs_dead = db.jobs_dead := by
  unfold insertIn
  split
  · rfl
  split
  · rfl
  · rename_i hok
    obtain ⟨kind, payload, run_at, hj⟩ := hi _ _ _ _ hok
    obtain ⟨_, rfl, _⟩ := insertJob_ok hj
    rfl

/-- Nothing but a `dead_letter` writes to `jobs_dead`, and it only appends. -/
theorem dead_exec {db : Db} (hg : db.Good) (c : Call) :
    (exec db c).1.jobs_dead = db.jobs_dead ++ burials db c := by
  obtain ⟨now, op⟩ := c
  have hrw : op.rewrites = true → (exec db ⟨now, op⟩).1.jobs_dead = db.jobs_dead := fun h => by
    rw [exec_rewrites h]
  cases op with
  | begin xid =>
    dsimp only [exec, beginIn, burials]
    split
    · simp
    · simp
  | enqueue xid kind payload =>
    exact (dead_insertIn (fun tx _ _ _ hok => ⟨kind, payload, tx.now, hok⟩)).trans
      (List.append_nil _).symm
  | enqueue_at xid kind payload run_at =>
    exact (dead_insertIn (fun _ _ _ _ hok => ⟨kind, payload, run_at, enqueue_at_ok hok⟩)).trans
      (List.append_nil _).symm
  | notify_ready xid =>
    dsimp only [exec, notifyIn, burials]
    split
    · simp
    · simp [Db.store]
  | commit xid =>
    dsimp only [exec, burials]
    rw [List.append_nil]
    cases hf : db.transactions.find xid with
    | none => simp [commitIn, hf]
    | some tx =>
      obtain ⟨jobs, _, hcm⟩ := commit_ok hg hf
      simp [commitIn, hf, hcm, Db.close]
  | rollback xid => simp [exec, burials, Db.close]
  | enqueue_pool kind payload =>
    dsimp only [exec, burials]
    rw [List.append_nil]
    cases hok : skip_locked.enqueue_pool db now kind payload with
    | error e => rfl
    | ok p =>
      obtain ⟨_, hs, _⟩ := enqueue_pool_ok hok
      simp only [answer]
      rw [hs]
  | dead_letter id err =>
    dsimp only [exec, burials]
    rw [dead_letter_eq]
  | _ => exact (hrw rfl).trans (List.append_nil _).symm

theorem dead_grows (calls more : List Call) :
    (after calls).jobs_dead <+: (after (calls ++ more)).jobs_dead := by
  unfold after
  rw [run_append]
  have hg := after_good calls
  unfold after at hg
  generalize run exec Db.empty calls = db at hg
  have hboth : (run exec db more).Good ∧ db.jobs_dead <+: (run exec db more).jobs_dead := by
    refine run_invariant (P := fun (d : Db) => d.Good ∧ db.jobs_dead <+: d.jobs_dead)
      ⟨hg, List.prefix_refl _⟩ ?_ more
    rintro d c ⟨hd, hp⟩
    refine ⟨exec_good hd c, ?_⟩
    rw [dead_exec hd c]
    exact hp.trans (List.prefix_append _ _)
  exact hboth.2

/-- The call that made a dead row, and the row of `jobs` that it deleted. -/
theorem dead_from_live (calls : List Call) :
    ∀ d ∈ (after calls).jobs_dead, ∃ before now err rest r,
      calls = before ++ ⟨now, .dead_letter d.id err⟩ :: rest ∧
        (after before).jobs.find d.id = some r ∧ d = deadRow now err r := by
  induction calls using List.reverseRecOn with
  | nil =>
    intro d hd
    cases hd
  | append_singleton calls c ih =>
    intro d hd
    have hsnoc : after (calls ++ [c]) = (exec (after calls) c).1 := run_snoc exec _ calls c
    rw [hsnoc, dead_exec (after_good calls), List.mem_append] at hd
    rcases hd with hd | hd
    · obtain ⟨before, now, err, rest, r, hc, hf, he⟩ := ih d hd
      exact ⟨before, now, err, rest ++ [c], r, by simp [hc], hf, he⟩
    · unfold burials at hd
      split at hd
      · rename_i id err hop
        cases hf : (after calls).jobs.find id with
        | none => simp [hf] at hd
        | some r =>
          have hid : r.id = id := Table.key_of_find hf
          simp only [hf, Option.map_some, Option.toList_some, List.mem_singleton] at hd
          subst hd
          have hc : c = ⟨c.now, .dead_letter (deadRow c.now err r).id err⟩ := by
            rw [show (deadRow c.now err r).id = id from hid, ← hop]
          refine ⟨calls, c.now, err, [], r, by rw [← hc], ?_, rfl⟩
          rw [show (deadRow c.now err r).id = id from hid]
          exact hf
      · cases hd

/-- The call is a `dead_letter` of `id` that reports one row. -/
def buries (id : Int) (e : Call × Answer) : Bool :=
  match e.1.op, e.2 with
  | .dead_letter k _, .ok (.rows n) => decide (k = id ∧ n = 1)
  | _, _ => false

theorem buries_dead {db : Db} (hg : db.Good) (c : Call) (id : Int) :
    db.deadCopies id + (if buries id (c, (exec db c).2) then 1 else 0) ≤
      (exec db c).1.deadCopies id := by
  have hcopies : (exec db c).1.deadCopies id =
      db.deadCopies id + (burials db c).countP (fun d => decide (d.id = id)) := by
    unfold Db.deadCopies
    rw [dead_exec hg, List.countP_append]
  rw [hcopies]
  split
  · rename_i hb
    obtain ⟨now, op⟩ := c
    cases op with
    | dead_letter k err =>
      simp only [buries, exec, dead_letter_eq, decide_eq_true_eq] at hb
      obtain ⟨rfl, hone⟩ := hb
      cases hf : db.jobs.find k with
      | none => simp [hf] at hone
      | some r =>
        have hr : r.id = k := Table.key_of_find hf
        simp [burials, hf, deadRow, hr]
    | _ => cases hb
  · omega

theorem buried_once (id : Int) (calls : List Call) :
    (history calls).countP (buries id) ≤ 1 := by
  have hboth : (after calls).Good ∧
      (history calls).countP (buries id) ≤ (after calls).deadCopies id := by
    refine run_induction
      (P := fun h (db : Db) => db.Good ∧ h.countP (buries id) ≤ db.deadCopies id)
      ⟨good_empty, Nat.zero_le _⟩ ?_ calls
    rintro h db c ⟨hg, hle⟩
    refine ⟨exec_good hg c, ?_⟩
    have := buries_dead hg c id
    rw [List.countP_append, List.countP_singleton]
    omega
  obtain ⟨hg, hle⟩ := hboth
  have hone := hg.once id
  unfold Db.copies at hone
  omega

theorem committed_nodup (calls : List Call) : ((committed (history calls)).map (·.id)).Nodup := by
  have hm := matches_after calls
  rw [List.nodup_iff_count_le_one]
  intro k
  have hone := (after_good calls).once k
  have hcount := hm.count k
  rw [List.count_eq_countP, List.countP_map]
  have hsame : (committed (history calls)).countP ((· == k) ∘ (·.id)) =
      (ledger (history calls)).committed.countP (fun i => decide (i.id = k)) := rfl
  unfold Db.copies at hone
  unfold Db.places at hcount
  omega

theorem liveCopies_rows (db : Db) (k : Int) :
    db.liveCopies k = db.jobs.rows.countP (fun r => decide (r.id = k)) := by
  have hc := Table.count_key db.jobs (fun r => decide (r.id = k)) k (by simp)
  unfold Table.count Table.matching at hc
  rw [← List.countP_eq_length_filter] at hc
  rw [hc]
  unfold Db.liveCopies
  cases hf : db.jobs.find k with
  | none => rfl
  | some r =>
    have hr : r.id = k := Table.key_of_find hf
    simp [hr]

/-- A job in a table is in the ledger, as it is. -/
theorem committed_of_life {calls : List Call} {j : Int} {i : Issue}
    (hl : ((after calls).life j).issue = some i) :
    i ∈ committed (history calls) := by
  have hm := matches_after calls
  have hcount := hm.count j
  rw [places_eq (after_good calls), hl] at hcount
  have hpos : 0 < (committed (history calls)).countP (fun i => decide (i.id = j)) := by
    unfold committed
    rw [hcount]
    simp
  obtain ⟨i', hmem, hid⟩ := List.countP_pos_iff.mp hpos
  have hsame := hm.same i' hmem
  rw [of_decide_eq_true hid, hl, Option.some.injEq] at hsame
  rw [hsame]
  exact hmem

/-- The law of conservation. A committed enqueue has its job in exactly one of the two
tables, once, with its kind and payload, and no other row is in a table. A dead row stays
as it is, and it is the row that its `dead_letter` deleted, with the state 'dead'. A
`dead_letter` reports one row when its id is in `jobs` and else none, so it reports one at
most once for an id. -/
theorem jobs_are_conserved (calls : List Call) :
    ((committed (history calls)).map (·.id)).Nodup ∧
    (∀ i ∈ committed (history calls),
      (after calls).jobs.rows.countP (fun r => decide (r.id = i.id)) +
        (after calls).jobs_dead.countP (fun d => decide (d.id = i.id)) = 1) ∧
    (∀ r ∈ (after calls).jobs.rows, issueOf r ∈ committed (history calls)) ∧
    (∀ d ∈ (after calls).jobs_dead, issueOf d.toJobRow ∈ committed (history calls)) ∧
    (∀ more, (after calls).jobs_dead <+: (after (calls ++ more)).jobs_dead) ∧
    (∀ d ∈ (after calls).jobs_dead, d.state = .dead ∧ ∃ before now err rest r,
      calls = before ++ ⟨now, .dead_letter d.id err⟩ :: rest ∧
        (after before).jobs.find d.id = some r ∧
        d.attempts = r.attempts ∧ d.max_attempts = r.max_attempts) ∧
    (∀ pre now id err a post, history calls = pre ++ (⟨now, .dead_letter id err⟩, a) :: post →
      a = .ok (.rows (if id ∈ (after (pre.map Prod.fst)).jobs.rows.map (·.id) then 1 else 0))) ∧
    ∀ id, (history calls).countP (buries id) ≤ 1 := by
  have hg := after_good calls
  refine ⟨committed_nodup calls, ?_, ?_, ?_, dead_grows calls, ?_, ?_,
    fun id => buried_once id calls⟩
  · intro i hi
    have hplaces := places_eq hg i.id
    rw [(matches_after calls).same i hi] at hplaces
    unfold Db.places at hplaces
    rw [liveCopies_rows] at hplaces
    exact hplaces
  · intro r hr
    have hl := life_of_row hr
    exact committed_of_life (j := r.id) (by rw [hl]; rfl)
  · intro d hd
    have hl := life_of_dead hg hd
    exact committed_of_life (j := d.id) (by rw [hl]; rfl)
  · intro d hd
    obtain ⟨before, now, err, rest, r, hc, hf, he⟩ := dead_from_live calls d hd
    refine ⟨by rw [he]; rfl, before, now, err, rest, r, hc, hf, ?_, ?_⟩
    · rw [he]
      rfl
    · rw [he]
      rfl
  · intro pre now id err a post h
    obtain ⟨before, later, _, hpre, he⟩ := history_split h
    have hbefore : pre.map Prod.fst = before := by
      rw [← hpre]
      exact trace_map_fst exec _ before
    rw [hbefore]
    simp only [exec, dead_letter_eq] at he
    rw [he]
    simp only [Table.find_isSome]

end skip_locked
