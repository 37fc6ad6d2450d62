-- Each id is in one place: in `jobs`, in `jobs_dead`, or in one open
-- transaction of a producer. Every call keeps this.
import SkipLocked.Queue

open jsonb postgres keyed_table event_runs

namespace skip_locked

open claim lease retry

/-- How often id `k` is in the rows of `jobs`, of `jobs_dead`, and of the open transactions. -/
def Db.liveCopies (db : Db) (k : Int) : Nat := if (db.jobs.find k).isSome then 1 else 0

def Db.deadCopies (db : Db) (k : Int) : Nat := db.jobs_dead.countP (fun d => decide (d.id = k))

def Transaction.copies (k : Int) (tx : Transaction) : Nat :=
  tx.inserted.countP (fun r => decide (r.id = k))

def Db.openCopies (db : Db) (k : Int) : Nat := (db.transactions.rows.map (Transaction.copies k)).sum

def Db.copies (db : Db) (k : Int) : Nat := db.liveCopies k + db.deadCopies k + db.openCopies k

/-- A row of an open transaction is as its insert made it. -/
def FreshRow (r : JobRow) : Prop := ∃ kind payload run_at, r = newRow r.id kind payload run_at

structure Db.Good (db : Db) : Prop where
  once : ∀ k, db.copies k ≤ 1
  issued : ∀ k, 0 < db.copies k → 1 ≤ k ∧ k < db.next_id
  next : 1 ≤ db.next_id
  fresh : ∀ tx ∈ db.transactions.rows, ∀ r ∈ tx.inserted, FreshRow r

theorem good_empty : Db.empty.Good := by
  refine ⟨?_, ?_, ?_, ?_⟩
  · intro k
    simp [Db.copies, Db.liveCopies, Db.deadCopies, Db.openCopies, Db.empty]
  · intro k
    simp [Db.copies, Db.liveCopies, Db.deadCopies, Db.openCopies, Db.empty]
  · simp [Db.empty]
  · simp [Db.empty]

/-- A statement that only rewrites rows of `jobs` keeps each id where it is. -/
theorem good_map {db db' : Db} (h : db.Good) (hs : db' = { db with jobs := db'.jobs })
    (hf : ∀ k, (db'.jobs.find k).isSome = (db.jobs.find k).isSome) : db'.Good := by
  have hc : ∀ k, db'.copies k = db.copies k := by
    intro k
    unfold Db.copies Db.liveCopies
    rw [hf]
    rw [hs]
    rfl
  obtain ⟨h1, h2, h3, h4⟩ := h
  refine ⟨fun k => hc k ▸ h1 k, ?_, ?_, ?_⟩
  · intro k hk
    rw [hs]
    exact h2 k (hc k ▸ hk)
  · rw [hs]; exact h3
  · rw [hs]; exact h4

theorem find_dead {db : Db} {j : Int} : 0 < db.deadCopies j ↔
    ∃ d, db.jobs_dead.find? (fun d => decide (d.id = j)) = some d := by
  unfold Db.deadCopies
  rw [List.countP_pos_iff, ← Option.isSome_iff_exists, List.find?_isSome]

/-! ## The producers -/

theorem copies_pos {tx : Transaction} {k : Int} :
    0 < tx.copies k ↔ ∃ r ∈ tx.inserted, r.id = k := by
  simp [Transaction.copies, List.countP_pos_iff]

theorem openCopies_store {db : Db} {xid : Nat} {tx tx' : Transaction}
    (h : db.transactions.find xid = some tx) (hx : tx'.xid = xid) (k : Int) :
    (db.store tx').openCopies k + tx.copies k = db.openCopies k + tx'.copies k := by
  subst hx
  exact Table.sum_update_key h tx'.set tx'.set_xid (Transaction.copies k)

theorem openCopies_close {db : Db} {xid : Nat} {tx : Transaction}
    (h : db.transactions.find xid = some tx) (k : Int) :
    (db.close xid).openCopies k + tx.copies k = db.openCopies k :=
  Table.sum_delete_key h (Transaction.copies k)

/-- A rollback of a transaction that is not open does nothing. -/
theorem close_of_none {db : Db} {xid : Nat} (h : db.transactions.find xid = none) :
    db.close xid = db := by
  unfold Db.close
  rw [Table.delete_of_none h]

theorem copies_le_open {db : Db} {xid : Nat} {tx : Transaction}
    (h : db.transactions.find xid = some tx) (k : Int) : tx.copies k ≤ db.openCopies k := by
  have := openCopies_close h k
  omega

theorem good_close {db : Db} (h : db.Good) (xid : Nat) : (db.close xid).Good := by
  have hc : ∀ k, (db.close xid).copies k ≤ db.copies k := by
    intro k
    cases hf : db.transactions.find xid with
    | none => rw [close_of_none hf]
    | some tx =>
      have := openCopies_close hf k
      have hl : (db.close xid).liveCopies k = db.liveCopies k := rfl
      have hd : (db.close xid).deadCopies k = db.deadCopies k := rfl
      unfold Db.copies
      omega
  obtain ⟨h1, h2, h3, h4⟩ := h
  refine ⟨fun k => (hc k).trans (h1 k), ?_, h3, ?_⟩
  · intro k hk
    exact h2 k (by have := hc k; omega)
  · intro tx htx
    exact h4 tx (List.mem_of_mem_filter htx)

/-- Rewriting an open transaction with fresh rows, one of them with the id issued next. -/
theorem good_store {db db' : Db} {xid : Nat} {tx tx' : Transaction} (h : db.Good)
    (hf : db.transactions.find xid = some tx) (hx : tx'.xid = xid)
    (hs : db' = { db with next_id := db'.next_id }) (hn : db.next_id ≤ db'.next_id)
    (hc : ∀ k, tx'.copies k = tx.copies k ∨ (tx'.copies k = tx.copies k + 1 ∧ k = db.next_id ∧
      db.next_id < db'.next_id))
    (hr : ∀ r ∈ tx'.inserted, FreshRow r) : (db'.store tx').Good := by
  have hf' : db'.transactions.find xid = some tx := by rw [hs]; exact hf
  have hcopies : ∀ k, (db'.store tx').copies k + tx.copies k = db.copies k + tx'.copies k := by
    intro k
    have h1 := openCopies_store hf' hx k
    have h2 : db'.openCopies k = db.openCopies k := by rw [hs]; rfl
    have h3 : (db'.store tx').liveCopies k = db.liveCopies k := by
      rw [hs]; rfl
    have h4 : (db'.store tx').deadCopies k = db.deadCopies k := by
      rw [hs]; rfl
    unfold Db.copies
    omega
  obtain ⟨g1, g2, g3, g4⟩ := h
  have hnext : (db'.store tx').next_id = db'.next_id := rfl
  refine ⟨?_, ?_, ?_, ?_⟩
  · intro k
    have := hcopies k
    have := g1 k
    rcases hc k with hk | ⟨hk, hkn, _⟩
    · omega
    · have hz : ¬ 0 < db.copies k := fun hp => by have := g2 k hp; omega
      omega
  · intro k hk
    have := hcopies k
    rw [hnext]
    rcases hc k with hk' | ⟨hk', hkn, hlt⟩
    · have := g2 k (by omega)
      omega
    · omega
  · rw [hnext]; omega
  · intro t ht r hrt
    obtain ⟨u, hu, rfl⟩ := List.mem_map.mp ht
    by_cases hux : u.xid = tx'.xid
    · simp only [hux, decide_true, if_true] at hrt
      exact hr r hrt
    · simp only [hux, decide_false, Bool.false_eq_true, if_false] at hrt
      have hu' : u ∈ db.transactions.rows := by rw [hs] at hu; exact hu
      exact g4 u hu' r hrt

theorem good_begin {db : Db} (h : db.Good) (xid : Nat) (now : Int) :
    (beginIn db xid now).1.Good := by
  unfold beginIn
  split
  · exact h
  · rename_i transactions hi
    have hrows : transactions.rows = Transaction.start xid now :: db.transactions.rows := by
      unfold Table.insert at hi
      split at hi
      · cases hi
      · cases hi; rfl
    obtain ⟨h1, h2, h3, h4⟩ := h
    have hc : ∀ k, ({ db with transactions } : Db).copies k = db.copies k := by
      intro k
      simp [Db.copies, Db.liveCopies, Db.deadCopies, Db.openCopies, hrows, Transaction.copies,
        Transaction.start]
    refine ⟨fun k => hc k ▸ h1 k, fun k hk => h2 k (hc k ▸ hk), h3, ?_⟩
    intro tx htx
    simp only [hrows, List.mem_cons] at htx
    rcases htx with rfl | htx
    · simp [Transaction.start]
    · exact h4 tx htx

theorem good_insert {db : Db} (h : db.Good) (xid : Nat)
    (insert : Transaction → Except PgError (Db × Transaction × Int))
    (hi : ∀ tx db' tx' id, insert tx = .ok (db', tx', id) →
      ∃ kind payload run_at, insertJob db tx kind payload run_at = .ok (db', tx', id)) :
    (insertIn db xid insert).1.Good := by
  unfold insertIn
  split
  · exact h
  rename_i tx hf
  split
  · exact good_close h xid
  rename_i db' tx' id hok
  obtain ⟨kind, payload, run_at, hj⟩ := hi _ _ _ _ hok
  obtain ⟨rfl, rfl, rfl⟩ := insertJob_ok hj
  have htx := Table.mem_of_find hf
  have hx : tx.xid = xid := Table.key_of_find hf
  refine good_store h hf hx rfl (by simp) ?_ ?_
  · intro k
    by_cases hk : db.next_id = k
    · right
      refine ⟨?_, hk.symm, by simp⟩
      simp [Transaction.copies, newRow, hk]
    · left
      simp [Transaction.copies, newRow, hk]
  · intro r hr
    rcases List.mem_cons.mp hr with rfl | hr
    · exact ⟨kind, payload, run_at, rfl⟩
    · exact h.fresh tx htx r hr

/-- The commit of an open transaction never fails: its ids are new. -/
theorem commit_ok {db : Db} (h : db.Good) {xid : Nat} {tx : Transaction}
    (hf : db.transactions.find xid = some tx) :
    ∃ jobs, insertAll db.jobs tx.inserted = some jobs ∧ skip_locked.commit db tx = .ok
      { db with jobs, notified := if tx.notify then db.notified + 1 else db.notified } := by
  have hle := copies_le_open hf
  have hnew : ∀ r ∈ tx.inserted, db.jobs.find r.id = none := by
    intro r hr
    have hp := copies_pos.mpr ⟨r, hr, rfl⟩
    have := hle r.id
    have := h.once r.id
    by_contra hn
    have hl : db.liveCopies r.id = 1 := if_pos (Option.isSome_iff_ne_none.mpr hn)
    unfold Db.copies at this
    omega
  have hnd : (tx.inserted.map (·.id)).Nodup := by
    rw [List.nodup_iff_count_le_one]
    intro k
    have := hle k
    have := h.once k
    have hcount : (tx.inserted.map (·.id)).count k = tx.copies k := by
      rw [List.count_eq_countP, List.countP_map]
      rfl
    unfold Db.copies at this
    omega
  obtain ⟨jobs, hjobs⟩ := insertAll_isSome hnew hnd
  exact ⟨jobs, hjobs, by simp [skip_locked.commit, hjobs]⟩

/-- After a commit the rows of the transaction are live, and all else is as it was. -/
theorem find_commitIn {db : Db} (h : db.Good) {xid : Nat} {tx : Transaction}
    (hf : db.transactions.find xid = some tx) (k : Int) :
    (commitIn db xid).1.jobs.find k =
      (tx.inserted.find? (fun r => decide (r.id = k))).or (db.jobs.find k) := by
  obtain ⟨jobs, hjobs, hc⟩ := commit_ok h hf
  unfold commitIn
  simp only [hf, hc]
  exact find_insertAll hjobs k

theorem liveCopies_commitIn {db : Db} (h : db.Good) {xid : Nat} {tx : Transaction}
    (hf : db.transactions.find xid = some tx) (k : Int) :
    (commitIn db xid).1.liveCopies k = db.liveCopies k + tx.copies k := by
  have hone := h.once k
  have hle := copies_le_open hf k
  unfold Db.copies at hone
  unfold Db.liveCopies at hone ⊢
  rw [find_commitIn h hf k]
  by_cases hp : 0 < tx.copies k
  · have hsome : (tx.inserted.find? (fun r => decide (r.id = k))).isSome := by
      rw [List.find?_isSome]
      obtain ⟨r, hr, hk⟩ := copies_pos.mp hp
      exact ⟨r, hr, by simpa using hk⟩
    rw [Option.isSome_or, hsome, Bool.true_or, if_pos rfl]
    omega
  · have hnone : tx.inserted.find? (fun r => decide (r.id = k)) = none := by
      rw [List.find?_eq_none]
      intro r hr hk
      exact hp (copies_pos.mpr ⟨r, hr, by simpa using hk⟩)
    rw [hnone, Option.none_or]
    omega

theorem good_commit {db : Db} (h : db.Good) (xid : Nat) : (commitIn db xid).1.Good := by
  cases hf : db.transactions.find xid with
  | none => simpa [commitIn, hf] using h
  | some tx =>
    obtain ⟨jobs, hjobs, hcm⟩ := commit_ok h hf
    have hc : ∀ k, (commitIn db xid).1.copies k = db.copies k := by
      intro k
      have h1 := openCopies_close hf k
      have h2 : (commitIn db xid).1.openCopies k = (db.close xid).openCopies k := by
        simp only [commitIn, hf, hcm]
        rfl
      have h3 : (commitIn db xid).1.deadCopies k = db.deadCopies k := by
        simp only [commitIn, hf, hcm]
        rfl
      have h4 := liveCopies_commitIn h hf k
      unfold Db.copies
      omega
    have hnext : (commitIn db xid).1.next_id = db.next_id := by
      simp only [commitIn, hf, hcm]
      rfl
    have htx : (commitIn db xid).1.transactions = (db.close xid).transactions := by
      simp only [commitIn, hf, hcm]
      rfl
    refine ⟨fun k => hc k ▸ h.once k, fun k hk => ?_, ?_, ?_⟩
    · rw [hnext]
      exact h.issued k (hc k ▸ hk)
    · rw [hnext]
      exact h.next
    · rw [htx]
      exact (good_close h xid).fresh

/-- The one row of `enqueue_pool`, with the id issued next. -/
theorem enqueue_pool_ok {db db' : Db} {now : Int} {kind : Text} {payload : Jsonb} {id : Int}
    (h : skip_locked.enqueue_pool db now kind payload = .ok (db', id)) :
    id = db.next_id ∧ db' = { db with jobs := db'.jobs, next_id := db.next_id + 1,
                                      notified := db.notified + 1 } ∧
      db.jobs.insert (newRow db.next_id kind payload now) = some db'.jobs := by
  unfold skip_locked.enqueue_pool at h
  obtain ⟨⟨db1, tx, n⟩, h1, h⟩ := bind_ok h
  obtain ⟨rfl, rfl, rfl⟩ := insertJob_ok h1
  obtain ⟨db2, h2, h⟩ := bind_ok h
  cases h
  unfold skip_locked.commit at h2
  split at h2
  · cases h2
  · rename_i jobs hjobs
    cases h2
    refine ⟨rfl, rfl, ?_⟩
    simpa [insertAll, notify_ready, Transaction.start] using hjobs

theorem liveCopies_born {db db' : Db} {r : JobRow} (hid : r.id = db.next_id)
    (hi : db.jobs.insert r = some db'.jobs) (k : Int) :
    db'.liveCopies k = db.liveCopies k + if db.next_id = k then 1 else 0 := by
  unfold Db.liveCopies
  rw [Table.find_insert hi k, hid]
  by_cases hk : db.next_id = k
  · have hnone := Table.find_of_insert hi
    rw [hid, hk] at hnone
    simp [hk, hnone]
  · simp [hk]

/-- A new row with the id issued next. -/
theorem good_born {db db' : Db} {r : JobRow} (h : db.Good) (hid : r.id = db.next_id)
    (hs : db' = { db with jobs := db'.jobs, next_id := db.next_id + 1, notified := db'.notified })
    (hi : db.jobs.insert r = some db'.jobs) : db'.Good := by
  have hc : ∀ k, db'.copies k = db.copies k + if db.next_id = k then 1 else 0 := by
    intro k
    have h1 : db'.openCopies k = db.openCopies k := by rw [hs]; rfl
    have h2 : db'.deadCopies k = db.deadCopies k := by rw [hs]; rfl
    have h3 := liveCopies_born hid hi k
    unfold Db.copies
    omega
  have hnext : db'.next_id = db.next_id + 1 := by rw [hs]
  obtain ⟨g1, g2, g3, g4⟩ := h
  refine ⟨?_, ?_, by omega, ?_⟩
  · intro k
    have := hc k
    have := g1 k
    have := g2 k
    split at * <;> omega
  · intro k hk
    have := hc k
    have := g2 k
    split at * <;> omega
  · rw [hs]
    exact g4

theorem liveCopies_enqueue_pool {db db' : Db} {now : Int} {kind : Text} {payload : Jsonb}
    {id : Int} (h : skip_locked.enqueue_pool db now kind payload = .ok (db', id)) (k : Int) :
    db'.liveCopies k = db.liveCopies k + if id = k then 1 else 0 := by
  obtain ⟨rfl, _, hi⟩ := enqueue_pool_ok h
  exact liveCopies_born rfl hi k

theorem good_enqueue_pool {db db' : Db} {now : Int} {kind : Text} {payload : Jsonb} {id : Int}
    (h : db.Good) (hok : skip_locked.enqueue_pool db now kind payload = .ok (db', id)) :
    db'.Good := by
  obtain ⟨_, hs, hi⟩ := enqueue_pool_ok hok
  exact good_born h rfl (by rw [hs]) hi

/-! ## Every call -/

/-- The calls that only rewrite rows of `jobs`. -/
def Op.rewrites : Op → Bool
  | .claim_batch .. => true
  | .fair_claim .. => true
  | .heartbeat .. => true
  | .mark_done _ => true
  | .requeue .. => true
  | .reap _ => true
  | _ => false

theorem answer_rewrites {α : Type} {db : Db} {reply : α → Reply}
    {res : Except PgError (Db × α)}
    (hok : ∀ db' a, res = .ok (db', a) → db' = { db with jobs := db'.jobs }) :
    (answer db reply res).1 = { db with jobs := (answer db reply res).1.jobs } := by
  rcases res with e | ⟨db', a⟩
  · rfl
  · exact hok db' a rfl

theorem exec_rewrites {db : Db} {c : Call} (h : c.op.rewrites = true) :
    (exec db c).1 = { db with jobs := (exec db c).1.jobs } := by
  unfold exec
  cases hop : c.op with
  | claim_batch kinds n worker_id plan =>
    exact answer_rewrites (fun _ _ hok => (claim_batch_took hok).same)
  | fair_claim kinds batch per_tenant_cap worker_id plan =>
    exact answer_rewrites (fun _ _ hok => (fair_claim_took hok).same)
  | heartbeat ids worker_id => rfl
  | mark_done id => rfl
  | requeue id err =>
    refine answer_rewrites (fun db' n hok => ?_)
    rcases requeue_ok hok with ⟨_, rfl, _⟩ | ⟨_, _, _, _, _, _, hs, _⟩
    · rfl
    · exact hs
  | reap l =>
    refine answer_rewrites (fun db' n hok => ?_)
    obtain ⟨_, _, _, rfl⟩ := reap_ok hok
    rfl
  | _ =>
    rw [hop] at h
    cases h

theorem good_answer {α : Type} {db : Db} (h : db.Good) (reply : α → Reply)
    {res : Except PgError (Db × α)} (hok : ∀ db' a, res = .ok (db', a) → db'.Good) :
    (answer db reply res).1.Good := by
  rcases res with e | ⟨db', a⟩
  · exact h
  · exact hok db' a rfl

theorem good_took {db db' : Db} {now : Int} {kinds : List Text} {worker_id : Text}
    {plan : Plan} {jobs : List Job} (h : db.Good)
    (ht : Took db now kinds worker_id plan db' jobs) : db'.Good := by
  refine good_map h ht.same ?_
  intro k
  rw [ht.row k, Option.isSome_map]

theorem good_requeue {db db' : Db} {now : Int} {id : Int} {err : Text} {n : Nat}
    (h : db.Good) (hok : retry.requeue db now id err = .ok (db', n)) : db'.Good := by
  rcases requeue_ok hok with ⟨_, rfl, _⟩ | ⟨_, r, run_at, hf, _, _, hs, hrow⟩
  · exact h
  · refine good_map h hs ?_
    intro k
    rw [hrow k]
    split
    · rename_i hk
      rw [hk, hf]
      rfl
    · rfl

theorem good_dead_letter {db : Db} (h : db.Good) (now id : Int) (err : Text) :
    (retry.dead_letter db now id err).1.Good := by
  have hc : ∀ k, (retry.dead_letter db now id err).1.copies k = db.copies k := by
    intro k
    have hopen : (retry.dead_letter db now id err).1.openCopies k = db.openCopies k := rfl
    have hlive : (retry.dead_letter db now id err).1.liveCopies k =
        if k = id then 0 else db.liveCopies k := by
      unfold Db.liveCopies
      rw [find_dead_letter]
      split <;> rfl
    have hdead : (retry.dead_letter db now id err).1.deadCopies k =
        db.deadCopies k + if k = id then db.liveCopies k else 0 := by
      unfold Db.deadCopies Db.liveCopies
      rw [dead_letter_eq, List.countP_append]
      cases hf : db.jobs.find id with
      | none =>
        by_cases hk : k = id
        · simp [hk, hf]
        · simp [hk]
      | some r =>
        have hid := Table.key_of_find hf
        by_cases hk : k = id
        · simp [hk, hf, deadRow, hid]
        · simp [hk, deadRow, hid, Ne.symm hk]
    unfold Db.copies
    split at hlive <;> split at hdead <;> omega
  exact ⟨fun k => hc k ▸ h.once k, fun k hk => h.issued k (hc k ▸ hk), h.next, h.fresh⟩

/-- Every call keeps each id in one place. -/
theorem exec_good {db : Db} (h : db.Good) (c : Call) : (exec db c).1.Good := by
  unfold exec
  cases c.op with
  | begin xid => exact good_begin h xid c.now
  | enqueue xid kind payload =>
    exact good_insert h xid _ (fun tx _ _ _ hok => ⟨kind, payload, tx.now, hok⟩)
  | enqueue_at xid kind payload run_at =>
    exact good_insert h xid _ (fun _ _ _ _ hok => ⟨kind, payload, run_at, enqueue_at_ok hok⟩)
  | notify_ready xid =>
    dsimp only [notifyIn]
    split
    · exact h
    · rename_i tx hf
      have hx : tx.xid = xid := Table.key_of_find hf
      exact good_store h hf hx rfl (Int.le_refl _) (fun _ => Or.inl rfl)
        (h.fresh tx (Table.mem_of_find hf))
  | commit xid => exact good_commit h xid
  | rollback xid => exact good_close h xid
  | enqueue_pool kind payload => exact good_answer h _ (fun _ _ hok => good_enqueue_pool h hok)
  | claim_batch kinds n worker_id plan =>
    exact good_answer h _ (fun _ _ hok => good_took h (claim_batch_took hok))
  | fair_claim kinds batch per_tenant_cap worker_id plan =>
    exact good_answer h _ (fun _ _ hok => good_took h (fair_claim_took hok))
  | heartbeat ids worker_id =>
    refine good_map h rfl ?_
    intro k
    rw [find_heartbeat, Option.isSome_map]
  | mark_done id =>
    refine good_map h rfl ?_
    intro k
    rw [find_mark_done, Option.isSome_map]
  | requeue id err => exact good_answer h _ (fun _ _ hok => good_requeue h hok)
  | dead_letter id err => exact good_dead_letter h c.now id err
  | reap l =>
    refine good_answer h _ (fun db' n hok => ?_)
    obtain ⟨cutoff, _, _, rfl⟩ := reap_ok hok
    refine good_map h rfl ?_
    intro k
    rw [Table.find_update, Option.isSome_map]

theorem after_good (calls : List Call) : (after calls).Good :=
  run_invariant good_empty (fun _ c h => exec_good h c) calls

end skip_locked
