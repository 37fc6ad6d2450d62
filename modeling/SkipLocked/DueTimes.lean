-- The law of delayed jobs: no claim hands a job out before the time that its
-- enqueue set, through all reaps, crashes and claims of others. Only a requeue
-- of the job sets another time.
import SkipLocked.Deliveries

open jsonb postgres keyed_table event_runs

namespace skip_locked

open claim lease retry

/-! ## The time of a job -/

/-- The time that an enqueue sets for its job: `run_at`, or the `now()` of its transaction. -/
def promised (db : Db) (c : Call) : Option Int :=
  match c.op with
  | .enqueue xid _ _ => (db.transactions.find xid).map (·.now)
  | .enqueue_at _ _ _ run_at => some run_at
  | .enqueue_pool _ _ => some c.now
  | _ => none

/-- Job `j` is due at `t`, in each row that it has: in the table or in an open transaction. -/
structure DueAt (j t : Int) (db : Db) : Prop where
  issued : j < db.next_id
  opened : ∀ tx ∈ db.transactions.rows, ∀ r ∈ tx.inserted, r.id = j → r.run_at = t
  live : ∀ r, db.jobs.find j = some r → r.run_at = t

theorem mem_store {db : Db} {tx t : Transaction} (h : t ∈ (db.store tx).transactions.rows) :
    t.inserted = tx.inserted ∨ t ∈ db.transactions.rows := by
  obtain ⟨u, hu, rfl⟩ := List.mem_map.mp h
  by_cases hx : u.xid = tx.xid
  · refine Or.inl ?_
    simp [hx, Transaction.set]
  · refine Or.inr ?_
    simpa [hx] using hu

/-- An insert that succeeds puts one row into its open transaction. -/
theorem insertIn_ok {db : Db} {xid : Nat}
    {insert : Transaction → Except PgError (Db × Transaction × Int)}
    {n : Int} (h : (insertIn db xid insert).2 = .ok (.id n)) :
    ∃ tx db' tx', db.transactions.find xid = some tx ∧ insert tx = .ok (db', tx', n) ∧
      (insertIn db xid insert).1 = db'.store tx' := by
  unfold insertIn at h ⊢
  cases hf : db.transactions.find xid with
  | none =>
    rw [hf] at h
    cases h
  | some tx =>
    rw [hf] at h
    dsimp only at h ⊢
    cases hi : insert tx with
    | error e =>
      rw [hi] at h
      cases h
    | ok p =>
      obtain ⟨db', tx', id⟩ := p
      rw [hi] at h
      cases h
      exact ⟨tx, db', tx', rfl, hi, rfl⟩

/-! ## The enqueue -/

/-- A row of a transaction has an id that was issued. -/
theorem issued_of_opened {db : Db} (hg : db.Good) {tx : Transaction}
    (htx : tx ∈ db.transactions.rows) {r : JobRow} (hr : r ∈ tx.inserted) : r.id < db.next_id := by
  have hpos : 0 < tx.copies r.id := copies_pos.mpr ⟨r, hr, rfl⟩
  have hle := copies_le_open (Table.find_of_mem htx) r.id
  refine (hg.issued r.id ?_).2
  unfold Db.copies
  omega

theorem issued_of_live {db : Db} (hg : db.Good) {k : Int} {r : JobRow}
    (hf : db.jobs.find k = some r) : k < db.next_id := by
  refine (hg.issued k ?_).2
  unfold Db.copies Db.liveCopies
  rw [hf]
  simp

theorem dueAt_insertIn {db : Db} (hg : db.Good) {xid : Nat} {kind : Text} {payload : Jsonb}
    {run_at : Int} {db' : Db} {tx tx' : Transaction} {n : Int}
    (hf : db.transactions.find xid = some tx)
    (hi : insertJob db tx kind payload run_at = .ok (db', tx', n)) :
    DueAt n run_at (db'.store tx') := by
  obtain ⟨rfl, rfl, rfl⟩ := insertJob_ok hi
  refine ⟨Int.lt_succ _, ?_, ?_⟩
  · intro t ht r hr hid
    rcases mem_store ht with hsame | ht
    · rw [hsame] at hr
      rcases List.mem_cons.mp hr with rfl | hr
      · rfl
      · have := issued_of_opened hg (Table.mem_of_find hf) hr
        omega
    · have := issued_of_opened hg ht hr
      omega
  · intro r hr
    have := issued_of_live hg hr
    omega

/-- The job of an enqueue is due when the enqueue says. -/
theorem dueAt_enqueued {db : Db} (hg : db.Good) {c : Call} {j t : Int}
    (ha : (exec db c).2 = .ok (.id j)) (ht : promised db c = some t) :
    DueAt j t (exec db c).1 := by
  obtain ⟨now, op⟩ := c
  cases op with
  | enqueue xid kind payload =>
    obtain ⟨tx, db', tx', hf, hi, hdb⟩ := insertIn_ok ha
    have htime : tx.now = t := by
      simp only [promised, hf, Option.map_some, Option.some.injEq] at ht
      exact ht
    show DueAt j t (insertIn db xid _).1
    rw [hdb, ← htime]
    exact dueAt_insertIn hg hf hi
  | enqueue_at xid kind payload run_at =>
    obtain ⟨tx, db', tx', hf, hi, hdb⟩ := insertIn_ok ha
    obtain rfl : run_at = t := Option.some.inj ht
    show DueAt j run_at (insertIn db xid _).1
    rw [hdb]
    exact dueAt_insertIn hg hf (enqueue_at_ok hi)
  | enqueue_pool kind payload =>
    cases ht
    dsimp only [exec] at ha ⊢
    cases hok : skip_locked.enqueue_pool db now kind payload with
    | error e =>
      rw [hok] at ha
      cases ha
    | ok p =>
      rw [hok] at ha
      obtain ⟨db', id⟩ := p
      cases ha
      obtain ⟨rfl, hs, hins⟩ := enqueue_pool_ok hok
      show DueAt db.next_id now db'
      refine ⟨?_, ?_, ?_⟩
      · rw [hs]
        exact Int.lt_succ _
      · intro tx htx r hr hid
        have htx : tx ∈ db.transactions.rows := by
          rw [hs] at htx
          exact htx
        have := issued_of_opened hg htx hr
        omega
      · intro r hr
        rw [Table.find_insert hins] at hr
        simp only [newRow, if_pos, Option.some.injEq] at hr
        rw [← hr]
  | _ => cases ht

/-! ## The other calls -/

/-- A call that leaves the transactions, when it sets no other time in the row. -/
theorem dueAt_row {db db' : Db} {j t : Int} (h : DueAt j t db)
    (hnext : db'.next_id = db.next_id) (hopened : db'.transactions = db.transactions)
    (hlive : ∀ r', db'.jobs.find j = some r' →
      ∃ r, db.jobs.find j = some r ∧ r'.run_at = r.run_at) : DueAt j t db' := by
  refine ⟨?_, ?_, ?_⟩
  · rw [hnext]
    exact h.issued
  · rw [hopened]
    exact h.opened
  · intro r' hr'
    obtain ⟨r, hr, hsame⟩ := hlive r' hr'
    rw [hsame]
    exact h.live r hr

theorem dueAt_close {db : Db} {j t : Int} (h : DueAt j t db) (xid : Nat) :
    DueAt j t (db.close xid) :=
  ⟨h.issued, fun tx htx => h.opened tx (List.mem_of_mem_filter htx), h.live⟩

theorem dueAt_insert {db : Db} {j t : Int} (h : DueAt j t db) (xid : Nat)
    {insert : Transaction → Except PgError (Db × Transaction × Int)}
    (hi : ∀ tx db' tx' id, insert tx = .ok (db', tx', id) →
      ∃ kind payload run_at, insertJob db tx kind payload run_at = .ok (db', tx', id)) :
    DueAt j t (insertIn db xid insert).1 := by
  unfold insertIn
  split
  · exact h
  rename_i tx hf
  split
  · exact dueAt_close h xid
  rename_i db' tx' id hok
  obtain ⟨kind, payload, run_at, hj⟩ := hi _ _ _ _ hok
  obtain ⟨rfl, rfl, rfl⟩ := insertJob_ok hj
  have hissued := h.issued
  refine ⟨Int.lt_trans hissued (Int.lt_succ _), ?_, h.live⟩
  intro u hu r hr hid
  rcases mem_store hu with hsame | hu
  · rw [hsame] at hr
    rcases List.mem_cons.mp hr with rfl | hr
    · simp only [newRow] at hid
      omega
    · exact h.opened tx (Table.mem_of_find hf) r hr hid
  · exact h.opened u hu r hr hid

theorem dueAt_commit {db : Db} (hg : db.Good) {j t : Int} (h : DueAt j t db) (xid : Nat) :
    DueAt j t (commitIn db xid).1 := by
  cases hf : db.transactions.find xid with
  | none =>
    unfold commitIn
    rw [hf]
    exact h
  | some tx =>
    have hfind := find_commitIn hg hf j
    obtain ⟨jobs, _, hcm⟩ := commit_ok hg hf
    have hrest : (commitIn db xid).1.next_id = db.next_id ∧
        (commitIn db xid).1.transactions = (db.close xid).transactions := by
      simp only [commitIn, hf, hcm]
      exact ⟨rfl, rfl⟩
    refine ⟨?_, ?_, ?_⟩
    · rw [hrest.1]
      exact h.issued
    · rw [hrest.2]
      exact (dueAt_close h xid).opened
    · intro r hr
      rw [hfind] at hr
      rcases Option.or_eq_some_iff.mp hr with hr | ⟨_, hr⟩
      · exact h.opened tx (Table.mem_of_find hf) r (List.mem_of_find?_eq_some hr)
          (by simpa using List.find?_some hr)
      · exact h.live r hr

/-- No turn but a requeue sets another time in the row of a job. -/
theorem same_time {j : Int} {c : Call} {a : Answer} {l l' : Life} (ht : Turn j c a l l')
    (hno : ∀ err, c.op ≠ .requeue j err) (hborn : c.op.births = false) {r' : JobRow}
    (hl : l' = .live r') : ∃ r, l = .live r ∧ r'.run_at = r.run_at := by
  cases ht with
  | still l _ => exact ⟨r', hl, rfl⟩
  | born _ _ _ _ hb =>
    rw [hborn] at hb
    cases hb
  | claimed r _ _ _ _ _ =>
    cases hl
    exact ⟨r, rfl, rfl⟩
  | beat r _ _ =>
    cases hl
    exact ⟨r, rfl, rfl⟩
  | finished r _ =>
    cases hl
    exact ⟨r, rfl, rfl⟩
  | requeued r hop _ _ => exact absurd hop (hno _)
  | died r _ => cases hl
  | reaped r _ _ _ =>
    cases hl
    exact ⟨r, rfl, rfl⟩

theorem dueAt_turn {db : Db} (hg : db.Good) {j t : Int} (h : DueAt j t db) {c : Call}
    (hno : ∀ err, c.op ≠ .requeue j err) (hborn : c.op.births = false)
    (hnext : (exec db c).1.next_id = db.next_id)
    (hopened : (exec db c).1.transactions = db.transactions) : DueAt j t (exec db c).1 := by
  apply dueAt_row h hnext hopened
  intro r' hr'
  obtain ⟨r, hr, hsame⟩ := same_time (exec_turn hg c j) hno hborn (life_of_find hr')
  exact ⟨r, life_live.mp hr, hsame⟩

/-- Every call but a requeue of the job keeps the time of the job. -/
theorem dueAt_exec {db : Db} (hg : db.Good) {j t : Int} (h : DueAt j t db) {c : Call}
    (hno : ∀ err, c.op ≠ .requeue j err) : DueAt j t (exec db c).1 := by
  by_cases hrw : c.op.rewrites = true
  · have hs := @exec_rewrites db c hrw
    apply dueAt_turn hg h hno
    · cases hop : c.op with
      | commit xid =>
        rw [hop] at hrw
        cases hrw
      | enqueue_pool kind payload =>
        rw [hop] at hrw
        cases hrw
      | _ => rfl
    · rw [hs]
    · rw [hs]
  · obtain ⟨now, op⟩ := c
    cases op with
    | begin xid =>
      dsimp only [exec, beginIn]
      split
      · exact h
      · rename_i transactions hi
        refine ⟨h.issued, ?_, h.live⟩
        intro tx htx r hr hid
        rw [Table.rows_insert hi] at htx
        rcases List.mem_cons.mp htx with rfl | htx
        · cases hr
        · exact h.opened tx htx r hr hid
    | enqueue xid kind payload =>
      exact dueAt_insert h xid (fun tx _ _ _ hok => ⟨kind, payload, tx.now, hok⟩)
    | enqueue_at xid kind payload run_at =>
      exact dueAt_insert h xid (fun _ _ _ _ hok => ⟨kind, payload, run_at, enqueue_at_ok hok⟩)
    | notify_ready xid =>
      dsimp only [exec, notifyIn]
      split
      · exact h
      · rename_i tx hf
        refine ⟨h.issued, ?_, h.live⟩
        intro u hu r hr hid
        rcases mem_store hu with hsame | hu
        · rw [hsame] at hr
          exact h.opened tx (Table.mem_of_find hf) r hr hid
        · exact h.opened u hu r hr hid
    | commit xid => exact dueAt_commit hg h xid
    | rollback xid => exact dueAt_close h xid
    | enqueue_pool kind payload =>
      dsimp only [exec]
      cases hok : skip_locked.enqueue_pool db now kind payload with
      | error e => exact h
      | ok p =>
        obtain ⟨db', id⟩ := p
        obtain ⟨rfl, hs, hins⟩ := enqueue_pool_ok hok
        have hissued := h.issued
        show DueAt j t db'
        refine ⟨?_, ?_, ?_⟩
        · rw [hs]
          exact Int.lt_trans hissued (Int.lt_succ _)
        · rw [hs]
          exact h.opened
        · intro r hr
          rw [Table.find_insert hins, if_neg (by simp only [newRow]; omega)] at hr
          exact h.live r hr
    | dead_letter id err => exact dueAt_turn hg h hno rfl rfl rfl
    | _ => exact absurd rfl hrw

/-! ## The law -/

/-- The time of a job holds until a requeue of it. -/
theorem dueAt_after {before : List Call} {c : Call} {j t : Int}
    (ha : (exec (after before) c).2 = .ok (.id j)) (ht : promised (after before) c = some t)
    {mid : List Call} (hno : ∀ e ∈ mid, ∀ err, e.op ≠ .requeue j err) :
    DueAt j t (after (before ++ c :: mid)) := by
  induction mid using List.reverseRecOn with
  | nil =>
    have hafter : after (before ++ [c]) = (exec (after before) c).1 := run_snoc exec _ before c
    rw [hafter]
    exact dueAt_enqueued (after_good before) ha ht
  | append_singleton mid e ih =>
    have hmid := ih (fun d hd => hno d (List.mem_append_left _ hd))
    have hafter : after (before ++ c :: (mid ++ [e])) =
        (exec (after (before ++ c :: mid)) e).1 := by
      rw [← List.cons_append, ← List.append_assoc]
      exact run_snoc exec _ _ e
    rw [hafter]
    exact dueAt_exec (after_good _) hmid (hno e (List.mem_append_right _ List.mem_cons_self))

/-- A job that an enqueue set for a time is handed out by no claim before that time, whatever
calls come in between, unless one of them is a requeue of the job. -/
theorem a_delayed_job_waits (before : List Call) (c : Call) (mid : List Call) (d : Call)
    (j t : Int) (ha : (exec (after before) c).2 = .ok (.id j))
    (ht : promised (after before) c = some t)
    (hno : ∀ e ∈ mid, ∀ err, e.op ≠ .requeue j err)
    (hd : Delivers j (exec (after (before ++ c :: mid)) d).2) : t ≤ d.now := by
  have hdue := dueAt_after ha ht hno
  have hturn := exec_turn (after_good (before ++ c :: mid)) d j
  generalize hl : (after (before ++ c :: mid)).life j = l at hturn
  generalize (exec (after (before ++ c :: mid)) d).1.life j = l' at hturn
  generalize (exec (after (before ++ c :: mid)) d).2 = a at hturn hd
  cases hturn with
  | still _ hnone => exact absurd hd hnone
  | born _ _ _ hnone _ => exact absurd hd hnone
  | claimed r _ _ htime _ _ =>
    have hrow := hdue.live r (life_live.mp hl)
    omega
  | _ => cases hd

/-- A job for time 10 is enqueued. -/
def forTen : Call := ⟨1, .enqueue_at 1 "k" .null 10⟩

/-- It lands at 2, a claim at 5 finds nothing, and the worker that has it at 11 loses its lease. -/
def untilReap : List Call :=
  [⟨2, .commit 1⟩, ⟨5, .claim_batch ["k"] 1 "a" .alone⟩, ⟨11, .claim_batch ["k"] 1 "a" .alone⟩,
    ⟨2000000, .reap (.from_secs 1)⟩]

def lastClaim : Call := ⟨2000001, .claim_batch ["k"] 1 "b" .alone⟩

theorem a_job_for_ten_is_not_handed_out_at_five :
    deliveries 1 (history ([⟨0, .begin 1⟩] ++ forTen :: untilReap.take 2)) = 0 ∧
      Delivers 1 (exec (after ([⟨0, .begin 1⟩] ++ forTen :: untilReap)) lastClaim).2 ∧
      10 ≤ lastClaim.now := by
  have hno : ∀ e ∈ untilReap, ∀ err, e.op ≠ .requeue 1 err := by
    intro e he err
    simp only [untilReap, List.mem_cons, List.not_mem_nil, or_false] at he
    rcases he with rfl | rfl | rfl | rfl <;> simp
  have hd : Delivers 1 (exec (after ([⟨0, .begin 1⟩] ++ forTen :: untilReap)) lastClaim).2 := by
    decide +kernel
  have ha : (exec (after [⟨0, .begin 1⟩]) forTen).2 = .ok (.id 1) := rfl
  exact ⟨by decide +kernel, hd,
    a_delayed_job_waits [⟨0, .begin 1⟩] forTen untilReap lastClaim 1 10 ha rfl hno hd⟩

end skip_locked
