-- The life of one job. Each call of a run is one turn in the life of each
-- job, and `exec_turn` says once what the turns are. The laws of runs read
-- the turns and never the statements.
import SkipLocked.Ids

open jsonb postgres keyed_table event_runs

namespace skip_locked

open claim lease retry

inductive Life where
  | unborn
  | live (r : JobRow)
  | buried (d : DeadRow)

def Db.life (db : Db) (j : Int) : Life :=
  match db.jobs.find j with
  | some r => .live r
  | none =>
    match db.jobs_dead.find? (fun d => decide (d.id = j)) with
    | some d => .buried d
    | none => .unborn

theorem life_live {db : Db} {j : Int} {r : JobRow} :
    db.life j = .live r ↔ db.jobs.find j = some r := by
  unfold Db.life
  split
  · rename_i s hs
    simp [hs]
  · rename_i hn
    rw [hn]
    split
    · simp
    · simp

theorem life_of_find {db : Db} {j : Int} {r : JobRow} (h : db.jobs.find j = some r) :
    db.life j = .live r := life_live.mpr h

theorem id_of_life {db : Db} {j : Int} {r : JobRow} (h : db.life j = .live r) : r.id = j :=
  Table.key_of_find (life_live.mp h)

theorem dead_of_life {db : Db} {j : Int} {d : DeadRow} (h : db.life j = .buried d) :
    d ∈ db.jobs_dead ∧ d.id = j := by
  unfold Db.life at h
  split at h
  · cases h
  · split at h
    · rename_i e he
      cases h
      exact ⟨List.mem_of_find?_eq_some he, by simpa using List.find?_some he⟩
    · cases h

theorem life_same {db db' : Db} {j : Int} (hd : db'.jobs_dead = db.jobs_dead)
    (hf : db'.jobs.find j = db.jobs.find j) : db'.life j = db.life j := by
  unfold Db.life
  rw [hf, hd]

/-- A job of `jobs` has no dead copy. -/
theorem no_dead_of_live {db : Db} (h : db.Good) {j : Int} {r : JobRow}
    (hf : db.jobs.find j = some r) : db.deadCopies j = 0 := by
  have := h.once j
  simp only [Db.copies, Db.liveCopies, hf, Option.isSome_some, if_true] at this
  omega

theorem life_buried {db : Db} (h : db.Good) {j : Int} :
    (∃ d, db.life j = .buried d) ↔ 0 < db.deadCopies j := by
  rw [find_dead]
  unfold Db.life
  cases hf : db.jobs.find j with
  | some r =>
    have hz := no_dead_of_live h hf
    constructor
    · rintro ⟨d, hd⟩
      cases hd
    · intro hd
      have := find_dead.mpr hd
      omega
  | none =>
    cases db.jobs_dead.find? (fun d => decide (d.id = j)) with
    | some d => simp
    | none => simp

theorem life_unborn {db : Db} {j : Int} :
    db.life j = .unborn ↔ db.liveCopies j = 0 ∧ db.deadCopies j = 0 := by
  have hd : db.deadCopies j = 0 ↔
      ¬ ∃ d, db.jobs_dead.find? (fun d => decide (d.id = j)) = some d := by
    rw [← find_dead]
    omega
  rw [hd]
  unfold Db.life Db.liveCopies
  cases db.jobs.find j with
  | some r => simp
  | none =>
    cases db.jobs_dead.find? (fun d => decide (d.id = j)) with
    | some d => simp
    | none => simp

theorem life_of_row {db : Db} {r : JobRow} (h : r ∈ db.jobs.rows) : db.life r.id = .live r :=
  life_of_find (Table.find_of_mem h)

/-- A list with at most one match has one at most. -/
theorem eq_of_countP_le_one {α : Type} {p : α → Bool} {l : List α} (h : l.countP p ≤ 1) {x y : α}
    (hx : x ∈ l) (hpx : p x = true) (hy : y ∈ l) (hpy : p y = true) : x = y := by
  rw [List.countP_eq_length_filter] at h
  have hx' : x ∈ l.filter p := List.mem_filter.mpr ⟨hx, hpx⟩
  have hy' : y ∈ l.filter p := List.mem_filter.mpr ⟨hy, hpy⟩
  match hf : l.filter p with
  | [] => simp [hf] at hx'
  | [z] =>
    rw [hf, List.mem_singleton] at hx' hy'
    rw [hx', hy']
  | _ :: _ :: _ => simp [hf] at h

theorem life_of_dead {db : Db} (hg : db.Good) {d : DeadRow} (h : d ∈ db.jobs_dead) :
    db.life d.id = .buried d := by
  have hpos : 0 < db.deadCopies d.id := List.countP_pos_iff.mpr ⟨d, h, by simp⟩
  have hone : db.deadCopies d.id ≤ 1 := by
    have := hg.once d.id
    unfold Db.copies at this
    omega
  obtain ⟨e, he⟩ := (life_buried hg).mpr hpos
  obtain ⟨hmem, hid⟩ := dead_of_life he
  rw [he, eq_of_countP_le_one hone h (by simp) hmem (by simpa using hid)]

/-- What one call does to job `j`: the guards that let it, and the answer that it gives.
A call that changes nothing hands nothing out. -/
inductive Turn (j : Int) (c : Call) : Answer → Life → Life → Prop where
  | still {a : Answer} (l : Life) : ¬ Delivers j a → Turn j c a l l
  | born {a : Answer} (kind : Text) (payload : Jsonb) (run_at : Int) : ¬ Delivers j a →
      c.op.births = true → Turn j c a .unborn (.live (newRow j kind payload run_at))
  | claimed {worker_id : Text} {jobs : List Job} (r : JobRow) :
      c.op.claimant = some worker_id → r.state = .ready → r.run_at ≤ c.now →
      j ∈ jobs.map (·.id) →
      (∀ job ∈ jobs, job.id = j → job = jobOf (setRunning c.now worker_id r)) →
      Turn j c (.ok (.jobs jobs)) (.live r) (.live (setRunning c.now worker_id r))
  | beat {ids : List Int} {worker_id : Text} {n : Nat} (r : JobRow) :
      c.op = .heartbeat ids worker_id → held ids worker_id r = true →
      Turn j c (.ok (.rows n)) (.live r) (.live (setLockedAt c.now r))
  | finished (r : JobRow) : c.op = .mark_done j →
      Turn j c (.ok .unit) (.live r) (.live (setDone r))
  | requeued {err : Text} {run_at : Int} (r : JobRow) : c.op = .requeue j err →
      r.attempts < r.max_attempts → backoff c.now r.attempts = .ok run_at →
      Turn j c (.ok (.rows 1)) (.live r) (.live (setRetry run_at err r))
  | died {err : Text} (r : JobRow) : c.op = .dead_letter j err →
      Turn j c (.ok (.rows 1)) (.live r) (.buried (deadRow c.now err r))
  | reaped {l : Duration} {cutoff : Int} {n : Nat} (r : JobRow) : c.op = .reap l →
      cutoffOf c.now l = .ok cutoff → reapable cutoff r = true →
      Turn j c (.ok (.rows n)) (.live r) (.live (setReady r))

/-! ## Every call is a turn -/

theorem turn_still {j : Int} {c : Call} {db db' : Db} {a : Answer} (ha : ¬ Delivers j a)
    (hd : db'.jobs_dead = db.jobs_dead) (hf : db'.jobs.find j = db.jobs.find j) :
    Turn j c a (db.life j) (db'.life j) := by
  rw [life_same hd hf]
  exact Turn.still _ ha

/-- A statement that rewrites rows of `jobs`, with the turn that it gives to the row of `j`. -/
theorem turn_map {j : Int} {c : Call} {db db' : Db} {a : Answer} {f : JobRow → JobRow}
    (hd : db'.jobs_dead = db.jobs_dead) (hf : db'.jobs.find j = (db.jobs.find j).map f)
    (hnone : db.jobs.find j = none → ¬ Delivers j a)
    (hturn : ∀ r, db.jobs.find j = some r → Turn j c a (.live r) (.live (f r))) :
    Turn j c a (db.life j) (db'.life j) := by
  cases hr : db.jobs.find j with
  | none => exact turn_still (hnone hr) hd (by rw [hf, hr]; rfl)
  | some r =>
    have hr' : db'.jobs.find j = some (f r) := by rw [hf, hr]; rfl
    rw [life_of_find hr, life_of_find hr']
    exact hturn r hr

theorem turn_answer {α : Type} {j : Int} {c : Call} {db : Db} {reply : α → Reply}
    {res : Except PgError (Db × α)}
    (hok : ∀ db' a, res = .ok (db', a) → Turn j c (.ok (reply a)) (db.life j) (db'.life j)) :
    Turn j c (answer db reply res).2 (db.life j) ((answer db reply res).1.life j) := by
  rcases res with e | ⟨db', a⟩
  · exact turn_still (by simp [answer, Delivers]) rfl rfl
  · exact hok db' a rfl

theorem turn_took {j : Int} {c : Call} {db db' : Db} {kinds : List Text} {worker_id : Text}
    {plan : Plan} {jobs : List Job} (hop : c.op.claimant = some worker_id)
    (ht : Took db c.now kinds worker_id plan db' jobs) :
    Turn j c (.ok (.jobs jobs)) (db.life j) (db'.life j) := by
  have hd : db'.jobs_dead = db.jobs_dead := by rw [ht.same]
  by_cases hj : j ∈ jobs.map (·.id)
  · obtain ⟨job, hjob, rfl⟩ := List.mem_map.mp hj
    obtain ⟨r, hf, hc, _, _, he⟩ := ht.taken job hjob
    obtain ⟨hs, ht1, _⟩ := claimable_iff.mp hc
    have hf' : db'.jobs.find job.id = some (setRunning c.now worker_id r) := by
      rw [ht.row, hf, Option.map_some, if_pos hj]
    rw [life_of_find hf, life_of_find hf']
    refine Turn.claimed r hop hs ht1 hj ?_
    intro job' hjob' hid
    obtain ⟨r', hf'', _, _, _, he'⟩ := ht.taken job' hjob'
    rw [hid, hf, Option.some.injEq] at hf''
    rw [he', hf'']
  · refine turn_still hj hd ?_
    rw [ht.row]
    simp [hj]

theorem turn_insert {j : Int} {c : Call} {db : Db} (xid : Nat)
    {insert : Transaction → Except PgError (Db × Transaction × Int)}
    (hi : ∀ tx db' tx' id, insert tx = .ok (db', tx', id) →
      ∃ kind payload run_at, insertJob db tx kind payload run_at = .ok (db', tx', id)) :
    Turn j c (insertIn db xid insert).2 (db.life j) ((insertIn db xid insert).1.life j) := by
  unfold insertIn
  split
  · exact turn_still (by simp [Delivers]) rfl rfl
  split
  · exact turn_still (by simp [Delivers]) rfl rfl
  · rename_i hok
    obtain ⟨kind, payload, run_at, hj⟩ := hi _ _ _ _ hok
    obtain ⟨_, rfl, _⟩ := insertJob_ok hj
    exact turn_still (by simp [Delivers]) rfl rfl

/-- A job that an open transaction holds is not born yet. -/
theorem unborn_of_open {db : Db} (h : db.Good) {xid : Nat} {tx : Transaction}
    (hf : db.transactions.find xid = some tx) {j : Int} (hj : 0 < tx.copies j) :
    db.life j = .unborn := by
  rw [life_unborn]
  have := copies_le_open hf j
  have := h.once j
  unfold Db.copies at this
  omega

theorem turn_commit {j : Int} {c : Call} {db : Db} (h : db.Good) {xid : Nat}
    (hop : c.op = .commit xid) :
    Turn j c (commitIn db xid).2 (db.life j) ((commitIn db xid).1.life j) := by
  cases hf : db.transactions.find xid with
  | none =>
    simp only [commitIn, hf]
    exact turn_still (by simp [Delivers]) rfl rfl
  | some tx =>
    have hfind := find_commitIn h hf j
    have hd : (commitIn db xid).1.jobs_dead = db.jobs_dead := by
      obtain ⟨jobs, _, hcm⟩ := commit_ok h hf
      simp only [commitIn, hf, hcm]
      rfl
    have ha : ¬ Delivers j (commitIn db xid).2 := by
      obtain ⟨jobs, _, hcm⟩ := commit_ok h hf
      simp [commitIn, hf, hcm, Delivers]
    cases hr : tx.inserted.find? (fun r => decide (r.id = j)) with
    | none =>
      rw [hr, Option.none_or] at hfind
      exact turn_still ha hd hfind
    | some r =>
      have hmem := List.mem_of_find?_eq_some hr
      have hid : r.id = j := by simpa using List.find?_some hr
      rw [hr, Option.some_or] at hfind
      rw [unborn_of_open h hf (copies_pos.mpr ⟨r, hmem, hid⟩), life_of_find hfind]
      obtain ⟨kind, payload, run_at, he⟩ := h.fresh tx (Table.mem_of_find hf) r hmem
      rw [he, hid]
      exact Turn.born kind payload run_at ha (by rw [hop]; rfl)

theorem turn_enqueue_pool {j : Int} {c : Call} {db db' : Db} {now : Int} {kind : Text}
    {payload : Jsonb} {id : Int} (h : db.Good) (hop : c.op = .enqueue_pool kind payload)
    (hok : skip_locked.enqueue_pool db now kind payload = .ok (db', id)) :
    Turn j c (.ok (.id id)) (db.life j) (db'.life j) := by
  obtain ⟨rfl, hs, hi⟩ := enqueue_pool_ok hok
  have hfind := Table.find_insert hi j
  have hd : db'.jobs_dead = db.jobs_dead := by rw [hs]
  by_cases hj : db.next_id = j
  · subst hj
    have hunborn : db.life db.next_id = .unborn := by
      rw [life_unborn]
      have := h.issued db.next_id
      unfold Db.copies at this
      omega
    rw [hunborn, life_of_find (hfind.trans (if_pos rfl))]
    exact Turn.born kind payload now (by simp [Delivers]) (by rw [hop]; rfl)
  · exact turn_still (by simp [Delivers]) hd (hfind.trans (if_neg hj))

theorem turn_dead_letter {j : Int} {c : Call} {db : Db} {id : Int} {err : Text} (h : db.Good)
    (hop : c.op = .dead_letter id err) :
    Turn j c (.ok (.rows (retry.dead_letter db c.now id err).2)) (db.life j)
      ((retry.dead_letter db c.now id err).1.life j) := by
  have hfind := find_dead_letter db c.now id err j
  rw [dead_letter_eq] at hfind ⊢
  by_cases hj : j = id
  · subst hj
    rw [if_pos rfl] at hfind
    cases hf : db.jobs.find j with
    | none =>
      rw [hf] at hfind
      exact turn_still (by simp [Delivers]) (by simp) (by rw [hf]; exact hfind)
    | some r =>
      have hno := no_dead_of_live h hf
      have hdead : db.jobs_dead.find? (fun d => decide (d.id = j)) = none := by
        rw [List.find?_eq_none]
        intro d hd hk
        have hpos : 0 < db.deadCopies j := List.countP_pos_iff.mpr ⟨d, hd, hk⟩
        omega
      rw [hf] at hfind
      rw [life_of_find hf]
      have hburied : (Db.life { db with
          jobs := db.jobs.delete (fun r => decide (r.id = j)),
          jobs_dead := db.jobs_dead ++ ((some r).map (deadRow c.now err)).toList } j) =
          .buried (deadRow c.now err r) := by
        unfold Db.life
        rw [hfind]
        simp [List.find?_append, hdead, deadRow, Table.key_of_find hf]
      rw [hburied]
      exact Turn.died r hop
  · rw [if_neg hj] at hfind
    have hlife : (Db.life { db with
        jobs := db.jobs.delete (fun r => decide (r.id = id)),
        jobs_dead := db.jobs_dead ++ ((db.jobs.find id).map (deadRow c.now err)).toList } j) =
        db.life j := by
      unfold Db.life
      rw [hfind]
      cases hf : db.jobs.find id with
      | none => simp
      | some r =>
        simp [List.find?_append, deadRow, Table.key_of_find hf, Ne.symm hj]
    rw [hlife]
    exact Turn.still _ (by simp [Delivers])

/-- Every call is one turn in the life of each job. -/
theorem exec_turn {db : Db} (h : db.Good) (c : Call) (j : Int) :
    Turn j c (exec db c).2 (db.life j) ((exec db c).1.life j) := by
  unfold exec
  cases hop : c.op with
  | begin xid =>
    dsimp only [beginIn]
    split
    · exact turn_still (by simp [Delivers]) rfl rfl
    · exact turn_still (by simp [Delivers]) rfl rfl
  | enqueue xid kind payload =>
    exact turn_insert xid (fun tx _ _ _ hok => ⟨kind, payload, tx.now, hok⟩)
  | enqueue_at xid kind payload run_at =>
    exact turn_insert xid (fun _ _ _ _ hok => ⟨kind, payload, run_at, enqueue_at_ok hok⟩)
  | notify_ready xid =>
    dsimp only [notifyIn]
    split
    · exact turn_still (by simp [Delivers]) rfl rfl
    · exact turn_still (by simp [Delivers]) rfl rfl
  | commit xid => exact turn_commit h hop
  | rollback xid => exact turn_still (by simp [Delivers]) rfl rfl
  | enqueue_pool kind payload => exact turn_answer (fun _ _ hok => turn_enqueue_pool h hop hok)
  | claim_batch kinds n worker_id plan =>
    exact turn_answer (fun _ _ hok => turn_took (by rw [hop]; rfl) (claim_batch_took hok))
  | fair_claim kinds batch per_tenant_cap worker_id plan =>
    exact turn_answer (fun _ _ hok => turn_took (by rw [hop]; rfl) (fair_claim_took hok))
  | heartbeat ids worker_id =>
    dsimp only
    refine turn_map rfl (find_heartbeat ..) (fun _ => by simp [Delivers]) ?_
    intro r _
    split
    · rename_i hheld
      exact Turn.beat r hop hheld
    · exact Turn.still _ (by simp [Delivers])
  | mark_done id =>
    dsimp only
    refine turn_map rfl (find_mark_done ..) (fun _ => by simp [Delivers]) ?_
    intro r _
    split
    · rename_i hj
      exact Turn.finished r (hj ▸ hop)
    · exact Turn.still _ (by simp [Delivers])
  | requeue id err =>
    refine turn_answer (fun db' n hok => ?_)
    rcases requeue_ok hok with ⟨_, rfl, _⟩ | ⟨rfl, r, run_at, hf, hlt, hb, hs, hrow⟩
    · exact turn_still (by simp [Delivers]) rfl rfl
    · have hd : db'.jobs_dead = db.jobs_dead := by rw [hs]
      by_cases hj : j = id
      · subst hj
        have hf' := hrow j
        rw [if_pos rfl] at hf'
        rw [life_of_find hf, life_of_find hf']
        exact Turn.requeued r hop hlt hb
      · exact turn_still (by simp [Delivers]) hd ((hrow j).trans (if_neg hj))
  | dead_letter id err => exact turn_dead_letter h hop
  | reap l =>
    refine turn_answer (fun db' n hok => ?_)
    obtain ⟨cutoff, hcut, _, rfl⟩ := reap_ok hok
    refine turn_map rfl (Table.find_update _ _ _ setReady_id j) (fun _ => by simp [Delivers]) ?_
    intro r _
    split
    · rename_i hr
      exact Turn.reaped r hop hcut hr
    · exact Turn.still _ (by simp [Delivers])

/-! ## The row of a job after an outcome call -/

theorem find_after_dead_letter {db : Db} {c : Call} {j : Int} {err : Text}
    (hop : c.op = .dead_letter j err) : (exec db c).1.jobs.find j = none := by
  unfold exec
  rw [hop]
  refine (find_dead_letter db c.now j err j).trans ?_
  rw [if_pos rfl]

theorem find_after_mark_done {db : Db} {c : Call} {j : Int} (hop : c.op = .mark_done j) :
    (exec db c).1.jobs.find j = (db.jobs.find j).map setDone := by
  unfold exec
  rw [hop]
  refine (find_mark_done db j j).trans ?_
  simp

theorem find_after_requeue {db : Db} {c : Call} {j : Int} {err : Text} {r : JobRow} {run_at : Int}
    (hop : c.op = .requeue j err) (hf : db.jobs.find j = some r)
    (hlt : r.attempts < r.max_attempts) (hb : backoff c.now r.attempts = .ok run_at) :
    (exec db c).1.jobs.find j = some (setRetry run_at err r) := by
  unfold exec
  rw [hop]
  dsimp only
  rw [requeue_eq, hf, Option.filter_some_pos (by simpa using hlt)]
  dsimp only
  rw [hb]
  refine (Table.find_update _ _ _ (setRetry_id run_at err) j).trans ?_
  have hr : r.id = j := Table.key_of_find hf
  simp [hf, hr, hlt]

/-- A requeue of `j` that reports one row sets the row of `j`. -/
theorem requeued_row {db : Db} {c : Call} {j : Int} {err : Text} (hop : c.op = .requeue j err)
    (hone : (exec db c).2 = .ok (.rows 1)) :
    ∃ r run_at, db.jobs.find j = some r ∧ r.attempts < r.max_attempts ∧
      backoff c.now r.attempts = .ok run_at ∧
      (exec db c).1.jobs.find j = some (setRetry run_at err r) := by
  have hexec : exec db c = answer db .rows (retry.requeue db c.now j err) := by
    unfold exec
    rw [hop]
  rw [hexec] at hone ⊢
  rcases hres : retry.requeue db c.now j err with e | ⟨db', n⟩
  · rw [hres] at hone
    cases hone
  · rw [hres] at hone
    cases hone
    rcases requeue_ok hres with ⟨hzero, _⟩ | ⟨_, r, run_at, hf, hlt, hb, _, hrow⟩
    · cases hzero
    · exact ⟨r, run_at, hf, hlt, hb, (hrow j).trans (if_pos rfl)⟩

/-! ## The deliveries and the runs -/

/-- A job that is not ready is handed to nobody. -/
theorem no_delivery_unless_ready {j : Int} {c : Call} {a : Answer} {r : JobRow} {l' : Life}
    (ht : Turn j c a (.live r) l') (hr : r.state ≠ .ready) : ¬ Delivers j a := by
  cases ht with
  | still _ ha => exact ha
  | claimed _ _ hready _ _ _ => exact absurd hready hr
  | beat _ _ _ => simp [Delivers]
  | finished _ _ => simp [Delivers]
  | requeued _ _ _ _ => simp [Delivers]
  | died _ _ => simp [Delivers]
  | reaped _ _ _ _ => simp [Delivers]

/-- A claim of `w` that hands out job `j` leaves its row running, locked by `w` at that time. -/
theorem delivered_row {w : Text} {j : Int} {db : Db} {c : Call} (hg : db.Good)
    (hw : c.op.claimant = some w) (hd : Delivers j (exec db c).2) :
    ∃ r, (exec db c).1.jobs.find j = some (setRunning c.now w r) ∧ r.id = j := by
  have hturn := exec_turn hg c j
  generalize hl : (exec db c).1.life j = l' at hturn
  generalize db.life j = l at hturn
  generalize (exec db c).2 = a at hturn hd
  cases hturn with
  | still _ ha => exact absurd hd ha
  | born _ _ _ ha _ => exact absurd hd ha
  | claimed r hop _ _ _ _ =>
    rw [hw, Option.some.injEq] at hop
    subst hop
    have hid : (setRunning c.now w r).id = j := id_of_life hl
    exact ⟨r, life_live.mp hl, hid⟩
  | _ => cases hd

/-- The induction rule for the life of one job: a law of the calls so far and of the job
holds after every run when each turn keeps it. -/
theorem life_induction {j : Int} {P : List (Call × Answer) → Life → Prop} (h0 : P [] .unborn)
    (hturn : ∀ h c a l l', Turn j c a l l' → P h l → P (h ++ [(c, a)]) l') (calls : List Call) :
    P (history calls) ((after calls).life j) := by
  have hboth : (after calls).Good ∧ P (history calls) ((after calls).life j) := by
    refine run_induction (P := fun h (db : Db) => db.Good ∧ P h (db.life j))
      ⟨good_empty, h0⟩ ?_ calls
    rintro h db c ⟨hg, hp⟩
    exact ⟨exec_good hg c, hturn h c _ _ _ (exec_turn hg c j) hp⟩
  exact hboth.2

/-- The induction rule under a clock that never goes back: a law of the job at a time, which
stays true as time goes on, holds when each turn keeps it at the time of its call. -/
theorem life_induction_timely {j : Int} {P : Int → Life → Prop} (h0 : ∀ now, P now .unborn)
    (hmono : ∀ now later l, now ≤ later → P now l → P later l)
    (hturn : ∀ c a l l', Turn j c a l l' → P c.now l → P c.now l') {calls : List Call}
    (htime : Timely calls) {now : Int} (hnow : ∀ c ∈ calls, c.now ≤ now) :
    P now ((after calls).life j) := by
  have hlaw := life_induction (j := j)
    (P := fun h l => Timely (h.map Prod.fst) →
      ∀ now, (∀ c ∈ h.map Prod.fst, c.now ≤ now) → P now l)
    (fun _ now _ => h0 now) ?_ calls
  · have hfst : (history calls).map Prod.fst = calls := trace_map_fst exec _ calls
    rw [hfst] at hlaw
    exact hlaw htime now hnow
  · intro h c a l l' ht ih htime now hnow
    rw [List.map_append, List.map_singleton] at htime hnow
    unfold Timely at htime
    rw [List.map_append, List.pairwise_append] at htime
    obtain ⟨hpre, _, hle⟩ := htime
    have hold := ih hpre c.now
      (fun d hd => hle d.now (List.mem_map_of_mem hd) c.now (by simp))
    exact hmono c.now now l' (hnow c (by simp)) (hturn c a l l' ht hold)

/-- A call of a run, with the database that it met. -/
theorem history_split {calls : List Call} {pre post : List (Call × Answer)} {e : Call × Answer}
    (h : history calls = pre ++ e :: post) :
    ∃ before later, calls = before ++ e.1 :: later ∧ history before = pre ∧
      e.2 = (exec (after before) e.1).2 := by
  obtain ⟨before, later, hc, hpre, he, _⟩ := trace_split exec h
  exact ⟨before, later, hc, hpre, he⟩

end skip_locked
