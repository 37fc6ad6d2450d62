-- The statements of the crate, step by step: each claim, reap, heartbeat and
-- outcome call locks its rows one by one, in any order with the others. Two
-- claims never hand out one job, unless a commit put it back between them.
import SkipLocked.Queue
import SkipLocked.RowLocks

open jsonb postgres keyed_table event_runs row_locks

namespace skip_locked

open claim lease retry

/-! ## The statements -/

/-- The two claims: the inner select skips locked rows up to its limit, and the outer update
takes the picked ids. -/
def claimStatement (c : Call) (kinds : List Text) (limit : Nat) (worker_id : Text)
    (plan : Plan) (pick : List JobRow → List Int) (hpick : ∀ l k, k ∈ pick l → k ∈ l.map (·.id)) :
    Statement Call JobRow.id where
  tag := c
  skip := true
  wants := claimable c.now kinds
  order := fun rows => byRunAt (plan.scan.order rows)
  limit := some limit
  pick := pick
  fits := fun r => decide (r.attempts < INT4_MAX)
  write := fun r => some (setRunning c.now worker_id r)
  order_perm := fun l => (byRunAt_perm _).trans (plan.scan.perm l)
  pick_sub := hpick
  write_key := by
    intro r r' h
    rw [← Option.some.inj h]
    rfl

/-- A plain `UPDATE … WHERE`, or a `DELETE`: it waits for the rows that it wants. -/
def plainStatement (c : Call) (wants : JobRow → Bool) (fits : JobRow → Bool)
    (write : JobRow → Option JobRow) (hkey : ∀ r r', write r = some r' → r'.id = r.id) :
    Statement Call JobRow.id where
  tag := c
  skip := false
  wants := wants
  order := fun rows => rows
  limit := none
  pick := fun rows => rows.map (·.id)
  fits := fits
  write := write
  order_perm := fun l => List.Perm.refl l
  pick_sub := fun _ _ h => h
  write_key := hkey

def updateStatement (c : Call) (wants : JobRow → Bool) (f : JobRow → JobRow)
    (hf : ∀ r, (f r).id = r.id) : Statement Call JobRow.id :=
  plainStatement c wants (fun _ => true) (fun r => some (f r)) (by
    intro r r' h
    rw [← Option.some.inj h]
    exact hf r)

/-- The row after a `requeue`, when its new time is in range. -/
def retried (now : Int) (last_error : Text) (r : JobRow) : Option JobRow :=
  match backoff now r.attempts with
  | .ok run_at => some (setRetry run_at last_error r)
  | .error _ => some r

theorem retried_id (now : Int) (last_error : Text) (r r' : JobRow)
    (h : retried now last_error r = some r') : r'.id = r.id := by
  unfold retried at h
  split at h
  · rw [← Option.some.inj h]
    rfl
  · rw [← Option.some.inj h]

/-- The statement of a call. A call that fails before it reads a row has none, and the
producers insert their rows instead. -/
def statementOf (c : Call) : Option (Statement Call JobRow.id) :=
  match c.op with
  | .claim_batch kinds n worker_id plan =>
    match limitOf n with
    | .error _ => none
    | .ok limit =>
      some (claimStatement c kinds limit worker_id plan (fun rows => rows.map (·.id))
        (fun _ _ h => h))
  | .fair_claim kinds batch per_tenant_cap worker_id plan =>
    if batch * 4 < INT8_MIN ∨ INT8_MAX < batch * 4 then none
    else
      match limitOf (batch * 4) with
      | .error _ => none
      | .ok limit =>
        some (claimStatement c kinds limit worker_id plan (keptIds per_tenant_cap plan)
          (fun _ _ h => List.mem_map.mpr (mem_keptIds h)))
  | .heartbeat ids worker_id =>
    some (updateStatement c (held ids worker_id) (setLockedAt c.now) (setLockedAt_id c.now))
  | .mark_done id => some (updateStatement c (fun r => decide (r.id = id)) setDone setDone_id)
  | .requeue id err =>
    some (plainStatement c (fun r => decide (r.id = id) && decide (r.attempts < r.max_attempts))
      (fun r => (backoff c.now r.attempts).isOk) (retried c.now err) (retried_id c.now err))
  | .dead_letter id _ =>
    some (plainStatement c (fun r => decide (r.id = id)) (fun _ => true) (fun _ => none)
      (fun _ _ h => nomatch h))
  | .reap l =>
    match cutoffOf c.now l with
    | .error _ => none
    | .ok cutoff => some (updateStatement c (reapable cutoff) setReady setReady_id)
  | _ => none

/-- One step of somebody: a call sends its statement, and its session goes on from there. A
crash aborts a session, and a producer commits a new row. -/
inductive Move where
  | call (c : Call)
  | visit (sid : Nat)
  | commit (sid : Nat)
  | crash (sid : Nat)
  | enqueued (id : Int) (kind : Text) (payload : Jsonb) (run_at : Int)

def Move.event : Move → Option (Event Call JobRow.id)
  | .call c => (statementOf c).map .start
  | .visit sid => some (.visit sid)
  | .commit sid => some (.commit sid)
  | .crash sid => some (.abort sid)
  | .enqueued id kind payload run_at => some (.insert (newRow id kind payload run_at))

/-- What the others see of a schedule: the locks and the commits, in their order. -/
def seen (jobs : Table JobRow.id) (moves : List Move) : List (Note Call JobRow.id) :=
  notes (Server.rest Call jobs) (moves.filterMap Move.event)

/-- The jobs that the commit of a claim returns. -/
def returned (changes : List (JobRow × Option JobRow)) : List Job :=
  changes.filterMap (fun c => c.2.map jobOf)

/-! ## A statement alone is its call -/

/-- The locks of the others when a call starts: a claim skips them, as its plan says, and a
plain statement meets none. -/
def MeetsLocks (locked : Int → Bool) (c : Call) : Prop :=
  match c.op with
  | .claim_batch _ _ _ plan => ∀ k, plan.locked.contains k = locked k
  | .fair_claim _ _ _ _ plan => ∀ k, plan.locked.contains k = locked k
  | _ => ∀ k, locked k = false

theorem window_lockWindow {jobs : Table JobRow.id} {c : Call} {kinds : List Text} {limit : Nat}
    {worker_id : Text} {plan : Plan} {pick : List JobRow → List Int}
    {hpick : ∀ l k, k ∈ pick l → k ∈ l.map (·.id)} {locked : Int → Bool}
    (hl : ∀ k, plan.locked.contains k = locked k) :
    (claimStatement c kinds limit worker_id plan pick hpick).window jobs locked =
      lockWindow jobs c.now kinds limit plan := by
  unfold Statement.window claimStatement lockWindow
  simp only [hl]

/-- The outer update of a claim. -/
theorem apply_takeRows {db : Db} {c : Call} {kinds : List Text} {limit : Nat}
    {worker_id : Text} {plan : Plan} {pick : List JobRow → List Int}
    {hpick : ∀ l k, k ∈ pick l → k ∈ l.map (·.id)} (rows : List JobRow) :
    (claimStatement c kinds limit worker_id plan pick hpick).apply db.jobs rows =
      (answer db .jobs (takeRows db c.now worker_id (pick rows) plan)).1.jobs := by
  unfold takeRows
  dsimp only
  split
  · rename_i hany
    obtain ⟨r, hr, hbig⟩ := List.any_eq_true.mp hany
    obtain ⟨hmem, hpick'⟩ := Table.mem_matching.mp hr
    refine apply_misfit hmem (List.contains_iff_mem.mp hpick') ?_
    have hle : INT4_MAX ≤ r.attempts := by simpa using hbig
    simp [claimStatement, hle]
  · rename_i hany
    rw [apply_fits]
    · refine Table.rewrite_eq_update (setRunning_id c.now worker_id) ?_ (fun _ _ _ => rfl)
      intro r _
      simp [claimStatement]
    · intro r hr hpick'
      by_contra hbig
      have hin : (pick rows).contains r.id = true := List.contains_iff_mem.mpr hpick'
      refine hany (List.any_eq_true.mpr ⟨r, Table.mem_matching.mpr ⟨hr, hin⟩, ?_⟩)
      simpa [claimStatement] using hbig

theorem window_plain {jobs : Table JobRow.id} {c : Call} {wants fits : JobRow → Bool}
    {write : JobRow → Option JobRow} {hkey : ∀ r r', write r = some r' → r'.id = r.id}
    {locked : Int → Bool} (hl : ∀ k, locked k = false) :
    (plainStatement c wants fits write hkey).window jobs locked = jobs.rows.filter wants := by
  unfold Statement.window plainStatement
  simp [hl]

theorem apply_update {jobs : Table JobRow.id} {c : Call} {wants : JobRow → Bool}
    {f : JobRow → JobRow} {hf : ∀ r, (f r).id = r.id} :
    (updateStatement c wants f hf).apply jobs (jobs.rows.filter wants) =
      jobs.update wants f hf := by
  rw [apply_fits (fun _ _ _ => rfl)]
  refine Table.rewrite_eq_update hf ?_ (fun _ _ _ => rfl)
  intro r hr
  exact Table.key_mem_matching hr

/-- The one row that a `requeue` wants. -/
theorem apply_requeue {db : Db} {c : Call} (id : Int) (err : Text) :
    (plainStatement c (fun r => decide (r.id = id) && decide (r.attempts < r.max_attempts))
      (fun r => (backoff c.now r.attempts).isOk) (retried c.now err) (retried_id c.now err)).apply
        db.jobs (db.jobs.rows.filter
          (fun r => decide (r.id = id) && decide (r.attempts < r.max_attempts))) =
      (answer db .rows (requeue db c.now id err)).1.jobs := by
  unfold requeue
  dsimp only
  split
  · rename_i hnone
    have hno : ∀ r ∈ db.jobs.rows, r.id ∉ (db.jobs.rows.filter
        (fun r => decide (r.id = id) && decide (r.attempts < r.max_attempts))).map (·.id) := by
      intro r hr hmem
      exact List.find?_eq_none.mp hnone r hr ((Table.key_mem_matching hr).mp hmem)
    rw [apply_fits (fun r hr hpick => absurd hpick (hno r hr))]
    exact Table.rewrite_none hno
  · rename_i r hsome
    have hr := List.mem_of_find?_eq_some hsome
    have hw := List.find?_some hsome
    have hone : ∀ x ∈ db.jobs.rows,
        (decide (x.id = id) && decide (x.attempts < x.max_attempts)) = true → x = r := by
      intro x hx hwx
      rw [Bool.and_eq_true, decide_eq_true_eq] at hw hwx
      exact Table.eq_of_key hx hr (hwx.1.trans hw.1.symm)
    cases hb : backoff c.now r.attempts with
    | error e =>
      refine apply_misfit hr ((Table.key_mem_matching hr).mpr hw) ?_
      show (backoff c.now r.attempts).isOk = false
      rw [hb]
      rfl
    | ok run_at =>
      rw [apply_fits]
      · refine Table.rewrite_eq_update (setRetry_id run_at err)
          (fun x hx => Table.key_mem_matching hx) ?_
        intro x hx hwx
        show retried c.now err x = some (setRetry run_at err x)
        unfold retried
        rw [hone x hx hwx, hb]
      · intro x hx hpick
        rw [hone x hx ((Table.key_mem_matching hx).mp hpick)]
        show (backoff c.now r.attempts).isOk = true
        rw [hb]
        rfl

/-- A statement with no other on the way between its steps does what its call does: the
interleaved statements refine the atomic ones. -/
theorem a_statement_alone_is_its_call {s : Server Call JobRow.id} {db : Db} {c : Call}
    {st : Statement Call JobRow.id} (h : statementOf c = some st) (hjobs : s.table = db.jobs)
    (hnew : s.sessions.find s.opened = none) (hl : MeetsLocks (s.lockedByOther s.opened) c) :
    (run step s (straight st s.opened (s.table.rows.filter st.wants).length)).table =
      (exec db c).1.jobs := by
  have hplain : (∀ k, s.lockedByOther s.opened k = false) →
      (run step s (straight st s.opened (s.table.rows.filter st.wants).length)).table =
        st.apply db.jobs (st.window db.jobs (s.lockedByOther s.opened)) := by
    intro hfree
    rw [run_straight hnew (Or.inr (fun r _ _ => hfree r.id)), hjobs]
  unfold exec
  unfold statementOf at h
  unfold MeetsLocks at hl
  split at h
  · rename_i kinds n worker_id plan hop
    rw [hop] at hl ⊢
    split at h
    · cases h
    · rename_i limit hlim
      cases h
      rw [run_straight hnew (Or.inl rfl), hjobs, window_lockWindow hl, apply_takeRows]
      dsimp only
      unfold claim_batch
      rw [hlim]
      rfl
  · rename_i kinds batch per_tenant_cap worker_id plan hop
    rw [hop] at hl ⊢
    split at h
    · cases h
    rename_i hrange
    split at h
    · cases h
    · rename_i limit hlim
      cases h
      rw [run_straight hnew (Or.inl rfl), hjobs, window_lockWindow hl, apply_takeRows]
      dsimp only
      unfold fair_claim
      rw [if_neg hrange, hlim]
      rfl
  · rename_i ids worker_id hop
    rw [hop] at hl ⊢
    cases h
    rw [hplain hl]
    exact (congrArg _ (window_plain hl)).trans apply_update
  · rename_i id hop
    rw [hop] at hl ⊢
    cases h
    rw [hplain hl]
    exact (congrArg _ (window_plain hl)).trans apply_update
  · rename_i id err hop
    rw [hop] at hl ⊢
    cases h
    rw [hplain hl, window_plain hl]
    exact apply_requeue id err
  · rename_i id err hop
    rw [hop] at hl ⊢
    cases h
    rw [hplain hl, window_plain hl, apply_fits (fun _ _ _ => rfl)]
    exact Table.rewrite_eq_delete (fun x hx => Table.key_mem_matching hx)
  · rename_i l hop
    rw [hop] at hl ⊢
    split at h
    · cases h
    · rename_i cutoff hcut
      cases h
      rw [hplain hl]
      dsimp only
      rw [reap_of_cutoff db hcut]
      exact (congrArg _ (window_plain hl)).trans apply_update
  · cases h

/-! ## What the statements do to a row -/

def Ready (r : JobRow) : Prop := r.state = .ready

theorem statementOf_tag {c : Call} {st : Statement Call JobRow.id} (h : statementOf c = some st) :
    st.tag = c := by
  unfold statementOf at h
  split at h
  · split at h
    · cases h
    · cases h; rfl
  · split at h
    · cases h
    · split at h
      · cases h
      · cases h; rfl
  · cases h; rfl
  · cases h; rfl
  · cases h; rfl
  · cases h; rfl
  · split at h
    · cases h
    · cases h; rfl
  · cases h

theorem started_call {moves : List Move} {st : Statement Call JobRow.id}
    (h : st ∈ startedIn (moves.filterMap Move.event)) : ∃ c, statementOf c = some st := by
  unfold startedIn at h
  obtain ⟨e, he, hst⟩ := List.mem_filterMap.mp h
  split at hst
  · cases hst
    obtain ⟨m, _, hm⟩ := List.mem_filterMap.mp he
    cases m with
    | call c =>
      obtain ⟨st', hst', hs⟩ := Option.map_eq_some_iff.mp hm
      cases hs
      exact ⟨c, hst'⟩
    | _ => cases hm
  · cases hst

/-- A claim wants ready rows, and its rows are running after it. -/
theorem claim_statement {c : Call} {st : Statement Call JobRow.id} (h : statementOf c = some st)
    (hc : c.op.claimant.isSome) {r : JobRow} (hw : st.wants r = true) :
    Ready r ∧ ∃ r', st.write r = some r' ∧ r'.id = r.id ∧ ¬ Ready r' := by
  unfold statementOf at h
  cases hop : c.op with
  | claim_batch kinds n worker_id plan =>
    simp only [hop] at h
    split at h
    · cases h
    · cases h
      exact ⟨(claimable_iff.mp hw).1, _, rfl, rfl, by simp [Ready, setRunning]⟩
  | fair_claim kinds batch per_tenant_cap worker_id plan =>
    simp only [hop] at h
    split at h
    · cases h
    split at h
    · cases h
    · cases h
      exact ⟨(claimable_iff.mp hw).1, _, rfl, rfl, by simp [Ready, setRunning]⟩
  | _ =>
    rw [hop] at hc
    cases hc

/-- Only a reap, and a requeue of that job, make a row ready that was not. -/
theorem reviving_statement {c : Call} {st : Statement Call JobRow.id}
    (h : statementOf c = some st) {r r' : JobRow} (hw : st.wants r = true)
    (hwr : st.write r = some r') (hr : ¬ Ready r) (hr' : Ready r') :
    (∃ l, c.op = .reap l) ∨ ∃ err, c.op = .requeue r.id err := by
  unfold statementOf at h
  split at h
  · split at h
    · cases h
    · cases h
      exact absurd (claimable_iff.mp hw).1 hr
  · split at h
    · cases h
    · split at h
      · cases h
      · cases h
        exact absurd (claimable_iff.mp hw).1 hr
  · cases h
    rw [← Option.some.inj hwr] at hr'
    exact absurd hr' hr
  · cases h
    rw [← Option.some.inj hwr] at hr'
    cases hr'
  · rename_i id err hop
    cases h
    right
    have hid : r.id = id := by
      have hboth : (decide (r.id = id) && decide (r.attempts < r.max_attempts)) = true := hw
      rw [Bool.and_eq_true, decide_eq_true_eq] at hboth
      exact hboth.1
    rw [hid]
    exact ⟨err, hop⟩
  · cases h
    cases hwr
  · rename_i l hop
    exact Or.inl ⟨l, hop⟩
  · cases h

/-- The commit of a claim takes each job that it returns. -/
theorem claim_takes {jobs : Table JobRow.id} {moves : List Move} {sid : Nat}
    {st : Statement Call JobRow.id} {changes : List (JobRow × Option JobRow)} {j : Int}
    (hmem : .committed sid st changes ∈ seen jobs moves) (hc : st.tag.op.claimant.isSome)
    (hj : j ∈ (returned changes).map (·.id)) : Note.takes Ready j (.committed sid st changes) := by
  have hfrom := committed_from_start hmem
  obtain ⟨c, hst⟩ := started_call hfrom.started
  rw [statementOf_tag hst] at hc
  obtain ⟨job, hjob, rfl⟩ := List.mem_map.mp hj
  obtain ⟨p, hp, hpj⟩ := List.mem_filterMap.mp hjob
  obtain ⟨r', hr', rfl⟩ := Option.map_eq_some_iff.mp hpj
  have hw := hfrom.wants p hp
  have hwr := hfrom.writes p hp
  obtain ⟨hready, r'', hwr', hid, hgone⟩ := claim_statement hst hc hw
  rw [hr', hwr', Option.some.injEq] at hwr
  subst hwr
  refine ⟨p, hp, hid.symm, hready, ?_⟩
  intro s hs
  rw [hr', Option.some.injEq] at hs
  rw [← hs]
  exact hgone

/-! ## The law -/

/-- Whenever two claims return one job, in any schedule of the steps of everybody, a reap or a
requeue of that job set it back to ready in between: it committed after the first claim,
and before the second claim locked the row. -/
theorem no_job_is_claimed_twice (jobs : Table JobRow.id) (moves : List Move)
    (a b c : List (Note Call JobRow.id)) (s1 s2 : Nat) (st1 st2 : Statement Call JobRow.id)
    (ch1 ch2 : List (JobRow × Option JobRow)) (j : Int)
    (h : seen jobs moves = a ++ .committed s1 st1 ch1 :: (b ++ .committed s2 st2 ch2 :: c))
    (hc1 : st1.tag.op.claimant.isSome) (hc2 : st2.tag.op.claimant.isSome)
    (hj1 : j ∈ (returned ch1).map (·.id)) (hj2 : j ∈ (returned ch2).map (·.id)) :
    ∃ b1 s st ch b2 b3, b = b1 ++ .committed s st ch :: (b2 ++ .locked s2 j :: b3) ∧
      ((∃ l, st.tag.op = .reap l) ∨ ∃ err, st.tag.op = .requeue j err) ∧
      ∃ old new, (old, some new) ∈ ch ∧ old.id = j ∧ old.state ≠ .ready ∧ new.state = .ready := by
  have hmem1 : .committed s1 st1 ch1 ∈ seen jobs moves := by
    rw [h]
    simp
  have hmem2 : .committed s2 st2 ch2 ∈ seen jobs moves := by
    rw [h]
    simp
  have ht1 := claim_takes hmem1 hc1 hj1
  have ht2 := claim_takes hmem2 hc2 hj2
  obtain ⟨b1, m, b2, b3, rfl, hrev⟩ := no_double_take Ready h ht1 ht2
  cases m with
  | locked s k => exact hrev.elim
  | committed s st ch =>
    have hmem : .committed s st ch ∈ seen jobs moves := by
      rw [h]
      simp
    have hfrom := committed_from_start hmem
    obtain ⟨p, hp, rfl, hold, r', hr', hnew⟩ := hrev
    obtain ⟨c', hst⟩ := started_call hfrom.started
    have hwr := hfrom.writes p hp
    rw [hr'] at hwr
    refine ⟨b1, s, st, ch, b2, b3, rfl, ?_, p.1, r', ?_, rfl, hold, hnew⟩
    · rw [statementOf_tag hst]
      exact reviving_statement hst (hfrom.wants p hp) hwr.symm hold hnew
    · rw [← hr']
      exact hp

/-- One ready job. -/
def oneJob : Table JobRow.id := ⟨[newRow 1 "k" .null 0], List.nodup_singleton 1⟩

/-- The claim of "b" takes its snapshot while "a" holds the row. It visits the row only after
"a" has committed and a reap has put the job back. -/
def staleSnapshot : List Move :=
  [.call ⟨0, .claim_batch ["k"] 1 "a" .alone⟩, .visit 0, .call ⟨0, .claim_batch ["k"] 1 "b" .alone⟩,
    .commit 0, .call ⟨4000000, .reap (.from_secs 1)⟩, .visit 2, .commit 2, .visit 1, .commit 1]

theorem a_stale_claim_follows_a_reap :
    ∃ s st ch, .committed s st ch ∈ seen oneJob staleSnapshot ∧
      ((∃ l, st.tag.op = .reap l) ∨ ∃ err, st.tag.op = .requeue 1 err) := by
  obtain ⟨st1, ch1, n1, n2, n3, st2, ch2, h, hc1, hc2, hj1, hj2⟩ :
      ∃ st1 ch1 n1 n2 n3 st2 ch2, seen oneJob staleSnapshot =
        [.locked 0 1] ++ .committed 0 st1 ch1 :: ([n1, n2, n3] ++ .committed 1 st2 ch2 :: []) ∧
        st1.tag.op.claimant.isSome ∧ st2.tag.op.claimant.isSome ∧
        1 ∈ (returned ch1).map (·.id) ∧ 1 ∈ (returned ch2).map (·.id) := by
    refine ⟨_, _, _, _, _, _, _, rfl, rfl, rfl, ?_, ?_⟩
    · exact List.mem_singleton.mpr rfl
    · exact List.mem_singleton.mpr rfl
  obtain ⟨b1, s, st, ch, b2, b3, hb, hop, _⟩ :=
    no_job_is_claimed_twice _ _ _ _ _ _ _ _ _ _ _ 1 h hc1 hc2 hj1 hj2
  refine ⟨s, st, ch, ?_, hop⟩
  rw [h, hb]
  simp

end skip_locked
