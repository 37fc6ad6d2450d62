-- The law of the transactional enqueue: the jobs of a producer's transaction
-- land together, at its commit, or none of them ever exists. An id that a
-- transaction lost is given to no other job.
import SkipLocked.Conservation
import SkipLocked.Attempts

open jsonb postgres keyed_table event_runs

namespace skip_locked

open claim lease retry

/-! ## The jobs of an open transaction -/

/-- What the open transaction `xid` has enqueued so far, as its calls answered. -/
def pendingIn (calls : List Call) (xid : Nat) : List Issue := (ledger (history calls)).of xid

/-- A call that ends the transaction without its jobs: a rollback, or a statement that fails. -/
def Aborts (xid : Nat) (c : Call) (a : Answer) : Prop :=
  c.op = .rollback xid ∨
    ((∃ e, a = .error e) ∧
      ((∃ kind payload, c.op = .enqueue xid kind payload) ∨
        (∃ kind payload run_at, c.op = .enqueue_at xid kind payload run_at) ∨
        c.op = .commit xid))

/-- The pending jobs are the rows that the transaction holds. -/
theorem pending_row {calls : List Call} {xid : Nat} {i : Issue} (h : i ∈ pendingIn calls xid) :
    ∃ tx, (after calls).transactions.find xid = some tx ∧ ∃ r ∈ tx.inserted, issueOf r = i := by
  have hopened := (matches_after calls).opened xid
  unfold pendingIn at h
  rw [hopened] at h
  cases hf : (after calls).transactions.find xid with
  | none =>
    rw [hf] at h
    cases h
  | some tx =>
    rw [hf] at h
    obtain ⟨r, hr, rfl⟩ := List.mem_map.mp h
    exact ⟨tx, rfl, r, hr, rfl⟩

theorem pending_of_row {calls : List Call} {xid : Nat} {tx : Transaction}
    (hf : (after calls).transactions.find xid = some tx) {r : JobRow} (hr : r ∈ tx.inserted) :
    issueOf r ∈ pendingIn calls xid := by
  unfold pendingIn
  rw [(matches_after calls).opened xid, hf]
  exact List.mem_map_of_mem hr

theorem pending_copies {calls : List Call} {xid : Nat} {i : Issue} (h : i ∈ pendingIn calls xid) :
    ∃ tx, (after calls).transactions.find xid = some tx ∧ 0 < tx.copies i.id := by
  obtain ⟨tx, hf, r, hr, rfl⟩ := pending_row h
  exact ⟨tx, hf, copies_pos.mpr ⟨r, hr, rfl⟩⟩

/-- A job that is not there was handed to nobody. -/
theorem undelivered_of_unborn {calls : List Call} {j : Int} (h : (after calls).life j = .unborn) :
    deliveries j (history calls) = 0 := by
  have hcounted := counted_after j calls
  rw [h] at hcounted
  exact hcounted

/-! ## The commit -/

/-- The commit of a transaction brings each of its rows, and changes no other. -/
theorem commit_lands {calls : List Call} {xid : Nat} {now : Int} {tx : Transaction}
    (hf : (after calls).transactions.find xid = some tx) :
    (∀ r ∈ tx.inserted, (after (calls ++ [⟨now, .commit xid⟩])).life r.id = .live r) ∧
    ∀ k, (∀ r ∈ tx.inserted, r.id ≠ k) →
      (after (calls ++ [⟨now, .commit xid⟩])).life k = (after calls).life k := by
  have hgood := after_good calls
  have hafter : after (calls ++ [⟨now, .commit xid⟩]) = (commitIn (after calls) xid).1 :=
    run_snoc exec _ calls _
  have hfind := find_commitIn hgood hf
  have hdead : (commitIn (after calls) xid).1.jobs_dead = (after calls).jobs_dead := by
    have hd := dead_exec hgood ⟨now, .commit xid⟩
    exact hd.trans (List.append_nil _)
  rw [hafter]
  constructor
  · intro r hr
    -- the row is the only one with its id in the transaction
    have hone : tx.copies r.id ≤ 1 := by
      have hle := copies_le_open hf r.id
      have := hgood.once r.id
      unfold Db.copies at this
      omega
    have hsome : tx.inserted.find? (fun s => decide (s.id = r.id)) = some r := by
      have hsome : (tx.inserted.find? (fun s => decide (s.id = r.id))).isSome :=
        List.find?_isSome.mpr ⟨r, hr, by simp⟩
      obtain ⟨s, hs⟩ := Option.isSome_iff_exists.mp hsome
      have hsid : s.id = r.id := by simpa using List.find?_some hs
      rw [hs, eq_of_countP_le_one hone (List.mem_of_find?_eq_some hs) (by simp [hsid]) hr (by simp)]
    apply life_of_find
    rw [hfind, hsome]
    rfl
  · intro k hk
    apply life_same hdead
    have hnone : tx.inserted.find? (fun r => decide (r.id = k)) = none := by
      apply List.find?_eq_none.mpr
      intro r hr
      simpa using hk r hr
    rw [hfind, hnone, Option.none_or]

/-! ## The ids that are lost -/

/-- What a call does to the identity column: an answer with an id gives out the next one. -/
structure Issues (db : Db) (res : Db × Answer) : Prop where
  grows : db.next_id ≤ res.1.next_id
  next : ∀ n, res.2 = .ok (.id n) → n = db.next_id ∧ db.next_id < res.1.next_id

theorem issues_insertIn {db : Db} {xid : Nat}
    {insert : Transaction → Except PgError (Db × Transaction × Int)}
    (hi : ∀ tx db' tx' id, insert tx = .ok (db', tx', id) →
      ∃ kind payload run_at, insertJob db tx kind payload run_at = .ok (db', tx', id)) :
    Issues db (insertIn db xid insert) := by
  unfold insertIn
  split
  · exact ⟨le_refl _, fun n h => by cases h⟩
  split
  · exact ⟨le_refl _, fun n h => by cases h⟩
  · rename_i hok
    obtain ⟨kind, payload, run_at, hj⟩ := hi _ _ _ _ hok
    obtain ⟨rfl, rfl, _⟩ := insertJob_ok hj
    refine ⟨Int.le_of_lt (Int.lt_succ _), ?_⟩
    intro n h
    cases h
    exact ⟨rfl, Int.lt_succ _⟩

/-- The ids are given out in order, and none twice. -/
theorem exec_issues {db : Db} (hg : db.Good) (c : Call) : Issues db (exec db c) := by
  have hother : c.op.rewrites = true → (∀ n, (exec db c).2 ≠ .ok (.id n)) →
      Issues db (exec db c) := by
    intro hrw hno
    have hsame : (exec db c).1.next_id = db.next_id := by rw [exec_rewrites hrw]
    exact ⟨le_of_eq hsame.symm, fun n h => absurd h (hno n)⟩
  have hanswer : ∀ {α : Type} (reply : α → Reply) (res : Except PgError (Db × α)),
      (∀ a n, reply a ≠ .id n) → ∀ n, (answer db reply res).2 ≠ .ok (.id n) := by
    intro α reply res hreply n
    rcases res with e | ⟨db', a⟩
    · exact fun h => by cases h
    · exact fun h => hreply a n (Except.ok.inj h)
  obtain ⟨now, op⟩ := c
  cases op with
  | begin xid =>
    dsimp only [exec, beginIn]
    split
    · exact ⟨le_refl _, fun n h => by cases h⟩
    · exact ⟨le_refl _, fun n h => by cases h⟩
  | enqueue xid kind payload =>
    exact issues_insertIn (fun tx _ _ _ hok => ⟨kind, payload, tx.now, hok⟩)
  | enqueue_at xid kind payload run_at =>
    exact issues_insertIn (fun _ _ _ _ hok => ⟨kind, payload, run_at, enqueue_at_ok hok⟩)
  | notify_ready xid =>
    dsimp only [exec, notifyIn]
    split
    · exact ⟨le_refl _, fun n h => by cases h⟩
    · exact ⟨le_refl _, fun n h => by cases h⟩
  | commit xid =>
    dsimp only [exec]
    cases hf : db.transactions.find xid with
    | none =>
      simp only [commitIn, hf]
      exact ⟨le_refl _, fun n h => by cases h⟩
    | some tx =>
      obtain ⟨jobs, _, hcm⟩ := commit_ok hg hf
      simp only [commitIn, hf, hcm]
      exact ⟨le_refl _, fun n h => by cases h⟩
  | rollback xid => exact ⟨le_refl _, fun n h => by cases h⟩
  | enqueue_pool kind payload =>
    dsimp only [exec]
    cases hok : skip_locked.enqueue_pool db now kind payload with
    | error e => exact ⟨le_refl _, fun n h => by cases h⟩
    | ok p =>
      obtain ⟨hid, hs, _⟩ := enqueue_pool_ok hok
      have hlt : db.next_id < p.1.next_id := by
        rw [hs]
        exact Int.lt_succ _
      refine ⟨Int.le_of_lt hlt, ?_⟩
      intro n h
      cases h
      exact ⟨hid, hlt⟩
  | claim_batch kinds n worker_id plan =>
    exact hother rfl (hanswer _ _ (fun _ _ h => by cases h))
  | fair_claim kinds batch per_tenant_cap worker_id plan =>
    exact hother rfl (hanswer _ _ (fun _ _ h => by cases h))
  | heartbeat ids worker_id => exact hother rfl (fun n h => by cases h)
  | mark_done id => exact hother rfl (fun n h => by cases h)
  | requeue id err => exact hother rfl (hanswer _ _ (fun _ _ h => by cases h))
  | dead_letter id err => exact ⟨le_refl _, fun n h => by cases h⟩
  | reap l => exact hother rfl (hanswer _ _ (fun _ _ h => by cases h))

/-- An id that was given out, and that no transaction holds and none committed. -/
structure Lost (k : Int) (g : Ledger) (db : Db) : Prop where
  issued : k < db.next_id
  opened : ∀ p ∈ g.opened, p.2.id ≠ k
  committed : ∀ i ∈ g.committed, i.id ≠ k

theorem lost_close {k : Int} {g : Ledger} (ho : ∀ p ∈ g.opened, p.2.id ≠ k) (xid : Nat) :
    ∀ p ∈ (g.close xid).opened, p.2.id ≠ k :=
  fun p hp => ho p (List.mem_filter.mp hp).1

theorem lost_exec {k : Int} {g : Ledger} {db : Db} (hg : db.Good) (h : Lost k g db) (c : Call) :
    Lost k (g.record (c, (exec db c).2)) (exec db c).1 := by
  obtain ⟨hissued, ho, hc⟩ := h
  obtain ⟨hgrows, hnext⟩ := exec_issues hg c
  refine ⟨by omega, ?_, ?_⟩
  · -- an insert that succeeds adds a new id to the open ones
    have hinsert : ∀ xid kind payload, ∀ p ∈ (g.insert xid kind payload (exec db c).2).opened,
        p.2.id ≠ k := by
      intro xid kind payload p hp
      unfold Ledger.insert at hp
      split at hp
      · rename_i n ha
        have := (hnext n ha).1
        rcases List.mem_cons.mp hp with rfl | hp
        · dsimp only
          omega
        · exact ho p hp
      · exact lost_close ho xid p hp
      · exact ho p hp
    unfold Ledger.record
    dsimp only
    split
    · exact hinsert _ _ _
    · exact hinsert _ _ _
    · unfold Ledger.commit
      split
      · exact lost_close ho _
      · exact lost_close ho _
    · exact lost_close ho _
    · unfold Ledger.enqueue_pool
      split
      · exact ho
      · exact ho
    · exact ho
  · unfold Ledger.record
    dsimp only
    split
    · unfold Ledger.insert
      split <;> exact hc
    · unfold Ledger.insert
      split <;> exact hc
    · unfold Ledger.commit
      split
      · intro i hi
        rcases List.mem_append.mp hi with hi | hi
        · obtain ⟨p, hp, rfl⟩ := List.mem_map.mp hi
          exact ho p (List.mem_filter.mp hp).1
        · exact hc i hi
      · exact hc
    · exact hc
    · unfold Ledger.enqueue_pool
      split
      · rename_i n ha
        have := (hnext n ha).1
        intro i hi
        rcases List.mem_cons.mp hi with rfl | hi
        · dsimp only
          omega
        · exact hc i hi
      · exact hc
    · exact hc

theorem lost_run {k : Int} {calls : List Call} (h : Lost k (ledger (history calls)) (after calls))
    (later : List Call) :
    Lost k (ledger (history (calls ++ later))) (after (calls ++ later)) := by
  induction later using List.reverseRecOn with
  | nil => rwa [List.append_nil]
  | append_singleton later c ih =>
    have hexec := lost_exec (after_good (calls ++ later)) ih c
    rw [← List.append_assoc]
    unfold history after at hexec ⊢
    rw [trace_snoc, run_snoc, ledger_snoc]
    exact hexec

/-- A lost id is the id of no job. -/
theorem unborn_of_lost {k : Int} {calls : List Call}
    (h : Lost k (ledger (history calls)) (after calls)) : (after calls).life k = .unborn := by
  have hcount := (matches_after calls).count k
  have hnone : (ledger (history calls)).committed.countP (fun i => decide (i.id = k)) = 0 := by
    apply List.countP_eq_zero.mpr
    intro i hi
    simpa using h.committed i hi
  rw [hnone] at hcount
  unfold Db.places at hcount
  exact life_unborn.mpr ⟨by omega, by omega⟩

/-- No two open transactions hold one id. -/
theorem held_once {db : Db} (hg : db.Good) {xid xid' : Nat} {tx tx' : Transaction} {k : Int}
    (hf : db.transactions.find xid = some tx) (hf' : db.transactions.find xid' = some tx')
    (hk : 0 < tx.copies k) (hk' : 0 < tx'.copies k) : xid' = xid := by
  by_contra hne
  have hclose := openCopies_close hf k
  have hother : (db.close xid).transactions.find xid' = some tx' := by
    rw [find_close, if_neg hne, hf']
  have hle := copies_le_open hother k
  have := hg.once k
  unfold Db.copies at this
  omega

theorem record_of_abort {g : Ledger} {xid : Nat} {c : Call} {a : Answer} (h : Aborts xid c a) :
    g.record (c, a) = g.close xid := by
  unfold Ledger.record
  rcases h with hop | ⟨⟨e, rfl⟩, ⟨_, _, hop⟩ | ⟨_, _, _, hop⟩ | hop⟩
  · simp only [hop]
  · simp only [hop, Ledger.insert]
  · simp only [hop, Ledger.insert]
  · simp only [hop, Ledger.commit]

/-- An abort loses the pending ids. -/
theorem lost_of_abort {calls : List Call} {xid : Nat} {i : Issue} (hi : i ∈ pendingIn calls xid)
    {c : Call} (habort : Aborts xid c (exec (after calls) c).2) :
    Lost i.id (ledger (history (calls ++ [c]))) (after (calls ++ [c])) := by
  have hgood := after_good calls
  obtain ⟨tx, hf, hcopies⟩ := pending_copies hi
  have hunborn := unborn_of_open hgood hf hcopies
  have hissued : i.id < (after calls).next_id := by
    have hle := copies_le_open hf i.id
    refine (hgood.issued i.id ?_).2
    unfold Db.copies
    omega
  have hgrows := (exec_issues hgood c).grows
  have hledger : ledger (history (calls ++ [c])) = (ledger (history calls)).close xid := by
    unfold history
    rw [trace_snoc, ledger_snoc]
    exact record_of_abort habort
  have hafter : after (calls ++ [c]) = (exec (after calls) c).1 := run_snoc exec _ calls c
  rw [hledger, hafter]
  refine ⟨by omega, ?_, ?_⟩
  · intro p hp hid
    obtain ⟨hp, hne⟩ := List.mem_filter.mp hp
    have hpending : p.2 ∈ pendingIn calls p.1 := by
      apply List.mem_map.mpr
      exact ⟨p, List.mem_filter.mpr ⟨hp, by simp⟩, rfl⟩
    obtain ⟨tx', hf', hcopies'⟩ := pending_copies hpending
    rw [hid] at hcopies'
    exact absurd (held_once hgood hf hf' hcopies hcopies') (by simpa using hne)
  · intro j hj hid
    have hsame := (matches_after calls).same j hj
    rw [hid, hunborn] at hsame
    cases hsame

/-! ## The law -/

/-- A transaction lands whole or not at all. While it is open no job of it is in a table, and
none was ever handed out. Its commit brings all of them in one step, and nothing else. After
a rollback, or a statement of it that fails, none of them is ever born, whatever follows. -/
theorem a_transaction_lands_whole (calls : List Call) (xid : Nat) :
    (∀ i ∈ pendingIn calls xid, (after calls).life i.id = .unborn ∧
      deliveries i.id (history calls) = 0) ∧
    (∀ now, (∀ i ∈ pendingIn calls xid, ∃ run_at,
        (after (calls ++ [⟨now, .commit xid⟩])).life i.id =
          .live (newRow i.id i.kind i.payload run_at)) ∧
      ∀ k, (∀ i ∈ pendingIn calls xid, i.id ≠ k) →
        (after (calls ++ [⟨now, .commit xid⟩])).life k = (after calls).life k) ∧
    (∀ c later, Aborts xid c (exec (after calls) c).2 → ∀ i ∈ pendingIn calls xid,
      (after (calls ++ c :: later)).life i.id = .unborn ∧
        deliveries i.id (history (calls ++ c :: later)) = 0) := by
  refine ⟨?_, ?_, ?_⟩
  · intro i hi
    obtain ⟨tx, hf, hcopies⟩ := pending_copies hi
    have hunborn := unborn_of_open (after_good calls) hf hcopies
    exact ⟨hunborn, undelivered_of_unborn hunborn⟩
  · intro now
    constructor
    · intro i hi
      obtain ⟨tx, hf, r, hr, rfl⟩ := pending_row hi
      obtain ⟨kind, payload, run_at, hfresh⟩ :=
        (after_good calls).fresh tx (Table.mem_of_find hf) r hr
      refine ⟨run_at, ?_⟩
      have hlands := (@commit_lands calls xid now tx hf).1 r hr
      unfold issueOf
      rw [hlands]
      rw [hfresh]
      rfl
    · intro k hk
      cases hf : (after calls).transactions.find xid with
      | none =>
        have hafter : after (calls ++ [⟨now, .commit xid⟩]) = (commitIn (after calls) xid).1 :=
          run_snoc exec _ calls _
        rw [hafter]
        unfold commitIn
        rw [hf]
      | some tx =>
        exact (@commit_lands calls xid now tx hf).2 k (fun r hr => hk _ (pending_of_row hf hr))
  · intro c later habort i hi
    have hlost := lost_run (lost_of_abort hi habort) later
    rw [List.append_assoc, List.singleton_append] at hlost
    have hunborn := unborn_of_lost hlost
    exact ⟨hunborn, undelivered_of_unborn hunborn⟩

end skip_locked
