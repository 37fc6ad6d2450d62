-- What the open statements of a schedule wait for. A claim never waits: its own
-- visits bring it to its commit, and its commit goes through. No circle of
-- statements arises while at most one heartbeat or reap is open.
import SkipLocked.RowWaits
import SkipLocked.Schedules

open jsonb postgres keyed_table event_runs row_locks

namespace skip_locked

open claim lease retry

/-! ## The statements that may wait -/

/-- The calls that may lock several rows, and wait for each. -/
def Op.locksMany : Op → Bool
  | .heartbeat .. => true
  | .reap _ => true
  | _ => false

theorem skip_of_claim {c : Call} {st : Statement Call JobRow.id} (h : statementOf c = some st)
    (hc : c.op.claimant.isSome) :
    st.skip = true ∧ ∀ r, st.fits r = decide (r.attempts < INT4_MAX) := by
  unfold statementOf at h
  cases hop : c.op with
  | claim_batch kinds n worker_id plan =>
    simp only [hop] at h
    split at h
    · cases h
    · cases h
      exact ⟨rfl, fun _ => rfl⟩
  | fair_claim kinds batch per_tenant_cap worker_id plan =>
    simp only [hop] at h
    split at h
    · cases h
    split at h
    · cases h
    · cases h
      exact ⟨rfl, fun _ => rfl⟩
  | _ =>
    rw [hop] at hc
    cases hc

/-- An outcome call asks for the row of its job alone. -/
theorem locksMany_of_wide {c : Call} {st : Statement Call JobRow.id} (h : statementOf c = some st)
    (hwide : st.Wide) : c.op.locksMany = true := by
  obtain ⟨hskip, hmany⟩ := hwide
  cases hop : c.op with
  | heartbeat ids worker_id => rfl
  | reap l => rfl
  | claim_batch kinds n worker_id plan =>
    rw [(skip_of_claim h (by rw [hop]; rfl)).1] at hskip
    cases hskip
  | fair_claim kinds batch per_tenant_cap worker_id plan =>
    rw [(skip_of_claim h (by rw [hop]; rfl)).1] at hskip
    cases hskip
  | mark_done id =>
    unfold statementOf at h
    simp only [hop] at h
    cases h
    exact absurd ⟨id, fun r hr => by simpa [updateStatement, plainStatement] using hr⟩ hmany
  | requeue id err =>
    unfold statementOf at h
    simp only [hop] at h
    cases h
    refine absurd ⟨id, fun r hr => ?_⟩ hmany
    have hr : (decide (r.id = id) && decide (r.attempts < r.max_attempts)) = true := hr
    simp only [Bool.and_eq_true, decide_eq_true_eq] at hr
    exact hr.1
  | dead_letter id err =>
    unfold statementOf at h
    simp only [hop] at h
    cases h
    exact absurd ⟨id, fun r hr => by simpa [plainStatement] using hr⟩ hmany
  | _ =>
    unfold statementOf at h
    simp only [hop] at h
    cases h

theorem ended_append (moves later : List Move) :
    ended (moves ++ later) = run step (ended moves) (later.filterMap Move.event) := by
  unfold ended
  rw [List.filterMap_append, run_append]

/-! ## A claim -/

def Move.visits (sid : Nat) : Move → Bool
  | .visit i => decide (i = sid)
  | _ => false

/-- The commit or the crash of a session. -/
def Move.ends (sid : Nat) : Move → Bool
  | .commit i => decide (i = sid)
  | .crash i => decide (i = sid)
  | _ => false

theorem visits_event {m : Move} {e : Event Call JobRow.id} (h : m.event = some e) (sid : Nat) :
    e.visits sid = m.visits sid := by
  cases m with
  | call c =>
    obtain ⟨st, _, hs⟩ := Option.map_eq_some_iff.mp h
    cases hs
    rfl
  | _ =>
    cases h
    rfl

theorem countP_visits (moves : List Move) (sid : Nat) :
    (moves.filterMap Move.event).countP (Event.visits sid) = moves.countP (Move.visits sid) := by
  induction moves with
  | nil => rfl
  | cons m rest ih =>
    rw [List.countP_cons]
    cases hm : m.event with
    | none =>
      have hno : m.visits sid = false := by
        cases m with
        | call c => rfl
        | _ => cases hm
      rw [List.filterMap_cons_none hm, ih, hno]
      rfl
    | some e => rw [List.filterMap_cons_some hm, List.countP_cons, ih, visits_event hm]

/-- Each row that a claim changes has an attempt left in an `int4`. -/
theorem claim_fits (moves : List Move) {x : Session Call JobRow.id}
    (hx : x ∈ (ended moves).sessions.rows) (hclaim : x.st.tag.op.claimant.isSome) :
    ∀ p ∈ changesOf (ended moves).table x, x.st.fits p.1 = true := by
  intro p hp
  obtain ⟨hu, hcounted⟩ := countedIn_seen moves p.1.id
  obtain ⟨c, hst⟩ := hu.calls x hx
  rw [statementOf_tag hst] at hclaim
  obtain ⟨hmem, _, _⟩ := mem_changesOf.mp hp
  rw [life_of_ended hmem] at hcounted
  obtain ⟨heq, _, _⟩ := hcounted.counted
  have := hcounted.few
  rw [(skip_of_claim hst hclaim).2, decide_eq_true_eq, heq]
  unfold INT4_MAX
  omega

/-- A claim never waits for another session and never fails: after as many visits as its
snapshot has rows left, whatever the others do in between, its commit goes through. -/
theorem a_claim_never_waits (moves later : List Move) (x : Session Call JobRow.id)
    (hx : x ∈ (ended moves).sessions.rows) (hclaim : x.st.tag.op.claimant.isSome)
    (hopen : ∀ m ∈ later, m.ends x.sid = false)
    (hmany : x.left ≤ later.countP (Move.visits x.sid)) :
    ∃ changes, (step (ended (moves ++ later)) (.commit x.sid)).2 =
      some (.committed x.sid x.st changes) := by
  obtain ⟨c, hst⟩ := (countedIn_seen moves 0).1.calls x hx
  have htag := statementOf_tag hst
  have hevents : ∀ e ∈ later.filterMap Move.event, ¬ e.Ends x.sid := by
    intro e he hends
    obtain ⟨m, hm, hme⟩ := List.mem_filterMap.mp he
    have hno := hopen m hm
    cases m with
    | commit sid =>
      cases hme
      exact of_decide_eq_false hno hends
    | crash sid =>
      cases hme
      exact of_decide_eq_false hno hends
    | call c =>
      obtain ⟨st, _, hs⟩ := Option.map_eq_some_iff.mp hme
      cases hs
      exact hends
    | _ =>
      cases hme
      exact hends
  obtain ⟨y, hy, hsid, hyst, hdone⟩ := skipper_through hx
    (skip_of_claim hst (htag ▸ hclaim)).1 hevents (by rwa [countP_visits])
  rw [← ended_append] at hy
  have hfits := claim_fits (moves ++ later) hy (by rwa [hyst])
  refine ⟨changesOf (ended (moves ++ later)).table y, ?_⟩
  have hstep : step (ended (moves ++ later)) (.commit y.sid) =
      row_locks.commitIn (ended (moves ++ later)) y := by
    unfold step
    dsimp only
    rw [Table.find_of_mem hy]
  rw [← hsid, ← hyst, hstep]
  unfold row_locks.commitIn
  rw [if_pos (show y.todo = [] ∨ y.full = true from hdone), if_pos (List.all_eq_true.mpr hfits)]

/-- A heartbeat holds the row of one job, and a success report waits for it. A claim of the
other job has not looked yet. -/
def threeOpen : List Move :=
  [.enqueued 1 "k" .null 0, .enqueued 2 "k" .null 0,
    .call ⟨5, .claim_batch ["k"] 1 "a" .alone⟩, .visit 0, .commit 0,
    .call ⟨6, .heartbeat [1, 2] "a"⟩, .visit 1,
    .call ⟨7, .claim_batch ["k"] 2 "b" .alone⟩, .call ⟨8, .mark_done 2⟩, .visit 3]

theorem the_claim_of_b_goes_through :
    ∃ x ∈ (ended threeOpen).sessions.rows, x.sid = 2 ∧
      ∃ changes, (step (ended (threeOpen ++ [.commit 1, .visit 2, .visit 3])) (.commit x.sid)).2 =
        some (.committed x.sid x.st changes) := by
  obtain ⟨x, hx, hsid, hclaim, hleft⟩ : ∃ x ∈ (ended threeOpen).sessions.rows, x.sid = 2 ∧
      x.st.tag.op.claimant.isSome = true ∧ x.left ≤ 1 := by decide +kernel
  refine ⟨x, hx, hsid, ?_⟩
  apply a_claim_never_waits threeOpen _ x hx hclaim
  · rw [hsid]
    decide
  · rw [hsid]
    exact hleft

/-! ## All open statements -/

/-- A visit or a commit: no new call, no crash, no new job. -/
def Move.goesOn : Move → Bool
  | .visit _ => true
  | .commit _ => true
  | _ => false

/-- The moves of events that go on. -/
theorem moves_of_ahead {events : List (Event Call JobRow.id)} (h : ∀ e ∈ events, e.Ahead) :
    ∃ moves : List Move, (∀ m ∈ moves, m.goesOn = true) ∧ moves.length = events.length ∧
      moves.filterMap Move.event = events := by
  induction events with
  | nil => exact ⟨[], by simp, rfl, rfl⟩
  | cons e rest ih =>
    obtain ⟨moves, hgo, hlen, hevents⟩ := ih (fun d hd => h d (List.mem_cons_of_mem e hd))
    obtain ⟨m, hm, hme⟩ : ∃ m : Move, m.goesOn = true ∧ m.event = some e := by
      have he := h e List.mem_cons_self
      cases e with
      | visit sid => exact ⟨.visit sid, rfl, rfl⟩
      | commit sid => exact ⟨.commit sid, rfl, rfl⟩
      | _ => exact he.elim
    refine ⟨m :: moves, ?_, by simp [hlen], by rw [List.filterMap_cons_some hme, hevents]⟩
    intro d hd
    rcases List.mem_cons.mp hd with rfl | hd
    · exact hm
    · exact hgo d hd

theorem allAsk_ended (moves : List Move) : AllAsk (ended moves) :=
  run_invariant (allAsk_rest Table.empty) (fun _ e h => allAsk_step h e) _

/-- From every reachable state with at most one heartbeat or reap among the open statements,
visits and commits alone bring all of them to their end: there is no deadlock. -/
theorem the_open_statements_can_finish (moves : List Move)
    (hone : ∀ x ∈ (ended moves).sessions.rows, ∀ y ∈ (ended moves).sessions.rows,
      x.st.tag.op.locksMany = true → y.st.tag.op.locksMany = true → x.sid = y.sid) :
    ∃ later : List Move, (∀ m ∈ later, m.goesOn = true) ∧ later.length ≤ (ended moves).work ∧
      (ended (moves ++ later)).sessions.rows = [] := by
  have hu := (countedIn_seen moves 0).1
  have hmany : ∀ x ∈ (ended moves).sessions.rows, x.st.Wide → x.st.tag.op.locksMany = true := by
    intro x hx hwide
    obtain ⟨c, hst⟩ := hu.calls x hx
    rw [statementOf_tag hst]
    exact locksMany_of_wide hst hwide
  have hwide : OneWide (ended moves) :=
    fun x hx y hy hwx hwy => hone x hx y hy (hmany x hx hwx) (hmany y hy hwy)
  obtain ⟨events, hahead, hlen, hend⟩ := everybody_finishes (allAsk_ended moves) hwide
  obtain ⟨later, hgo, hlater, hevents⟩ := moves_of_ahead hahead
  refine ⟨later, hgo, hlater ▸ hlen, ?_⟩
  rw [ended_append, hevents]
  exact hend

theorem three_open_statements_finish :
    ∃ later : List Move, (∀ m ∈ later, m.goesOn = true) ∧ later.length ≤ (ended threeOpen).work ∧
      (ended (threeOpen ++ later)).sessions.rows = [] := by
  apply the_open_statements_can_finish
  decide +kernel

end skip_locked
