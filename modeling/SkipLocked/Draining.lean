-- The law of the drain: workers that claim until a claim is empty take each
-- eligible job once, in any order of their steps. The locks of one may empty
-- the claim of another, but the last to stop leaves no job behind.
import SkipLocked.Attempts
import SkipLocked.Crew
import SkipLocked.FairShare
import SkipLocked.Interleavings

open jsonb postgres keyed_table event_runs row_locks

namespace skip_locked

open claim

/-! ## The claims of the workers -/

/-- A worker calls a claim, or its session goes one step on. -/
inductive ClaimTurn where
  | call (i : Nat) (c : Call)
  | visit (i : Nat)
  | commit (i : Nat)

def ClaimTurn.turn : ClaimTurn → Option (crew.Turn Call JobRow.id)
  | .call i c => (statementOf c).map (.call i)
  | .visit i => some (.visit i)
  | .commit i => some (.commit i)

/-- A claim of these kinds that asks for one row at least. -/
def ClaimsOf (kinds : List Text) (c : Call) : Prop :=
  match c.op with
  | .claim_batch kinds' n _ _ => kinds' = kinds ∧ 1 ≤ n
  | .fair_claim kinds' batch per_tenant_cap _ _ =>
    kinds' = kinds ∧ 1 ≤ batch ∧ batch * 4 ≤ INT8_MAX ∧ 1 ≤ per_tenant_cap
  | _ => False

/-- What a claim makes of a row. -/
def Starts (r r' : JobRow) : Prop := ∃ now worker_id, r' = setRunning now worker_id r

/-- The ranking keeps a row of each window that has one. -/
theorem keptIds_ne_nil {per_tenant_cap : Int} (plan : Plan) {rows : List JobRow}
    (hcap : 1 ≤ per_tenant_cap) (hne : rows ≠ []) : keptIds per_tenant_cap plan rows ≠ [] := by
  have hranked : byRunAt (plan.rank.order rows) ≠ [] := by
    intro hnil
    have hperm := ranked_perm plan rows
    rw [hnil] at hperm
    exact hne hperm.nil_eq.symm
  obtain ⟨r, rest, hr⟩ := List.exists_cons_of_ne_nil hranked
  rw [keptIds_eq]
  unfold keptRows
  rw [hr, withinCap_cons]
  simp [hcap]

/-- The statement of such a claim. -/
theorem statement_of_claim {kinds : List Text} {c : Call} (h : ClaimsOf kinds c) :
    ∃ limit worker_id plan pick hpick,
      statementOf c = some (claimStatement c kinds limit worker_id plan pick hpick) ∧
      limit ≠ 0 ∧ ∀ rows, rows ≠ [] → pick rows ≠ [] := by
  unfold ClaimsOf at h
  unfold statementOf
  cases hop : c.op with
  | claim_batch kinds' n worker_id plan =>
    rw [hop] at h
    obtain ⟨rfl, hn⟩ := h
    have hlimit : limitOf n = .ok n.toNat := if_neg (by omega)
    refine ⟨n.toNat, worker_id, plan, fun rows => rows.map (·.id), fun _ _ h => h, ?_, by omega, ?_⟩
    · dsimp only
      rw [hlimit]
    · intro rows hne
      simpa using hne
  | fair_claim kinds' batch per_tenant_cap worker_id plan =>
    rw [hop] at h
    obtain ⟨rfl, hbatch, hwide, hcap⟩ := h
    have hrange : ¬ (batch * 4 < INT8_MIN ∨ INT8_MAX < batch * 4) := by
      unfold INT8_MIN
      omega
    have hlimit : limitOf (batch * 4) = .ok (batch * 4).toNat := if_neg (by omega)
    refine ⟨(batch * 4).toNat, worker_id, plan, keptIds per_tenant_cap plan,
      fun _ _ h => List.mem_map.mpr (mem_keptIds h), ?_, by omega, ?_⟩
    · dsimp only
      rw [if_neg hrange, hlimit]
    · intro rows hne
      exact keptIds_ne_nil plan hcap hne
  | _ =>
    rw [hop] at h
    exact h.elim

/-- Such a claim drains the jobs that are claimable at the start, as long as no other becomes
due, and each of them has an attempt left that an `int4` can hold. -/
theorem claim_drains {jobs : Table JobRow.id} {now : Int} {kinds : List Text} {c : Call}
    {st : Statement Call JobRow.id} (hc : ClaimsOf kinds c)
    (hdue : ∀ r ∈ jobs.rows, claimable c.now kinds r = claimable now kinds r)
    (hfit : ∀ r ∈ jobs.rows, claimable now kinds r = true → r.attempts < INT4_MAX)
    (hst : statementOf c = some st) : crew.Drains jobs (claimable now kinds) Starts st := by
  obtain ⟨limit, worker_id, plan, pick, hpick, hstatement, hlimit, hpicks⟩ := statement_of_claim hc
  rw [hst, Option.some.injEq] at hstatement
  subst hstatement
  refine ⟨rfl, ?_, hpicks, hdue, ?_, ?_, ?_⟩
  · intro hzero
    exact hlimit (Option.some.inj hzero)
  · intro r hr hel
    exact decide_eq_true (hfit r hr hel)
  · intro r _ _
    exact ⟨_, rfl, _, _, rfl⟩
  · rintro r r' ⟨t, w, rfl⟩
    simp [claimStatement, claimable, setRunning]

theorem turns_drain {jobs : Table JobRow.id} {now : Int} {kinds : List Text}
    {turns : List ClaimTurn} (hclaims : ∀ i c, .call i c ∈ turns → ClaimsOf kinds c)
    (hdue : ∀ i c, .call i c ∈ turns → ∀ r ∈ jobs.rows,
      claimable c.now kinds r = claimable now kinds r)
    (hfit : ∀ r ∈ jobs.rows, claimable now kinds r = true → r.attempts < INT4_MAX) (i : Nat)
    (st : Statement Call JobRow.id) (hmem : .call i st ∈ turns.filterMap ClaimTurn.turn) :
    crew.Drains jobs (claimable now kinds) Starts st := by
  obtain ⟨t, ht, hcall⟩ := List.mem_filterMap.mp hmem
  cases t with
  | call i' c =>
    obtain ⟨st', hst, hsame⟩ := Option.map_eq_some_iff.mp hcall
    cases hsame
    exact claim_drains (hclaims i c ht) (hdue i c ht) hfit hst
  | visit i' => cases hcall
  | commit i' => cases hcall

/-! ## The jobs of the answers -/

/-- The ids of all the jobs that the claims returned. -/
def returnedIds (answers : List (List (JobRow × Option JobRow))) : List Int :=
  (answers.flatMap returned).map (·.id)

theorem returnedIds_eq {jobs now : Table JobRow.id} {el : JobRow → Bool}
    {becomes : JobRow → JobRow → Prop} {answers : List (List (JobRow × Option JobRow))}
    (h : crew.Answered jobs el becomes answers now) :
    returnedIds answers = crew.keysOf JobRow.id answers := by
  have hjobs : answers.flatMap returned =
      answers.flatten.filterMap (fun d => d.2.map jobOf) := by
    unfold returned
    rw [List.filterMap_flatten, List.flatMap_def]
  unfold returnedIds crew.keysOf
  rw [hjobs, List.map_filterMap, ← List.filterMap_eq_map]
  apply List.filterMap_congr
  intro d hd
  obtain ⟨_, _, r', hr', hf, _⟩ := h.changed d hd
  have hid : r'.id = d.1.id := Table.key_of_find hf
  rw [hr']
  exact congrArg some hid

/-! ## The law -/

/-- Some workers call claims of the same kinds on any reachable table, each until a claim is
empty, and no other job becomes due. In any order of the steps of their statements they
make at most one call for each eligible job, and one for each worker, and no call fails. When
all have stopped, each eligible job runs, one call has returned it, and once, and no other
row has changed. -/
theorem the_drain_takes_each_job_once (calls : List Call) (now : Int) (kinds : List Text)
    (workers : Nat) (turns : List ClaimTurn) (hone : 0 < workers)
    (hclaims : ∀ i c, .call i c ∈ turns → ClaimsOf kinds c)
    (hdue : ∀ i c, .call i c ∈ turns → ∀ r ∈ (after calls).jobs.rows,
      claimable c.now kinds r = claimable now kinds r) :
    let jobs := (after calls).jobs
    let init := crew.Crew.start Call jobs workers
    let h := trace crew.step init (turns.filterMap ClaimTurn.turn)
    let c := run crew.step init (turns.filterMap ClaimTurn.turn)
    let ids := returnedIds (crew.answers h)
    crew.made h ≤ (jobs.rows.filter (claimable now kinds)).length + workers ∧
    .failed ∉ c.workers ∧
    ((∀ w ∈ c.workers, w = .stopped) →
      (∀ r ∈ jobs.rows, claimable now kinds r = true → ids.count r.id = 1 ∧
        ∃ t w, c.server.table.find r.id = some (setRunning t w r)) ∧
      ∀ k, (∀ r, jobs.find k = some r → claimable now kinds r = false) → ids.count k = 0 ∧
        c.server.table.find k = jobs.find k) := by
  intro jobs init h c ids
  have hfit : ∀ r ∈ jobs.rows, claimable now kinds r = true → r.attempts < INT4_MAX :=
    fun r hr hel => ready_fits calls hr (claimable_iff.mp hel).1
  have hs := crew.staffed_run hone (turns_drain hclaims hdue hfit)
  have hids : ids = crew.keysOf JobRow.id (crew.answers h) := returnedIds_eq hs.orderly.answered
  rw [hids]
  refine ⟨crew.calls_le hs, hs.sound, ?_⟩
  intro hall
  refine ⟨?_, ?_⟩
  · intro r hr hel
    obtain ⟨hcount, _, hf, t, w, rfl⟩ := crew.emptied hs hall hr hel
    exact ⟨hcount, t, w, hf⟩
  · intro k hel
    exact crew.untouched hs hel

def twoReady : List Call := [⟨0, .enqueue_pool "k" .null⟩, ⟨0, .enqueue_pool "k" .null⟩]

def fairCall : Call := ⟨0, .fair_claim ["k"] 1 1 "a" .alone⟩

/-- The fair claim of the first worker locks both jobs and takes one. The second worker finds
both locked, and stops. -/
def earlyStop : List ClaimTurn :=
  [.call 0 fairCall, .visit 0, .visit 0, .call 1 ⟨0, .claim_batch ["k"] 1 "b" .alone⟩, .visit 1,
    .visit 1, .commit 1, .commit 0, .call 0 fairCall, .visit 0, .commit 0, .call 0 fairCall,
    .commit 0]

/-- The first worker takes the second job too, before it stops. -/
theorem an_early_stop_leaves_no_job :
    let init := crew.Crew.start Call (after twoReady).jobs 2
    let h := trace crew.step init (earlyStop.filterMap ClaimTurn.turn)
    (run crew.step init (earlyStop.filterMap ClaimTurn.turn)).workers = [.stopped, .stopped] ∧
    (after twoReady).jobs.rows.length = 2 ∧ crew.made h = 4 ∧
    ∀ r ∈ (after twoReady).jobs.rows, (returnedIds (crew.answers h)).count r.id = 1 := by
  intro init h
  have hclaims : ∀ i c, .call i c ∈ earlyStop → ClaimsOf ["k"] c ∧ c.now = 0 := by
    intro i c hmem
    simp [earlyStop] at hmem
    have hfair : ClaimsOf ["k"] fairCall ∧ fairCall.now = 0 :=
      ⟨⟨rfl, by decide, by decide, by decide⟩, rfl⟩
    rcases hmem with ⟨_, rfl⟩ | ⟨_, rfl⟩ | ⟨_, rfl⟩
    · exact hfair
    · exact ⟨⟨rfl, by decide⟩, rfl⟩
    · exact hfair
  have hstop : (run crew.step init (earlyStop.filterMap ClaimTurn.turn)).workers =
      [.stopped, .stopped] := by decide +kernel
  have hready : ∀ r ∈ (after twoReady).jobs.rows, claimable 0 ["k"] r = true := by decide +kernel
  obtain ⟨_, _, hdone⟩ := the_drain_takes_each_job_once twoReady 0 ["k"] 2 earlyStop (by decide)
    (fun i c hmem => (hclaims i c hmem).1) (fun i c hmem r _ => by rw [(hclaims i c hmem).2])
  refine ⟨hstop, by decide +kernel, by decide +kernel, ?_⟩
  intro r hr
  refine ((hdone ?_).1 r hr (hready r hr)).1
  rw [hstop]
  simp

end skip_locked
