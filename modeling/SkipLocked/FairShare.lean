-- The law of the fair claim: it takes from each carrier of its window what the
-- cap leaves of it. The total is the sum of these shares, and only the window
-- of four times the batch bounds it.
import SkipLocked.Claim
import Mathlib.Algebra.BigOperators.Group.Finset.Basic

open jsonb postgres keyed_table

namespace skip_locked.claim

/-! ## The rows within the cap -/

section
variable {α π : Type} [DecidableEq π] (part : α → π)

/-- The rows whose number in their partition is at most `cap`. -/
def withinCap (cap : Int) (seen : List π) (l : List α) : List α :=
  ((rowNumbers part seen l).filter (fun x => decide (x.2 ≤ cap))).map Prod.fst

theorem withinCap_cons (cap : Int) (seen : List π) (r : α) (rest : List α) :
    withinCap part cap seen (r :: rest) =
      if (seen.count (part r) : Int) + 1 ≤ cap then r :: withinCap part cap (part r :: seen) rest
      else withinCap part cap (part r :: seen) rest := by
  unfold withinCap
  rw [rowNumbers, List.filter_cons]
  by_cases h : (seen.count (part r) : Int) + 1 ≤ cap
  · simp [h]
  · simp [h]

theorem withinCap_sublist (cap : Int) (seen : List π) (l : List α) :
    (withinCap part cap seen l).Sublist l := by
  induction l generalizing seen with
  | nil => simp [withinCap, rowNumbers]
  | cons r rest ih =>
    rw [withinCap_cons]
    split
    · exact (ih (part r :: seen)).cons_cons r
    · exact (ih (part r :: seen)).cons r

/-- Of one partition the ranking keeps the first rows, as many as the cap leaves. -/
theorem filter_withinCap_seen (cap : Int) (seen : List π) (l : List α) (c : π) :
    (withinCap part cap seen l).filter (fun r => decide (part r = c)) =
      (l.filter (fun r => decide (part r = c))).take (cap.toNat - seen.count c) := by
  induction l generalizing seen with
  | nil => simp [withinCap, rowNumbers]
  | cons r rest ih =>
    have hrest := ih (part r :: seen)
    rw [withinCap_cons]
    by_cases hc : part r = c
    · subst hc
      rw [List.count_cons_self] at hrest
      rw [List.filter_cons_of_pos (by simp)]
      split
      · rename_i hin
        have hleft : cap.toNat - seen.count (part r) =
            (cap.toNat - (seen.count (part r) + 1)) + 1 := by
          omega
        rw [List.filter_cons_of_pos (by simp), hleft, List.take_succ_cons, hrest]
      · rename_i hout
        have hnone : cap.toNat - seen.count (part r) = 0 := by omega
        have hnone' : cap.toNat - (seen.count (part r) + 1) = 0 := by omega
        rw [hrest, hnone, hnone', List.take_zero, List.take_zero]
    · rw [List.count_cons_of_ne hc] at hrest
      rw [List.filter_cons_of_neg (by simpa using hc)]
      split
      · rw [List.filter_cons_of_neg (by simpa using hc), hrest]
      · exact hrest

theorem filter_withinCap (cap : Int) (l : List α) (c : π) :
    (withinCap part cap [] l).filter (fun r => decide (part r = c)) =
      (l.filter (fun r => decide (part r = c))).take cap.toNat := by
  rw [filter_withinCap_seen, List.count_nil, Nat.sub_zero]

/-- A partition keeps its count, up to the cap. -/
theorem count_withinCap (cap : Int) (l : List α) (c : π) :
    ((withinCap part cap [] l).map part).count c = min cap.toNat ((l.map part).count c) := by
  have hcount : ∀ l : List α,
      (l.map part).count c = (l.filter (fun r => decide (part r = c))).length := by
    intro l
    rw [List.count_eq_countP, List.countP_map, List.countP_eq_length_filter]
    rfl
  rw [hcount, hcount, filter_withinCap, List.length_take]

/-- What the partitions of a list may take of it under the cap. -/
def shares (cap : Int) (l : List α) : Nat :=
  ∑ c ∈ (l.map part).toFinset, min cap.toNat ((l.map part).count c)

theorem shares_perm (cap : Int) {l l' : List α} (h : l.Perm l') :
    shares part cap l = shares part cap l' := by
  have hperm := h.map part
  unfold shares
  rw [List.toFinset_eq_of_perm _ _ hperm]
  refine Finset.sum_congr rfl (fun c _ => ?_)
  rw [hperm.count_eq]

/-- The number of all the rows within the cap is the sum over the partitions. -/
theorem length_withinCap (cap : Int) (l : List α) :
    (withinCap part cap [] l).length = shares part cap l := by
  have hall : ∀ c ∈ (((withinCap part cap [] l).map part : List π) : Multiset π),
      c ∈ (l.map part).toFinset := by
    intro c hc
    rw [Multiset.mem_coe] at hc
    exact List.mem_toFinset.mpr (((withinCap_sublist part cap [] l).map part).subset hc)
  have hsum := Multiset.sum_count_eq_card hall
  rw [Multiset.coe_card, List.length_map] at hsum
  rw [← hsum]
  refine Finset.sum_congr rfl (fun c _ => ?_)
  rw [Multiset.coe_count, count_withinCap]

end

/-! ## The rows that a fair claim takes -/

/-- The rows of the window that the ranking keeps. -/
def keptRows (per_tenant_cap : Int) (plan : Plan) (locked : List JobRow) : List JobRow :=
  withinCap carrier_id per_tenant_cap [] (byRunAt (plan.rank.order locked))

theorem keptIds_eq (per_tenant_cap : Int) (plan : Plan) (locked : List JobRow) :
    keptIds per_tenant_cap plan locked = (keptRows per_tenant_cap plan locked).map (·.id) := by
  unfold keptIds keptRows withinCap
  rw [List.map_map]
  rfl

theorem ranked_perm (plan : Plan) (locked : List JobRow) :
    (byRunAt (plan.rank.order locked)).Perm locked :=
  (byRunAt_perm _).trans (plan.rank.perm locked)

theorem keptRows_subset {per_tenant_cap : Int} {plan : Plan} {locked : List JobRow} {r : JobRow}
    (h : r ∈ keptRows per_tenant_cap plan locked) : r ∈ locked :=
  (ranked_perm plan locked).mem_iff.mp ((withinCap_sublist _ _ _ _).subset h)

theorem keptRows_nodup (per_tenant_cap : Int) (plan : Plan) {locked : List JobRow}
    (h : (locked.map (·.id)).Nodup) : ((keptRows per_tenant_cap plan locked).map (·.id)).Nodup :=
  (((ranked_perm plan locked).map (·.id)).nodup_iff.mpr h).sublist
    ((withinCap_sublist _ _ _ _).map _)

/-- What the carriers of a window may take of it under the cap. -/
def fairShare (per_tenant_cap : Int) (locked : List JobRow) : Nat :=
  shares carrier_id per_tenant_cap locked

theorem length_keptRows (per_tenant_cap : Int) (plan : Plan) (locked : List JobRow) :
    (keptRows per_tenant_cap plan locked).length = fairShare per_tenant_cap locked :=
  (length_withinCap carrier_id _ _).trans
    (shares_perm carrier_id per_tenant_cap (ranked_perm plan locked))

/-- The window of a fair claim. -/
def fairWindow (db : Db) (now : Int) (kinds : List Text) (batch : Int) (plan : Plan) :
    List JobRow :=
  lockWindow db.jobs now kinds (batch * 4).toNat plan

/-- A fair claim takes the kept rows of its window. -/
theorem fair_claim_takes (db : Db) (now : Int) (kinds : List Text) {batch : Int}
    (per_tenant_cap : Int) (worker_id : Text) (plan : Plan) (h0 : 0 ≤ batch)
    (hwide : batch * 4 ≤ INT8_MAX) :
    fair_claim db now kinds batch per_tenant_cap worker_id plan =
      takeRows db now worker_id
        ((keptRows per_tenant_cap plan (fairWindow db now kinds batch plan)).map (·.id)) plan := by
  have hmin : INT8_MIN ≤ batch * 4 := by
    unfold INT8_MIN
    omega
  have hlimit : limitOf (batch * 4) = .ok (batch * 4).toNat := if_neg (by omega)
  unfold fair_claim
  dsimp only
  rw [if_neg (by omega), hlimit, ← keptIds_eq]
  rfl

theorem fairRows_nodup (db : Db) (now : Int) (kinds : List Text) (batch per_tenant_cap : Int)
    (plan : Plan) :
    ((keptRows per_tenant_cap plan (fairWindow db now kinds batch plan)).map (·.id)).Nodup :=
  keptRows_nodup per_tenant_cap plan (lockWindow_nodup db.jobs now kinds _ plan)

theorem mem_fairRows {db : Db} {now : Int} {kinds : List Text} {batch per_tenant_cap : Int}
    {plan : Plan} {r : JobRow}
    (h : r ∈ keptRows per_tenant_cap plan (fairWindow db now kinds batch plan)) :
    r ∈ db.jobs.rows := (mem_lockWindow (keptRows_subset h)).1

/-! ## The size of a batch -/

/-- The rows that run now and did not run before. -/
def startedRows (db db' : Db) : List JobRow :=
  db.jobs.rows.filter (fun r => decide (r.state ≠ .running) &&
    (db'.jobs.find r.id).any (fun r' => decide (r'.state = .running)))

/-- A claim starts the rows that it returns, and no others. -/
theorem Took.started {db db' : Db} {now : Int} {kinds : List Text} {worker_id : Text}
    {plan : Plan} {jobs : List Job} (h : Took db now kinds worker_id plan db' jobs) :
    (startedRows db db').length = jobs.length := by
  have hnodup : ((startedRows db db').map (·.id)).Nodup :=
    db.jobs.pk.sublist (List.filter_sublist.map _)
  have hmem : ∀ k, k ∈ (startedRows db db').map (·.id) ↔ k ∈ jobs.map (·.id) := by
    intro k
    unfold startedRows
    simp only [List.mem_map, List.mem_filter, Bool.and_eq_true, decide_eq_true_eq]
    constructor
    · rintro ⟨r, ⟨hr, hidle, hruns⟩, rfl⟩
      rw [h.row, Table.find_of_mem hr, Option.map_some] at hruns
      by_contra hno
      have hno' : r.id ∉ jobs.map (·.id) := fun hj => hno (by simpa using hj)
      rw [if_neg hno'] at hruns
      exact hidle (by simpa using hruns)
    · rintro ⟨job, hjob, rfl⟩
      obtain ⟨r, hf, hready, hf'⟩ := h.find hjob
      have hid : r.id = job.id := Table.key_of_find hf
      refine ⟨r, ⟨Table.mem_of_find hf, by simp [hready], ?_⟩, hid⟩
      rw [hid, hf']
      simp [setRunning]
  have hperm := (List.perm_ext_iff_of_nodup hnodup h.nodup).mpr hmem
  simpa using hperm.length_eq

/-- A claim returns, and starts, at most `batch` rows. -/
def WithinBatch (db : Db) (batch : Int) (res : Except PgError (Db × List Job)) : Prop :=
  ∀ db' jobs, res = .ok (db', jobs) →
    (jobs.length : Int) ≤ batch ∧ ((startedRows db db').length : Int) ≤ batch

/-- A fair claim keeps to its batch exactly when the shares of the carriers of its window fit
in it, or when one row that it would take has its `attempts` at the end of the `int4`, so that
it takes none. -/
theorem a_fair_claim_keeps_to_its_batch (db : Db) (now : Int) (kinds : List Text)
    (batch per_tenant_cap : Int) (worker_id : Text) (plan : Plan) (h0 : 0 ≤ batch)
    (hwide : batch * 4 ≤ INT8_MAX) :
    WithinBatch db batch (fair_claim db now kinds batch per_tenant_cap worker_id plan) ↔
      (fairShare per_tenant_cap (fairWindow db now kinds batch plan) : Int) ≤ batch ∨
      ∃ r ∈ keptRows per_tenant_cap plan (fairWindow db now kinds batch plan),
        INT4_MAX ≤ r.attempts := by
  have hlen := length_keptRows per_tenant_cap plan (fairWindow db now kinds batch plan)
  have htakes := fair_claim_takes db now kinds per_tenant_cap worker_id plan h0 hwide
  rcases takeRows_cases now worker_id plan (fairRows_nodup db now kinds batch per_tenant_cap plan)
    (fun r hr => mem_fairRows hr) with ⟨hlast, herr⟩ | ⟨hfit, db', jobs, hok, hperm⟩
  · refine ⟨fun _ => Or.inr hlast, fun _ db' jobs hres => ?_⟩
    rw [htakes, herr] at hres
    cases hres
  · have hjobs : jobs.length =
        fairShare per_tenant_cap (fairWindow db now kinds batch plan) := by
      rw [← hlen, hperm.length_eq, List.length_map]
    have hclaim := htakes.trans hok
    constructor
    · intro hwithin
      left
      rw [← hjobs]
      exact (hwithin db' jobs hclaim).1
    · rintro (hfits | ⟨r, hr, hlast⟩)
      · intro db'' jobs' hres
        rw [hclaim] at hres
        cases hres
        rw [← hjobs] at hfits
        rw [(fair_claim_took hclaim).started]
        exact ⟨hfits, hfits⟩
      · have := hfit r hr
        omega

/-- Two jobs of two carriers. -/
def twoCarriers : Db :=
  { Db.empty with
    jobs := ⟨[newRow 1 "k" (.object [("carrier_id", .string "A")]) 0,
      newRow 2 "k" (.object [("carrier_id", .string "B")]) 0], by decide⟩,
    next_id := 3 }

/-- A batch of two holds the shares of two carriers under a cap of one. -/
theorem a_batch_of_two_holds_two_carriers :
    WithinBatch twoCarriers 2 (fair_claim twoCarriers 0 ["k"] 2 1 "w" .alone) := by
  refine (a_fair_claim_keeps_to_its_batch twoCarriers 0 ["k"] 2 1 "w" .alone (by decide)
    (by decide)).mpr (Or.inl ?_)
  decide +kernel

/-- A batch of one does not: the claim returns both jobs. -/
theorem a_batch_of_one_returns_two :
    ¬ WithinBatch twoCarriers 1 (fair_claim twoCarriers 0 ["k"] 1 1 "w" .alone) := by
  intro hwithin
  have hcount : (fair_claim twoCarriers 0 ["k"] 1 1 "w" .alone).toOption.map
      (fun x => x.2.length) = some 2 := by decide +kernel
  rcases hclaim : fair_claim twoCarriers 0 ["k"] 1 1 "w" .alone with e | ⟨db', jobs⟩
  · simp [hclaim, Except.toOption] at hcount
  · have hone := (hwithin db' jobs hclaim).1
    simp only [hclaim, Except.toOption, Option.map_some, Option.some.injEq] at hcount
    omega

end skip_locked.claim
