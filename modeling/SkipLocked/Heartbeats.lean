-- The law of the heartbeat: a job whose holder beats in time is its own until
-- the execution ends. The lease of the reaper is cast from u64 to i64, and a
-- lease that the cast wraps is the one reap that takes such a job.
import SkipLocked.Life
import Mathlib.Data.List.Chain

open jsonb postgres keyed_table event_runs

namespace skip_locked

open claim lease retry

/-! ## One execution of a job -/

/-- The call is a heartbeat of `w` with `j` among its ids. -/
def Op.beats (w : Text) (j : Int) : Op → Bool
  | .heartbeat ids worker_id => decide (worker_id = w) && ids.contains j
  | _ => false

def beatTimes (w : Text) (j : Int) (calls : List Call) : List Int :=
  (calls.filter (fun c => c.op.beats w j)).map (·.now)

/-- The calls of everybody from `start` to `tend`, the end of the execution of job `j` by
`w`. Each gap between two beats is at most the lease, and so are the gaps from the start and
to the end. Nobody gives an outcome of `j`, and nobody reaps with a shorter lease. -/
structure Execution (w : Text) (j : Int) (secs : Nat) (tend start : Int) (calls : List Call) :
    Prop where
  timely : (start :: calls.map (·.now)).Pairwise (· ≤ ·)
  ends : ∀ c ∈ calls, c.now ≤ tend
  gaps : (start :: (beatTimes w j calls ++ [tend])).IsChain
    (fun a b => b - a ≤ secs * USECS_PER_SEC)
  unsettled : ∀ c ∈ calls, c.op.settles j = false
  leases : ∀ c ∈ calls, ∀ l, c.op = .reap l → secs ≤ l.secs

/-- The heartbeat counts job `j`: its row is one of those that the statement matches. -/
def Counts (db : Db) (ids : List Int) (worker_id : Text) (j : Int) : Prop :=
  j ∈ (db.jobs.matching (held ids worker_id)).map (·.id)

/-- What a call of anybody may do while `w` holds `j`. A reap leaves `j` as it is, a claim
does not return it, a heartbeat of another leaves it and does not count it, and a
heartbeat of `w` counts it. -/
def Undisturbed (w : Text) (j : Int) (db : Db) (c : Call) : Prop :=
  match c.op with
  | .reap _ => (exec db c).1.jobs.find j = db.jobs.find j
  | .claim_batch .. => ¬ Delivers j (exec db c).2
  | .fair_claim .. => ¬ Delivers j (exec db c).2
  | .heartbeat ids worker_id =>
    if worker_id = w then j ∈ ids → Counts db ids worker_id j
    else (exec db c).1.jobs.find j = db.jobs.find j ∧ ¬ Counts db ids worker_id j
  | _ => True

/-- The reap does not wrap its lease, or it fails, or it meets `j` on its last attempt. -/
def LeaseFits (j : Int) (db : Db) (c : Call) : Prop :=
  ∀ l cutoff r, c.op = .reap l → cutoffOf c.now l = .ok cutoff → db.jobs.find j = some r →
    l.secs < 2 ^ 63 ∨ r.max_attempts ≤ r.attempts

/-- Worker `w` holds job `j`, since `last`. -/
structure HeldBy (w : Text) (j last : Int) (r : JobRow) : Prop where
  id : r.id = j
  running : r.state = .running
  by_w : r.locked_by = some w
  at_last : r.locked_at = some last

/-! ## One call of an execution -/

/-- The beat after a call: a call that is no beat of `w` leaves the old one. -/
def beatAfter (w : Text) (j last : Int) (c : Call) : Int :=
  if c.op.beats w j then c.now else last

/-- A call in an execution is inside the lease, and the rest is an execution again. -/
theorem Execution.next {w : Text} {j : Int} {secs : Nat} {tend start : Int} {c : Call}
    {rest : List Call} (h : Execution w j secs tend start (c :: rest)) :
    start ≤ c.now ∧ c.now - start ≤ secs * USECS_PER_SEC ∧
      Execution w j secs tend (beatAfter w j start c) rest := by
  obtain ⟨htime, hends, hgaps, hout, hlease⟩ := h
  rw [List.map_cons, List.pairwise_cons] at htime
  obtain ⟨hstart, htime⟩ := htime
  have hle : start ≤ c.now := hstart c.now List.mem_cons_self
  have hends' : ∀ d ∈ rest, d.now ≤ tend := fun d hd => hends d (List.mem_cons_of_mem _ hd)
  have hout' : ∀ d ∈ rest, d.op.settles j = false := fun d hd => hout d (List.mem_cons_of_mem _ hd)
  have hlease' : ∀ d ∈ rest, ∀ l, d.op = .reap l → secs ≤ l.secs :=
    fun d hd => hlease d (List.mem_cons_of_mem _ hd)
  unfold beatAfter
  by_cases hb : c.op.beats w j = true
  · have hcons : beatTimes w j (c :: rest) = c.now :: beatTimes w j rest := by
      simp [beatTimes, hb]
    rw [hcons, List.cons_append, List.isChain_cons_cons] at hgaps
    rw [if_pos hb]
    exact ⟨hle, hgaps.1, htime, hends', hgaps.2, hout', hlease'⟩
  · have hskip : beatTimes w j (c :: rest) = beatTimes w j rest := by simp [beatTimes, hb]
    rw [hskip] at hgaps
    rw [if_neg hb]
    refine ⟨hle, ?_, ?_, hends', hgaps, hout', hlease'⟩
    · -- the next beat, or the end, is no earlier than this call
      have hafter : ∀ t ∈ beatTimes w j rest ++ [tend], c.now ≤ t := by
        intro t ht
        rcases List.mem_append.mp ht with ht | ht
        · obtain ⟨d, hd, rfl⟩ := List.mem_map.mp ht
          exact (List.pairwise_cons.mp htime).1 d.now
            (List.mem_map_of_mem (List.mem_filter.mp hd).1)
        · rw [List.mem_singleton.mp ht]
          exact hends c List.mem_cons_self
      cases hl : beatTimes w j rest ++ [tend] with
      | nil => simp at hl
      | cons t more =>
        rw [hl, List.isChain_cons_cons] at hgaps
        have := hafter t (by rw [hl]; exact List.mem_cons_self)
        omega
    · rw [List.pairwise_cons] at htime ⊢
      exact ⟨fun t ht => hstart t (List.mem_cons_of_mem _ ht), htime.2⟩

theorem find_reap {db : Db} {c : Call} {l : Duration} (hop : c.op = .reap l) (j : Int) :
    (exec db c).1.jobs.find j = match cutoffOf c.now l with
      | .error _ => db.jobs.find j
      | .ok cutoff =>
        (db.jobs.find j).map (fun r => if reapable cutoff r then setReady r else r) := by
  unfold exec
  rw [hop]
  dsimp only
  cases hcut : cutoffOf c.now l with
  | error e =>
    have herr : reap db c.now l = .error e := by
      unfold reap
      rw [hcut]
      rfl
    rw [herr]
    rfl
  | ok cutoff =>
    rw [reap_of_cutoff db hcut]
    exact Table.find_update _ _ _ setReady_id j

/-- A reap leaves the job of `w` exactly when its lease fits. -/
theorem undisturbed_reap {w : Text} {j last : Int} {secs : Nat} {db : Db} {c : Call}
    {l : Duration} {r : JobRow} (hop : c.op = .reap l) (hf : db.jobs.find j = some r)
    (hh : HeldBy w j last r) (hle : last ≤ c.now) (hgap : c.now - last ≤ secs * USECS_PER_SEC)
    (hl : secs ≤ l.secs) : Undisturbed w j db c ↔ LeaseFits j db c := by
  have hund : Undisturbed w j db c ↔ (exec db c).1.jobs.find j = db.jobs.find j := by
    unfold Undisturbed
    rw [hop]
  rw [hund, find_reap hop, hf]
  cases hcut : cutoffOf c.now l with
  | error e =>
    refine ⟨fun _ l' cutoff _ hop' hcut' _ => ?_, fun _ => rfl⟩
    rw [hop] at hop'
    cases hop'
    rw [hcut] at hcut'
    cases hcut'
  | ok cutoff =>
    have hc := minusSeconds_ok hcut
    have hwhen : LeaseFits j db c ↔ (l.secs < 2 ^ 63 ∨ r.max_attempts ≤ r.attempts) := by
      constructor
      · intro h
        exact h l cutoff r hop hcut hf
      · intro h l' cutoff' r' hop' _ hf'
        rw [hop] at hop'
        rw [hf] at hf'
        cases hop'
        cases hf'
        exact h
    have hreap : reapable cutoff r = true ↔ last < cutoff ∧ r.attempts < r.max_attempts := by
      rw [reapable_iff, expired_iff, hh.running, hh.at_last]
      simp
    rw [hwhen]
    simp only [Option.map_some, Option.some.injEq]
    constructor
    · intro hsame
      by_contra hno
      rw [not_or] at hno
      have hneg := asI64_neg (Nat.le_of_not_lt hno.1) l.secs_lt
      have htake : reapable cutoff r = true :=
        hreap.mpr ⟨by unfold USECS_PER_SEC at hc; omega, by omega⟩
      rw [if_pos htake] at hsame
      have hstate := congrArg JobRow.state hsame
      rw [hh.running] at hstate
      cases hstate
    · intro hfits
      have hleave : ¬ reapable cutoff r = true := by
        rw [hreap]
        rintro ⟨hlt, hatt⟩
        rcases hfits with hfits | hfits
        · rw [asI64_of_lt hfits] at hc
          unfold USECS_PER_SEC at hc hgap
          omega
        · omega
      rw [if_neg hleave]

/-- Every heartbeat is as the law says, and so is every claim. -/
theorem undisturbed_else {w : Text} {j last : Int} {db : Db} {c : Call} {r : JobRow}
    (hg : db.Good) (hop : ∀ l, c.op ≠ .reap l) (hf : db.jobs.find j = some r)
    (hh : HeldBy w j last r) : Undisturbed w j db c := by
  have hturn := exec_turn hg c j
  rw [life_of_find hf] at hturn
  have hno : ¬ Delivers j (exec db c).2 := no_delivery_unless_ready hturn (by rw [hh.running]; simp)
  unfold Undisturbed
  cases hc : c.op with
  | claim_batch kinds n worker_id plan => exact hno
  | fair_claim kinds batch per_tenant_cap worker_id plan => exact hno
  | reap l => exact absurd hc (hop l)
  | heartbeat ids worker_id =>
    have hcounts : Counts db ids worker_id j ↔ held ids worker_id r = true := by
      have hiff := Table.key_mem_matching (p := held ids worker_id) (Table.mem_of_find hf)
      rwa [hh.id] at hiff
    have hheld : held ids worker_id r = true ↔ j ∈ ids ∧ w = worker_id := by
      rw [held_iff, hh.id, hh.by_w, hh.running]
      simp
    dsimp only
    split
    · rename_i hw
      intro hj
      exact hcounts.mpr (hheld.mpr ⟨hj, hw.symm⟩)
    · rename_i hw
      have hnot : ¬ held ids worker_id r = true := fun h => hw (hheld.mp h).2.symm
      refine ⟨?_, fun h => hnot (hcounts.mp h)⟩
      unfold exec
      rw [hc]
      refine (find_heartbeat db c.now ids worker_id j).trans ?_
      rw [hf, Option.map_some, if_neg hnot]
  | _ => trivial

/-- While nothing disturbs it and nobody gives its outcome, the job stays with `w`. -/
theorem heldBy_next {w : Text} {j last : Int} {db : Db} {c : Call} {r : JobRow} (hg : db.Good)
    (hf : db.jobs.find j = some r) (hh : HeldBy w j last r) (hset : c.op.settles j = false)
    (hu : Undisturbed w j db c) :
    ∃ r', (exec db c).1.jobs.find j = some r' ∧ HeldBy w j (beatAfter w j last c) r' := by
  unfold beatAfter
  by_cases hb : c.op.beats w j = true
  · rw [if_pos hb]
    obtain ⟨ids, hop, hj⟩ : ∃ ids, c.op = .heartbeat ids w ∧ j ∈ ids := by
      unfold Op.beats at hb
      split at hb
      · rename_i ids worker_id hop
        rw [Bool.and_eq_true, decide_eq_true_eq, List.contains_iff_mem] at hb
        rw [hb.1] at hop
        exact ⟨ids, hop, hb.2⟩
      · cases hb
    have hheld : held ids w r = true := held_iff.mpr ⟨hh.id ▸ hj, hh.by_w, hh.running⟩
    refine ⟨setLockedAt c.now r, ?_, hh.id, hh.running, hh.by_w, rfl⟩
    unfold exec
    rw [hop]
    refine (find_heartbeat db c.now ids w j).trans ?_
    rw [hf, Option.map_some, if_pos hheld]
  · rw [if_neg hb]
    have hturn := exec_turn hg c j
    rw [life_of_find hf] at hturn
    generalize hl : (exec db c).1.life j = l' at hturn
    generalize (exec db c).2 = a at hturn
    cases hturn with
    | still _ _ => exact ⟨r, life_live.mp hl, hh⟩
    | claimed _ _ hready _ _ _ =>
      rw [hh.running] at hready
      cases hready
    | beat _ hop hheld =>
      obtain ⟨hj, hby, _⟩ := held_iff.mp hheld
      rw [hh.by_w, Option.some.injEq] at hby
      rw [hh.id] at hj
      exact absurd (by simp [hop, Op.beats, hby, hj]) hb
    | finished _ hop => simp [hop, Op.settles] at hset
    | requeued _ hop _ _ => simp [hop, Op.settles] at hset
    | died _ hop => simp [hop, Op.settles] at hset
    | reaped _ hop _ _ =>
      unfold Undisturbed at hu
      rw [hop] at hu
      have hsame := life_live.mp hl
      rw [hu, hf, Option.some.injEq] at hsame
      have hstate := congrArg JobRow.state hsame
      rw [hh.running] at hstate
      cases hstate

/-! ## The law -/

/-- What holds all along an execution: `w` has the lock since the last beat. -/
def InLease (w : Text) (j : Int) (secs : Nat) (tend : Int) (db : Db) (calls : List Call) : Prop :=
  db.Good ∧ ∃ r last, db.jobs.find j = some r ∧ HeldBy w j last r ∧
    Execution w j secs tend last calls

theorem inLease_step {w : Text} {j : Int} {secs : Nat} {tend : Int} {db : Db} {c : Call}
    {rest : List Call} (h : InLease w j secs tend db (c :: rest)) :
    Undisturbed w j db c ↔ LeaseFits j db c := by
  obtain ⟨hg, r, last, hf, hh, hx⟩ := h
  obtain ⟨hle, hgap, _⟩ := hx.next
  by_cases hop : ∃ l, c.op = .reap l
  · obtain ⟨l, hop⟩ := hop
    exact undisturbed_reap hop hf hh hle hgap (hx.leases c List.mem_cons_self l hop)
  · have hno : ∀ l, c.op ≠ .reap l := fun l hl => hop ⟨l, hl⟩
    refine ⟨fun _ l _ _ hl _ _ => absurd hl (hno l), fun _ => ?_⟩
    exact undisturbed_else hg hno hf hh

theorem inLease_next {w : Text} {j : Int} {secs : Nat} {tend : Int} {db : Db} {c : Call}
    {rest : List Call} (h : InLease w j secs tend db (c :: rest)) (hu : Undisturbed w j db c) :
    InLease w j secs tend (exec db c).1 rest := by
  obtain ⟨hg, r, last, hf, hh, hx⟩ := h
  obtain ⟨r', hf', hh'⟩ := heldBy_next hg hf hh (hx.unsettled c List.mem_cons_self) hu
  exact ⟨exec_good hg c, r', beatAfter w j last c, hf', hh', hx.next.2.2⟩

/-- A job that `w` claimed and beats in time is undisturbed at every call up to the end of
its execution, exactly when no reap on the way wraps its lease. -/
theorem a_heartbeated_job_is_exclusive (before calls : List Call) (c : Call) (w : Text) (j : Int)
    (secs : Nat) (tend : Int) (hw : c.op.claimant = some w)
    (hd : Delivers j (exec (after before) c).2) (hx : Execution w j secs tend c.now calls) :
    EveryStep exec (Undisturbed w j) (after (before ++ [c])) calls ↔
      EveryStep exec (LeaseFits j) (after (before ++ [c])) calls := by
  have hsnoc : after (before ++ [c]) = (exec (after before) c).1 := run_snoc exec _ before c
  rw [hsnoc]
  obtain ⟨r, hf, hid⟩ := delivered_row (after_good before) hw hd
  exact everyStep_congr (InLease w j secs tend) (fun _ _ _ h => inLease_step h)
    (fun _ _ _ h hu => inLease_next h hu)
    ⟨exec_good (after_good before) c, _, c.now, hf, ⟨hid, rfl, rfl, rfl⟩, hx⟩

/-- One claim, and the queue after it. -/
def aFreshClaim : Call := ⟨0, .claim_batch ["k"] 1 "a" .alone⟩

def claimedQueue : Db := after ([⟨0, .enqueue_pool "k" .null⟩] ++ [aFreshClaim])

/-- A beat one second after the claim holds off a reap one more second later. -/
theorem a_beat_holds_off_the_reaper :
    EveryStep exec (Undisturbed "a" 1) claimedQueue
      [⟨1000000, .heartbeat [1] "a"⟩, ⟨2000000, .reap (.from_secs 1)⟩] := by
  have hd : Delivers 1 (exec (after [⟨0, .enqueue_pool "k" .null⟩]) aFreshClaim).2 := by
    decide +kernel
  refine (a_heartbeated_job_is_exclusive _ _ aFreshClaim "a" 1 1 2000000 rfl hd ?_).mpr ?_
  · refine ⟨by simp [aFreshClaim], by simp, ?_, by simp [Op.settles], ?_⟩
    · simp [aFreshClaim, beatTimes, Op.beats, USECS_PER_SEC]
    · intro c hc l hl
      simp only [List.mem_cons, List.not_mem_nil, or_false] at hc
      rcases hc with rfl | rfl
      · cases hl
      · cases hl
        exact le_refl _
  · refine ⟨?_, ?_, trivial⟩
    · intro l _ _ hl
      cases hl
    · intro l _ _ hl _ _
      cases hl
      exact Or.inl (by decide)

/-- `Duration::from_secs(u64::MAX)`: it is -1 as an i64. -/
def longest : Duration := .from_secs 18446744073709551615

/-- A reap with the longest lease takes the job in the moment of its claim. -/
theorem the_longest_lease_takes_a_fresh_claim :
    Delivers 1 (exec (after [⟨0, .enqueue_pool "k" .null⟩]) aFreshClaim).2 ∧
    Execution "a" 1 1 0 0 [⟨0, .reap longest⟩] ∧
    ¬ EveryStep exec (Undisturbed "a" 1) claimedQueue [⟨0, .reap longest⟩] := by
  refine ⟨by decide +kernel, ?_, ?_⟩
  · refine ⟨by simp, by simp, ?_, by simp [Op.settles], ?_⟩
    · simp [beatTimes, Op.beats, USECS_PER_SEC]
    · intro c hc l hl
      rw [List.mem_singleton] at hc
      subst hc
      cases hl
      decide
  · rintro ⟨hsame, _⟩
    have hstates := congrArg (Option.map JobRow.state) hsame
    have hbefore : (claimedQueue.jobs.find 1).map JobRow.state = some .running := by decide +kernel
    have hafter : ((exec claimedQueue ⟨0, .reap longest⟩).1.jobs.find 1).map JobRow.state =
        some .ready := by decide +kernel
    rw [hbefore, hafter] at hstates
    cases hstates

end skip_locked
