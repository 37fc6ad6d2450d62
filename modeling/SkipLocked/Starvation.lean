-- A ready job that is due waits only for the jobs ahead of it. Each claim that
-- could take it and does not takes one that is no younger, and that spends an
-- attempt. The attempts ahead of a job bound the claims that pass it over.
import SkipLocked.CarrierCap
import SkipLocked.RetryLimits
import SkipLocked.Heartbeats

open jsonb postgres keyed_table event_runs

namespace skip_locked

open claim lease retry

/-! ## The claims that reach a job -/

/-- A claim that finds the job: due, of a kind that it lists, not locked by another, with a
limit and a cap that leave room for one row. -/
def reaches (r : JobRow) (c : Call) : Bool :=
  match c.op with
  | .claim_batch kinds n _ plan =>
    decide (1 ≤ n) && decide (r.run_at ≤ c.now) && kinds.contains r.kind &&
      !plan.locked.contains r.id
  | .fair_claim kinds batch per_tenant_cap _ plan =>
    decide (1 ≤ batch) && decide (batch * 4 ≤ INT8_MAX) && decide (1 ≤ per_tenant_cap) &&
      decide (r.run_at ≤ c.now) && kinds.contains r.kind && !plan.locked.contains r.id
  | _ => false

/-- The answer hands out the job, or a ready job of the table that is no younger. -/
def Advances (db : Db) (r : JobRow) (jobs : List Job) : Prop :=
  r.id ∈ jobs.map (·.id) ∨
    ∃ s ∈ db.jobs.rows, s.state = .ready ∧ s.run_at ≤ r.run_at ∧ s.id ∈ jobs.map (·.id)

theorem limited_int4 {db : Db} (h : Limited db) {r : JobRow} (hr : r ∈ db.jobs.rows)
    (hready : r.state = .ready) : r.attempts < INT4_MAX := by
  have := limited_fits h hr hready
  omega

theorem advances_batch {db db' : Db} {now : Int} {kinds : List Text} {n : Int}
    {worker_id : Text} {plan : Plan} {jobs : List Job} {r : JobRow} (hn : 1 ≤ n)
    (ht : TakesOldest db now kinds n worker_id plan db' jobs)
    (hr : r ∈ eligible db.jobs now kinds plan.locked) : Advances db r jobs := by
  by_cases hin : r.id ∈ jobs.map (·.id)
  · exact Or.inl hin
  have hpos : 0 < jobs.length := by
    have := ht.size
    have := List.length_pos_of_mem hr
    omega
  obtain ⟨job, hjob⟩ := List.exists_mem_of_length_pos hpos
  obtain ⟨s, hs, rfl⟩ := ht.taken job hjob
  obtain ⟨hmem, hc, _⟩ := mem_eligible.mp hs
  have hsin : s.id ∈ jobs.map (·.id) := List.mem_map_of_mem hjob
  exact Or.inr ⟨s, hmem, (claimable_iff.mp hc).1, ht.oldest s hs hsin r hr hin, hsin⟩

/-- The returned rows of a window come from the table, ready. -/
theorem returned_ready {db db' : Db} {now : Int} {kinds : List Text}
    {batch per_tenant_cap : Int} {worker_id : Text} {plan : Plan} {jobs : List Job}
    {window : List JobRow}
    (ht : CapsCarriers db now kinds batch per_tenant_cap worker_id plan db' jobs window)
    {s : JobRow} (hs : s ∈ returnedRows window jobs) :
    s ∈ db.jobs.rows ∧ s.state = .ready ∧ s.id ∈ jobs.map (·.id) := by
  obtain ⟨hw, hin⟩ := List.mem_filter.mp hs
  obtain ⟨hmem, hc, _⟩ := mem_eligible.mp (ht.oldest.mem hw)
  exact ⟨hmem, (claimable_iff.mp hc).1, List.contains_iff_mem.mp hin⟩

theorem advances_fair {db db' : Db} {now : Int} {kinds : List Text}
    {batch per_tenant_cap : Int} {worker_id : Text} {plan : Plan} {jobs : List Job}
    {window : List JobRow} {r : JobRow} (hb : 1 ≤ batch) (hcap : 1 ≤ per_tenant_cap)
    (ht : CapsCarriers db now kinds batch per_tenant_cap worker_id plan db' jobs window)
    (hr : r ∈ eligible db.jobs now kinds plan.locked) : Advances db r jobs := by
  by_cases hin : r.id ∈ jobs.map (·.id)
  · exact Or.inl hin
  by_cases hw : r ∈ window
  · -- the carrier of the job has its older rows returned
    obtain ⟨s, hs, hcarrier⟩ := ht.present hcap r hw
    obtain ⟨hmem, hready, hsin⟩ := returned_ready ht hs
    refine Or.inr ⟨s, hmem, hready, ?_, hsin⟩
    apply (ht.share (carrier_id r)).le
    · exact List.mem_filter.mpr ⟨hs, by simpa using hcarrier⟩
    · exact List.mem_filter.mpr ⟨hw, by simp⟩
    · intro hback
      have := (List.mem_filter.mp (List.mem_filter.mp hback).1).2
      exact hin (List.contains_iff_mem.mp this)
  · -- the whole window is no younger than the job
    have hpos : 0 < window.length := by
      have := ht.oldest.size
      have := List.length_pos_of_mem hr
      omega
    obtain ⟨w, hwin⟩ := List.exists_mem_of_length_pos hpos
    obtain ⟨s, hs, _⟩ := ht.present hcap w hwin
    obtain ⟨hmem, hready, hsin⟩ := returned_ready ht hs
    exact Or.inr ⟨s, hmem, hready, ht.oldest.le (List.mem_filter.mp hs).1 hr hw, hsin⟩

/-- A claim that reaches a ready job goes through, and it hands out that job or one that is
no younger. -/
theorem reaching_claim {db : Db} (h : Limited db) {r : JobRow} (hr : r ∈ db.jobs.rows)
    (hready : r.state = .ready) {c : Call} (hc : reaches r c = true) :
    ∃ jobs, (exec db c).2 = .ok (.jobs jobs) ∧ Advances db r jobs := by
  unfold exec
  unfold reaches at hc
  cases hop : c.op with
  | claim_batch kinds n worker_id plan =>
    simp only [hop, Bool.and_eq_true, decide_eq_true_eq, Bool.not_eq_true'] at hc
    obtain ⟨⟨⟨hn, hdue⟩, hkind⟩, hlock⟩ := hc
    obtain ⟨db', jobs, hok⟩ := @claim_batch_runs db c.now kinds n worker_id plan (by omega)
      (fun s hs => limited_int4 h (mem_lockWindow hs).1
        (claimable_iff.mp (mem_lockWindow hs).2.1).1)
    refine ⟨jobs, by dsimp only; rw [hok]; rfl, advances_batch hn (claim_batch_oldest hok) ?_⟩
    apply mem_eligible.mpr
    exact ⟨hr, claimable_iff.mpr ⟨hready, hdue, List.contains_iff_mem.mp hkind⟩,
      by simpa using hlock⟩
  | fair_claim kinds batch per_tenant_cap worker_id plan =>
    simp only [hop, Bool.and_eq_true, decide_eq_true_eq, Bool.not_eq_true'] at hc
    obtain ⟨⟨⟨⟨⟨hb, hwide⟩, hcap⟩, hdue⟩, hkind⟩, hlock⟩ := hc
    have htakes := fair_claim_takes db c.now kinds per_tenant_cap worker_id plan
      (show 0 ≤ batch by omega) hwide
    rcases takeRows_cases c.now worker_id plan
      (fairRows_nodup db c.now kinds batch per_tenant_cap plan) (fun s hs => mem_fairRows hs) with
      ⟨⟨s, hs, hlast⟩, _⟩ | ⟨_, db', jobs, hok, hperm⟩
    · have := limited_int4 h (mem_fairRows hs)
        (claimable_iff.mp (mem_lockWindow (keptRows_subset hs)).2.1).1
      omega
    · have hcaps := fair_claim_capped (by omega) (htakes.trans hok) hperm
      refine ⟨jobs, by dsimp only; rw [htakes.trans hok]; rfl, advances_fair hb hcap hcaps ?_⟩
      apply mem_eligible.mpr
      exact ⟨hr, claimable_iff.mpr ⟨hready, hdue, List.contains_iff_mem.mp hkind⟩,
        by simpa using hlock⟩
  | _ =>
    rw [hop] at hc
    cases hc

/-! ## The attempts that are left -/

/-- How many more times a job can be handed out. A job that is still to come has all of the
default limit. -/
def chances : Life → Nat
  | .unborn => 20
  | .live r => (r.max_attempts - r.attempts).toNat
  | .buried _ => 0

theorem chances_turn {j : Int} {c : Call} {a : Answer} {l l' : Life} (ht : Turn j c a l l')
    (h : l.WithinLimit) : chances l' + (if Delivers j a then 1 else 0) ≤ chances l := by
  cases ht with
  | still _ ha => simp [ha]
  | born kind payload run_at ha _ => simp [chances, newRow, ha]
  | claimed r _ hready _ hj _ =>
    have := h.left hready
    have hd : Delivers j (.ok (.jobs _)) := hj
    simp only [hd, if_true, chances, setRunning]
    omega
  | beat r _ _ => simp [chances, Delivers, setLockedAt]
  | finished r _ => simp [chances, Delivers, setDone]
  | requeued r _ _ _ => simp [chances, Delivers, setRetry]
  | died r _ => simp [chances, Delivers]
  | reaped r _ _ _ => simp [chances, Delivers, setReady]

/-- The attempts that are left to some jobs. -/
def chancesOf (ids : List Int) (db : Db) : Nat := (ids.map (fun k => chances (db.life k))).sum

/-- No call gives an attempt back, and a delivery of one of the jobs spends one. -/
theorem chancesOf_step {db : Db} (h : Limited db) (c : Call) (ids : List Int) :
    chancesOf ids (exec db c).1 ≤ chancesOf ids db ∧
      ((∃ k ∈ ids, Delivers k (exec db c).2) →
        chancesOf ids (exec db c).1 + 1 ≤ chancesOf ids db) := by
  induction ids with
  | nil => simp [chancesOf]
  | cons k rest ih =>
    have hk := chances_turn (exec_turn h.good c k) (h.within k)
    obtain ⟨hle, hlt⟩ := ih
    unfold chancesOf at *
    simp only [List.map_cons, List.sum_cons]
    constructor
    · omega
    · rintro ⟨m, hm, hd⟩
      rcases List.mem_cons.mp hm with rfl | hm
      · rw [if_pos hd] at hk
        omega
      · have := hlt ⟨m, hm, hd⟩
        omega

/-! ## A job that nobody touches -/

/-- A ready job stays as it is until a call hands it out or gives its outcome. -/
theorem ready_turn {j : Int} {c : Call} {a : Answer} {r : JobRow} {l' : Life}
    (ht : Turn j c a (.live r) l') (hready : r.state = .ready) (hopen : c.op.settles j = false)
    (hno : ¬ Delivers j a) : l' = .live r := by
  cases ht with
  | still _ _ => rfl
  | claimed _ _ _ _ hj _ => exact absurd hj hno
  | beat _ _ hheld => simp [held, hready] at hheld
  | finished _ hop => simp [hop, Op.settles] at hopen
  | requeued _ hop _ _ => simp [hop, Op.settles] at hopen
  | died _ hop => simp [hop, Op.settles] at hopen
  | reaped _ _ _ hr =>
    obtain ⟨hrun, _⟩ := expired_iff.mp (reapable_iff.mp hr).1
    rw [hready] at hrun
    cases hrun

theorem limited_exec {db : Db} (h : Limited db) (c : Call) : Limited (exec db c).1 :=
  limited_execChange h (.call c)

theorem limited_calls (calls : List Call) : Limited (after calls) :=
  run_invariant limited_empty (fun _ c h => limited_exec h c) calls

/-- The ids in `ahead` are those of the other jobs that are ready and no younger. -/
def Ahead (r : JobRow) (ahead : List Int) (db : Db) : Prop :=
  ∀ s ∈ db.jobs.rows, s.state = .ready → s.run_at ≤ r.run_at → s.id = r.id ∨ s.id ∈ ahead

instance (r : JobRow) (ahead : List Int) (db : Db) : Decidable (Ahead r ahead db) :=
  inferInstanceAs (Decidable (∀ s ∈ db.jobs.rows, _ → _ → _))

/-- The claims that reach a job and pass it over spend the attempts of the jobs ahead. -/
theorem passes_le_chances {db : Db} (h : Limited db) {r : JobRow}
    (hr : r ∈ db.jobs.rows) (hready : r.state = .ready) {ahead : List Int} {calls : List Call}
    (hopen : ∀ c ∈ calls, c.op.settles r.id = false)
    (hahead : EveryStep exec (fun t _ => Ahead r ahead t) db calls)
    (hno : ∀ e ∈ trace exec db calls, ¬ Delivers r.id e.2) :
    calls.countP (reaches r) ≤ chancesOf ahead db := by
  have hquiet : EveryStep exec (fun t c => ¬ Delivers r.id (exec t c).2) db calls :=
    (everyStep_answers (Q := fun e => ¬ Delivers r.id e.2)).mpr hno
  have hset : EveryStep exec (fun _ c => c.op.settles r.id = false) db calls :=
    everyStep_of_inputs hopen
  have hall := everyStep_and.mpr ⟨hset, everyStep_and.mpr ⟨hahead, hquiet⟩⟩
  apply (Nat.le_add_left _ (chancesOf ahead (run exec db calls))).trans
  refine ticks_le_budget (I := fun t => Limited t ∧ t.life r.id = .live r) ?_ ?_
    ⟨h, life_of_row hr⟩ hall
  · rintro t c ⟨hl, hlife⟩ ⟨hset, _, hnot⟩
    have ht := exec_turn hl.good c r.id
    rw [hlife] at ht
    exact ⟨limited_exec hl c, ready_turn ht hready hset hnot⟩
  · rintro t c ⟨hl, hlife⟩ ⟨_, hah, hnot⟩
    obtain ⟨hle, hlt⟩ := chancesOf_step hl c ahead
    by_cases hc : reaches r c = true
    · -- the claim handed out a job ahead of this one
      obtain ⟨jobs, ha, hadv⟩ :=
        reaching_claim hl (Table.mem_of_find (life_live.mp hlife)) hready hc
      rw [ha] at hnot hlt
      obtain ⟨s, hs, hsready, hold, hin⟩ := hadv.resolve_left hnot
      have hid : s.id ∈ ahead := (hah s hs hsready hold).resolve_left (fun he => hnot (he ▸ hin))
      have := hlt ⟨s.id, hid, hin⟩
      rw [if_pos hc]
      omega
    · rw [if_neg hc]
      omega

/-! ## The law -/

/-- A ready job that no call has handed out is where it was. -/
theorem ready_run {db : Db} (h : Limited db) {r : JobRow} (hr : r ∈ db.jobs.rows)
    (hready : r.state = .ready) {calls : List Call}
    (hopen : ∀ c ∈ calls, c.op.settles r.id = false)
    (hno : ∀ e ∈ trace exec db calls, ¬ Delivers r.id e.2) :
    Limited (run exec db calls) ∧ r ∈ (run exec db calls).jobs.rows := by
  have hquiet : EveryStep exec (fun t c => ¬ Delivers r.id (exec t c).2) db calls :=
    (everyStep_answers (Q := fun e => ¬ Delivers r.id e.2)).mpr hno
  have hset : EveryStep exec (fun _ c => c.op.settles r.id = false) db calls :=
    everyStep_of_inputs hopen
  obtain ⟨hend, hlife⟩ := (everyStep_of_law
    (I := fun t : Db => Limited t ∧ t.life r.id = .live r) (Q := fun _ _ => True)
    (fun t c ht hc => by
      have hturn := exec_turn ht.1.good c r.id
      rw [ht.2] at hturn
      exact ⟨limited_exec ht.1 c, ready_turn hturn hready hc.1 hc.2⟩)
    (fun _ _ _ _ => trivial) ⟨h, life_of_row hr⟩ (everyStep_and.mpr ⟨hset, hquiet⟩)).2
  exact ⟨hend, Table.mem_of_find (life_live.mp hlife)⟩

/-- Take a ready job of a reachable table and later calls, none of which gives its outcome. Jobs
may go on arriving, workers may crash, and every other call may come between. While it was
not handed out, each claim that reaches it hands it out, or a ready job that is no younger. And
it is handed out when more claims reach it than the jobs ahead of it have attempts left. -/
theorem no_job_starves (calls later : List Call) (r : JobRow)
    (hr : r ∈ (after calls).jobs.rows) (hready : r.state = .ready)
    (hopen : ∀ c ∈ later, c.op.settles r.id = false) :
    (∀ mid c rest, later = mid ++ c :: rest →
      (∀ e ∈ trace exec (after calls) mid, ¬ Delivers r.id e.2) → reaches r c = true →
      ∃ jobs, (exec (after (calls ++ mid)) c).2 = .ok (.jobs jobs) ∧
        Advances (after (calls ++ mid)) r jobs) ∧
    ∀ ahead, EveryStep exec (fun db _ => Ahead r ahead db) (after calls) later →
      chancesOf ahead (after calls) < later.countP (reaches r) →
      ∃ e ∈ trace exec (after calls) later, Delivers r.id e.2 := by
  refine ⟨?_, ?_⟩
  · intro mid c rest hsplit hno hc
    have hopen' : ∀ d ∈ mid, d.op.settles r.id = false := by
      intro d hd
      refine hopen d ?_
      rw [hsplit]
      exact List.mem_append_left _ hd
    have hmid : after (calls ++ mid) = run exec (after calls) mid := run_append exec _ _ _
    rw [hmid]
    obtain ⟨hlim, hrow⟩ := ready_run (limited_calls calls) hr hready hopen' hno
    exact reaching_claim hlim hrow hready hc
  · intro ahead hahead hmany
    by_contra hnone
    push Not at hnone
    have := passes_le_chances (limited_calls calls) hr hready hopen hahead hnone
    omega

/-- Two due jobs of one kind, the second one younger. -/
def twoDue : List Call := [⟨0, .enqueue_pool "k" .null⟩, ⟨5, .enqueue_pool "k" .null⟩]

/-- A batch of one takes the older job at most 20 times before the younger one. -/
theorem the_younger_of_two_is_handed_out :
    ∃ e ∈ trace exec (after twoDue) (List.replicate 21 ⟨9, .claim_batch ["k"] 1 "w" .alone⟩),
      Delivers 2 e.2 := by
  have hopen : ∀ c ∈ List.replicate 21 (⟨9, .claim_batch ["k"] 1 "w" .alone⟩ : Call),
      c.op.settles 2 = false := by
    intro c hc
    rw [List.eq_of_mem_replicate hc]
    rfl
  obtain ⟨_, hhanded⟩ := no_job_starves twoDue _ (newRow 2 "k" .null 5) List.mem_cons_self rfl hopen
  exact hhanded [1] (by decide +kernel) (by decide +kernel)

/-! ## A job whose worker is gone -/

/-- No heartbeat of its owner lists the job. -/
def Silent (r : JobRow) (c : Call) : Prop :=
  ∀ ids w, c.op = .heartbeat ids w → r.locked_by = some w → r.id ∉ ids

/-- A running job that nobody beats for stays as it is, until a reap frees it. -/
theorem running_turn {j : Int} {c : Call} {a : Answer} {r : JobRow} {l' : Life}
    (ht : Turn j c a (.live r) l') (hrun : r.state = .running) (hsilent : Silent r c)
    (hopen : c.op.settles j = false) :
    l' = .live r ∨ l' = .live (setReady r) := by
  cases ht with
  | still _ _ => exact Or.inl rfl
  | claimed _ _ hready _ _ _ =>
    rw [hrun] at hready
    cases hready
  | beat _ hop hheld =>
    obtain ⟨hin, hby, _⟩ := held_iff.mp hheld
    exact absurd hin (hsilent _ _ hop hby)
  | finished _ hop => simp [hop, Op.settles] at hopen
  | requeued _ hop _ _ => simp [hop, Op.settles] at hopen
  | died _ hop => simp [hop, Op.settles] at hopen
  | reaped _ _ _ _ => exact Or.inr rfl

/-- The job still runs for its old worker, or a reap has freed it. -/
def Orphaned (r : JobRow) (db : Db) : Prop :=
  Limited db ∧ (db.life r.id = .live r ∨ db.life r.id = .live (setReady r))

theorem orphaned_step {db : Db} {r : JobRow} (h : Orphaned r db) (hrun : r.state = .running)
    {c : Call} (hsilent : Silent r c) (hopen : c.op.settles r.id = false)
    (hno : ¬ Delivers r.id (exec db c).2) : Orphaned r (exec db c).1 := by
  obtain ⟨hl, hlife⟩ := h
  have ht := exec_turn hl.good c r.id
  refine ⟨limited_exec hl c, ?_⟩
  rcases hlife with hlife | hlife
  · rw [hlife] at ht
    exact running_turn ht hrun hsilent hopen
  · rw [hlife] at ht
    exact Or.inr (ready_turn ht rfl hopen hno)

/-- A reap at the end of the lease leaves the job ready. -/
theorem orphaned_reap {db : Db} {r : JobRow} (h : Orphaned r db) (hrun : r.state = .running)
    (hleft : r.attempts < r.max_attempts) {now cutoff at_ : Int} {l : Duration}
    (hcut : cutoffOf now l = .ok cutoff) (hat : r.locked_at = some at_) (hlt : at_ < cutoff) :
    (exec db ⟨now, .reap l⟩).1.life r.id = .live (setReady r) := by
  have hfind := @find_reap db ⟨now, .reap l⟩ l rfl r.id
  dsimp only at hfind
  rw [hcut] at hfind
  dsimp only at hfind
  apply life_of_find
  rcases h.2 with hlife | hlife
  · have hexpired : expired cutoff r = true := expired_iff.mpr ⟨hrun, at_, hat, hlt⟩
    rw [hfind, life_live.mp hlife, Option.map_some,
      if_pos (reapable_iff.mpr ⟨hexpired, hleft⟩)]
  · rw [hfind, life_live.mp hlife, Option.map_some]
    simp [reapable, expired, setReady]

/-- The job of a worker that died is handed out again: a reap that comes after the end of its
lease frees it, unless another call handed it out before, and then no job starves. -/
theorem a_job_outlives_its_worker (calls mid later : List Call) (r : JobRow) (ahead : List Int)
    (now cutoff at_ : Int) (l : Duration) (hr : r ∈ (after calls).jobs.rows)
    (hrun : r.state = .running) (hleft : r.attempts < r.max_attempts)
    (hat : r.locked_at = some at_) (hcut : cutoffOf now l = .ok cutoff) (hlt : at_ < cutoff)
    (hsilent : ∀ c ∈ mid, Silent r c) (hopen : ∀ c ∈ mid ++ later, c.op.settles r.id = false)
    (hahead : EveryStep exec (fun db _ => Ahead r ahead db)
      (after (calls ++ mid ++ [⟨now, .reap l⟩])) later)
    (hmany : chancesOf ahead (after (calls ++ mid ++ [⟨now, .reap l⟩])) <
      later.countP (reaches r)) :
    ∃ e ∈ trace exec (after calls) (mid ++ ⟨now, .reap l⟩ :: later), Delivers r.id e.2 := by
  by_contra hnone
  push Not at hnone
  rw [trace_append, trace_cons] at hnone
  have hmid : ∀ e ∈ trace exec (after calls) mid, ¬ Delivers r.id e.2 :=
    fun e he => hnone e (List.mem_append_left _ he)
  have hquiet : EveryStep exec (fun t c => ¬ Delivers r.id (exec t c).2) (after calls) mid :=
    (everyStep_answers (Q := fun e => ¬ Delivers r.id e.2)).mpr hmid
  have hinputs : EveryStep exec (fun _ c => Silent r c ∧ c.op.settles r.id = false)
      (after calls) mid :=
    everyStep_of_inputs (fun c hc => ⟨hsilent c hc, hopen c (List.mem_append_left _ hc)⟩)
  have hstart : Orphaned r (after calls) := ⟨limited_calls calls, Or.inl (life_of_row hr)⟩
  obtain ⟨_, horphaned⟩ := everyStep_of_law (I := Orphaned r) (Q := fun _ _ => True)
    (fun t c hi hp => orphaned_step hi hrun hp.1.1 hp.1.2 hp.2) (fun _ _ _ _ => trivial) hstart
    (everyStep_and.mpr ⟨hinputs, hquiet⟩)
  have hfreed := orphaned_reap horphaned hrun hleft hcut hat hlt
  have hafter : after (calls ++ mid ++ [⟨now, .reap l⟩]) =
      (exec (run exec (after calls) mid) ⟨now, .reap l⟩).1 := by
    unfold after
    rw [run_snoc, run_append]
  rw [hafter] at hahead hmany
  have hpasses : later.countP (reaches r) ≤ _ :=
    passes_le_chances (r := setReady r) (limited_exec horphaned.1 _)
      (Table.mem_of_find (life_live.mp hfreed)) rfl
      (fun c hc => hopen c (List.mem_append_right _ hc)) hahead
      (fun e he => hnone e (List.mem_append_right _ (List.mem_cons_of_mem _ he)))
  exact absurd hmany (Nat.not_lt.mpr hpasses)

/-- The worker "a" dies with the job in its hands, and "b" gets it after the reap. -/
theorem a_reaped_job_is_handed_out_again :
    ∃ e ∈ trace exec (after [⟨0, .enqueue_pool "k" .null⟩, ⟨1, .claim_batch ["k"] 1 "a" .alone⟩])
        ([⟨2, .heartbeat [1] "b"⟩] ++ ⟨4000000, .reap (.from_secs 3)⟩ ::
          [⟨4000001, .claim_batch ["k"] 1 "b" .alone⟩]), Delivers 1 e.2 := by
  apply a_job_outlives_its_worker _ _ _ (setRunning 1 "a" (newRow 1 "k" .null 0)) []
    4000000 1000000 1 (.from_secs 3)
  · exact List.mem_cons_self
  · rfl
  · decide
  · rfl
  · decide
  · decide
  · intro c hc ids w hop hby
    obtain rfl := List.mem_singleton.mp hc
    cases hop
    exact absurd (Option.some.inj hby) (by decide)
  · decide
  · decide +kernel
  · decide +kernel

end skip_locked
