-- The serial order of a schedule. The steps of all statements mix, and still the
-- tables and the answers are those of the same calls, one after another, in
-- the order of their commits. A claim skips then the rows that it did not get.
import SkipLocked.Schedules
import SkipLocked.CarrierCap
import SkipLocked.OutcomeOrder

open jsonb postgres keyed_table event_runs row_locks selection

namespace skip_locked

open claim lease retry

/-! ## The serial machine -/

/-- What happens on its own: a producer commits a row, or a call runs alone. -/
inductive Entry where
  | enqueued (id : Int) (kind : Text) (payload : Jsonb) (run_at : Int)
  | call (c : Call)

def serve (db : Db) : Entry → Db × Answer
  | .enqueued id kind payload run_at =>
    match db.jobs.insert (newRow id kind payload run_at) with
    | none => (db, .error .unique_violation)
    | some jobs => ({ db with jobs }, .ok (.id id))
  | .call c => exec db c

/-- The calls of a serial run, with their answers. -/
def asked : Entry × Answer → Option (Call × Answer)
  | (.call c, a) => some (c, a)
  | (.enqueued .., _) => none

/-- The call of a commit that changed some row, with its answer. -/
def wrote : Note Call JobRow.id → Option (Call × Answer)
  | .committed _ st changes =>
    if changes.isEmpty then none else some (st.tag, answerOf st.tag changes)
  | .locked _ _ => none

/-- The second call is the first one as it runs alone: a claim meets other locks, a heartbeat
lists only ids that the first one lists, and any other call is the same. -/
inductive SerialAs : Call × Answer → Call × Answer → Prop where
  | claim_batch {now : Int} {kinds : List Text} {n : Int} {worker_id : Text}
      {plan plan' : Plan} {a : Answer} :
      SerialAs (⟨now, .claim_batch kinds n worker_id plan⟩, a)
        (⟨now, .claim_batch kinds n worker_id plan'⟩, a)
  | fair_claim {now : Int} {kinds : List Text} {batch per_tenant_cap : Int}
      {worker_id : Text} {plan plan' : Plan} {a : Answer} :
      SerialAs (⟨now, .fair_claim kinds batch per_tenant_cap worker_id plan⟩, a)
        (⟨now, .fair_claim kinds batch per_tenant_cap worker_id plan'⟩, a)
  | heartbeat {now : Int} {ids ids' : List Int} {worker_id : Text} {a : Answer} :
      (∀ k ∈ ids', k ∈ ids) →
      SerialAs (⟨now, .heartbeat ids worker_id⟩, a) (⟨now, .heartbeat ids' worker_id⟩, a)
  | same (c : Call) (a : Answer) : SerialAs (c, a) (c, a)

def Op.reaps : Op → Bool
  | .reap _ => true
  | _ => false

/-- A reap that commits has reached every row that it wants. -/
def ReapsAll (s : Server Call JobRow.id) : Event Call JobRow.id → Prop
  | .commit sid => ∀ x ∈ s.sessions.rows, x.sid = sid → x.st.tag.op.reaps = true →
      ∀ r ∈ s.table.rows, x.st.wants r = true → r.id ∈ x.st.pick x.got
  | _ => True

instance (s : Server Call JobRow.id) : (e : Event Call JobRow.id) → Decidable (ReapsAll s e)
  | .commit sid => inferInstanceAs (Decidable (∀ x ∈ s.sessions.rows, x.sid = sid → _ → _))
  | .start _ => isTrue trivial
  | .visit _ => isTrue trivial
  | .abort _ => isTrue trivial
  | .insert _ => isTrue trivial

/-! ## A claim that meets the right locks -/

/-- The plan of a claim that finds every row locked but those of the given ids. -/
def onlyPlan (jobs : Table JobRow.id) (ids : List Int) : Plan :=
  { Plan.alone with locked := (jobs.rows.map (·.id)).filter (fun k => !ids.contains k) }

/-- The rows of the given ids. -/
def rowsOf (jobs : Table JobRow.id) (ids : List Int) : List JobRow :=
  jobs.matching (fun r => decide (r.id ∈ ids))

theorem mem_rowsOf {jobs : Table JobRow.id} {ids : List Int} {r : JobRow} :
    r ∈ rowsOf jobs ids ↔ r ∈ jobs.rows ∧ r.id ∈ ids := by
  unfold rowsOf
  rw [Table.mem_matching, decide_eq_true_eq]

theorem eligible_only {jobs : Table JobRow.id} {now : Int} {kinds : List Text} {ids : List Int}
    (h : ∀ r ∈ rowsOf jobs ids, claimable now kinds r = true) :
    eligible jobs now kinds (onlyPlan jobs ids).locked = rowsOf jobs ids := by
  unfold eligible rowsOf Table.matching
  apply List.filter_congr
  intro r hr
  have hlocked : (onlyPlan jobs ids).locked.contains r.id = !ids.contains r.id := by
    rw [Bool.eq_iff_iff, List.contains_iff_mem]
    unfold onlyPlan
    dsimp only
    rw [List.mem_filter]
    exact ⟨fun h => h.2, fun h => ⟨List.mem_map_of_mem hr, h⟩⟩
  rw [hlocked, Bool.not_not]
  by_cases hin : r.id ∈ ids
  · simp [hin, h r (mem_rowsOf.mpr ⟨hr, hin⟩)]
  · simp [hin]

/-- Such a claim locks exactly the rows of these ids. -/
theorem window_only {jobs : Table JobRow.id} {now : Int} {kinds : List Text} {ids : List Int}
    {limit : Nat} (h : ∀ r ∈ rowsOf jobs ids, claimable now kinds r = true)
    (hlen : (rowsOf jobs ids).length ≤ limit) :
    (lockWindow jobs now kinds limit (onlyPlan jobs ids)).Perm (rowsOf jobs ids) := by
  have hlow := lockWindow_lowest jobs now kinds limit (onlyPlan jobs ids)
  rw [eligible_only h] at hlow
  exact hlow.all hlen

/-- The outer update takes the rows of the picked ids. -/
theorem takeRows_only {db : Db} {now : Int} {worker_id : Text} {ids picked : List Int}
    (hids : ∀ r ∈ db.jobs.rows, r.id ∈ picked ↔ r.id ∈ ids)
    (hfit : ∀ r ∈ rowsOf db.jobs ids, r.attempts < INT4_MAX)
    {write : JobRow → Option JobRow} {hkey : ∀ r r', write r = some r' → r'.id = r.id}
    (hwrite : ∀ r, write r = some (setRunning now worker_id r)) :
    takeRows db now worker_id picked (onlyPlan db.jobs ids) =
      .ok ({ db with jobs := db.jobs.rewrite ids write hkey },
        (rowsOf db.jobs ids).map (fun r => jobOf (setRunning now worker_id r))) := by
  have hrows : db.jobs.matching (fun r => picked.contains r.id) = rowsOf db.jobs ids := by
    unfold rowsOf Table.matching
    apply List.filter_congr
    intro r hr
    rw [Bool.eq_iff_iff, List.contains_iff_mem, decide_eq_true_eq]
    exact hids r hr
  have hjobs : db.jobs.rewrite ids write hkey = db.jobs.update (fun r => picked.contains r.id)
      (setRunning now worker_id) (setRunning_id now worker_id) := by
    apply Table.rewrite_eq_update
    · intro r hr
      rw [List.contains_iff_mem]
      exact (hids r hr).symm
    · exact fun r _ _ => hwrite r
  have hnone : ((rowsOf db.jobs ids).any fun r => decide (INT4_MAX ≤ r.attempts)) = false := by
    apply List.any_eq_false.mpr
    intro r hr
    have := hfit r hr
    simpa using this
  unfold takeRows
  dsimp only
  rw [hrows, hnone, hjobs]
  rfl

/-! ## The commit of a claim -/

/-- The rows that the ranking keeps from a list with no more of each carrier than the cap. -/
theorem keptRows_of_few {per_tenant_cap : Int} {plan : Plan} {rows : List JobRow}
    (h : ∀ c, (ofCarrier c rows).length ≤ per_tenant_cap.toNat) {r : JobRow} (hr : r ∈ rows) :
    r ∈ keptRows per_tenant_cap plan rows := by
  have hperm := (@keptRows_lowest per_tenant_cap plan rows (carrier_id r)).all (h (carrier_id r))
  have hmem : r ∈ ofCarrier (carrier_id r) rows := List.mem_filter.mpr ⟨hr, by simp⟩
  exact (List.mem_filter.mp (hperm.mem_iff.mpr hmem)).1

section
variable {log : List (Note Call JobRow.id)} {s : Server Call JobRow.id}

/-- The picked rows are among those that the session found. -/
theorem rowsOf_got (h : Underway log s) {x : Session Call JobRow.id} (hx : x ∈ s.sessions.rows)
    {found : List JobRow} (hsub : ∀ g ∈ found, g ∈ x.got) {r : JobRow}
    (hr : r ∈ rowsOf s.table (found.map (·.id))) : r ∈ found := by
  obtain ⟨hmem, hin⟩ := mem_rowsOf.mp hr
  obtain ⟨g, hg, hid⟩ := List.mem_map.mp hin
  obtain ⟨_, _, hf⟩ := h.safe.got x hx g (hsub g hg)
  obtain rfl : g = r := Table.eq_of_key (Table.mem_of_find hf) hmem hid
  exact hg

theorem rowsOf_nodup (jobs : Table JobRow.id) (ids : List Int) : (rowsOf jobs ids).Nodup :=
  (Table.matching_nodup jobs _).of_map

theorem length_rowsOf (h : Underway log s) {x : Session Call JobRow.id} (hx : x ∈ s.sessions.rows)
    {found : List JobRow} (hsub : ∀ g ∈ found, g ∈ x.got) :
    (rowsOf s.table (found.map (·.id))).length ≤ found.length :=
  (List.Nodup.subperm (rowsOf_nodup _ _) (fun _ hr => rowsOf_got h hx hsub hr)).length_le

/-- The rows that a commit changes, and the jobs that it returns. -/
theorem changesOf_rows (jobs : Table JobRow.id) (x : Session Call JobRow.id) :
    changesOf jobs x = (rowsOf jobs (x.st.pick x.got)).map (fun r => (r, x.st.write r)) := rfl

theorem returned_rows {jobs : Table JobRow.id} {x : Session Call JobRow.id} {now : Int}
    {worker_id : Text} (hwrite : ∀ r, x.st.write r = some (setRunning now worker_id r)) :
    returned (changesOf jobs x) = (rowsOf jobs (x.st.pick x.got)).map
      (fun r => jobOf (setRunning now worker_id r)) := by
  rw [changesOf_rows]
  unfold returned
  rw [List.filterMap_map, ← List.filterMap_eq_map]
  apply List.filterMap_congr
  intro r _
  simp [hwrite]

/-- The rows of the window of a claim that meets only these rows unlocked. -/
theorem mem_window_only {jobs : Table JobRow.id} {window : List JobRow} {ids : List Int}
    (hwindow : window.Perm (rowsOf jobs ids)) {r : JobRow} (hr : r ∈ jobs.rows) :
    r.id ∈ window.map (·.id) ↔ r.id ∈ ids := by
  rw [(hwindow.map (·.id)).mem_iff, List.mem_map]
  constructor
  · rintro ⟨g, hg, hid⟩
    exact hid ▸ (mem_rowsOf.mp hg).2
  · intro hin
    exact ⟨r, mem_rowsOf.mpr ⟨hr, hin⟩, rfl⟩

theorem serial_claim_batch (h : Underway log s) (hb : Bounded s) {x : Session Call JobRow.id}
    (hx : x ∈ s.sessions.rows) {now : Int} {kinds : List Text} {n : Int} {worker_id : Text}
    {limit : Nat} (hlimit : limitOf n = .ok limit) (hxlimit : x.st.limit = some limit)
    (hwants : x.st.wants = claimable now kinds) (hpick : x.st.pick x.got = x.got.map (·.id))
    (hwrite : ∀ r, x.st.write r = some (setRunning now worker_id r))
    (hfit : ∀ r ∈ rowsOf s.table (x.st.pick x.got), r.attempts < INT4_MAX) (db : Db) :
    claim_batch { db with jobs := s.table } now kinds n worker_id
        (onlyPlan s.table (x.st.pick x.got)) =
      .ok ({ db with jobs := (s.commit x).table }, returned (changesOf s.table x)) := by
  have hclaimable : ∀ r ∈ rowsOf s.table (x.st.pick x.got), claimable now kinds r = true := by
    intro r hr
    rw [hpick] at hr
    rw [← hwants]
    exact (h.safe.got x hx r (rowsOf_got h hx (fun _ hg => hg) hr)).2.1
  have hlen : (rowsOf s.table (x.st.pick x.got)).length ≤ limit := by
    have hgot := length_rowsOf h hx (fun _ hg => hg)
    rw [← hpick] at hgot
    exact hgot.trans (hb x hx limit hxlimit)
  have hwindow := window_only hclaimable hlen
  have htake := @takeRows_only { db with jobs := s.table } now worker_id _ _
    (fun r hr => mem_window_only hwindow hr) hfit x.st.write x.st.write_key hwrite
  unfold claim_batch
  rw [hlimit, returned_rows hwrite]
  exact htake

theorem serial_fair_claim (h : Underway log s) (hb : Bounded s) {x : Session Call JobRow.id}
    (hx : x ∈ s.sessions.rows) {now : Int} {kinds : List Text} {batch per_tenant_cap : Int}
    {worker_id : Text} {limit : Nat} (plan : Plan)
    (hrange : ¬ (batch * 4 < INT8_MIN ∨ INT8_MAX < batch * 4))
    (hlimit : limitOf (batch * 4) = .ok limit) (hxlimit : x.st.limit = some limit)
    (hwants : x.st.wants = claimable now kinds)
    (hpick : x.st.pick x.got = keptIds per_tenant_cap plan x.got)
    (hwrite : ∀ r, x.st.write r = some (setRunning now worker_id r))
    (hfit : ∀ r ∈ rowsOf s.table (x.st.pick x.got), r.attempts < INT4_MAX) (db : Db) :
    fair_claim { db with jobs := s.table } now kinds batch per_tenant_cap worker_id
        (onlyPlan s.table (x.st.pick x.got)) =
      .ok ({ db with jobs := (s.commit x).table }, returned (changesOf s.table x)) := by
  rw [keptIds_eq] at hpick
  have hsub : ∀ g ∈ keptRows per_tenant_cap plan x.got, g ∈ x.got := fun _ hg => keptRows_subset hg
  have hkept : ∀ r ∈ rowsOf s.table (x.st.pick x.got), r ∈ keptRows per_tenant_cap plan x.got := by
    intro r hr
    rw [hpick] at hr
    exact rowsOf_got h hx hsub hr
  have hclaimable : ∀ r ∈ rowsOf s.table (x.st.pick x.got), claimable now kinds r = true := by
    intro r hr
    rw [← hwants]
    exact (h.safe.got x hx r (hsub r (hkept r hr))).2.1
  have hlen : (rowsOf s.table (x.st.pick x.got)).length ≤ limit := by
    have hgot := (List.Nodup.subperm (rowsOf_nodup s.table (x.st.pick x.got))
      (fun r hr => hsub r (hkept r hr))).length_le
    exact hgot.trans (hb x hx limit hxlimit)
  have hwindow := window_only hclaimable hlen
  -- the rows of a carrier are no more than the session kept of it
  have hfew : ∀ c, (ofCarrier c (lockWindow s.table now kinds limit
      (onlyPlan s.table (x.st.pick x.got)))).length ≤ per_tenant_cap.toNat := by
    intro c
    have hperm := hwindow.filter (fun r => decide (carrier_id r = c))
    have hshare := (@keptRows_lowest per_tenant_cap plan x.got c).size
    have hle : (ofCarrier c (rowsOf s.table (x.st.pick x.got))).length ≤
        (ofCarrier c (keptRows per_tenant_cap plan x.got)).length := by
      apply (List.Nodup.subperm ((rowsOf_nodup _ _).filter _) ?_).length_le
      intro r hr
      obtain ⟨hr, hc⟩ := List.mem_filter.mp hr
      exact List.mem_filter.mpr ⟨hkept r hr, hc⟩
    have hsame := hperm.length_eq
    unfold ofCarrier at hle hshare ⊢
    omega
  have hall : ∀ r ∈ s.table.rows, r.id ∈ keptIds per_tenant_cap
      (onlyPlan s.table (x.st.pick x.got)) (lockWindow s.table now kinds limit
        (onlyPlan s.table (x.st.pick x.got))) ↔ r.id ∈ x.st.pick x.got := by
    intro r hr
    rw [keptIds_eq, ← mem_window_only hwindow hr, List.mem_map, List.mem_map]
    constructor
    · rintro ⟨g, hg, hid⟩
      exact ⟨g, keptRows_subset hg, hid⟩
    · rintro ⟨g, hg, hid⟩
      exact ⟨g, keptRows_of_few hfew hg, hid⟩
  have htake := @takeRows_only { db with jobs := s.table } now worker_id _ _ hall hfit
    x.st.write x.st.write_key hwrite
  unfold fair_claim
  dsimp only
  rw [if_neg hrange, hlimit, returned_rows hwrite]
  exact htake

/-! ## The commit of any statement -/

theorem graves_none {sid : Nat} {st : Statement Call JobRow.id}
    {changes : List (JobRow × Option JobRow)} (h : ∀ id err, st.tag.op ≠ .dead_letter id err) :
    graves (.committed sid st changes) = [] := by
  unfold graves
  dsimp only
  split
  · rename_i id err hop
    exact absurd hop (h id err)
  · rfl

/-- The tables after one note more. -/
theorem tablesOf_snoc (n : Note Call JobRow.id) (jobs jobs' : Table JobRow.id) :
    tablesOf (log ++ [n]) jobs' =
      { tablesOf log jobs with jobs := jobs',
                               jobs_dead := (tablesOf log jobs).jobs_dead ++ graves n } := by
  unfold tablesOf
  rw [List.flatMap_append, List.flatMap_singleton]

theorem tablesOf_quiet {n : Note Call JobRow.id} (h : graves n = [])
    (jobs jobs' : Table JobRow.id) :
    tablesOf (log ++ [n]) jobs' = { tablesOf log jobs with jobs := jobs' } := by
  rw [tablesOf_snoc n jobs jobs', h, List.append_nil]

/-- A serial run of the call of a commit: the same answer, and the tables after the commit. -/
def RunsAlone (log : List (Note Call JobRow.id)) (s : Server Call JobRow.id)
    (x : Session Call JobRow.id) : Prop :=
  ∃ c, SerialAs (x.st.tag, answerOf x.st.tag (changesOf s.table x))
      (c, (exec (tablesOf log s.table) c).2) ∧
    (exec (tablesOf log s.table) c).1 =
      tablesOf (log ++ [.committed x.sid x.st (changesOf s.table x)]) (s.commit x).table

/-- An update that picked exactly the rows that match. -/
theorem commit_update {x : Session Call JobRow.id} {p : JobRow → Bool} {f : JobRow → JobRow}
    (hf : ∀ r, (f r).id = r.id) (hp : ∀ r ∈ s.table.rows, r.id ∈ x.st.pick x.got ↔ p r = true)
    (hwrite : ∀ r, x.st.write r = some (f r)) :
    (s.commit x).table = s.table.update p f hf ∧
      (changesOf s.table x).length = s.table.count p := by
  have htable := @Table.rewrite_eq_update _ _ _ _ s.table (x.st.pick x.got) x.st.write
    x.st.write_key p f hf hp (fun r _ _ => hwrite r)
  refine ⟨htable, ?_⟩
  rw [changesOf_rows, List.length_map]
  unfold rowsOf Table.count Table.matching
  congr 1
  apply List.filter_congr
  intro r hr
  rw [Bool.eq_iff_iff, decide_eq_true_eq]
  exact hp r hr

theorem alone_heartbeat (h : Underway log s) {x : Session Call JobRow.id}
    (hx : x ∈ s.sessions.rows) {c : Call} (hst : statementOf c = some x.st) {ids : List Int}
    {worker_id : Text} (hop : c.op = .heartbeat ids worker_id) : RunsAlone log s x := by
  have htag := statementOf_tag hst
  unfold statementOf at hst
  simp only [hop] at hst
  have hst := Option.some.inj hst
  have hwants : x.st.wants = held ids worker_id := by rw [← hst]; rfl
  have hwrite : ∀ r, x.st.write r = some (setLockedAt c.now r) := by
    intro r
    rw [← hst]
    rfl
  have hpicked : ∀ r ∈ s.table.rows, r.id ∈ x.st.pick x.got → held ids worker_id r = true := by
    intro r hr hpick
    obtain ⟨_, g, hf, hw⟩ := picked h.safe hx hpick
    rw [Table.find_of_mem hr, Option.some.injEq] at hf
    rw [← hwants, hf]
    exact hw
  have hheld : ∀ r ∈ s.table.rows, r.id ∈ x.st.pick x.got ↔
      held ((rowsOf s.table (x.st.pick x.got)).map (·.id)) worker_id r = true := by
    intro r hr
    rw [held_iff, List.mem_map]
    constructor
    · intro hpick
      obtain ⟨_, hby, hrun⟩ := held_iff.mp (hpicked r hr hpick)
      exact ⟨⟨r, mem_rowsOf.mpr ⟨hr, hpick⟩, rfl⟩, hby, hrun⟩
    · rintro ⟨⟨g, hg, hid⟩, _, _⟩
      exact hid ▸ (mem_rowsOf.mp hg).2
  obtain ⟨htable, hcount⟩ := commit_update (setLockedAt_id c.now) hheld hwrite
  refine ⟨⟨c.now, .heartbeat ((rowsOf s.table (x.st.pick x.got)).map (·.id)) worker_id⟩, ?_, ?_⟩
  · have hanswer : answerOf x.st.tag (changesOf s.table x) = .ok (.rows (s.table.count
        (held ((rowsOf s.table (x.st.pick x.got)).map (·.id)) worker_id))) := by
      rw [htag, ← hcount]
      simp [answerOf, hop]
    have hc : x.st.tag = ⟨c.now, .heartbeat ids worker_id⟩ := by rw [htag, ← hop]
    rw [hanswer, hc]
    apply SerialAs.heartbeat
    intro k hk
    obtain ⟨r, hr, rfl⟩ := List.mem_map.mp hk
    obtain ⟨hmem, hpick⟩ := mem_rowsOf.mp hr
    exact (held_iff.mp (hpicked r hmem hpick)).1
  · rw [tablesOf_quiet (graves_none (by simp [htag, hop])) s.table, htable]
    rfl

theorem alone_reap {x : Session Call JobRow.id} {c : Call} (h : Underway log s)
    (hx : x ∈ s.sessions.rows) (hst : statementOf c = some x.st) {l : Duration}
    (hop : c.op = .reap l)
    (hall : ∀ r ∈ s.table.rows, x.st.wants r = true → r.id ∈ x.st.pick x.got) :
    RunsAlone log s x := by
  have htag := statementOf_tag hst
  unfold statementOf at hst
  simp only [hop] at hst
  split at hst
  · cases hst
  rename_i cutoff hcut
  have hst := Option.some.inj hst
  have hwants : x.st.wants = reapable cutoff := by rw [← hst]; rfl
  have hreaped : ∀ r ∈ s.table.rows, r.id ∈ x.st.pick x.got ↔ reapable cutoff r = true := by
    intro r hr
    rw [← hwants]
    constructor
    · intro hpick
      obtain ⟨_, g, hf, hw⟩ := picked h.safe hx hpick
      rw [Table.find_of_mem hr, Option.some.injEq] at hf
      rw [hf]
      exact hw
    · exact hall r hr
  obtain ⟨htable, hcount⟩ := commit_update setReady_id hreaped (by
    intro r
    rw [← hst]
    rfl)
  have hexec : exec (tablesOf log s.table) x.st.tag = ({ tablesOf log s.table with
      jobs := s.table.update (reapable cutoff) setReady setReady_id },
      .ok (.rows (s.table.count (reapable cutoff)))) := by
    unfold exec
    rw [htag, hop]
    dsimp only
    rw [reap_of_cutoff _ hcut]
    rfl
  refine ⟨x.st.tag, ?_, ?_⟩
  · have hanswer : answerOf x.st.tag (changesOf s.table x) =
        .ok (.rows (s.table.count (reapable cutoff))) := by
      rw [htag, ← hcount]
      simp [answerOf, hop]
    rw [hexec, hanswer]
    exact SerialAs.same _ _
  · rw [hexec, tablesOf_quiet (graves_none (by simp [htag, hop])) s.table, htable]

/-- An outcome call that changed a row: that of its job. -/
theorem alone_outcome (h : Underway log s) {x : Session Call JobRow.id} (hx : x ∈ s.sessions.rows)
    (hfits : ∀ c ∈ changesOf s.table x, x.st.fits c.1 = true) {c : Call}
    (hst : statementOf c = some x.st) (id : Int) (hset : c.op.settles id = true)
    (hsome : changesOf s.table x ≠ [])
    (hid : ∀ r, x.st.wants r = true → r.id = id)
    (hrow : ∀ r, x.st.wants r = true → x.st.fits r = true → x.st.write r = outcomeRow c r ∧
      answerOf c [(r, x.st.write r)] = outcomeAnswer c (some r) ∧
      graves (.committed x.sid x.st [(r, x.st.write r)]) = (outcomeDead c r).toList) :
    RunsAlone log s x := by
  have htag := statementOf_tag hst
  have hwrites := writes_commit h hx hfits
  obtain ⟨p, hp⟩ := List.exists_mem_of_ne_nil _ hsome
  obtain ⟨hmem, hpick, hwrite⟩ := mem_changesOf.mp hp
  obtain ⟨r, o⟩ := p
  dsimp only at hmem hpick hwrite
  subst hwrite
  have hr := hid r (hwrites.wants _ hp)
  have hone := one_change hwrites.once hp
    (fun d hd => (hid d.1 (hwrites.wants d hd)).trans hr.symm)
  obtain ⟨hrewrite, hanswer, hgrave⟩ := hrow r (hwrites.wants _ hp) (hfits _ hp)
  have hfind : s.table.find id = some r := hr ▸ Table.find_of_mem hmem
  have htable : (s.commit x).table =
      s.table.rewrite [id] (outcomeRow c) (outcomeRow_id c) := by
    apply rewrite_one (fun g => if g.id ∈ x.st.pick x.got then x.st.write g else some g) rfl
    · intro g hg hne
      rw [if_neg]
      intro hin
      have hchange : (g, x.st.write g) ∈ changesOf s.table x := mem_changesOf.mpr ⟨hg, hin, rfl⟩
      exact hne (hid g (hwrites.wants _ hchange))
    · intro g hg
      rw [hfind, Option.some.injEq] at hg
      subst hg
      rw [if_pos hpick, hrewrite]
  have hexec := exec_outcome (tablesOf log s.table) hset
  have hsame : (tablesOf log s.table).jobs.find id = some r := hfind
  rw [hsame] at hexec
  refine ⟨x.st.tag, ?_, ?_⟩
  · rw [htag, hexec, hone, hanswer]
    exact SerialAs.same _ _
  · rw [htag, hexec, tablesOf_snoc _ s.table, htable, hone, hgrave]
    rfl

/-- The commit of any statement that changed a row is a serial run of its call. -/
theorem commit_alone (h : Underway log s) (hb : Bounded s) {x : Session Call JobRow.id}
    (hx : x ∈ s.sessions.rows) (hfits : ∀ c ∈ changesOf s.table x, x.st.fits c.1 = true)
    (hsome : changesOf s.table x ≠ [])
    (hall : x.st.tag.op.reaps = true → ∀ r ∈ s.table.rows, x.st.wants r = true →
      r.id ∈ x.st.pick x.got) : RunsAlone log s x := by
  obtain ⟨c, hst⟩ := h.calls x hx
  have htag := statementOf_tag hst
  have hfound : ∀ r ∈ rowsOf s.table (x.st.pick x.got), x.st.fits r = true := by
    intro r hr
    exact hfits (r, x.st.write r) (List.mem_map_of_mem hr)
  have hstatement := hst
  unfold statementOf at hst
  cases hop : c.op with
  | claim_batch kinds n worker_id plan =>
    simp only [hop] at hst
    split at hst
    · cases hst
    rename_i limit hlimit
    have hst := Option.some.inj hst
    have hfit : ∀ r ∈ rowsOf s.table (x.st.pick x.got), r.attempts < INT4_MAX := by
      intro r hr
      have hr := hfound r hr
      rw [← hst] at hr
      simpa [claimStatement] using hr
    have hclaim := serial_claim_batch h hb hx (n := n) hlimit (by rw [← hst]; rfl)
      (by rw [← hst]; rfl) (by rw [← hst]; rfl) (fun r => by rw [← hst]; rfl) hfit
      (tablesOf log s.table)
    have hexec : exec (tablesOf log s.table) ⟨c.now, .claim_batch kinds n worker_id
        (onlyPlan s.table (x.st.pick x.got))⟩ = ({ tablesOf log s.table with
        jobs := (s.commit x).table }, .ok (.jobs (returned (changesOf s.table x)))) :=
      congrArg (answer (tablesOf log s.table) .jobs) hclaim
    refine ⟨⟨c.now, .claim_batch kinds n worker_id (onlyPlan s.table (x.st.pick x.got))⟩, ?_, ?_⟩
    · have hc : x.st.tag = ⟨c.now, .claim_batch kinds n worker_id plan⟩ := by rw [htag, ← hop]
      rw [hexec, hc]
      exact SerialAs.claim_batch
    · rw [hexec, tablesOf_quiet (graves_none (by simp [htag, hop])) s.table]
  | fair_claim kinds batch per_tenant_cap worker_id plan =>
    simp only [hop] at hst
    split at hst
    · cases hst
    rename_i hrange
    split at hst
    · cases hst
    rename_i limit hlimit
    have hst := Option.some.inj hst
    have hfit : ∀ r ∈ rowsOf s.table (x.st.pick x.got), r.attempts < INT4_MAX := by
      intro r hr
      have hr := hfound r hr
      rw [← hst] at hr
      simpa [claimStatement] using hr
    have hclaim := serial_fair_claim h hb hx plan hrange hlimit (by rw [← hst]; rfl)
      (by rw [← hst]; rfl) (by rw [← hst]; rfl) (fun r => by rw [← hst]; rfl) hfit
      (tablesOf log s.table)
    have hexec : exec (tablesOf log s.table) ⟨c.now, .fair_claim kinds batch per_tenant_cap
        worker_id (onlyPlan s.table (x.st.pick x.got))⟩ = ({ tablesOf log s.table with
        jobs := (s.commit x).table }, .ok (.jobs (returned (changesOf s.table x)))) :=
      congrArg (answer (tablesOf log s.table) .jobs) hclaim
    refine ⟨⟨c.now, .fair_claim kinds batch per_tenant_cap worker_id
      (onlyPlan s.table (x.st.pick x.got))⟩, ?_, ?_⟩
    · have hc : x.st.tag = ⟨c.now, .fair_claim kinds batch per_tenant_cap worker_id plan⟩ := by
        rw [htag, ← hop]
      rw [hexec, hc]
      exact SerialAs.fair_claim
    · rw [hexec, tablesOf_quiet (graves_none (by simp [htag, hop])) s.table]
  | heartbeat ids worker_id => exact alone_heartbeat h hx hstatement hop
  | reap l => exact alone_reap h hx hstatement hop (hall (by rw [htag, hop]; rfl))
  | mark_done id =>
    simp only [hop] at hst
    have hst := Option.some.inj hst
    apply alone_outcome h hx hfits hstatement id (by simp [hop, Op.settles]) hsome
    · intro r hw
      rw [← hst] at hw
      simpa [updateStatement, plainStatement] using hw
    · intro r _ _
      rw [← hst]
      simp [updateStatement, plainStatement, outcomeRow, outcomeAnswer, outcomeDead, answerOf,
        graves, hop]
  | requeue id err =>
    simp only [hop] at hst
    have hst := Option.some.inj hst
    apply alone_outcome h hx hfits hstatement id (by simp [hop, Op.settles]) hsome
    · intro r hw
      rw [← hst] at hw
      have hw : (decide (r.id = id) && decide (r.attempts < r.max_attempts)) = true := hw
      simp only [Bool.and_eq_true, decide_eq_true_eq] at hw
      exact hw.1
    · intro r hw hfit
      rw [← hst] at hw hfit ⊢
      have hw : (decide (r.id = id) && decide (r.attempts < r.max_attempts)) = true := hw
      have hfit : (backoff c.now r.attempts).isOk = true := hfit
      simp only [Bool.and_eq_true, decide_eq_true_eq] at hw
      cases hb : backoff c.now r.attempts with
      | error e =>
        rw [hb] at hfit
        cases hfit
      | ok run_at =>
        simp [plainStatement, retried, outcomeRow, outcomeAnswer, outcomeDead, answerOf, graves,
          hop, hb, hw.2, Except.map]
  | dead_letter id err =>
    simp only [hop] at hst
    have hst := Option.some.inj hst
    apply alone_outcome h hx hfits hstatement id (by simp [hop, Op.settles]) hsome
    · intro r hw
      rw [← hst] at hw
      simpa [plainStatement] using hw
    · intro r _ _
      rw [← hst]
      simp [plainStatement, outcomeRow, outcomeAnswer, outcomeDead, answerOf, graves, hop]
  | _ =>
    simp only [hop] at hst
    cases hst

end

/-! ## The law -/

/-- The entries of a serial run that leaves these tables, and answers as the commits did. -/
def HasSerialOrder (log : List (Note Call JobRow.id)) (jobs : Table JobRow.id) : Prop :=
  ∃ entries, run serve Db.empty entries = tablesOf log jobs ∧
    List.Forall₂ SerialAs (log.filterMap wrote) ((trace serve Db.empty entries).filterMap asked)

/-- An event that changes no row leaves the serial run. -/
theorem hasSerialOrder_quiet {log : List (Note Call JobRow.id)} {jobs : Table JobRow.id}
    (h : HasSerialOrder log jobs) {o : Option (Note Call JobRow.id)}
    (hgrave : o.toList.flatMap graves = []) (hwrote : o.toList.filterMap wrote = []) :
    HasSerialOrder (log ++ o.toList) jobs := by
  obtain ⟨entries, hrun, hanswers⟩ := h
  refine ⟨entries, ?_, ?_⟩
  · rw [hrun]
    unfold tablesOf
    rw [List.flatMap_append, hgrave, List.append_nil]
  · rwa [List.filterMap_append, hwrote, List.append_nil]

theorem hasSerialOrder_insert {log : List (Note Call JobRow.id)} {jobs jobs' : Table JobRow.id}
    (h : HasSerialOrder log jobs) {id run_at : Int} {kind : Text} {payload : Jsonb}
    (hi : jobs.insert (newRow id kind payload run_at) = some jobs') :
    HasSerialOrder log jobs' := by
  obtain ⟨entries, hrun, hanswers⟩ := h
  refine ⟨entries ++ [.enqueued id kind payload run_at], ?_, ?_⟩
  · have hjobs : (tablesOf log jobs).jobs.insert (newRow id kind payload run_at) = some jobs' := hi
    rw [run_snoc, hrun]
    unfold serve
    dsimp only
    rw [hjobs]
    rfl
  · rw [trace_snoc, List.filterMap_append, List.filterMap_cons_none rfl, List.filterMap_nil,
      List.append_nil]
    exact hanswers

theorem hasSerialOrder_commit {log : List (Note Call JobRow.id)} {s : Server Call JobRow.id}
    (h : HasSerialOrder log s.table) {x : Session Call JobRow.id} (halone : RunsAlone log s x)
    (hsome : changesOf s.table x ≠ []) :
    HasSerialOrder (log ++ [.committed x.sid x.st (changesOf s.table x)]) (s.commit x).table := by
  obtain ⟨entries, hrun, hanswers⟩ := h
  obtain ⟨c, hserial, htables⟩ := halone
  refine ⟨entries ++ [.call c], ?_, ?_⟩
  · rw [run_snoc, hrun]
    exact htables
  · have hwrote : [Note.committed x.sid x.st (changesOf s.table x)].filterMap wrote =
        [(x.st.tag, answerOf x.st.tag (changesOf s.table x))] := by
      simp [wrote, hsome]
    rw [trace_snoc, hrun, List.filterMap_append, List.filterMap_append, hwrote]
    exact List.rel_append hanswers (List.Forall₂.cons hserial List.Forall₂.nil)

/-- A commit that changes no row leaves the table. -/
theorem commit_none {s : Server Call JobRow.id} {x : Session Call JobRow.id}
    (h : changesOf s.table x = []) : (s.commit x).table = s.table := by
  show s.table.rewrite (x.st.pick x.got) x.st.write x.st.write_key = s.table
  apply Table.rewrite_none
  intro r hr hin
  have hmem : (r, x.st.write r) ∈ changesOf s.table x := mem_changesOf.mpr ⟨hr, hin, rfl⟩
  rw [h] at hmem
  cases hmem

theorem hasSerialOrder_step {log : List (Note Call JobRow.id)} {s : Server Call JobRow.id}
    (hu : Underway log s) (hb : Bounded s) (h : HasSerialOrder log s.table)
    {e : Event Call JobRow.id} (he : Sent e) (hreap : ReapsAll s e) :
    HasSerialOrder (log ++ (step s e).2.toList) (step s e).1.table := by
  have ha := step_acts s e
  generalize (step s e).1 = s' at ha ⊢
  generalize (step s e).2 = o at ha ⊢
  cases ha with
  | @committed x hx _ hfits =>
    by_cases hsome : changesOf s.table x = []
    · rw [commit_none hsome, hsome]
      apply hasSerialOrder_quiet h
      · simp only [Option.toList_some, List.flatMap_singleton, graves]
        split <;> rfl
      · rfl
    · exact hasSerialOrder_commit h
        (commit_alone hu hb hx hfits hsome (hreap x hx rfl)) hsome
  | @inserted r table _ hi =>
    obtain ⟨m, hm⟩ := he
    cases m with
    | enqueued id kind payload run_at =>
      cases hm
      rw [Option.toList_none, List.append_nil]
      exact hasSerialOrder_insert h hi
    | call c =>
      obtain ⟨st, _, hs⟩ := Option.map_eq_some_iff.mp hm
      cases hs
    | _ => cases hm
  | locked _ _ _ _ _ => exact hasSerialOrder_quiet h rfl rfl
  | still => exact hasSerialOrder_quiet h rfl rfl
  | started _ => exact hasSerialOrder_quiet h rfl rfl
  | passed _ _ _ _ => exact hasSerialOrder_quiet h rfl rfl
  | failed _ _ _ => exact hasSerialOrder_quiet h rfl rfl
  | aborted _ => exact hasSerialOrder_quiet h rfl rfl

/-- Every schedule has a serial order: the same tables and the same answers come from the calls
that changed a row, each alone, in the order of their commits. A claim meets locks there, a
heartbeat lists the ids that it counted, and a reap must have reached every expired row. -/
theorem every_schedule_has_a_serial_order (moves : List Move)
    (hreaps : EveryStep step ReapsAll (Server.rest Call Table.empty)
      (moves.filterMap Move.event)) :
    HasSerialOrder (seen Table.empty moves) (ended moves).table := by
  have hsent : EveryStep step (fun _ e => Sent e) (Server.rest Call Table.empty)
      (moves.filterMap Move.event) := by
    apply everyStep_of_inputs
    intro e he
    obtain ⟨m, _, hm⟩ := List.mem_filterMap.mp he
    exact ⟨m, hm⟩
  have hlaw := run_induction_every (P := fun tr (s : Server Call JobRow.id) =>
    Underway (tr.filterMap Prod.snd) s ∧ Bounded s ∧
      HasSerialOrder (tr.filterMap Prod.snd) s.table) ?_ ?_ (everyStep_and.mpr ⟨hsent, hreaps⟩)
  · exact hlaw.2.2
  · refine ⟨underway_rest Table.empty, ?_, [], rfl, List.Forall₂.nil⟩
    intro x hx
    cases hx
  · rintro tr s e ⟨he, hreap⟩ ⟨hu, hb, hserial⟩
    rw [notes_snoc]
    exact ⟨underway_step hu he, bounded_step hb e, hasSerialOrder_step hu hb hserial he hreap⟩

/-- The schedule of a claim that waits for a reap has a serial order. -/
theorem a_stale_claim_has_its_place :
    HasSerialOrder (seen Table.empty (.enqueued 1 "k" .null 0 :: staleSnapshot))
      (ended (.enqueued 1 "k" .null 0 :: staleSnapshot)).table := by
  apply every_schedule_has_a_serial_order
  decide +kernel

end skip_locked
