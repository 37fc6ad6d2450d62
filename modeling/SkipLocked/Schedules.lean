-- The life of one job when the steps of all statements mix. A commit is one turn
-- in the life of each job that it changes, so a law that every turn keeps holds
-- in every schedule, and not only when each call runs alone.
import SkipLocked.Interleavings
import SkipLocked.Attempts
import SkipLocked.Ownership

open jsonb postgres keyed_table event_runs row_locks

namespace skip_locked

open claim lease retry

/-! ## The tables of a schedule -/

/-- The rows that a commit inserts into `jobs_dead`. -/
def graves : Note Call JobRow.id → List DeadRow
  | .committed _ st changes =>
    match st.tag.op with
    | .dead_letter _ err => changes.map (fun c => deadRow st.tag.now err c.1)
    | _ => []
  | .locked _ _ => []

/-- The two tables after the notes of a schedule. -/
def tablesOf (log : List (Note Call JobRow.id)) (jobs : Table JobRow.id) : Db :=
  { Db.empty with jobs, jobs_dead := log.flatMap graves }

/-- What the call of a statement answers at its commit. -/
def answerOf (c : Call) (changes : List (JobRow × Option JobRow)) : Answer :=
  match c.op with
  | .claim_batch .. => .ok (.jobs (returned changes))
  | .fair_claim .. => .ok (.jobs (returned changes))
  | .mark_done _ => .ok .unit
  | _ => .ok (.rows changes.length)

/-- The call that a commit completes, and its answer. -/
def told : Note Call JobRow.id → Option (Call × Answer)
  | .committed _ st changes => some (st.tag, answerOf st.tag changes)
  | .locked _ _ => none

/-! ## One commit -/

/-- A commit changes rows that its statement wants, each once, as it writes them. -/
structure Writes (st : Statement Call JobRow.id) (changes : List (JobRow × Option JobRow)) :
    Prop where
  wants : ∀ c ∈ changes, st.wants c.1 = true
  fits : ∀ c ∈ changes, st.fits c.1 = true
  writes : ∀ c ∈ changes, c.2 = st.write c.1
  once : (changes.map (fun c => c.1.id)).Nodup

theorem returned_ids {st : Statement Call JobRow.id} {changes : List (JobRow × Option JobRow)}
    (h : Writes st changes) {j : Int} (hj : j ∈ (returned changes).map (·.id)) :
    ∃ c ∈ changes, c.1.id = j := by
  obtain ⟨job, hjob, rfl⟩ := List.mem_map.mp hj
  obtain ⟨p, hp, hpj⟩ := List.mem_filterMap.mp hjob
  obtain ⟨r', hr', rfl⟩ := Option.map_eq_some_iff.mp hpj
  refine ⟨p, hp, (st.write_key p.1 r' ?_).symm⟩
  rw [← h.writes p hp, hr']

/-- Only a claim delivers, and it delivers only rows that it changes. -/
theorem not_delivers_of_kept {st : Statement Call JobRow.id}
    {changes : List (JobRow × Option JobRow)} (h : Writes st changes) {j : Int}
    (hj : ¬ ∃ c ∈ changes, c.1.id = j) : ¬ Delivers j (answerOf st.tag changes) := by
  unfold answerOf
  split
  · exact fun hd => hj (returned_ids h hd)
  · exact fun hd => hj (returned_ids h hd)
  · exact id
  · exact id

theorem eq_of_once {changes : List (JobRow × Option JobRow)}
    (h : (changes.map (fun c => c.1.id)).Nodup) {c d : JobRow × Option JobRow} (hc : c ∈ changes)
    (hd : d ∈ changes) (he : c.1.id = d.1.id) : c = d :=
  List.inj_on_of_nodup_map h hc hd he

/-- A statement about one id changes one row at most. -/
theorem one_change {changes : List (JobRow × Option JobRow)} {c : JobRow × Option JobRow}
    (h : (changes.map (fun c => c.1.id)).Nodup) (hc : c ∈ changes)
    (hid : ∀ d ∈ changes, d.1.id = c.1.id) : changes = [c] := by
  have hnodup := h.of_map
  have hall : ∀ d ∈ changes, d = c := fun d hd => eq_of_once h hd hc (hid d hd)
  have hrep : changes = List.replicate changes.length c := List.eq_replicate_of_mem hall
  have hle : changes.length ≤ 1 := by
    rw [hrep] at hnodup
    exact List.nodup_replicate.mp hnodup
  have hpos := List.length_pos_of_mem hc
  rw [hrep, show changes.length = 1 by omega]
  rfl

/-- What a commit does to a row that it changes: a turn that is never `still`. -/
inductive Effect (c : Call) (r : JobRow) : Answer → Life → Prop where
  | claimed {worker_id : Text} {jobs : List Job} : c.op.claimant = some worker_id →
      r.state = .ready → r.run_at ≤ c.now → r.id ∈ jobs.map (·.id) →
      (∀ job ∈ jobs, job.id = r.id → job = jobOf (setRunning c.now worker_id r)) →
      Effect c r (.ok (.jobs jobs)) (.live (setRunning c.now worker_id r))
  | beat {ids : List Int} {worker_id : Text} {n : Nat} : c.op = .heartbeat ids worker_id →
      held ids worker_id r = true → Effect c r (.ok (.rows n)) (.live (setLockedAt c.now r))
  | finished : c.op = .mark_done r.id → Effect c r (.ok .unit) (.live (setDone r))
  | requeued {err : Text} {run_at : Int} : c.op = .requeue r.id err →
      r.attempts < r.max_attempts → backoff c.now r.attempts = .ok run_at →
      Effect c r (.ok (.rows 1)) (.live (setRetry run_at err r))
  | died {err : Text} : c.op = .dead_letter r.id err →
      Effect c r (.ok (.rows 1)) (.buried (deadRow c.now err r))
  | reaped {l : Duration} {cutoff : Int} {n : Nat} : c.op = .reap l →
      cutoffOf c.now l = .ok cutoff → reapable cutoff r = true →
      Effect c r (.ok (.rows n)) (.live (setReady r))

theorem Effect.turn {c : Call} {r : JobRow} {a : Answer} {l : Life} (h : Effect c r a l) :
    Turn r.id c a (.live r) l := by
  cases h with
  | claimed hw hready hdue hj hall => exact Turn.claimed r hw hready hdue hj hall
  | beat hop hheld => exact Turn.beat r hop hheld
  | finished hop => exact Turn.finished r hop
  | requeued hop hlt hb => exact Turn.requeued r hop hlt hb
  | died hop => exact Turn.died r hop
  | reaped hop hcut hr => exact Turn.reaped r hop hcut hr

/-- The effect of a claim. -/
theorem effect_returned {c : Call} {st : Statement Call JobRow.id} {w : Text} {kinds : List Text}
    {changes : List (JobRow × Option JobRow)} (h : Writes st changes)
    (hw : c.op.claimant = some w) (hwants : st.wants = claimable c.now kinds)
    (hwrite : ∀ r, st.write r = some (setRunning c.now w r)) {r : JobRow}
    (hr : (r, st.write r) ∈ changes) :
    Effect c r (.ok (.jobs (returned changes))) (.live (setRunning c.now w r)) := by
  have hclaimable := h.wants _ hr
  rw [hwants] at hclaimable
  obtain ⟨hready, hdue, _⟩ := claimable_iff.mp hclaimable
  have hjob : jobOf (setRunning c.now w r) ∈ returned changes := by
    apply List.mem_filterMap.mpr
    exact ⟨_, hr, by rw [hwrite]; rfl⟩
  apply Effect.claimed hw hready hdue
  · exact List.mem_map.mpr ⟨_, hjob, rfl⟩
  · intro job hin hid
    obtain ⟨p, hp, hpj⟩ := List.mem_filterMap.mp hin
    obtain ⟨r', hr', rfl⟩ := Option.map_eq_some_iff.mp hpj
    have hwp := h.writes p hp
    rw [hr', hwrite, Option.some.injEq] at hwp
    subst hwp
    have hsame := eq_of_once h.once hp hr hid
    rw [hsame]

/-- The commit of a statement has an effect on each row that it changes. -/
theorem effect_written {c : Call} {st : Statement Call JobRow.id} (hst : statementOf c = some st)
    {changes : List (JobRow × Option JobRow)} (h : Writes st changes) {r : JobRow}
    (hr : (r, st.write r) ∈ changes) :
    (∃ r', st.write r = some r' ∧ Effect c r (answerOf c changes) (.live r')) ∨
    (∃ err, c.op = .dead_letter r.id err ∧ st.write r = none ∧ changes = [(r, none)] ∧
      Effect c r (answerOf c changes) (.buried (deadRow c.now err r))) := by
  unfold statementOf at hst
  unfold answerOf
  cases hop : c.op with
  | claim_batch kinds n worker_id plan =>
    simp only [hop] at hst ⊢
    split at hst
    · cases hst
    · cases hst
      exact Or.inl ⟨_, rfl, effect_returned h (by rw [hop]; rfl) rfl (fun _ => rfl) hr⟩
  | fair_claim kinds batch per_tenant_cap worker_id plan =>
    simp only [hop] at hst ⊢
    split at hst
    · cases hst
    · split at hst
      · cases hst
      · cases hst
        exact Or.inl ⟨_, rfl, effect_returned h (by rw [hop]; rfl) rfl (fun _ => rfl) hr⟩
  | heartbeat ids worker_id =>
    simp only [hop] at hst ⊢
    cases hst
    exact Or.inl ⟨_, rfl, Effect.beat hop (h.wants _ hr)⟩
  | mark_done id =>
    simp only [hop] at hst ⊢
    cases hst
    have hid : r.id = id := by simpa [updateStatement, plainStatement] using h.wants _ hr
    exact Or.inl ⟨_, rfl, Effect.finished (hid ▸ hop)⟩
  | requeue id err =>
    simp only [hop] at hst ⊢
    cases hst
    have hwants : ∀ d ∈ changes, d.1.id = id ∧ d.1.attempts < d.1.max_attempts := by
      intro d hd
      simpa [plainStatement] using h.wants d hd
    have hid : r.id = id := (hwants _ hr).1
    obtain hone : changes = _ := one_change h.once hr
      (fun d hd => (hwants d hd).1.trans hid.symm)
    have hfit : (backoff c.now r.attempts).isOk = true := h.fits _ hr
    cases hb : backoff c.now r.attempts with
    | error e =>
      rw [hb] at hfit
      cases hfit
    | ok run_at =>
      refine Or.inl ⟨setRetry run_at err r, ?_, ?_⟩
      · show retried c.now err r = some (setRetry run_at err r)
        unfold retried
        rw [hb]
      · rw [hone]
        exact Effect.requeued (hid ▸ hop) (hwants _ hr).2 hb
  | dead_letter id err =>
    simp only [hop] at hst ⊢
    cases hst
    have hwants : ∀ d ∈ changes, d.1.id = id := by
      intro d hd
      simpa [plainStatement] using h.wants d hd
    have hid : r.id = id := hwants _ hr
    have hone := one_change h.once hr (fun d hd => (hwants d hd).trans hid.symm)
    refine Or.inr ⟨err, by rw [hid], rfl, hone, ?_⟩
    rw [hone]
    exact Effect.died (hid ▸ hop)
  | reap l =>
    simp only [hop] at hst ⊢
    split at hst
    · cases hst
    · rename_i cutoff hcut
      cases hst
      exact Or.inl ⟨_, rfl, Effect.reaped hop hcut (h.wants _ hr)⟩
  | _ =>
    simp only [hop] at hst
    cases hst

/-! ## What stays true of the tables -/

theorem ever_step (s : Server Call JobRow.id) (e : Event Call JobRow.id) {k : Int}
    (h : k ∈ s.ever) : k ∈ (step s e).1.ever := by
  have ha := step_acts s e
  generalize (step s e).1 = s' at ha ⊢
  generalize (step s e).2 = o at ha
  cases ha with
  | inserted _ _ => exact List.mem_cons_of_mem _ h
  | _ => exact h

/-- The locks are sound, each open statement belongs to a call, and a job that was buried was
buried once and does not come back. -/
structure Underway (log : List (Note Call JobRow.id)) (s : Server Call JobRow.id) : Prop where
  safe : Safe (fun _ => True) log s
  calls : ∀ x ∈ s.sessions.rows, ∃ c, statementOf c = some x.st
  buried : ∀ d ∈ log.flatMap graves, d.id ∈ s.ever ∧ s.table.find d.id = none
  once : ((log.flatMap graves).map (·.id)).Nodup

theorem underway_rest (jobs : Table JobRow.id) : Underway [] (Server.rest Call jobs) := by
  refine ⟨safe_rest _ jobs, ?_, ?_, List.nodup_nil⟩
  · intro x hx
    cases hx
  · intro d hd
    cases hd

/-- The event of a move. -/
def Sent (e : Event Call JobRow.id) : Prop := ∃ m, Move.event m = some e

theorem writes_commit {log : List (Note Call JobRow.id)} {s : Server Call JobRow.id}
    (h : Underway log s) {x : Session Call JobRow.id} (hx : x ∈ s.sessions.rows)
    (hfits : ∀ c ∈ changesOf s.table x, x.st.fits c.1 = true) :
    Writes x.st (changesOf s.table x) := by
  obtain ⟨_, hwants, hwrites, honce⟩ := fromStart_changesOf h.safe hx (List.mem_singleton_self x.st)
  exact ⟨hwants, hfits, hwrites, honce⟩

/-- A commit buries the rows that it deletes, and nothing else. -/
theorem mem_graves {sid : Nat} {c : Call} {st : Statement Call JobRow.id}
    (hst : statementOf c = some st) {changes : List (JobRow × Option JobRow)} {d : DeadRow}
    (hd : d ∈ graves (.committed sid st changes)) :
    ∃ p ∈ changes, d.id = p.1.id ∧ st.write p.1 = none := by
  have htag := statementOf_tag hst
  unfold graves at hd
  dsimp only at hd
  rw [htag] at hd
  split at hd
  · rename_i id err hop
    obtain ⟨p, hp, rfl⟩ := List.mem_map.mp hd
    refine ⟨p, hp, rfl, ?_⟩
    unfold statementOf at hst
    rw [hop] at hst
    cases hst
    rfl
  · cases hd

theorem graves_nodup {sid : Nat} {st : Statement Call JobRow.id}
    {changes : List (JobRow × Option JobRow)} (h : Writes st changes) :
    ((graves (.committed sid st changes)).map (·.id)).Nodup := by
  unfold graves
  dsimp only
  split
  · rw [List.map_map]
    exact h.once
  · exact List.nodup_nil

/-- The graves of one event: the rows are gone, and they were there before. -/
theorem graves_step {log : List (Note Call JobRow.id)} {s : Server Call JobRow.id}
    (h : Underway log s) (e : Event Call JobRow.id) :
    (((step s e).2.toList.flatMap graves).map (·.id)).Nodup ∧
      ∀ d ∈ (step s e).2.toList.flatMap graves, (s.table.find d.id).isSome ∧
        d.id ∈ (step s e).1.ever ∧ (step s e).1.table.find d.id = none := by
  have ha := step_acts s e
  have hever := fun k => @ever_step s e k
  generalize (step s e).1 = s' at ha hever ⊢
  generalize (step s e).2 = o at ha ⊢
  cases ha with
  | @committed x hx _ hfits =>
    have hwrites := writes_commit h hx hfits
    obtain ⟨c, hst⟩ := h.calls x hx
    simp only [Option.toList_some, List.flatMap_singleton]
    refine ⟨graves_nodup hwrites, ?_⟩
    intro d hd
    obtain ⟨p, hp, hid, hnone⟩ := mem_graves hst hd
    obtain ⟨hmem, hpick, _⟩ := mem_changesOf.mp hp
    have hfind : s.table.find d.id = some p.1 := hid ▸ Table.find_of_mem hmem
    refine ⟨by rw [hfind]; rfl, hever _ (h.safe.keys _ (by rw [hfind]; rfl)), ?_⟩
    rw [find_commit, hfind, Option.bind_some, if_pos (hid ▸ hpick), hnone]
  | locked _ _ _ _ _ => exact ⟨List.nodup_nil, fun d hd => absurd hd List.not_mem_nil⟩
  | _ => exact ⟨List.nodup_nil, fun d hd => absurd hd List.not_mem_nil⟩

theorem underway_step {log : List (Note Call JobRow.id)} {s : Server Call JobRow.id}
    (h : Underway log s) {e : Event Call JobRow.id} (he : Sent e) :
    Underway (log ++ (step s e).2.toList) (step s e).1 := by
  obtain ⟨hnodup, hnew⟩ := graves_step h e
  refine ⟨safe_step h.safe e, ?_, ?_, ?_⟩
  · intro x' hx'
    rcases rows_acts (step_acts s e) hx' with ⟨x, hx, _, hst⟩ | ⟨st, rfl, rfl⟩
    · rw [hst]
      exact h.calls x hx
    · obtain ⟨m, hm⟩ := he
      cases m with
      | call c =>
        obtain ⟨st', hst', hs⟩ := Option.map_eq_some_iff.mp hm
        cases hs
        exact ⟨c, hst'⟩
      | _ => cases hm
  · intro d hd
    rw [List.flatMap_append] at hd
    rcases List.mem_append.mp hd with hd | hd
    · obtain ⟨hever, hgone⟩ := h.buried d hd
      refine ⟨ever_step s e hever, ?_⟩
      have hrow := step_row h.safe e d.id
      generalize (step s e).1.table.find d.id = row at hrow ⊢
      generalize (step s e).2 = o at hrow
      cases hrow with
      | kept _ => exact hgone
      | written _ hf _ _ _ =>
        rw [hgone] at hf
        cases hf
      | inserted _ hno => exact absurd hever hno
    · exact (hnew d hd).2
  · rw [List.flatMap_append, List.map_append, List.nodup_append]
    refine ⟨h.once, hnodup, ?_⟩
    rintro k hk _ hk' rfl
    obtain ⟨d, hd, rfl⟩ := List.mem_map.mp hk
    obtain ⟨d', hd', hid⟩ := List.mem_map.mp hk'
    have hsome := (hnew d' hd').1
    rw [hid, (h.buried d hd).2] at hsome
    cases hsome

/-! ## One event in the life of a job -/

/-- What an event does to job `j`: nothing, or it brings the job, or its commit is a turn. -/
inductive Passage (j : Int) : Option (Note Call JobRow.id) → Life → Life → Prop where
  | quiet (l : Life) : Passage j none l l
  | locks (sid : Nat) (k : Int) (l : Life) : Passage j (some (.locked sid k)) l l
  | spares {sid : Nat} {st : Statement Call JobRow.id} {changes : List (JobRow × Option JobRow)}
      (l : Life) : Writes st changes → ¬ Note.changes j (.committed sid st changes) →
      Passage j (some (.committed sid st changes)) l l
  | born (kind : Text) (payload : Jsonb) (run_at : Int) :
      Passage j none .unborn (.live (newRow j kind payload run_at))
  | turns {sid : Nat} {st : Statement Call JobRow.id} {changes : List (JobRow × Option JobRow)}
      {r : JobRow} {l : Life} : r.id = j → Note.changes j (.committed sid st changes) →
      Effect st.tag r (answerOf st.tag changes) l →
      Passage j (some (.committed sid st changes)) (.live r) l

/-- A row of the table has no grave. -/
theorem no_grave {log : List (Note Call JobRow.id)} {s : Server Call JobRow.id}
    (h : Underway log s) {k : Int} (hk : (s.table.find k).isSome ∨ k ∉ s.ever) :
    (log.flatMap graves).find? (fun d => decide (d.id = k)) = none := by
  apply List.find?_eq_none.mpr
  intro d hd hid
  obtain rfl : d.id = k := by simpa using hid
  obtain ⟨hever, hgone⟩ := h.buried d hd
  rcases hk with hk | hk
  · rw [hgone] at hk
    cases hk
  · exact hk hever

/-- An event that does not change the row of a job leaves its grave as well. -/
theorem same_graves {log : List (Note Call JobRow.id)} {s : Server Call JobRow.id}
    (h : Underway log s) (e : Event Call JobRow.id) {j : Int}
    (hkept : ∀ n ∈ (step s e).2, ¬ n.changes j) :
    ((log ++ (step s e).2.toList).flatMap graves).find? (fun d => decide (d.id = j)) =
      (log.flatMap graves).find? (fun d => decide (d.id = j)) := by
  have hno : ((step s e).2.toList.flatMap graves).find? (fun d => decide (d.id = j)) = none := by
    apply List.find?_eq_none.mpr
    intro d hd hid
    obtain rfl : d.id = j := by simpa using hid
    have ha := step_acts s e
    generalize (step s e).1 = s' at ha
    generalize (step s e).2 = o at ha hd hkept
    cases ha with
    | @committed x hx _ _ =>
      simp only [Option.toList_some, List.flatMap_singleton] at hd
      obtain ⟨c, hst⟩ := h.calls x hx
      obtain ⟨p, hp, hpid, _⟩ := mem_graves hst hd
      exact hkept _ rfl ⟨p, hp, hpid.symm⟩
    | locked _ _ _ _ _ => cases hd
    | _ => cases hd
  rw [List.flatMap_append, List.find?_append, hno, Option.or_none]

theorem life_kept {log : List (Note Call JobRow.id)} {s : Server Call JobRow.id}
    (h : Underway log s) (e : Event Call JobRow.id) {j : Int}
    (hfind : (step s e).1.table.find j = s.table.find j)
    (hkept : ∀ n ∈ (step s e).2, ¬ n.changes j) :
    (tablesOf (log ++ (step s e).2.toList) (step s e).1.table).life j =
      (tablesOf log s.table).life j := by
  unfold Db.life tablesOf
  dsimp only
  rw [hfind, same_graves h e hkept]

theorem life_of_table {log : List (Note Call JobRow.id)} {jobs : Table JobRow.id} {j : Int}
    {r : JobRow} (h : jobs.find j = some r) : (tablesOf log jobs).life j = .live r :=
  life_of_find h

/-- A change of the row of a job is a turn in its life. -/
theorem passage_written {log : List (Note Call JobRow.id)} {s : Server Call JobRow.id}
    (h : Underway log s) {x : Session Call JobRow.id} (hx : x ∈ s.sessions.rows)
    (hfits : ∀ c ∈ changesOf s.table x, x.st.fits c.1 = true) {r : JobRow}
    (hf : s.table.find r.id = some r) (hr : (r, x.st.write r) ∈ changesOf s.table x)
    {jobs : Table JobRow.id} (hafter : jobs.find r.id = x.st.write r) :
    Passage r.id (some (.committed x.sid x.st (changesOf s.table x)))
      ((tablesOf log s.table).life r.id)
      ((tablesOf (log ++ [.committed x.sid x.st (changesOf s.table x)]) jobs).life r.id) := by
  obtain ⟨c, hst⟩ := h.calls x hx
  obtain rfl := statementOf_tag hst
  have hchanges : Note.changes r.id (.committed x.sid x.st (changesOf s.table x)) := ⟨_, hr, rfl⟩
  rw [life_of_table hf]
  rcases effect_written hst (writes_commit h hx hfits) hr with
    ⟨r', hwrite, heffect⟩ | ⟨err, hop, hnone, hone, heffect⟩
  · rw [hwrite] at hafter
    rw [life_of_table hafter]
    exact Passage.turns rfl hchanges heffect
  · have hgrave : (tablesOf (log ++ [.committed x.sid x.st (changesOf s.table x)]) jobs).life r.id =
        .buried (deadRow x.st.tag.now err r) := by
      have hold := no_grave h (k := r.id) (Or.inl (by rw [hf]; rfl))
      unfold Db.life tablesOf
      dsimp only
      rw [hafter, hnone, List.flatMap_append, List.find?_append, hold, Option.none_or,
        List.flatMap_singleton]
      simp [graves, hop, hone, deadRow]
    rw [hgrave]
    exact Passage.turns rfl hchanges heffect

/-- Every event of a schedule is a passage in the life of each job. -/
theorem step_passage {log : List (Note Call JobRow.id)} {s : Server Call JobRow.id}
    (h : Underway log s) {e : Event Call JobRow.id} (he : Sent e) (j : Int) :
    Passage j (step s e).2 ((tablesOf log s.table).life j)
      ((tablesOf (log ++ (step s e).2.toList) (step s e).1.table).life j) := by
  have hrow := step_row h.safe e j
  have hlife := @life_kept log s h e j
  have ha := step_acts s e
  generalize (step s e).1 = s' at ha hrow hlife ⊢
  generalize (step s e).2 = o at ha hrow hlife ⊢
  generalize hafter : s'.table.find j = row at hrow
  cases hrow with
  | kept hkept =>
    rw [hlife hafter hkept]
    cases ha with
    | @committed x hx _ hfits =>
      exact Passage.spares _ (writes_commit h hx hfits) (hkept _ rfl)
    | locked _ _ _ _ _ => exact Passage.locks _ _ _
    | _ => exact Passage.quiet _
  | @written x r hx hf _ hfits hr =>
    obtain rfl := Table.key_of_find hf
    exact passage_written h hx hfits hf hr hafter
  | @inserted r hk hnew =>
    obtain ⟨m, hm⟩ := he
    cases m with
    | enqueued id kind payload run_at =>
      cases hm
      obtain rfl : id = j := hk
      have hunborn : (tablesOf log s.table).life id = .unborn := by
        unfold Db.life tablesOf
        dsimp only
        rw [no_grave h (Or.inr hnew)]
        cases hf : s.table.find id with
        | none => rfl
        | some r => exact absurd (h.safe.keys id (by rw [hf]; rfl)) hnew
      rw [hunborn, life_of_table hafter]
      exact Passage.born kind payload run_at
    | call c =>
      obtain ⟨st, _, hs⟩ := Option.map_eq_some_iff.mp hm
      cases hs
    | _ => cases hm

/-! ## The induction rule -/

/-- The server at the end of a schedule that starts on an empty table. -/
def ended (moves : List Move) : Server Call JobRow.id :=
  run step (Server.rest Call Table.empty) (moves.filterMap Move.event)

/-- The calls that a schedule completed, with their answers, in the order of their commits. -/
def toldIn (moves : List Move) : List (Call × Answer) := (seen Table.empty moves).filterMap told

/-- A law of the notes so far and of the life of a job holds after every schedule when each
passage keeps it. -/
theorem schedule_induction {j : Int} {P : List (Note Call JobRow.id) → Life → Prop}
    (h0 : P [] .unborn)
    (hstep : ∀ log o l l', Passage j o l l' → P log l → P (log ++ o.toList) l')
    (moves : List Move) :
    Underway (seen Table.empty moves) (ended moves) ∧
      P (seen Table.empty moves)
        ((tablesOf (seen Table.empty moves) (ended moves).table).life j) := by
  refine run_induction_of (Q := Sent) (P := fun tr (s : Server Call JobRow.id) =>
    Underway (tr.filterMap Prod.snd) s ∧ P (tr.filterMap Prod.snd)
      ((tablesOf (tr.filterMap Prod.snd) s.table).life j)) ?_ ?_ ?_
  · exact ⟨underway_rest Table.empty, h0⟩
  · rintro tr s e he ⟨hu, hp⟩
    rw [notes_snoc]
    exact ⟨underway_step hu he, hstep _ _ _ _ (step_passage hu he j) hp⟩
  · intro e he
    obtain ⟨m, _, hm⟩ := List.mem_filterMap.mp he
    exact ⟨m, hm⟩

theorem life_of_ended {moves : List Move} {r : JobRow} (hr : r ∈ (ended moves).table.rows) :
    (tablesOf (seen Table.empty moves) (ended moves).table).life r.id = .live r :=
  life_of_table (Table.find_of_mem hr)

/-- The grave of a job is where its life ended. -/
theorem life_of_grave {log : List (Note Call JobRow.id)} {s : Server Call JobRow.id}
    (h : Underway log s) {d : DeadRow} (hd : d ∈ log.flatMap graves) :
    (tablesOf log s.table).life d.id = .buried d := by
  have hfind := Table.find?_of_nodup h.once hd
  unfold Db.life tablesOf
  dsimp only
  rw [(h.buried d hd).2, hfind]

/-! ## The attempts in every schedule -/

/-- The attempts of a job against the calls so far, and each delivery as it was handed out. -/
structure CountedIn (j : Int) (h : List (Call × Answer)) (l : Life) : Prop where
  counted : Counted j h l
  limit : l.DefaultMax
  few : deliveries j h ≤ 20
  past : ∀ (pre : List (Call × Answer)) (c : Call) (jobs : List Job)
    (post : List (Call × Answer)), h = pre ++ (c, .ok (.jobs jobs)) :: post →
      ∀ job ∈ jobs, job.id = j → job.attempts = deliveries j pre + 1

theorem countedIn_turn {j : Int} {h : List (Call × Answer)} {c : Call} {a : Answer} {l l' : Life}
    (ht : Turn j c a l l') (hc : CountedIn j h l) : CountedIn j (h ++ [(c, a)]) l' := by
  have hcounted := counted_turn ht hc.counted
  have hlimit := defaultMax_turn ht hc.limit
  refine ⟨hcounted, hlimit, few_of_turn ht hcounted hlimit hc.few, ?_⟩
  intro pre d jobs post hsplit job hjob hid
  rcases split_snoc hsplit with ⟨_, rfl, hlast⟩ | ⟨post', _, hold⟩
  · rw [Prod.mk.injEq] at hlast
    obtain ⟨rfl, rfl⟩ := hlast
    obtain ⟨r, rfl, hatt⟩ := delivered_turn ht hjob hid
    rw [hatt, hc.counted.1]
  · exact hc.past pre d jobs post' hold job hjob hid

theorem countedIn_passage {j : Int} {log : List (Note Call JobRow.id)}
    {o : Option (Note Call JobRow.id)} {l l' : Life} (hp : Passage j o l l')
    (hc : CountedIn j (log.filterMap told) l) :
    CountedIn j ((log ++ o.toList).filterMap told) l' := by
  rw [List.filterMap_append]
  cases hp with
  | quiet _ => simpa using hc
  | locks sid k _ =>
    rw [Option.toList_some, List.filterMap_cons_none rfl, List.filterMap_nil, List.append_nil]
    exact hc
  | spares _ hwrites hkept =>
    have hno := not_delivers_of_kept hwrites (fun h => hkept h)
    exact countedIn_turn (Turn.still l hno) hc
  | born kind payload run_at =>
    have hnone : deliveries j (log.filterMap told) = 0 := hc.counted
    rw [Option.toList_none, List.filterMap_nil, List.append_nil]
    refine ⟨?_, rfl, hc.few, hc.past⟩
    simp [Counted, hnone, newRow]
  | turns hid _ heffect =>
    subst hid
    exact countedIn_turn heffect.turn hc

theorem countedIn_seen (moves : List Move) (j : Int) :
    Underway (seen Table.empty moves) (ended moves) ∧ CountedIn j (toldIn moves)
      ((tablesOf (seen Table.empty moves) (ended moves).table).life j) := by
  apply schedule_induction (P := fun log l => CountedIn j (log.filterMap told) l)
  · exact ⟨rfl, trivial, Nat.zero_le 20, by simp⟩
  · exact fun log o l l' hp hc => countedIn_passage hp hc

/-- In every schedule of the steps of everybody, the attempts of a job are the claims that
committed with it so far, each delivery shows its own number, and no job is handed out more
often than its limit. -/
theorem attempts_count_in_every_schedule (moves : List Move) :
    (∀ r ∈ (ended moves).table.rows, r.attempts = deliveries r.id (toldIn moves) ∧
      r.attempts ≤ r.max_attempts ∧ (r.state = .ready → r.attempts < r.max_attempts)) ∧
    (∀ d ∈ (seen Table.empty moves).flatMap graves, d.attempts = deliveries d.id (toldIn moves) ∧
      d.attempts ≤ d.max_attempts) ∧
    (∀ (pre : List (Call × Answer)) (c : Call) (jobs : List Job) (post : List (Call × Answer)),
      toldIn moves = pre ++ (c, .ok (.jobs jobs)) :: post →
        ∀ job ∈ jobs, job.attempts = deliveries job.id pre + 1) ∧
    ∀ j, deliveries j (toldIn moves) ≤ 20 := by
  have hlaw := countedIn_seen moves
  refine ⟨?_, ?_, ?_, fun j => (hlaw j).2.few⟩
  · intro r hr
    have hc := (hlaw r.id).2.counted
    rwa [life_of_ended hr] at hc
  · intro d hd
    have hc := (hlaw d.id).2.counted
    rwa [life_of_grave (hlaw d.id).1 hd] at hc
  · intro pre c jobs post hsplit job hjob
    exact (hlaw job.id).2.past pre c jobs post hsplit job hjob rfl

/-! ## The owner in every schedule -/

/-- A commit that changes job `j`, and is no heartbeat of `w`. -/
def Interferes (w : Text) (j : Int) (n : Note Call JobRow.id) : Prop :=
  n.changes j ∧ ∀ sid st changes ids, n = .committed sid st changes →
    st.tag.op ≠ .heartbeat ids w

/-- The last claim of job `j` in the notes is one of `w`, and only heartbeats of `w` changed the
job since. The last of these commits was at time `t`. -/
structure ClaimedBy (w : Text) (t : Int) (j : Int) (log : List (Note Call JobRow.id)) : Prop where
  claim : ∃ pre sid st changes post, log = pre ++ .committed sid st changes :: post ∧
    st.tag.op.claimant = some w ∧ j ∈ (returned changes).map (·.id) ∧
    ∀ n ∈ post, ¬ Interferes w j n
  last : ∃ pre sid st changes post, log = pre ++ .committed sid st changes :: post ∧
    st.tag.now = t ∧ Note.changes j (.committed sid st changes) ∧ ∀ n ∈ post, ¬ n.changes j

/-- The lock fields of a row against the notes. -/
structure OwnedIn (j : Int) (log : List (Note Call JobRow.id)) (r : JobRow) : Prop where
  states : r.state = .ready ∨ r.state = .running ∨ r.state = .done
  free : r.state ≠ .running → r.locked_at = none ∧ r.locked_by = none
  owner : r.state = .running → ∃ w t, r.locked_by = some w ∧ r.locked_at = some t ∧
    ClaimedBy w t j log

def Life.OwnedIn (j : Int) (log : List (Note Call JobRow.id)) : Life → Prop
  | .live r => skip_locked.OwnedIn j log r
  | _ => True

/-- A note that does not change the job leaves its owner. -/
theorem ClaimedBy.spared {w : Text} {t j : Int} {log : List (Note Call JobRow.id)}
    (h : ClaimedBy w t j log) {n : Note Call JobRow.id} (hn : ¬ n.changes j) :
    ClaimedBy w t j (log ++ [n]) := by
  obtain ⟨⟨pre, sid, st, changes, post, rfl, hw, hj, hpost⟩, pre', sid', st', changes', post', hlog,
    ht, hch, hrest⟩ := h
  refine ⟨⟨pre, sid, st, changes, post ++ [n], by simp, hw, hj, ?_⟩,
    pre', sid', st', changes', post' ++ [n], by simp [hlog], ht, hch, ?_⟩
  · intro m hm
    rcases List.mem_append.mp hm with hm | hm
    · exact hpost m hm
    · obtain rfl := List.mem_singleton.mp hm
      exact fun hi => hn hi.1
  · intro m hm
    rcases List.mem_append.mp hm with hm | hm
    · exact hrest m hm
    · obtain rfl := List.mem_singleton.mp hm
      exact hn

theorem ownedIn_kept {j : Int} {log : List (Note Call JobRow.id)} {l : Life}
    (h : l.OwnedIn j log) {n : Note Call JobRow.id} (hn : ¬ n.changes j) :
    l.OwnedIn j (log ++ [n]) := by
  cases l with
  | live r =>
    obtain ⟨hstates, hfree, howner⟩ := h
    refine ⟨hstates, hfree, ?_⟩
    intro hrun
    obtain ⟨w, t, hby, hat, hclaimed⟩ := howner hrun
    exact ⟨w, t, hby, hat, hclaimed.spared hn⟩
  | _ => trivial

/-- A row that no worker holds. -/
theorem ownedIn_free {j : Int} {log : List (Note Call JobRow.id)} {r : JobRow}
    (hs : r.state = .ready ∨ r.state = .done) (ha : r.locked_at = none) (hb : r.locked_by = none) :
    OwnedIn j log r := by
  refine ⟨?_, fun _ => ⟨ha, hb⟩, ?_⟩
  · rcases hs with h | h
    · exact Or.inl h
    · exact Or.inr (Or.inr h)
  · intro hrun
    rw [hrun] at hs
    rcases hs with h | h <;> cases h

/-- A heartbeat of the owner is the last change of the job, and its claim stays the last one. -/
theorem ClaimedBy.beat {w : Text} {t j : Int} {log : List (Note Call JobRow.id)}
    (h : ClaimedBy w t j log) {sid : Nat} {st : Statement Call JobRow.id}
    {changes : List (JobRow × Option JobRow)} {ids : List Int}
    (hop : st.tag.op = .heartbeat ids w) (hch : Note.changes j (.committed sid st changes)) :
    ClaimedBy w st.tag.now j (log ++ [.committed sid st changes]) := by
  obtain ⟨⟨pre, sid', st', changes', post, rfl, hw, hj, hpost⟩, _⟩ := h
  refine ⟨⟨pre, sid', st', changes', post ++ [.committed sid st changes], by simp, hw, hj, ?_⟩,
    _, sid, st, changes, [], rfl, rfl, hch, fun n hn => nomatch hn⟩
  intro m hm
  rcases List.mem_append.mp hm with hm | hm
  · exact hpost m hm
  · obtain rfl := List.mem_singleton.mp hm
    exact fun hi => hi.2 _ _ _ ids rfl hop

theorem jobs_of_answer {c : Call} {changes : List (JobRow × Option JobRow)} {jobs : List Job}
    (h : answerOf c changes = .ok (.jobs jobs)) : jobs = returned changes := by
  unfold answerOf at h
  split at h
  · cases h
    rfl
  · cases h
    rfl
  · cases h
  · cases h

theorem ownedIn_effect {log : List (Note Call JobRow.id)} {sid : Nat}
    {st : Statement Call JobRow.id} {changes : List (JobRow × Option JobRow)} {r : JobRow}
    {l : Life}
    (hch : Note.changes r.id (.committed sid st changes))
    (he : Effect st.tag r (answerOf st.tag changes) l) (h : OwnedIn r.id log r) :
    l.OwnedIn r.id (log ++ [.committed sid st changes]) := by
  generalize ha : answerOf st.tag changes = a at he
  cases he with
  | @claimed w jobs hw _ _ hj _ =>
    have hreturned : r.id ∈ (returned changes).map (·.id) := jobs_of_answer ha ▸ hj
    refine ⟨Or.inr (Or.inl rfl), fun hno => absurd rfl hno, ?_⟩
    intro _
    refine ⟨w, st.tag.now, rfl, rfl, ?_, ?_⟩
    · exact ⟨_, sid, st, changes, [], rfl, hw, hreturned, fun n hn => nomatch hn⟩
    · exact ⟨_, sid, st, changes, [], rfl, rfl, hch, fun n hn => nomatch hn⟩
  | beat hop hheld =>
    obtain ⟨_, hby, hrun⟩ := held_iff.mp hheld
    obtain ⟨w, t, hby', _, hclaimed⟩ := h.owner hrun
    rw [hby, Option.some.injEq] at hby'
    subst hby'
    refine ⟨h.states, fun hno => absurd hrun hno, ?_⟩
    intro _
    exact ⟨_, _, hby, rfl, hclaimed.beat hop hch⟩
  | finished _ => exact ownedIn_free (Or.inr rfl) rfl rfl
  | requeued _ _ _ => exact ownedIn_free (Or.inl rfl) rfl rfl
  | died _ => trivial
  | reaped _ _ _ => exact ownedIn_free (Or.inl rfl) rfl rfl

/-- In every schedule of the steps of everybody, the lock fields of a row are in step with its
state, and a running row belongs to the last claim that returned it: `locked_by` is its
worker, only heartbeats of that worker changed the row since, and `locked_at` is the time of
the last of these. -/
theorem a_running_job_belongs_to_its_last_claim (moves : List Move) :
    ∀ r ∈ (ended moves).table.rows, OwnedIn r.id (seen Table.empty moves) r := by
  intro r hr
  have hlaw : (Life.live r).OwnedIn r.id (seen Table.empty moves) := by
    rw [← life_of_ended hr]
    apply (schedule_induction (P := fun log l => l.OwnedIn r.id log) trivial ?_ moves).2
    intro log o l l' hp ho
    cases hp with
    | quiet _ => simpa using ho
    | locks sid k _ => exact ownedIn_kept ho id
    | spares _ _ hkept => exact ownedIn_kept ho hkept
    | born kind payload run_at => exact ownedIn_free (Or.inl rfl) rfl rfl
    | turns hid hch he =>
      rw [← hid] at hch ho ⊢
      exact ownedIn_effect hch he ho
  exact hlaw

/-- A worker claims a new job, and beats for it once. -/
def oneBeat : List Move :=
  [.enqueued 1 "k" .null 0, .call ⟨5, .claim_batch ["k"] 1 "a" .alone⟩, .visit 0, .commit 0,
    .call ⟨7, .heartbeat [1] "a"⟩, .visit 1, .commit 1]

theorem a_beaten_job_belongs_to_a :
    OwnedIn 1 (seen Table.empty oneBeat)
      (setLockedAt 7 (setRunning 5 "a" (newRow 1 "k" .null 0))) :=
  a_running_job_belongs_to_its_last_claim oneBeat _ (List.mem_singleton.mpr rfl)

end skip_locked
