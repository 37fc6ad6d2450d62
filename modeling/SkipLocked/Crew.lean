-- A crew of workers that empties a table: each worker calls a draining
-- statement again and again, and stops at its first empty answer. An answer
-- may be empty only because others hold the locks. The crew still leaves no
-- row behind.
import SkipLocked.RowLocks
import Mathlib.Data.List.Perm.Subperm

open keyed_table event_runs

namespace row_locks.crew

variable {ρ κ τ : Type} [DecidableEq κ] {key : ρ → κ}

/-! ## The crew -/

/-- A worker is between two calls, or in the call of a session. It stops when an answer is
empty, and it fails when its call does. -/
inductive Worker where
  | idle
  | busy (sid : Nat)
  | stopped
  | failed
deriving DecidableEq

structure Crew (τ : Type) (key : ρ → κ) where
  server : Server τ key
  workers : List Worker

/-- A worker calls a statement, or its session goes one step on. -/
inductive Turn (τ : Type) (key : ρ → κ) where
  | call (i : Nat) (st : Statement τ key)
  | visit (i : Nat)
  | commit (i : Nat)

/-- A call begins, or it is answered with the rows that it changed, before and after. -/
inductive Deal (ρ : Type) where
  | called
  | answered (changes : List (ρ × Option ρ))

def Crew.start (τ : Type) (table : Table key) (workers : Nat) : Crew τ key :=
  ⟨Server.rest τ table, List.replicate workers .idle⟩

def callIn (c : Crew τ key) (i : Nat) (st : Statement τ key) : Crew τ key × Option (Deal ρ) :=
  match c.workers[i]? with
  | some .idle =>
    ({ server := (row_locks.step c.server (.start st)).1,
       workers := c.workers.set i (.busy c.server.opened) }, some .called)
  | _ => (c, none)

def visitIn (c : Crew τ key) (i : Nat) : Crew τ key × Option (Deal ρ) :=
  match c.workers[i]? with
  | some (.busy sid) => ({ c with server := (row_locks.step c.server (.visit sid)).1 }, none)
  | _ => (c, none)

/-- The session of a worker commits. A session that is gone without a commit has failed. -/
def commitIn (c : Crew τ key) (i : Nat) : Crew τ key × Option (Deal ρ) :=
  match c.workers[i]? with
  | some (.busy sid) =>
    match c.server.sessions.find sid with
    | none => (c, none)
    | some x =>
      match row_locks.commitIn c.server x with
      | (server, some (.committed _ _ changes)) =>
        ({ server, workers := c.workers.set i (if changes.isEmpty then .stopped else .idle) },
          some (.answered changes))
      | (server, _) =>
        let gone := (server.sessions.find sid).isNone
        ({ server, workers := if gone then c.workers.set i .failed else c.workers }, none)
  | _ => (c, none)

def step (c : Crew τ key) : Turn τ key → Crew τ key × Option (Deal ρ)
  | .call i st => callIn c i st
  | .visit i => visitIn c i
  | .commit i => commitIn c i

def callOf : Option (Deal ρ) → Nat
  | some .called => 1
  | _ => 0

def answerOf : Option (Deal ρ) → List (List (ρ × Option ρ))
  | some (.answered changes) => [changes]
  | _ => []

/-- The number of calls in a history. -/
def made (h : List (Turn τ key × Option (Deal ρ))) : Nat := (h.map (fun x => callOf x.2)).sum

/-- The answers in a history, oldest first. -/
def answers (h : List (Turn τ key × Option (Deal ρ))) : List (List (ρ × Option ρ)) :=
  h.flatMap (fun x => answerOf x.2)

/-- All that a turn can do, when the number of the next session is free. -/
inductive Does (c : Crew τ key) : Turn τ key → Crew τ key → Option (Deal ρ) → Prop where
  | still (t : Turn τ key) : Does c t c none
  | called {i : Nat} {st : Statement τ key} {server : Server τ key} :
      c.workers[i]? = some .idle → Acts c.server (.start st) server none →
      c.server.newSession st ∈ server.sessions.rows →
      Does c (.call i st) { server, workers := c.workers.set i (.busy c.server.opened) }
        (some .called)
  | visited {i sid : Nat} {server : Server τ key} {o : Option (Note τ key)} :
      c.workers[i]? = some (.busy sid) → Acts c.server (.visit sid) server o →
      Does c (.visit i) { c with server } none
  | answered {i : Nat} {x : Session τ key} : c.workers[i]? = some (.busy x.sid) →
      x ∈ c.server.sessions.rows → x.Through →
      Does c (.commit i)
        { server := c.server.commit x, workers := c.workers.set i
            (if (changesOf c.server.table x).isEmpty then .stopped else .idle) }
        (some (.answered (changesOf c.server.table x)))
  | failed {i : Nat} {x : Session τ key} : c.workers[i]? = some (.busy x.sid) →
      x ∈ c.server.sessions.rows → (∃ d ∈ changesOf c.server.table x, x.st.fits d.1 = false) →
      Does c (.commit i) { server := c.server.close x.sid, workers := c.workers.set i .failed } none

theorem does_call {c : Crew τ key} (hfree : c.server.sessions.find c.server.opened = none)
    (i : Nat) (st : Statement τ key) : Does c (.call i st) (callIn c i st).1 (callIn c i st).2 := by
  unfold callIn
  split
  · rename_i hidle
    obtain ⟨sessions, hi⟩ := Table.insert_isSome (r := c.server.newSession st) hfree
    have hstart : (row_locks.step c.server (.start st)).1 =
        { c.server with sessions, opened := c.server.opened + 1 } := by
      show startIn c.server st = _
      unfold Server.newSession at hi
      simp only [startIn, hi]
    rw [hstart]
    refine Does.called hidle (Acts.started hi) ?_
    rw [Table.rows_insert hi]
    exact List.mem_cons_self
  · exact Does.still _

theorem does_visit (c : Crew τ key) (i : Nat) :
    Does c (.visit i) (visitIn c i).1 (visitIn c i).2 := by
  unfold visitIn
  split
  · rename_i hbusy
    exact Does.visited hbusy (step_acts c.server _)
  · exact Does.still _

theorem does_commit (c : Crew τ key) (i : Nat) :
    Does c (.commit i) (commitIn c i).1 (commitIn c i).2 := by
  unfold commitIn
  split
  · rename_i sid hbusy
    cases hf : c.server.sessions.find sid with
    | none => exact Does.still _
    | some x =>
      obtain rfl := Table.key_of_find hf
      have hx := Table.mem_of_find hf
      rcases commitIn_cases c.server x with h | ⟨hdone, _, h⟩ | ⟨_, hmisfit, h⟩
      · simp only [h, hf]
        exact Does.still _
      · simp only [h]
        exact Does.answered hbusy hx hdone
      · have hgone : (c.server.close x.sid).sessions.find x.sid = none := by
          unfold Server.close
          simp [hf]
        simp only [h, hgone]
        exact Does.failed hbusy hx hmisfit
  · exact Does.still _

/-- Every turn does one of these. -/
theorem step_does {c : Crew τ key} (hfree : c.server.sessions.find c.server.opened = none)
    (t : Turn τ key) : Does c t (step c t).1 (step c t).2 := by
  cases t with
  | call i st => exact does_call hfree i st
  | visit i => exact does_visit c i
  | commit i => exact does_commit c i

/-! ## Statements that drain a table -/

/-- The keys of the rows in some answers. -/
def keysOf (key : ρ → κ) (l : List (List (ρ × Option ρ))) : List κ :=
  l.flatten.map (fun d => key d.1)

section
variable (table : Table key) (el : ρ → Bool) (becomes : ρ → ρ → Prop)

/-- The statement drains the eligible rows of a table. It skips locked rows, and it takes one
at least of the rows that it finds. No such statement wants what a row becomes. -/
structure Drains (st : Statement τ key) : Prop where
  skip : st.skip = true
  limit : st.limit ≠ some 0
  picks : ∀ rows, rows ≠ [] → st.pick rows ≠ []
  wants : ∀ r ∈ table.rows, st.wants r = el r
  fits : ∀ r ∈ table.rows, el r = true → st.fits r = true
  writes : ∀ r ∈ table.rows, el r = true → ∃ r', st.write r = some r' ∧ becomes r r'
  leaves : ∀ r r', becomes r r' → st.wants r' = false

/-- The answers so far say which rows of the table `now` have changed, and how. -/
structure Answered (l : List (List (ρ × Option ρ))) (now : Table key) : Prop where
  once : (keysOf key l).Nodup
  kept : ∀ k, k ∉ keysOf key l → now.find k = table.find k
  changed : ∀ d ∈ l.flatten, table.find (key d.1) = some d.1 ∧ el d.1 = true ∧
    ∃ r', d.2 = some r' ∧ now.find (key d.1) = some r' ∧ becomes d.1 r'

/-- The row of `k` is eligible, and no answer has it. -/
def Waits (l : List (List (ρ × Option ρ))) (k : κ) : Prop :=
  k ∉ keysOf key l ∧ ∃ r, table.find k = some r ∧ el r = true

variable {table el becomes}

/-- A row that a draining statement wants is a row of the start, which waits. -/
theorem waits_of_wants {l : List (List (ρ × Option ρ))} {now : Table key}
    (h : Answered table el becomes l now) {st : Statement τ key}
    (hst : Drains table el becomes st) {k : κ} {r : ρ} (hf : now.find k = some r)
    (hw : st.wants r = true) : k ∉ keysOf key l ∧ table.find k = some r ∧ el r = true := by
  have hno : k ∉ keysOf key l := by
    intro hk
    obtain ⟨d, hd, rfl⟩ := List.mem_map.mp hk
    obtain ⟨_, _, r', _, hf', hbecomes⟩ := h.changed d hd
    rw [hf, Option.some.injEq] at hf'
    rw [hf', hst.leaves _ _ hbecomes] at hw
    cases hw
  have hf0 : table.find k = some r := (h.kept k hno).symm.trans hf
  exact ⟨hno, hf0, (hst.wants r (Table.mem_of_find hf0)).symm.trans hw⟩

/-- A row that waits is in the table as it was at the start, and a draining statement wants it. -/
theorem wants_of_waits {l : List (List (ρ × Option ρ))} {now : Table key}
    (h : Answered table el becomes l now) {k : κ} (hk : Waits table el l k) :
    ∃ r, now.find k = some r ∧ ∀ st : Statement τ key, Drains table el becomes st →
      st.wants r = true := by
  obtain ⟨hno, r, hf, hel⟩ := hk
  refine ⟨r, (h.kept k hno).trans hf, ?_⟩
  intro st hst
  rw [hst.wants r (Table.mem_of_find hf)]
  exact hel

variable (table el becomes)

/-- The server under draining statements: a session has found each row that it holds and
wants. -/
structure Orderly (l : List (List (ρ × Option ρ))) (s : Server τ key) : Prop where
  safe : ∃ log, Safe (fun _ => True) log s
  answered : Answered table el becomes l s.table
  drains : ∀ x ∈ s.sessions.rows, Drains table el becomes x.st
  fresh : ∀ x ∈ s.sessions.rows, x.sid < s.opened
  found : ∀ x ∈ s.sessions.rows, ∀ k ∈ x.held, ∀ r, s.table.find k = some r →
    x.st.wants r = true → r ∈ x.got

variable {table el becomes}

theorem orderly_rest : Orderly table el becomes [] (Server.rest τ table) where
  safe := ⟨[], safe_rest _ table⟩
  answered := ⟨List.nodup_nil, fun _ _ => rfl, fun _ hd => by cases hd⟩
  drains := fun _ hx => by cases hx
  fresh := fun _ hx => by cases hx
  found := fun _ hx => by cases hx

theorem orderly_free {l : List (List (ρ × Option ρ))} {s : Server τ key}
    (h : Orderly table el becomes l s) : s.sessions.find s.opened = none := by
  rw [Table.find_eq_none]
  intro hmem
  obtain ⟨x, hx, hsid⟩ := List.mem_map.mp hmem
  have := h.fresh x hx
  omega

theorem orderly_start {l : List (List (ρ × Option ρ))} {s s' : Server τ key}
    {st : Statement τ key} (h : Orderly table el becomes l s) (hst : Drains table el becomes st)
    (ha : Acts s (.start st) s' none) : Orderly table el becomes l s' := by
  obtain ⟨log, hlog⟩ := h.safe
  have hsafe := safe_acts hlog ha
  cases ha with
  | still => exact h
  | @started _ sessions hi =>
    have hrow : ∀ x ∈ sessions.rows, x = s.newSession st ∨ x ∈ s.sessions.rows := by
      intro x hx
      rw [Table.rows_insert hi] at hx
      exact List.mem_cons.mp hx
    refine ⟨⟨_, hsafe⟩, h.answered, ?_, ?_, ?_⟩
    · intro x hx
      rcases hrow x hx with rfl | hx
      · exact hst
      · exact h.drains x hx
    · intro x hx
      rcases hrow x hx with rfl | hx
      · exact Nat.lt_succ_self _
      · exact Nat.lt_succ_of_lt (h.fresh x hx)
    · intro x hx
      rcases hrow x hx with rfl | hx
      · intro k hk
        cases hk
      · exact h.found x hx

/-- A session that moves on, with each row found that it holds and wants. -/
theorem orderly_put {l : List (List (ρ × Option ρ))} {s : Server τ key} {x y : Session τ key}
    (h : Orderly table el becomes l s) (hx : x ∈ s.sessions.rows) (hsid : y.sid = x.sid)
    (hst : y.st = x.st) (hsafe : ∃ log, Safe (fun _ => True) log (s.put y))
    (hfound : ∀ k ∈ y.held, ∀ r, s.table.find k = some r → y.st.wants r = true → r ∈ y.got) :
    Orderly table el becomes l (s.put y) := by
  have hrow : ∀ z ∈ (s.put y).sessions.rows, z = y ∨ z ∈ s.sessions.rows :=
    fun z hz => (Table.mem_put hz).imp_right And.left
  refine ⟨hsafe, h.answered, ?_, ?_, ?_⟩
  · intro z hz
    rcases hrow z hz with rfl | hz
    · rw [hst]
      exact h.drains x hx
    · exact h.drains z hz
  · intro z hz
    rcases hrow z hz with rfl | hz
    · rw [hsid]
      exact h.fresh x hx
    · exact h.fresh z hz
  · intro z hz
    rcases hrow z hz with rfl | hz
    · exact hfound
    · exact h.found z hz

theorem orderly_visit {l : List (List (ρ × Option ρ))} {s s' : Server τ key} {sid : Nat}
    {o : Option (Note τ key)} (h : Orderly table el becomes l s) (ha : Acts s (.visit sid) s' o) :
    Orderly table el becomes l s' := by
  obtain ⟨log, hlog⟩ := h.safe
  have hsafe := safe_acts hlog ha
  cases ha with
  | still => exact h
  | @passed x k rest hx _ _ _ => exact orderly_put h hx rfl rfl ⟨_, hsafe⟩ (h.found x hx)
  | @locked x k r rest hx _ _ _ hf =>
    refine orderly_put h hx rfl rfl ⟨_, hsafe⟩ ?_
    intro k' hk' r' hf' hw
    have hw' : x.st.wants r' = true := hw
    rcases List.mem_cons.mp hk' with rfl | hk'
    · have hsame : r = r' := Option.some.inj (hf.symm.trans hf')
      subst hsame
      simp [Session.lock, hw']
    · have hold := h.found x hx k' hk' r' hf' hw'
      unfold Session.lock
      dsimp only
      split
      · exact List.mem_append_left _ hold
      · exact hold

/-- What a session of draining statements picks: rows that wait, as they were at the start. -/
theorem waits_of_change {l : List (List (ρ × Option ρ))} {s : Server τ key}
    (h : Orderly table el becomes l s) {x : Session τ key} (hx : x ∈ s.sessions.rows)
    {d : ρ × Option ρ} (hd : d ∈ changesOf s.table x) :
    key d.1 ∉ keysOf key l ∧ table.find (key d.1) = some d.1 ∧ el d.1 = true := by
  obtain ⟨log, hlog⟩ := h.safe
  obtain ⟨hmem, hpick, _⟩ := mem_changesOf.mp hd
  obtain ⟨_, r, hf, hw⟩ := picked hlog hx hpick
  obtain rfl : d.1 = r := Option.some.inj ((Table.find_of_mem hmem).symm.trans hf)
  exact waits_of_wants h.answered (h.drains x hx) hf hw

theorem changes_fit {l : List (List (ρ × Option ρ))} {s : Server τ key}
    (h : Orderly table el becomes l s) {x : Session τ key} (hx : x ∈ s.sessions.rows)
    {d : ρ × Option ρ} (hd : d ∈ changesOf s.table x) : x.st.fits d.1 = true := by
  obtain ⟨_, hf, hel⟩ := waits_of_change h hx hd
  exact (h.drains x hx).fits _ (Table.mem_of_find hf) hel

omit [DecidableEq κ] in
theorem keysOf_snoc (l : List (List (ρ × Option ρ))) (changes : List (ρ × Option ρ)) :
    keysOf key (l ++ [changes]) = keysOf key l ++ changes.map (fun d => key d.1) := by
  unfold keysOf
  simp

theorem answered_commit {l : List (List (ρ × Option ρ))} {s : Server τ key}
    (h : Orderly table el becomes l s) {x : Session τ key} (hx : x ∈ s.sessions.rows) :
    Answered table el becomes (l ++ [changesOf s.table x]) (s.commit x).table := by
  have hnew := fun d (hd : d ∈ changesOf s.table x) => waits_of_change h hx hd
  have hpick : ∀ k r, s.table.find k = some r → k ∈ x.st.pick x.got →
      (r, x.st.write r) ∈ changesOf s.table x ∧ key r = k := by
    intro k r hf hp
    have hrk := Table.key_of_find hf
    exact ⟨mem_changesOf.mpr ⟨Table.mem_of_find hf, hrk ▸ hp, rfl⟩, hrk⟩
  refine ⟨?_, ?_, ?_⟩
  · rw [keysOf_snoc, List.nodup_append]
    refine ⟨h.answered.once, ?_, ?_⟩
    · unfold changesOf
      rw [List.map_map]
      exact Table.matching_nodup s.table _
    · rintro k hk k' hk' rfl
      obtain ⟨d, hd, rfl⟩ := List.mem_map.mp hk'
      exact (hnew d hd).1 hk
  · intro k hk
    rw [keysOf_snoc, List.mem_append, not_or] at hk
    rw [← h.answered.kept k hk.1, find_commit]
    cases hf : s.table.find k with
    | none => rfl
    | some r =>
      rw [Option.bind_some, if_neg]
      intro hp
      obtain ⟨hd, hrk⟩ := hpick k r hf hp
      exact hk.2 (List.mem_map.mpr ⟨_, hd, hrk⟩)
  · intro d hd
    rw [List.flatten_concat, List.mem_append] at hd
    rw [find_commit]
    rcases hd with hd | hd
    · obtain ⟨hf0, hel, r', hd', hf, hbecomes⟩ := h.answered.changed d hd
      refine ⟨hf0, hel, r', hd', ?_, hbecomes⟩
      rw [hf, Option.bind_some, if_neg]
      intro hp
      obtain ⟨hagain, hrk⟩ := hpick _ _ hf hp
      have hno := (hnew _ hagain).1
      rw [hrk] at hno
      exact hno (List.mem_map_of_mem hd)
    · obtain ⟨_, hf0, hel⟩ := hnew d hd
      obtain ⟨hmem, hp, hd'⟩ := mem_changesOf.mp hd
      obtain ⟨r', hw, hbecomes⟩ := (h.drains x hx).writes _ (Table.mem_of_find hf0) hel
      refine ⟨hf0, hel, r', hd'.trans hw, ?_, hbecomes⟩
      rw [Table.find_of_mem hmem, Option.bind_some, if_pos hp]
      exact hw

theorem orderly_commit {l : List (List (ρ × Option ρ))} {s : Server τ key}
    (h : Orderly table el becomes l s) {x : Session τ key} (hx : x ∈ s.sessions.rows) :
    Orderly table el becomes (l ++ [changesOf s.table x]) (s.commit x) := by
  obtain ⟨log, hlog⟩ := h.safe
  refine ⟨⟨_, safe_commit hlog hx⟩, answered_commit h hx, ?_, ?_, ?_⟩
  · intro y hy
    exact h.drains y (mem_close.mp hy).1
  · intro y hy
    exact h.fresh y (mem_close.mp hy).1
  · intro y hy k hk r hf hw
    obtain ⟨hmem, hne⟩ := mem_close.mp hy
    rw [find_commit_other hlog hx hmem hne hk] at hf
    exact h.found y hmem k hk r hf hw

/-! ## No row is left alone -/

/-- An open session has still to visit the key, or it holds its lock. -/
def Covers (s : Server τ key) (k : κ) : Prop :=
  ∃ x ∈ s.sessions.rows, k ∈ x.todo ∨ k ∈ x.held

/-- The snapshot of a new call has each row that waits. -/
theorem covers_start {l : List (List (ρ × Option ρ))} {s s' : Server τ key}
    {st : Statement τ key} (h : Orderly table el becomes l s) (hst : Drains table el becomes st)
    (hnew : s.newSession st ∈ s'.sessions.rows) {k : κ} (hk : Waits table el l k) :
    Covers s' k := by
  obtain ⟨r, hf, hw⟩ := wants_of_waits h.answered hk
  refine ⟨s.newSession st, hnew, Or.inl ?_⟩
  unfold Server.newSession
  refine List.mem_map.mpr ⟨r, ?_, Table.key_of_find hf⟩
  rw [(st.order_perm _).mem_iff, List.mem_filter]
  exact ⟨Table.mem_of_find hf, hw st hst⟩

/-- A session that skips a key leaves it to the one that holds it. -/
theorem covers_visit {l : List (List (ρ × Option ρ))} {s s' : Server τ key} {sid : Nat}
    {o : Option (Note τ key)} (h : Orderly table el becomes l s) (ha : Acts s (.visit sid) s' o)
    {k : κ} (hk : Waits table el l k) (hc : Covers s k) : Covers s' k := by
  obtain ⟨z, hz, hzk⟩ := hc
  cases ha with
  | still => exact ⟨z, hz, hzk⟩
  | @passed x k' rest hx _ htodo hskip =>
    have hother : ∀ y ∈ s.sessions.rows, y.sid ≠ x.sid → y ∈ (s.put (x.pass rest)).sessions.rows :=
      fun y hy hne => Table.mem_put_other hy hne
    have hself : x.pass rest ∈ (s.put (x.pass rest)).sessions.rows := Table.mem_put_self hx rfl
    by_cases hzx : z.sid = x.sid
    · obtain rfl : z = x := Table.eq_of_key hz hx hzx
      rcases hzk with hzk | hzk
      · rw [htodo] at hzk
        rcases List.mem_cons.mp hzk with rfl | hzk
        · rcases hskip with ⟨hlock, _⟩ | hgone
          · obtain ⟨y, hy, hboth⟩ := List.any_eq_true.mp hlock
            rw [Bool.and_eq_true, decide_eq_true_eq, decide_eq_true_eq] at hboth
            exact ⟨y, hother y hy hboth.1, Or.inr hboth.2⟩
          · obtain ⟨hno, r, hf, _⟩ := hk
            rw [← h.answered.kept k hno, hgone] at hf
            cases hf
        · exact ⟨_, hself, Or.inl hzk⟩
      · exact ⟨_, hself, Or.inr hzk⟩
    · exact ⟨z, hother z hz hzx, hzk⟩
  | @locked x k' r rest hx _ htodo _ _ =>
    have hself : x.lock k' r rest ∈ (s.put (x.lock k' r rest)).sessions.rows :=
      Table.mem_put_self hx rfl
    by_cases hzx : z.sid = x.sid
    · obtain rfl : z = x := Table.eq_of_key hz hx hzx
      rcases hzk with hzk | hzk
      · rw [htodo] at hzk
        rcases List.mem_cons.mp hzk with rfl | hzk
        · exact ⟨_, hself, Or.inr List.mem_cons_self⟩
        · exact ⟨_, hself, Or.inl hzk⟩
      · exact ⟨_, hself, Or.inr (List.mem_cons_of_mem _ hzk)⟩
    · exact ⟨z, Table.mem_put_other hz hzx, hzk⟩

/-- A session with an empty answer covers no row that waits: it is through its keys, and it
holds no such row. -/
theorem not_covered_by_empty {l : List (List (ρ × Option ρ))} {s : Server τ key}
    (h : Orderly table el becomes l s) {x : Session τ key} (hx : x ∈ s.sessions.rows)
    (hdone : x.Through) (hnil : changesOf s.table x = []) {k : κ} (hk : Waits table el l k) :
    k ∉ x.todo ∧ k ∉ x.held := by
  have hst := h.drains x hx
  obtain ⟨log, hlog⟩ := h.safe
  have hgot : x.got = [] := by
    by_contra hne
    obtain ⟨k', hk'⟩ := List.exists_mem_of_ne_nil _ (hst.picks _ hne)
    obtain ⟨_, r, hf, _⟩ := picked hlog hx hk'
    have hd : (r, x.st.write r) ∈ changesOf s.table x :=
      mem_changesOf.mpr ⟨Table.mem_of_find hf, (Table.key_of_find hf).symm ▸ hk', rfl⟩
    rw [hnil] at hd
    cases hd
  obtain ⟨r, hf, hw⟩ := wants_of_waits h.answered hk
  refine ⟨?_, ?_⟩
  · rcases hdone with htodo | hfull
    · rw [htodo]
      simp
    · unfold Session.full at hfull
      rw [hgot] at hfull
      cases hlim : x.st.limit with
      | none => simp [hlim] at hfull
      | some n =>
        have hzero : n = 0 := by simpa [hlim] using hfull
        exact absurd (hzero ▸ hlim) hst.limit
  · intro hheld
    have hfound := h.found x hx k hheld r hf (hw x.st hst)
    rw [hgot] at hfound
    cases hfound

theorem covers_commit {l : List (List (ρ × Option ρ))} {s : Server τ key}
    (h : Orderly table el becomes l s) {x : Session τ key} (hx : x ∈ s.sessions.rows)
    (hdone : x.Through) (hnil : changesOf s.table x = []) {k : κ} (hk : Waits table el l k)
    (hc : Covers s k) : Covers (s.commit x) k := by
  obtain ⟨z, hz, hzk⟩ := hc
  obtain ⟨htodo, hheld⟩ := not_covered_by_empty h hx hdone hnil hk
  refine ⟨z, mem_close.mpr ⟨hz, ?_⟩, hzk⟩
  intro hzx
  obtain rfl : z = x := Table.eq_of_key hz hx hzx
  exact hzk.elim htodo hheld

/-! ## Every turn, and every run -/

theorem mem_set_of_ne {l : List Worker} {i : Nat} {a b : Worker} (w : Worker)
    (ha : l[i]? = some a) (hb : b ∈ l) (hne : b ≠ a) : b ∈ l.set i w := by
  obtain ⟨j, hj⟩ := List.mem_iff_getElem?.mp hb
  have hij : i ≠ j := by
    rintro rfl
    exact hne (Option.some.inj (hj.symm.trans ha))
  refine List.mem_iff_getElem?.mpr ⟨j, ?_⟩
  rw [List.getElem?_set_ne hij]
  exact hj

theorem mem_set_self {l : List Worker} {i : Nat} {a : Worker} (w : Worker)
    (ha : l[i]? = some a) : w ∈ l.set i w := by
  obtain ⟨hi, _⟩ := List.getElem?_eq_some_iff.mp ha
  exact List.mem_set hi w

/-- The workers that are not between two calls, when one of them changes. -/
theorem countP_set_add {l : List Worker} {i : Nat} {a : Worker} (p : Worker → Bool) (w : Worker)
    (ha : l[i]? = some a) :
    (l.set i w).countP p + (if p a then 1 else 0) = l.countP p + (if p w then 1 else 0) := by
  obtain ⟨hi, rfl⟩ := List.getElem?_eq_some_iff.mp ha
  have hpos : p l[i] = true → 0 < l.countP p := fun hp =>
    List.countP_pos_iff.mpr ⟨_, List.getElem_mem hi, hp⟩
  rw [List.countP_set hi]
  split
  · rename_i hp
    have := hpos hp
    omega
  · omega

variable (table el becomes)

/-- A crew of `n` workers after `m` calls, with the answers `l`. Each session has its worker.
Each row that waits is covered, or some worker will call again. A call was answered with
rows, or its worker is still in it, or has stopped after it. -/
structure Staffed (n m : Nat) (l : List (List (ρ × Option ρ))) (c : Crew τ key) : Prop where
  orderly : Orderly table el becomes l c.server
  manned : ∀ x ∈ c.server.sessions.rows, .busy x.sid ∈ c.workers
  covered : ∀ k, Waits table el l k → .idle ∈ c.workers ∨ Covers c.server k
  sound : .failed ∉ c.workers
  calls : m = l.countP (fun changes => !changes.isEmpty) +
    c.workers.countP (fun w => decide (w ≠ .idle))
  number : c.workers.length = n

variable {table el becomes}

theorem staffed_start {n : Nat} (hn : 0 < n) :
    Staffed table el becomes n 0 [] (Crew.start τ table n) where
  orderly := orderly_rest
  manned := fun _ hx => by cases hx
  covered := fun _ _ => Or.inl (List.mem_replicate.mpr ⟨by omega, rfl⟩)
  sound := by
    intro hmem
    have := (List.mem_replicate.mp hmem).2
    cases this
  calls := by simp [Crew.start, List.countP_replicate]
  number := List.length_replicate

theorem staffed_call {n m : Nat} {l : List (List (ρ × Option ρ))} {c : Crew τ key}
    (hs : Staffed table el becomes n m l c) {i : Nat} {st : Statement τ key}
    {server : Server τ key} (hst : Drains table el becomes st) (hidle : c.workers[i]? = some .idle)
    (ha : Acts c.server (.start st) server none)
    (hnew : c.server.newSession st ∈ server.sessions.rows) :
    Staffed table el becomes n (m + 1) l
      { server, workers := c.workers.set i (.busy c.server.opened) } := by
  refine ⟨orderly_start hs.orderly hst ha, ?_, ?_, ?_, ?_, ?_⟩
  · intro x hx
    rcases rows_acts ha hx with ⟨y, hy, hsid, _⟩ | ⟨st', _, rfl⟩
    · rw [hsid]
      exact mem_set_of_ne _ hidle (hs.manned y hy) (by simp)
    · exact mem_set_self _ hidle
  · intro k hk
    exact Or.inr (covers_start hs.orderly hst hnew hk)
  · intro hmem
    rcases List.mem_or_eq_of_mem_set hmem with hmem | he
    · exact hs.sound hmem
    · cases he
  · have hcount := countP_set_add (fun w => decide (w ≠ .idle)) (.busy c.server.opened) hidle
    have hcalls := hs.calls
    simp at hcount
    simp at hcalls ⊢
    omega
  · rw [List.length_set]
    exact hs.number

theorem staffed_visit {n m : Nat} {l : List (List (ρ × Option ρ))} {c : Crew τ key}
    (hs : Staffed table el becomes n m l c) {sid : Nat} {server : Server τ key}
    {o : Option (Note τ key)} (ha : Acts c.server (.visit sid) server o) :
    Staffed table el becomes n m l { c with server } := by
  refine ⟨orderly_visit hs.orderly ha, ?_, ?_, hs.sound, hs.calls, hs.number⟩
  · intro x hx
    rcases rows_acts ha hx with ⟨y, hy, hsid, _⟩ | ⟨st, he, _⟩
    · rw [hsid]
      exact hs.manned y hy
    · cases he
  · intro k hk
    exact (hs.covered k hk).imp_right (covers_visit hs.orderly ha hk)

/-- The commit of a session. An answer with rows leaves a worker that will call again, and an
empty one leaves no row that its session covered. -/
theorem staffed_commit {n m : Nat} {l : List (List (ρ × Option ρ))} {c : Crew τ key}
    (hs : Staffed table el becomes n m l c) {i : Nat} {x : Session τ key}
    (hbusy : c.workers[i]? = some (.busy x.sid)) (hx : x ∈ c.server.sessions.rows)
    (hdone : x.Through) :
    Staffed table el becomes n m (l ++ [changesOf c.server.table x])
      { server := c.server.commit x, workers := c.workers.set i
          (if (changesOf c.server.table x).isEmpty then .stopped else .idle) } := by
  refine ⟨orderly_commit hs.orderly hx, ?_, ?_, ?_, ?_, ?_⟩
  · intro y hy
    obtain ⟨hy, hne⟩ := mem_close.mp hy
    exact mem_set_of_ne _ hbusy (hs.manned y hy) (by simpa using hne)
  · intro k hk
    by_cases hnil : changesOf c.server.table x = []
    · have hk' : Waits table el l k := by
        obtain ⟨hno, hrow⟩ := hk
        rw [keysOf_snoc, hnil, List.map_nil, List.append_nil] at hno
        exact ⟨hno, hrow⟩
      rcases hs.covered k hk' with hidle | hcovers
      · exact Or.inl (mem_set_of_ne _ hbusy hidle (by simp))
      · exact Or.inr (covers_commit hs.orderly hx hdone hnil hk' hcovers)
    · left
      have hidle := mem_set_self .idle hbusy
      simpa [List.isEmpty_iff, hnil] using hidle
  · intro hmem
    rcases List.mem_or_eq_of_mem_set hmem with hmem | he
    · exact hs.sound hmem
    · split at he
      · cases he
      · cases he
  · have hcount := countP_set_add (fun w => decide (w ≠ .idle))
      (if (changesOf c.server.table x).isEmpty then .stopped else .idle) hbusy
    have hcalls := hs.calls
    by_cases hnil : (changesOf c.server.table x).isEmpty = true
    · simp [hnil] at hcount hcalls ⊢
      omega
    · simp [hnil] at hcount hcalls ⊢
      omega
  · rw [List.length_set]
    exact hs.number

theorem staffed_step {n m : Nat} {l : List (List (ρ × Option ρ))} {c : Crew τ key}
    (hs : Staffed table el becomes n m l c) {t : Turn τ key}
    (ht : ∀ i st, t = .call i st → Drains table el becomes st) :
    Staffed table el becomes n (m + callOf (step c t).2) (l ++ answerOf (step c t).2)
      (step c t).1 := by
  have hdoes := step_does (orderly_free hs.orderly) t
  generalize (step c t).1 = c' at hdoes
  generalize (step c t).2 = d at hdoes
  cases hdoes with
  | still => simpa [answerOf, callOf] using hs
  | @called i st server hidle ha hnew =>
    have hcall := staffed_call hs (ht i st rfl) hidle ha hnew
    simpa [answerOf, callOf] using hcall
  | visited _ ha =>
    have hvisit := staffed_visit hs ha
    simpa [answerOf, callOf] using hvisit
  | answered hbusy hx hdone => exact staffed_commit hs hbusy hx hdone
  | failed _ hx hmisfit =>
    -- the rows of a draining statement fit
    obtain ⟨d, hd, hno⟩ := hmisfit
    rw [changes_fit hs.orderly hx hd] at hno
    cases hno

theorem staffed_run {n : Nat} (hn : 0 < n) {turns : List (Turn τ key)}
    (hturns : ∀ i st, .call i st ∈ turns → Drains table el becomes st) :
    Staffed table el becomes n (made (trace step (Crew.start τ table n) turns))
      (answers (trace step (Crew.start τ table n) turns))
      (run step (Crew.start τ table n) turns) := by
  induction turns using List.reverseRecOn with
  | nil => exact staffed_start hn
  | append_singleton turns t ih =>
    have hs := ih (fun i st hmem => hturns i st (List.mem_append_left _ hmem))
    have hstep := staffed_step hs (t := t) (by
      rintro i st rfl
      exact hturns i st (by simp))
    rw [run_snoc, trace_snoc]
    unfold made answers at hstep ⊢
    rw [List.map_append, List.sum_append, List.flatMap_append]
    simpa using hstep

/-! ## What a crew has done -/

theorem countP_le_flatten {α : Type} (l : List (List α)) :
    l.countP (fun a => !a.isEmpty) ≤ l.flatten.length := by
  induction l with
  | nil => simp
  | cons a rest ih =>
    cases a with
    | nil => simpa using ih
    | cons x xs =>
      simp only [List.countP_cons, List.flatten_cons, List.length_append, List.length_cons,
        List.isEmpty_cons, Bool.not_false, if_true]
      omega

/-- Each answer with rows takes some of the eligible ones, and each worker gets one empty
answer at most. -/
theorem calls_le {n m : Nat} {l : List (List (ρ × Option ρ))} {c : Crew τ key}
    (hs : Staffed table el becomes n m l c) : m ≤ (table.rows.filter el).length + n := by
  have hkeys : (keysOf key l).Subperm ((table.rows.filter el).map key) := by
    refine List.Nodup.subperm hs.orderly.answered.once ?_
    intro k hk
    obtain ⟨d, hd, rfl⟩ := List.mem_map.mp hk
    obtain ⟨hf, hel, _⟩ := hs.orderly.answered.changed d hd
    exact List.mem_map_of_mem (List.mem_filter.mpr ⟨Table.mem_of_find hf, hel⟩)
  have hrows := hkeys.length_le
  unfold keysOf at hrows
  rw [List.length_map, List.length_map] at hrows
  have hfull := countP_le_flatten l
  have hworkers := List.countP_le_length (p := fun w => decide (w ≠ .idle)) (l := c.workers)
  have hcalls := hs.calls
  have hnumber := hs.number
  omega

/-- When all have stopped, no row waits. -/
theorem nothing_waits {n m : Nat} {l : List (List (ρ × Option ρ))} {c : Crew τ key}
    (hs : Staffed table el becomes n m l c) (hall : ∀ w ∈ c.workers, w = .stopped) (k : κ) :
    ¬ Waits table el l k := by
  intro hk
  rcases hs.covered k hk with hidle | ⟨x, hx, _⟩
  · cases hall _ hidle
  · cases hall _ (hs.manned x hx)

/-- Then each eligible row is in an answer, and the table has what became of it. -/
theorem emptied {n m : Nat} {l : List (List (ρ × Option ρ))} {c : Crew τ key}
    (hs : Staffed table el becomes n m l c) (hall : ∀ w ∈ c.workers, w = .stopped) {r : ρ}
    (hr : r ∈ table.rows) (hel : el r = true) :
    (keysOf key l).count (key r) = 1 ∧
      ∃ r', c.server.table.find (key r) = some r' ∧ becomes r r' := by
  have hanswered := hs.orderly.answered
  have hk : key r ∈ keysOf key l := by
    by_contra hno
    exact nothing_waits hs hall (key r) ⟨hno, r, Table.find_of_mem hr, hel⟩
  obtain ⟨d, hd, hdr⟩ := List.mem_map.mp hk
  obtain ⟨hf, _, r', _, hf', hbecomes⟩ := hanswered.changed d hd
  obtain rfl : d.1 = r := Table.eq_of_key (Table.mem_of_find hf) hr hdr
  exact ⟨List.count_eq_one_of_mem hanswered.once hk, r', hf', hbecomes⟩

/-- A key without an eligible row is in no answer, and it keeps its row. -/
theorem untouched {n m : Nat} {l : List (List (ρ × Option ρ))} {c : Crew τ key}
    (hs : Staffed table el becomes n m l c) {k : κ}
    (hel : ∀ r, table.find k = some r → el r = false) :
    (keysOf key l).count k = 0 ∧ c.server.table.find k = table.find k := by
  have hanswered := hs.orderly.answered
  have hno : k ∉ keysOf key l := by
    intro hk
    obtain ⟨d, hd, rfl⟩ := List.mem_map.mp hk
    obtain ⟨hf, hyes, _⟩ := hanswered.changed d hd
    rw [hel d.1 hf] at hyes
    cases hyes
  exact ⟨List.count_eq_zero.mpr hno, hanswered.kept k hno⟩

end

end row_locks.crew
