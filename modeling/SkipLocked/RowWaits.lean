-- Who waits for whom among the statements that lock rows. A statement that skips
-- locked rows never waits, and one that asks for a single row holds nothing
-- while it waits. So one wide statement at a time cannot be in a circle.
import SkipLocked.RowLocks

open keyed_table event_runs

namespace row_locks

variable {ρ κ τ : Type} [DecidableEq κ] {key : ρ → κ}

/-! ## The keys that a session asks for -/

/-- The keys that a session holds or still visits are keys of rows that its statement wanted,
and each is one or the other. -/
structure Asks (x : Session τ key) : Prop where
  wanted : ∀ k ∈ x.todo ++ x.held, ∃ r, x.st.wants r = true ∧ key r = k
  once : (x.todo ++ x.held).Nodup

def AllAsk (s : Server τ key) : Prop := ∀ x ∈ s.sessions.rows, Asks x

omit [DecidableEq κ] in
theorem allAsk_rest (table : Table key) : AllAsk (Server.rest τ table) := by
  intro x hx
  cases hx

omit [DecidableEq κ] in
theorem asks_start (s : Server τ key) (st : Statement τ key) : Asks (s.newSession st) := by
  have hperm := (st.order_perm (s.table.rows.filter st.wants)).map key
  refine ⟨?_, ?_⟩
  · intro k hk
    have hk : k ∈ (st.order (s.table.rows.filter st.wants)).map key := by
      simpa [Server.newSession] using hk
    obtain ⟨r, hr, rfl⟩ := List.mem_map.mp (hperm.mem_iff.mp hk)
    exact ⟨r, (List.mem_filter.mp hr).2, rfl⟩
  · have hnodup : ((s.table.rows.filter st.wants).map key).Nodup :=
      s.table.pk.sublist (List.filter_sublist.map key)
    simpa [Server.newSession] using hperm.nodup_iff.mpr hnodup

omit [DecidableEq κ] in
theorem asks_pass {x : Session τ key} (h : Asks x) {k : κ} {rest : List κ}
    (htodo : x.todo = k :: rest) : Asks (x.pass rest) := by
  obtain ⟨hwanted, honce⟩ := h
  rw [htodo] at hwanted honce
  exact ⟨fun m hm => hwanted m (List.mem_cons_of_mem k hm), (List.nodup_cons.mp honce).2⟩

omit [DecidableEq κ] in
theorem asks_lock {x : Session τ key} (h : Asks x) {k : κ} {r : ρ} {rest : List κ}
    (htodo : x.todo = k :: rest) : Asks (x.lock k r rest) := by
  have hperm : (rest ++ k :: x.held).Perm (x.todo ++ x.held) := by
    rw [htodo]
    exact List.perm_middle
  exact ⟨fun m hm => h.wanted m (hperm.mem_iff.mp hm), hperm.nodup_iff.mpr h.once⟩

theorem allAsk_step {s : Server τ key} (h : AllAsk s) (e : Event τ key) : AllAsk (step s e).1 := by
  have hput : ∀ y : Session τ key, Asks y → AllAsk (s.put y) := by
    intro y hy x hx
    rcases Table.mem_put hx with rfl | ⟨hx, _⟩
    · exact hy
    · exact h x hx
  have hclose : ∀ sid, AllAsk (s.close sid) := fun sid x hx => h x (mem_close.mp hx).1
  have ha := step_acts s e
  generalize (step s e).1 = s' at ha ⊢
  generalize (step s e).2 = o at ha
  cases ha with
  | still => exact h
  | started hi =>
    intro x hx
    rw [Table.rows_insert hi] at hx
    rcases List.mem_cons.mp hx with rfl | hx
    · exact asks_start s _
    · exact h x hx
  | passed hx _ htodo _ => exact hput _ (asks_pass (h _ hx) htodo)
  | locked hx _ htodo _ _ => exact hput _ (asks_lock (h _ hx) htodo)
  | committed _ _ _ => exact hclose _
  | failed _ _ _ => exact hclose _
  | aborted sid => exact hclose sid
  | inserted _ _ => exact h

/-! ## The sessions that wait -/

/-- The session waits for a key that another holds. -/
def Session.Waits (s : Server τ key) (x : Session τ key) : Prop :=
  x.full = false ∧ x.st.skip = false ∧ ∃ k rest, x.todo = k :: rest ∧ s.lockedByOther x.sid k = true

/-- The statement waits for locks, and its rows may have more than one key. -/
def Statement.Wide (st : Statement τ key) : Prop :=
  st.skip = false ∧ ¬ ∃ k, ∀ r, st.wants r = true → key r = k

/-- The open wide statements are one at most. -/
def OneWide (s : Server τ key) : Prop :=
  ∀ x ∈ s.sessions.rows, ∀ y ∈ s.sessions.rows, x.st.Wide → y.st.Wide → x.sid = y.sid

omit [DecidableEq κ] in
/-- A statement about one key holds nothing while it has that key to visit. -/
theorem held_of_narrow {x : Session τ key} (h : Asks x)
    (hnarrow : ∃ k, ∀ r, x.st.wants r = true → key r = k) (htodo : x.todo ≠ []) : x.held = [] := by
  obtain ⟨k, hall⟩ := hnarrow
  have hkey : ∀ m ∈ x.todo ++ x.held, m = k := by
    intro m hm
    obtain ⟨r, hr, rfl⟩ := h.wanted m hm
    exact hall r hr
  obtain ⟨m, hm⟩ := List.exists_mem_of_ne_nil _ htodo
  apply List.eq_nil_iff_forall_not_mem.mpr
  intro n hn
  have hdisjoint := (List.nodup_append.mp h.once).2.2 m hm n hn
  rw [hkey m (List.mem_append_left _ hm), hkey n (List.mem_append_right _ hn)] at hdisjoint
  exact hdisjoint rfl

/-- Where at most one open statement is wide, some open session does not wait. -/
theorem somebody_moves {s : Server τ key} (h : AllAsk s) (hone : OneWide s)
    (hopen : s.sessions.rows ≠ []) : ∃ x ∈ s.sessions.rows, ¬ x.Waits s := by
  by_contra hall
  push Not at hall
  -- whoever holds a key waits as well, and so its statement is wide
  have hholder : ∀ x ∈ s.sessions.rows, ∃ y ∈ s.sessions.rows, y.sid ≠ x.sid ∧ y.st.Wide := by
    intro x hx
    obtain ⟨_, _, k, rest, _, hlock⟩ := hall x hx
    unfold Server.lockedByOther at hlock
    obtain ⟨y, hy, hyk⟩ := List.any_eq_true.mp hlock
    simp only [Bool.and_eq_true, decide_eq_true_eq] at hyk
    obtain ⟨_, hskip, m, rest', htodo, _⟩ := hall y hy
    refine ⟨y, hy, hyk.1, hskip, fun hnarrow => ?_⟩
    have hnone := held_of_narrow (h y hy) hnarrow (by simp [htodo])
    rw [hnone] at hyk
    cases hyk.2
  obtain ⟨x, hx⟩ := List.exists_mem_of_ne_nil _ hopen
  obtain ⟨y, hy, _, hwide⟩ := hholder x hx
  obtain ⟨z, hz, hne, hwide'⟩ := hholder y hy
  exact hne (hone z hz y hy hwide' hwide)

/-! ## The open sessions can finish -/

/-- The visits and commits that are left. -/
def Server.work (s : Server τ key) : Nat := (s.sessions.rows.map (fun x => x.todo.length + 1)).sum

/-- A visit or a commit. -/
def Event.Ahead : Event τ key → Prop
  | .visit _ => True
  | .commit _ => True
  | _ => False

omit [DecidableEq κ] in
theorem work_put {s : Server τ key} {x y : Session τ key} (hx : x ∈ s.sessions.rows)
    (hsid : y.sid = x.sid) :
    (s.put y).work + (x.todo.length + 1) = s.work + (y.todo.length + 1) := by
  have hfind : s.sessions.find y.sid = some x := hsid ▸ Table.find_of_mem hx
  have hsum := Table.sum_update_key hfind (fun z => if z.sid = y.sid then y else z)
    (by intro z; split <;> simp_all) (fun z => z.todo.length + 1)
  rw [if_pos hsid.symm] at hsum
  exact hsum

omit [DecidableEq κ] in
theorem work_close {s : Server τ key} {x : Session τ key} (hx : x ∈ s.sessions.rows) :
    (s.close x.sid).work + (x.todo.length + 1) = s.work :=
  Table.sum_delete_key (Table.find_of_mem hx) (fun x => x.todo.length + 1)

theorem step_visit {s : Server τ key} {x : Session τ key} (hx : x ∈ s.sessions.rows) :
    step s (.visit x.sid) = visitIn s x := by
  unfold step
  dsimp only
  rw [Table.find_of_mem hx]

/-- A visit of a session that is not through and does not wait takes a key off its list. -/
theorem visit_moves {s : Server τ key} {x : Session τ key} (hno : ¬ x.Waits s)
    (hfull : x.full = false) {k : κ} {rest : List κ} (htodo : x.todo = k :: rest) :
    ∃ y : Session τ key,
      (visitIn s x).1 = s.put y ∧ y.sid = x.sid ∧ y.st = x.st ∧ y.todo = rest := by
  unfold visitIn
  rw [hfull, if_neg Bool.false_ne_true, htodo]
  dsimp only
  split
  · rename_i hlock
    split
    · exact ⟨x.pass rest, rfl, rfl, rfl, rfl⟩
    · rename_i hskip
      exact absurd ⟨hfull, by simpa using hskip, k, rest, htodo, hlock⟩ hno
  · split
    · exact ⟨x.pass rest, rfl, rfl, rfl, rfl⟩
    · exact ⟨x.lock k _ rest, rfl, rfl, rfl, rfl⟩

/-- The commit of a session that is through closes it, and it fails or goes through. -/
theorem commit_closes {s : Server τ key} {x : Session τ key} (hx : x ∈ s.sessions.rows)
    (hdone : x.Through) : (step s (.commit x.sid)).1.sessions = (s.close x.sid).sessions := by
  unfold step
  dsimp only
  rw [Table.find_of_mem hx]
  dsimp only
  unfold commitIn
  rw [if_pos (show x.todo = [] ∨ x.full = true from hdone)]
  split
  · rfl
  · rfl

/-- A session that does not wait has a step that lowers the work. -/
theorem work_falls {s : Server τ key} {x : Session τ key} (hx : x ∈ s.sessions.rows)
    (hno : ¬ x.Waits s) : ∃ e : Event τ key, e.Ahead ∧ (step s e).1.work < s.work := by
  by_cases hdone : x.Through
  · refine ⟨.commit x.sid, trivial, ?_⟩
    have hclose := work_close hx
    have hsame : (step s (.commit x.sid)).1.work = (s.close x.sid).work := by
      unfold Server.work
      rw [commit_closes hx hdone]
    omega
  · obtain ⟨htodo, hfull⟩ := not_or.mp hdone
    obtain ⟨k, rest, htodo⟩ := List.exists_cons_of_ne_nil htodo
    obtain ⟨y, hy, hsid, _, hrest⟩ := visit_moves hno (by simpa using hfull) htodo
    refine ⟨.visit x.sid, trivial, ?_⟩
    have hput := work_put hx hsid
    rw [step_visit hx, hy]
    rw [htodo, hrest, List.length_cons] at hput
    omega

theorem oneWide_step {s : Server τ key} (h : OneWide s) {e : Event τ key} (he : e.Ahead) :
    OneWide (step s e).1 := by
  have hold : ∀ x ∈ (step s e).1.sessions.rows,
      ∃ y ∈ s.sessions.rows, x.sid = y.sid ∧ x.st = y.st := by
    intro x hx
    rcases rows_acts (step_acts s e) hx with hold | ⟨st, rfl, _⟩
    · exact hold
    · exact he.elim
  intro x hx y hy hwx hwy
  obtain ⟨x', hx', hsx, hstx⟩ := hold x hx
  obtain ⟨y', hy', hsy, hsty⟩ := hold y hy
  rw [hsx, hsy]
  exact h x' hx' y' hy' (hstx ▸ hwx) (hsty ▸ hwy)

/-- Where at most one open statement is wide, visits and commits alone close every session. -/
theorem everybody_finishes {s : Server τ key} (h : AllAsk s) (hone : OneWide s) :
    ∃ events : List (Event τ key), (∀ e ∈ events, e.Ahead) ∧ events.length ≤ s.work ∧
      (run step s events).sessions.rows = [] := by
  have hstep : ∀ t : Server τ key, AllAsk t ∧ OneWide t → ¬ t.sessions.rows = [] →
      ∃ e : Event τ key, e.Ahead ∧ (AllAsk (step t e).1 ∧ OneWide (step t e).1) ∧
        (step t e).1.work < t.work := by
    rintro t ⟨hall, hone⟩ hopen
    obtain ⟨x, hx, hno⟩ := somebody_moves hall hone hopen
    obtain ⟨e, he, hless⟩ := work_falls hx hno
    exact ⟨e, he, ⟨allAsk_step hall e, oneWide_step hone he⟩, hless⟩
  obtain ⟨events, hahead, hlen, _, hend⟩ := finishes hstep ⟨h, hone⟩
  exact ⟨events, hahead, hlen, hend⟩

/-! ## A session that skips locked rows -/

/-- The visits that a session has left until it is through. -/
def Session.left (x : Session τ key) : Nat := if x.full = true then 0 else x.todo.length

omit [DecidableEq κ] in
theorem left_eq_zero {x : Session τ key} : x.left = 0 ↔ x.Through := by
  unfold Session.left Session.Through
  by_cases hfull : x.full = true
  · simp [hfull]
  · simp [hfull]

def Event.visits (sid : Nat) : Event τ key → Bool
  | .visit i => decide (i = sid)
  | _ => false

/-- The event ends the session: its commit, or its crash. -/
def Event.Ends (sid : Nat) : Event τ key → Prop
  | .commit i => i = sid
  | .abort i => i = sid
  | _ => False

/-- The steps of the others leave a session as it is. -/
theorem session_kept {s : Server τ key} {x : Session τ key} (hx : x ∈ s.sessions.rows)
    {e : Event τ key} (hvisit : e.visits x.sid = false) (hends : ¬ e.Ends x.sid) :
    x ∈ (step s e).1.sessions.rows := by
  have ha := step_acts s e
  generalize (step s e).1 = s' at ha ⊢
  generalize (step s e).2 = o at ha
  have hother : ∀ {y : Session τ key}, Event.visits x.sid (.visit y.sid : Event τ key) = false →
      x.sid ≠ y.sid := by
    intro y hy he
    simp [Event.visits, he] at hy
  cases ha with
  | still => exact hx
  | started hi =>
    rw [Table.rows_insert hi]
    exact List.mem_cons_of_mem _ hx
  | passed _ _ _ _ => exact Table.mem_put_other hx (hother hvisit)
  | locked _ _ _ _ _ => exact Table.mem_put_other hx (hother hvisit)
  | committed _ _ _ => exact mem_close.mpr ⟨hx, fun he => hends he.symm⟩
  | failed _ _ _ => exact mem_close.mpr ⟨hx, fun he => hends he.symm⟩
  | aborted sid => exact mem_close.mpr ⟨hx, fun he => hends he.symm⟩
  | inserted _ _ => exact hx

/-- Each visit of a session that skips locked rows takes one off its visits. -/
theorem skipper_visits {s : Server τ key} {x : Session τ key} (hx : x ∈ s.sessions.rows)
    (hskip : x.st.skip = true) : ∃ y ∈ (step s (.visit x.sid)).1.sessions.rows,
      y.sid = x.sid ∧ y.st = x.st ∧ y.left ≤ x.left - 1 := by
  rw [step_visit hx]
  by_cases hdone : x.Through
  · have hstays : (visitIn s x).1 = s := by
      unfold visitIn
      split
      · rfl
      · rename_i hfull
        rw [hdone.resolve_right hfull]
    rw [hstays]
    exact ⟨x, hx, rfl, rfl, Nat.le_trans (Nat.le_of_eq (left_eq_zero.mpr hdone)) (Nat.zero_le _)⟩
  · obtain ⟨htodo, hfull⟩ := not_or.mp hdone
    obtain ⟨k, rest, htodo⟩ := List.exists_cons_of_ne_nil htodo
    have hno : ¬ x.Waits s := by
      rintro ⟨_, hplain, _⟩
      rw [hskip] at hplain
      cases hplain
    obtain ⟨y, hy, hsid, hst, hrest⟩ := visit_moves hno (by simpa using hfull) htodo
    refine ⟨y, hy ▸ Table.mem_put_self hx hsid.symm, hsid, hst, ?_⟩
    unfold Session.left
    rw [if_neg hfull, htodo, hrest, List.length_cons]
    split <;> omega

/-- Whatever the others do meanwhile, a session that skips locked rows is through after as many
visits as its snapshot has keys left. -/
theorem skipper_through {s : Server τ key} {x : Session τ key} (hx : x ∈ s.sessions.rows)
    (hskip : x.st.skip = true) {events : List (Event τ key)}
    (hopen : ∀ e ∈ events, ¬ e.Ends x.sid) (hmany : x.left ≤ events.countP (Event.visits x.sid)) :
    ∃ y ∈ (run step s events).sessions.rows, y.sid = x.sid ∧ y.st = x.st ∧ y.Through := by
  induction events generalizing s x with
  | nil =>
    rw [List.countP_nil, Nat.le_zero] at hmany
    exact ⟨x, hx, rfl, rfl, left_eq_zero.mp hmany⟩
  | cons e rest ih =>
    rw [List.countP_cons] at hmany
    have hrest : ∀ d ∈ rest, ¬ d.Ends x.sid := fun d hd => hopen d (List.mem_cons_of_mem e hd)
    by_cases hvisit : e.visits x.sid = true
    · obtain rfl : e = .visit x.sid := by
        cases e with
        | visit i => rw [decide_eq_true_eq.mp hvisit]
        | _ => cases hvisit
      obtain ⟨y, hy, hsid, hst, hleft⟩ := skipper_visits hx hskip
      rw [if_pos hvisit] at hmany
      obtain ⟨z, hz, hzsid, hzst, hdone⟩ := ih hy (hst ▸ hskip) (by rwa [hsid])
        (by rw [hsid]; omega)
      exact ⟨z, hz, hzsid.trans hsid, hzst.trans hst, hdone⟩
    · rw [if_neg hvisit] at hmany
      have hkept := session_kept hx (by simpa using hvisit) (hopen e List.mem_cons_self)
      exact ih hkept hskip hrest hmany

end row_locks
