-- Statements that lock rows one by one, as READ COMMITTED runs them. A
-- statement takes a snapshot, visits the keys that its snapshot wants, skips a
-- key that another holds or waits for it, and looks again at the committed row
-- once it has the lock. It writes what it picked at its commit.
import SkipLocked.Table
import SkipLocked.Runs

open keyed_table event_runs

namespace row_locks

variable {ρ κ τ : Type} [DecidableEq κ]

/-! ## The server -/

/-- One statement in its own transaction. `write` is the row after an `UPDATE`, and none
after a `DELETE`. -/
structure Statement (τ : Type) (key : ρ → κ) where
  tag : τ
  skip : Bool
  wants : ρ → Bool
  order : List ρ → List ρ
  limit : Option Nat
  pick : List ρ → List κ
  fits : ρ → Bool
  write : ρ → Option ρ
  order_perm : ∀ l, (order l).Perm l
  pick_sub : ∀ l k, k ∈ pick l → k ∈ l.map key
  write_key : ∀ r r', write r = some r' → key r' = key r

/-- A statement on its way: the keys of its snapshot still to visit, the keys that it has
locked, and the rows that it found to match under the lock. -/
structure Session (τ : Type) (key : ρ → κ) where
  sid : Nat
  st : Statement τ key
  todo : List κ
  held : List κ
  got : List ρ

/-- The committed rows, the open sessions, the number of sessions so far, and every key that
was ever in the table. -/
structure Server (τ : Type) (key : ρ → κ) where
  table : Table key
  sessions : Table (@Session.sid ρ κ τ key)
  opened : Nat
  ever : List κ

inductive Event (τ : Type) (key : ρ → κ) where
  | start (st : Statement τ key)
  | visit (sid : Nat)
  | commit (sid : Nat)
  | abort (sid : Nat)
  | insert (r : ρ)

/-- What an event does that others can see: a lock, or a commit with each row that it
changed, before and after. -/
inductive Note (τ : Type) (key : ρ → κ) where
  | locked (sid : Nat) (k : κ)
  | committed (sid : Nat) (st : Statement τ key) (changes : List (ρ × Option ρ))

variable {key : ρ → κ}

/-- A server at rest. -/
def Server.rest (τ : Type) (table : Table key) : Server τ key :=
  { table, sessions := Table.empty, opened := 0, ever := table.rows.map key }

/-- The `LIMIT` is reached. -/
def Session.full (x : Session τ key) : Bool := x.st.limit.any (fun n => decide (n ≤ x.got.length))

/-- Another session holds the lock of `k`. -/
def Server.lockedByOther (s : Server τ key) (sid : Nat) (k : κ) : Bool :=
  s.sessions.rows.any (fun x => decide (x.sid ≠ sid) && decide (k ∈ x.held))

/-- The lock of `k`, and the second look at its row. -/
def Session.lock (x : Session τ key) (k : κ) (r : ρ) (rest : List κ) : Session τ key :=
  { x with todo := rest, held := k :: x.held, got := if x.st.wants r then x.got ++ [r] else x.got }

def Session.pass (x : Session τ key) (rest : List κ) : Session τ key := { x with todo := rest }

def Server.put (s : Server τ key) (x : Session τ key) : Server τ key :=
  { s with sessions := s.sessions.put x }

def Server.close (s : Server τ key) (sid : Nat) : Server τ key :=
  { s with sessions := s.sessions.delete (fun x => decide (x.sid = sid)) }

def startIn (s : Server τ key) (st : Statement τ key) : Server τ key :=
  let x : Session τ key :=
    { sid := s.opened, st, todo := (st.order (s.table.rows.filter st.wants)).map key,
      held := [], got := [] }
  match s.sessions.insert x with
  | none => s
  | some sessions => { s with sessions, opened := s.opened + 1 }

/-- A session visits its next key. A key that another holds is skipped, or waited for; a
row that is gone is skipped. -/
def visitIn (s : Server τ key) (x : Session τ key) : Server τ key × Option (Note τ key) :=
  if x.full then (s, none)
  else
    match x.todo with
    | [] => (s, none)
    | k :: rest =>
      if s.lockedByOther x.sid k then
        if x.st.skip then (s.put (x.pass rest), none) else (s, none)
      else
        match s.table.find k with
        | none => (s.put (x.pass rest), none)
        | some r => (s.put (x.lock k r rest), some (.locked x.sid k))

/-- The rows that a session picked, before and after its statement. -/
def changesOf (table : Table key) (x : Session τ key) : List (ρ × Option ρ) :=
  (table.matching (fun r => decide (key r ∈ x.st.pick x.got))).map (fun r => (r, x.st.write r))

/-- A session that is through its keys writes what it picked. When a row does not fit, the
statement fails instead. -/
def commitIn (s : Server τ key) (x : Session τ key) : Server τ key × Option (Note τ key) :=
  if x.todo = [] ∨ x.full = true then
    if (changesOf s.table x).all (fun c => x.st.fits c.1) then
      let table := s.table.rewrite (x.st.pick x.got) x.st.write x.st.write_key
      ({ s.close x.sid with table }, some (.committed x.sid x.st (changesOf s.table x)))
    else (s.close x.sid, none)
  else (s, none)

/-- A key is given out once: an insert of an old key does nothing. -/
def insertIn (s : Server τ key) (r : ρ) : Server τ key :=
  if key r ∈ s.ever then s
  else
    match s.table.insert r with
    | none => s
    | some table => { s with table, ever := key r :: s.ever }

def step (s : Server τ key) : Event τ key → Server τ key × Option (Note τ key)
  | .start st => (startIn s st, none)
  | .visit sid =>
    match s.sessions.find sid with
    | none => (s, none)
    | some x => visitIn s x
  | .commit sid =>
    match s.sessions.find sid with
    | none => (s, none)
    | some x => commitIn s x
  | .abort sid => (s.close sid, none)
  | .insert r => (insertIn s r, none)

/-- The notes of a run, oldest first. -/
def notes (s : Server τ key) (events : List (Event τ key)) : List (Note τ key) :=
  (trace step s events).filterMap Prod.snd

/-! ## What an event does -/

/-- The session of a statement that starts now. -/
def Server.newSession (s : Server τ key) (st : Statement τ key) : Session τ key :=
  { sid := s.opened, st, todo := (st.order (s.table.rows.filter st.wants)).map key,
    held := [], got := [] }

/-- The session is through its keys, or at its limit. -/
def Session.Through (x : Session τ key) : Prop := x.todo = [] ∨ x.full = true

/-- The server after the commit of a session. -/
def Server.commit (s : Server τ key) (x : Session τ key) : Server τ key :=
  { s.close x.sid with table := s.table.rewrite (x.st.pick x.got) x.st.write x.st.write_key }

theorem find_commit (s : Server τ key) (x : Session τ key) (k : κ) :
    (s.commit x).table.find k =
      (s.table.find k).bind (fun r => if k ∈ x.st.pick x.got then x.st.write r else some r) :=
  @Table.find_rewrite _ _ _ _ s.table (x.st.pick x.got) x.st.write x.st.write_key k

omit [DecidableEq κ] in
theorem mem_close {s : Server τ key} {sid : Nat} {y : Session τ key} :
    y ∈ (s.close sid).sessions.rows ↔ y ∈ s.sessions.rows ∧ y.sid ≠ sid := by
  unfold Server.close Table.delete
  simp [List.mem_filter]

/-- All that an event can do. -/
inductive Acts (s : Server τ key) : Event τ key → Server τ key → Option (Note τ key) → Prop where
  | still (e : Event τ key) : Acts s e s none
  | started {st : Statement τ key} {sessions : Table (@Session.sid ρ κ τ key)} :
      s.sessions.insert (s.newSession st) = some sessions →
      Acts s (.start st) { s with sessions, opened := s.opened + 1 } none
  | passed {x : Session τ key} {k : κ} {rest : List κ} : x ∈ s.sessions.rows → x.full = false →
      x.todo = k :: rest →
      (s.lockedByOther x.sid k = true ∧ x.st.skip = true) ∨ s.table.find k = none →
      Acts s (.visit x.sid) (s.put (x.pass rest)) none
  | locked {x : Session τ key} {k : κ} {r : ρ} {rest : List κ} : x ∈ s.sessions.rows →
      x.full = false → x.todo = k :: rest → s.lockedByOther x.sid k = false →
      s.table.find k = some r →
      Acts s (.visit x.sid) (s.put (x.lock k r rest)) (some (.locked x.sid k))
  | committed {x : Session τ key} : x ∈ s.sessions.rows → x.Through →
      (∀ c ∈ changesOf s.table x, x.st.fits c.1 = true) →
      Acts s (.commit x.sid) (s.commit x) (some (.committed x.sid x.st (changesOf s.table x)))
  | failed {x : Session τ key} : x ∈ s.sessions.rows → x.Through →
      (∃ c ∈ changesOf s.table x, x.st.fits c.1 = false) →
      Acts s (.commit x.sid) (s.close x.sid) none
  | aborted (sid : Nat) : Acts s (.abort sid) (s.close sid) none
  | inserted {r : ρ} {table : Table key} : key r ∉ s.ever → s.table.insert r = some table →
      Acts s (.insert r) { s with table, ever := key r :: s.ever } none

theorem acts_visit {s : Server τ key} {x : Session τ key} (hx : x ∈ s.sessions.rows) :
    Acts s (.visit x.sid) (visitIn s x).1 (visitIn s x).2 := by
  unfold visitIn
  split
  · exact Acts.still _
  rename_i hfull
  have hfull : x.full = false := by simpa using hfull
  split
  · exact Acts.still _
  rename_i k rest htodo
  split
  · rename_i hlock
    split
    · rename_i hskip
      exact Acts.passed hx hfull htodo (Or.inl ⟨hlock, hskip⟩)
    · exact Acts.still _
  rename_i hfree
  split
  · rename_i hgone
    exact Acts.passed hx hfull htodo (Or.inr hgone)
  · rename_i r hf
    exact Acts.locked hx hfull htodo (by simpa using hfree) hf

/-- A session that is through commits, or it fails when a row does not fit. -/
theorem commitIn_cases (s : Server τ key) (x : Session τ key) :
    commitIn s x = (s, none) ∨
    (x.Through ∧ (∀ c ∈ changesOf s.table x, x.st.fits c.1 = true) ∧
      commitIn s x = (s.commit x, some (.committed x.sid x.st (changesOf s.table x)))) ∨
    (x.Through ∧ (∃ c ∈ changesOf s.table x, x.st.fits c.1 = false) ∧
      commitIn s x = (s.close x.sid, none)) := by
  unfold commitIn
  split
  · rename_i hdone
    split
    · rename_i hfits
      exact Or.inr (Or.inl ⟨hdone, List.all_eq_true.mp hfits, rfl⟩)
    · rename_i hmisfit
      exact Or.inr (Or.inr ⟨hdone, by simpa using hmisfit, rfl⟩)
  · exact Or.inl rfl

theorem acts_commit {s : Server τ key} {x : Session τ key} (hx : x ∈ s.sessions.rows) :
    Acts s (.commit x.sid) (commitIn s x).1 (commitIn s x).2 := by
  rcases commitIn_cases s x with h | ⟨hdone, hfits, h⟩ | ⟨hdone, hmisfit, h⟩
  · rw [h]
    exact Acts.still _
  · rw [h]
    exact Acts.committed hx hdone hfits
  · rw [h]
    exact Acts.failed hx hdone hmisfit

/-- Every event does one of these. -/
theorem step_acts (s : Server τ key) (e : Event τ key) : Acts s e (step s e).1 (step s e).2 := by
  cases e with
  | start st =>
    dsimp only [step, startIn]
    split
    · exact Acts.still _
    · rename_i sessions hi
      exact Acts.started hi
  | visit sid =>
    dsimp only [step]
    cases hf : s.sessions.find sid with
    | none => exact Acts.still _
    | some x =>
      obtain rfl := Table.key_of_find hf
      exact acts_visit (Table.mem_of_find hf)
  | commit sid =>
    dsimp only [step]
    cases hf : s.sessions.find sid with
    | none => exact Acts.still _
    | some x =>
      obtain rfl := Table.key_of_find hf
      exact acts_commit (Table.mem_of_find hf)
  | abort sid => exact Acts.aborted sid
  | insert r =>
    dsimp only [step, insertIn]
    split
    · exact Acts.still _
    rename_i hnew
    split
    · exact Acts.still _
    · rename_i table hi
      exact Acts.inserted hnew hi

/-- A session after an event was there before, with its statement, or it is new. -/
theorem rows_acts {s s' : Server τ key} {e : Event τ key} {o : Option (Note τ key)}
    (ha : Acts s e s' o) {x' : Session τ key} (hx' : x' ∈ s'.sessions.rows) :
    (∃ x ∈ s.sessions.rows, x'.sid = x.sid ∧ x'.st = x.st) ∨
      ∃ st, e = .start st ∧ x' = s.newSession st := by
  have hput : ∀ x ∈ s.sessions.rows, ∀ y, y.sid = x.sid → y.st = x.st →
      x' ∈ (s.put y).sessions.rows → ∃ x ∈ s.sessions.rows, x'.sid = x.sid ∧ x'.st = x.st := by
    intro x hx y hsid hst hx'
    rcases Table.mem_put hx' with rfl | ⟨hx', _⟩
    · exact ⟨x, hx, hsid, hst⟩
    · exact ⟨x', hx', rfl, rfl⟩
  cases ha with
  | still => exact Or.inl ⟨x', hx', rfl, rfl⟩
  | started hi =>
    rw [Table.rows_insert hi] at hx'
    rcases List.mem_cons.mp hx' with rfl | hx'
    · exact Or.inr ⟨_, rfl, rfl⟩
    · exact Or.inl ⟨x', hx', rfl, rfl⟩
  | @passed x k rest hx _ _ _ => exact Or.inl (hput x hx (x.pass rest) rfl rfl hx')
  | @locked x k r rest hx _ _ _ _ => exact Or.inl (hput x hx (x.lock k r rest) rfl rfl hx')
  | committed _ _ _ => exact Or.inl ⟨x', (mem_close.mp hx').1, rfl, rfl⟩
  | failed _ _ _ => exact Or.inl ⟨x', (mem_close.mp hx').1, rfl, rfl⟩
  | aborted sid => exact Or.inl ⟨x', (mem_close.mp hx').1, rfl, rfl⟩
  | inserted _ _ => exact Or.inl ⟨x', hx', rfl, rfl⟩

/-! ## What a note says of one key -/

def Note.changes (k : κ) : Note τ key → Prop
  | .committed _ _ changes => ∃ c ∈ changes, key c.1 = k
  | _ => False

/-- The commit takes the row of `k`: it was available, and it is not any more. -/
def Note.takes (avail : ρ → Prop) (k : κ) : Note τ key → Prop
  | .committed _ _ changes =>
    ∃ c ∈ changes, key c.1 = k ∧ avail c.1 ∧ ∀ r', c.2 = some r' → ¬ avail r'
  | _ => False

/-- The commit makes the row of `k` available again. -/
def Note.revives (avail : ρ → Prop) (k : κ) : Note τ key → Prop
  | .committed _ _ changes =>
    ∃ c ∈ changes, key c.1 = k ∧ ¬ avail c.1 ∧ ∃ r', c.2 = some r' ∧ avail r'
  | _ => False

/-! ## The invariant -/

/-- Locks exclude each other, and a row that a session found is as it found it. No key that
is locked was changed since its lock. A row that was taken stays unavailable until a
commit revives it, and so the second of two commits that take it locked it after that. -/
structure Safe (avail : ρ → Prop) (log : List (Note τ key)) (s : Server τ key) : Prop where
  exclusive : ∀ x ∈ s.sessions.rows, ∀ y ∈ s.sessions.rows, ∀ k, k ∈ x.held → k ∈ y.held →
    x.sid = y.sid
  got : ∀ x ∈ s.sessions.rows, ∀ r ∈ x.got,
    key r ∈ x.held ∧ x.st.wants r = true ∧ s.table.find (key r) = some r
  locked : ∀ x ∈ s.sessions.rows, ∀ k ∈ x.held,
    ∃ p q, log = p ++ .locked x.sid k :: q ∧ ∀ n ∈ q, ¬ n.changes k
  keys : ∀ k, (s.table.find k).isSome → k ∈ s.ever
  used : ∀ n ∈ log, ∀ k, n.changes k → k ∈ s.ever
  spent : ∀ a n b k, log = a ++ n :: b → n.takes avail k → (∀ m ∈ b, ¬ m.revives avail k) →
    ∀ r, s.table.find k = some r → ¬ avail r
  law : ∀ a n b c sid st changes k, log = a ++ n :: (b ++ .committed sid st changes :: c) →
    n.takes avail k → Note.takes avail k (.committed sid st changes) →
    ∃ b1 m b2 b3, b = b1 ++ m :: (b2 ++ .locked sid k :: b3) ∧ m.revives avail k

/-- A split of a longer list is at its end, or a split of the list before. -/
theorem split_snoc {α : Type} {l a b : List α} {n m : α} (h : l ++ [n] = a ++ m :: b) :
    (b = [] ∧ a = l ∧ m = n) ∨ ∃ b', b = b' ++ [n] ∧ l = a ++ m :: b' := by
  rcases List.eq_nil_or_concat b with rfl | ⟨b', z, rfl⟩
  · obtain ⟨hl, hn⟩ := List.append_inj' h rfl
    exact Or.inl ⟨rfl, hl.symm, (List.cons.inj hn).1.symm⟩
  · rw [List.concat_eq_append, ← List.cons_append, ← List.append_assoc] at h
    obtain ⟨hl, hn⟩ := List.append_inj' h rfl
    refine Or.inr ⟨b', ?_, hl⟩
    rw [List.concat_eq_append, hn]

/-- The same for two places of the list. -/
theorem split_snoc_pair {α : Type} {l a b c : List α} {n m m' : α}
    (h : l ++ [n] = a ++ m :: (b ++ m' :: c)) :
    (m' = n ∧ l = a ++ m :: b) ∨ ∃ c', l = a ++ m :: (b ++ m' :: c') := by
  rw [← List.cons_append, ← List.append_assoc] at h
  rcases split_snoc h with ⟨_, hl, hn⟩ | ⟨c', _, hl⟩
  · exact Or.inl ⟨hn, hl.symm⟩
  · rw [List.append_assoc, List.cons_append] at hl
    exact Or.inr ⟨c', hl⟩

omit [DecidableEq κ] in
/-- A lock stays the last word on its key when a note comes that does not change the key. -/
theorem locked_snoc {log : List (Note τ key)} {sid : Nat} {k : κ} {n : Note τ key}
    (h : ∃ p q, log = p ++ .locked sid k :: q ∧ ∀ m ∈ q, ¬ m.changes k) (hn : ¬ n.changes k) :
    ∃ p q, log ++ [n] = p ++ .locked sid k :: q ∧ ∀ m ∈ q, ¬ m.changes k := by
  obtain ⟨p, q, rfl, hq⟩ := h
  refine ⟨p, q ++ [n], by simp, ?_⟩
  intro m hm
  rcases List.mem_append.mp hm with hm | hm
  · exact hq m hm
  · rw [List.mem_singleton.mp hm]
    exact hn

omit [DecidableEq κ] in
theorem takes_changes {avail : ρ → Prop} {k : κ} {n : Note τ key} (h : n.takes avail k) :
    n.changes k := by
  cases n with
  | locked sid k' => exact h
  | committed sid st changes =>
    obtain ⟨c, hc, hk, _⟩ := h
    exact ⟨c, hc, hk⟩

omit [DecidableEq κ] in
theorem revives_changes {avail : ρ → Prop} {k : κ} {n : Note τ key} (h : n.revives avail k) :
    n.changes k := by
  cases n with
  | locked sid k' => exact h
  | committed sid st changes =>
    obtain ⟨c, hc, hk, _⟩ := h
    exact ⟨c, hc, hk⟩

theorem safe_rest (avail : ρ → Prop) (table : Table key) :
    Safe avail [] (Server.rest τ table) := by
  refine ⟨?_, ?_, ?_, ?_, ?_, ?_, ?_⟩
  · intro x hx
    cases hx
  · intro x hx
    cases hx
  · intro x hx
    cases hx
  · intro k hk
    exact Table.find_isSome.mp hk
  · intro n hn
    cases hn
  · intro a n b k h
    simp at h
  · intro a n b c sid st changes k h
    simp at h

/-- Sessions that come with no lock, move on in their keys, or close: nothing else changes. -/
theorem safe_sessions {avail : ρ → Prop} {log : List (Note τ key)} {s s' : Server τ key}
    (h : Safe avail log s) (ht : s'.table = s.table) (he : s'.ever = s.ever)
    (hs : ∀ x' ∈ s'.sessions.rows, (x'.held = [] ∧ x'.got = []) ∨
      ∃ x ∈ s.sessions.rows, x'.sid = x.sid ∧ x'.st = x.st ∧ x'.held = x.held ∧ x'.got = x.got) :
    Safe avail log s' := by
  obtain ⟨h1, h2, h3, h4, h5, h6, h7⟩ := h
  refine ⟨?_, ?_, ?_, ?_, ?_, ?_, h7⟩
  · intro x' hx' y' hy' k hkx hky
    rcases hs x' hx' with ⟨hnil, _⟩ | ⟨x, hx, hxs, _, hxh, _⟩
    · rw [hnil] at hkx
      cases hkx
    rcases hs y' hy' with ⟨hnil, _⟩ | ⟨y, hy, hys, _, hyh, _⟩
    · rw [hnil] at hky
      cases hky
    rw [hxs, hys]
    exact h1 x hx y hy k (hxh ▸ hkx) (hyh ▸ hky)
  · intro x' hx' r hr
    rcases hs x' hx' with ⟨_, hnil⟩ | ⟨x, hx, _, hst, hxh, hxg⟩
    · rw [hnil] at hr
      cases hr
    · rw [ht, hst, hxh]
      exact h2 x hx r (hxg ▸ hr)
  · intro x' hx' k hk
    rcases hs x' hx' with ⟨hnil, _⟩ | ⟨x, hx, hxs, _, hxh, _⟩
    · rw [hnil] at hk
      cases hk
    · rw [hxs]
      exact h3 x hx k (hxh ▸ hk)
  · rw [ht, he]
    exact h4
  · rw [he]
    exact h5
  · rw [ht]
    exact h6

omit [DecidableEq κ] in
theorem not_lockedByOther [DecidableEq κ] {s : Server τ key} {sid : Nat} {k : κ}
    (h : s.lockedByOther sid k = false) {y : Session τ key} (hy : y ∈ s.sessions.rows)
    (hk : k ∈ y.held) : y.sid = sid := by
  by_contra hne
  have hall := List.any_eq_false.mp h y hy
  simp [hne, hk] at hall

/-- The rows that a session has found when it has locked one more. -/
theorem got_lock {avail : ρ → Prop} {log : List (Note τ key)} {s : Server τ key}
    (h : Safe avail log s) {x : Session τ key} (hx : x ∈ s.sessions.rows) {k : κ} {r : ρ}
    (rest : List κ) (hf : s.table.find k = some r) :
    ∀ r' ∈ (x.lock k r rest).got, key r' ∈ (x.lock k r rest).held ∧
      (x.lock k r rest).st.wants r' = true ∧ s.table.find (key r') = some r' := by
  have hold : ∀ r' ∈ x.got, key r' ∈ (x.lock k r rest).held ∧
      (x.lock k r rest).st.wants r' = true ∧ s.table.find (key r') = some r' := by
    intro r' hr'
    obtain ⟨hheld, hw, hfr⟩ := h.got x hx r' hr'
    exact ⟨List.mem_cons_of_mem _ hheld, hw, hfr⟩
  intro r' hr'
  unfold Session.lock at hr'
  dsimp only at hr'
  split at hr'
  · rename_i hw
    rcases List.mem_append.mp hr' with hr' | hr'
    · exact hold r' hr'
    · rw [List.mem_singleton] at hr'
      subst hr'
      have hkey : key r' = k := Table.key_of_find hf
      refine ⟨hkey ▸ List.mem_cons_self, hw, ?_⟩
      rw [hkey]
      exact hf
  · exact hold r' hr'

/-- A session that locks a key which no other holds. -/
theorem safe_lock {avail : ρ → Prop} {log : List (Note τ key)} {s : Server τ key}
    (h : Safe avail log s) {x : Session τ key} (hx : x ∈ s.sessions.rows) {k : κ} {r : ρ}
    (rest : List κ) (hfree : s.lockedByOther x.sid k = false) (hf : s.table.find k = some r) :
    Safe avail (log ++ [.locked x.sid k]) (s.put (x.lock k r rest)) := by
  have hrow : ∀ y ∈ (s.put (x.lock k r rest)).sessions.rows,
      y = x.lock k r rest ∨ (y ∈ s.sessions.rows ∧ y.sid ≠ x.sid) := fun y hy => Table.mem_put hy
  have hlock : ∀ k' ∈ (x.lock k r rest).held, k' = k ∨ k' ∈ x.held :=
    fun k' hk' => List.mem_cons.mp hk'
  have hother : ∀ y ∈ s.sessions.rows, ∀ k' ∈ y.held, k' = k ∨ k' ∈ x.held → y.sid = x.sid := by
    rintro y hy k' hky (rfl | hkx)
    · exact not_lockedByOther hfree hy hky
    · exact h.exclusive y hy x hx k' hky hkx
  refine ⟨?_, ?_, ?_, h.keys, ?_, ?_, ?_⟩
  · intro y hy z hz k' hky hkz
    rcases hrow y hy with rfl | ⟨hy, hny⟩
    · rcases hrow z hz with rfl | ⟨hz, hnz⟩
      · rfl
      · exact absurd (hother z hz k' hkz (hlock k' hky)) hnz
    · rcases hrow z hz with rfl | ⟨hz, hnz⟩
      · exact absurd (hother y hy k' hky (hlock k' hkz)) hny
      · exact h.exclusive y hy z hz k' hky hkz
  · intro y hy r' hr'
    rcases hrow y hy with rfl | ⟨hy, _⟩
    · exact got_lock h hx rest hf r' hr'
    · exact h.got y hy r' hr'
  · intro y hy k' hk'
    rcases hrow y hy with rfl | ⟨hy, _⟩
    · rcases hlock k' hk' with rfl | hk'
      · exact ⟨log, [], rfl, by simp⟩
      · exact locked_snoc (h.locked x hx k' hk') id
    · exact locked_snoc (h.locked y hy k' hk') id
  · intro n hn k' hc
    rcases List.mem_append.mp hn with hn | hn
    · exact h.used n hn k' hc
    · rw [List.mem_singleton.mp hn] at hc
      exact hc.elim
  · intro a n b k' hlog ht hno
    rcases split_snoc hlog with ⟨_, _, rfl⟩ | ⟨b', rfl, hold⟩
    · exact ht.elim
    · exact h.spent a n b' k' hold ht (fun m hm => hno m (List.mem_append_left _ hm))
  · intro a n b c sid st changes k' hlog ht ht'
    rcases split_snoc_pair hlog with ⟨he, _⟩ | ⟨c', hold⟩
    · cases he
    · exact h.law a n b c' sid st changes k' hold ht ht'

/-- A session that holds an available row which an earlier commit took: some commit between
revived the row, before the session locked it. -/
theorem revived_before_lock {avail : ρ → Prop} {log : List (Note τ key)} {s : Server τ key}
    (h : Safe avail log s) {x : Session τ key} (hx : x ∈ s.sessions.rows) {k : κ}
    (hk : k ∈ x.held) {r : ρ} (hf : s.table.find k = some r) (hav : avail r)
    {a b : List (Note τ key)} {n : Note τ key} (hlog : log = a ++ n :: b) (ht : n.takes avail k) :
    ∃ b1 m b2 b3, b = b1 ++ m :: (b2 ++ .locked x.sid k :: b3) ∧ m.revives avail k := by
  obtain ⟨m, hm, hrev⟩ : ∃ m ∈ b, m.revives avail k := by
    by_contra hno
    push Not at hno
    exact h.spent a n b k hlog ht hno r hf hav
  obtain ⟨p, q, hp, hq⟩ := h.locked x hx k hk
  rw [hlog, List.append_eq_append_iff] at hp
  rcases hp with ⟨a', _, hb⟩ | ⟨c', _, hb⟩
  · -- the lock came after the first commit, and nothing changed the key since
    cases a' with
    | nil =>
      cases hb
      exact ht.elim
    | cons z a'' =>
      obtain ⟨rfl, rfl⟩ := List.cons.inj hb
      rcases List.mem_append.mp hm with hm | hm
      · obtain ⟨b1, b2, rfl⟩ := List.append_of_mem hm
        exact ⟨b1, m, b2, q, by simp, hrev⟩
      rcases List.mem_cons.mp hm with rfl | hm
      · exact hrev.elim
      · exact absurd (revives_changes hrev) (hq m hm)
  · cases c' with
    | nil =>
      cases hb
      exact ht.elim
    | cons z c'' =>
      obtain ⟨_, rfl⟩ := List.cons.inj hb
      exact absurd (takes_changes ht) (hq n (by simp))

theorem mem_changesOf {table : Table key} {x : Session τ key} {c : ρ × Option ρ} :
    c ∈ changesOf table x ↔
      c.1 ∈ table.rows ∧ key c.1 ∈ x.st.pick x.got ∧ c.2 = x.st.write c.1 := by
  unfold changesOf
  rw [List.mem_map]
  constructor
  · rintro ⟨r, hr, rfl⟩
    obtain ⟨hmem, hpick⟩ := Table.mem_matching.mp hr
    exact ⟨hmem, by simpa using hpick, rfl⟩
  · rintro ⟨hmem, hpick, hw⟩
    exact ⟨c.1, Table.mem_matching.mpr ⟨hmem, by simpa using hpick⟩, by rw [← hw]⟩

/-- A picked key is locked, and its committed row is the one that the session found. -/
theorem picked {avail : ρ → Prop} {log : List (Note τ key)} {s : Server τ key}
    (h : Safe avail log s) {x : Session τ key} (hx : x ∈ s.sessions.rows) {k : κ}
    (hk : k ∈ x.st.pick x.got) :
    k ∈ x.held ∧ ∃ r, s.table.find k = some r ∧ x.st.wants r = true := by
  obtain ⟨r, hr, rfl⟩ := List.mem_map.mp (x.st.pick_sub x.got k hk)
  obtain ⟨hheld, hw, hf⟩ := h.got x hx r hr
  exact ⟨hheld, r, hf, hw⟩

/-- A key that another session holds is not picked, so its row stays as it is. -/
theorem not_picked {avail : ρ → Prop} {log : List (Note τ key)} {s : Server τ key}
    (h : Safe avail log s) {x y : Session τ key} (hx : x ∈ s.sessions.rows)
    (hy : y ∈ s.sessions.rows) (hne : y.sid ≠ x.sid) {k : κ} (hk : k ∈ y.held) :
    k ∉ x.st.pick x.got := by
  intro hpick
  exact hne (h.exclusive y hy x hx k hk (picked h hx hpick).1)

theorem find_commit_other {avail : ρ → Prop} {log : List (Note τ key)} {s : Server τ key}
    (h : Safe avail log s) {x y : Session τ key} (hx : x ∈ s.sessions.rows)
    (hy : y ∈ s.sessions.rows) (hne : y.sid ≠ x.sid) {k : κ} (hk : k ∈ y.held) :
    (s.commit x).table.find k = s.table.find k := by
  rw [find_commit]
  cases hf : s.table.find k with
  | none => rfl
  | some r => rw [Option.bind_some, if_neg (not_picked h hx hy hne hk)]

/-- The commit of a session that is through its keys. -/
theorem safe_commit {avail : ρ → Prop} {log : List (Note τ key)} {s : Server τ key}
    (h : Safe avail log s) {x : Session τ key} (hx : x ∈ s.sessions.rows) :
    Safe avail (log ++ [.committed x.sid x.st (changesOf s.table x)]) (s.commit x) := by
  have hfind := find_commit s x
  have hchange : ∀ c ∈ changesOf s.table x, ∀ k, key c.1 = k →
      k ∈ x.st.pick x.got ∧ s.table.find k = some c.1 ∧ c.2 = x.st.write c.1 := by
    rintro c hc k rfl
    obtain ⟨hmem, hpick, hw⟩ := mem_changesOf.mp hc
    exact ⟨hpick, Table.find_of_mem hmem, hw⟩
  have hrow : ∀ y ∈ (s.commit x).sessions.rows, y ∈ s.sessions.rows ∧ y.sid ≠ x.sid :=
    fun y hy => mem_close.mp hy
  refine ⟨?_, ?_, ?_, ?_, ?_, ?_, ?_⟩
  · intro y hy z hz k hky hkz
    exact h.exclusive y (hrow y hy).1 z (hrow z hz).1 k hky hkz
  · intro y hy r hr
    obtain ⟨hmem, hne⟩ := hrow y hy
    obtain ⟨hheld, hw, hf⟩ := h.got y hmem r hr
    exact ⟨hheld, hw, (find_commit_other h hx hmem hne hheld).trans hf⟩
  · intro y hy k hk
    obtain ⟨hmem, hne⟩ := hrow y hy
    refine locked_snoc (h.locked y hmem k hk) ?_
    rintro ⟨c, hc, hck⟩
    exact not_picked h hx hmem hne hk (hchange c hc k hck).1
  · intro k hk
    refine h.keys k ?_
    rw [hfind] at hk
    cases hf : s.table.find k with
    | none => simp [hf] at hk
    | some r => rfl
  · intro n hn k hc
    rcases List.mem_append.mp hn with hn | hn
    · exact h.used n hn k hc
    · rw [List.mem_singleton.mp hn] at hc
      obtain ⟨c, hcm, hck⟩ := hc
      exact h.keys k (by rw [(hchange c hcm k hck).2.1]; rfl)
  · intro a n b k hlog ht hno r' hr'
    rw [hfind] at hr'
    rcases split_snoc hlog with ⟨_, _, rfl⟩ | ⟨b', rfl, hold⟩
    · obtain ⟨c, hc, hck, _, hgone⟩ := ht
      obtain ⟨hpick, hf, hw⟩ := hchange c hc k hck
      rw [hf, Option.bind_some, if_pos hpick] at hr'
      exact hgone r' (by rw [hw, hr'])
    · have hspent := h.spent a n b' k hold ht (fun m hm => hno m (List.mem_append_left _ hm))
      cases hf : s.table.find k with
      | none => simp [hf] at hr'
      | some r =>
        rw [hf, Option.bind_some] at hr'
        split at hr'
        · rename_i hpick
          intro hav
          refine hno (.committed x.sid x.st (changesOf s.table x)) (by simp) ?_
          have hrk : key r = k := Table.key_of_find hf
          exact ⟨(r, x.st.write r), mem_changesOf.mpr ⟨Table.mem_of_find hf, hrk ▸ hpick, rfl⟩, hrk,
            hspent r hf, r', hr', hav⟩
        · rw [← Option.some.inj hr']
          exact hspent r hf
  · intro a n b c sid st changes k hlog ht ht'
    rcases split_snoc_pair hlog with ⟨he, hsplit⟩ | ⟨c', hold⟩
    · cases he
      obtain ⟨c, hc, hck, hav, _⟩ := ht'
      obtain ⟨hpick, hf, _⟩ := hchange c hc k hck
      exact revived_before_lock h hx (picked h hx hpick).1 hf hav hsplit ht
    · exact h.law a n b c' sid st changes k hold ht ht'

/-- An insert of a new key. -/
theorem safe_insert {avail : ρ → Prop} {log : List (Note τ key)} {s : Server τ key}
    (h : Safe avail log s) {r : ρ} {table : Table key} (hnew : key r ∉ s.ever)
    (hi : s.table.insert r = some table) :
    Safe avail log { s with table, ever := key r :: s.ever } := by
  have hfind : ∀ k, table.find k = if key r = k then some r else s.table.find k :=
    Table.find_insert hi
  have hold : ∀ k ∈ s.ever, table.find k = s.table.find k := by
    intro k hk
    rw [hfind, if_neg]
    rintro rfl
    exact hnew hk
  obtain ⟨h1, h2, h3, h4, h5, h6, h7⟩ := h
  refine ⟨h1, ?_, h3, ?_, ?_, ?_, h7⟩
  · intro x hx r' hr'
    obtain ⟨hheld, hw, hf⟩ := h2 x hx r' hr'
    refine ⟨hheld, hw, ?_⟩
    dsimp only
    rw [hold _ (h4 _ (by rw [hf]; rfl)), hf]
  · intro k hk
    dsimp only at hk
    rw [hfind] at hk
    by_cases hrk : key r = k
    · rw [hrk]
      exact List.mem_cons_self
    · rw [if_neg hrk] at hk
      exact List.mem_cons_of_mem _ (h4 k hk)
  · intro n hn k hc
    exact List.mem_cons_of_mem _ (h5 n hn k hc)
  · intro a n b k hlog ht hno r' hr'
    have hever : k ∈ s.ever := h5 n (by rw [hlog]; simp) k (takes_changes ht)
    dsimp only at hr'
    rw [hold k hever] at hr'
    exact h6 a n b k hlog ht hno r' hr'

theorem safe_start {avail : ρ → Prop} {log : List (Note τ key)} {s : Server τ key}
    (h : Safe avail log s) {st : Statement τ key} {sessions : Table (@Session.sid ρ κ τ key)}
    (hi : s.sessions.insert (s.newSession st) = some sessions) :
    Safe avail log { s with sessions, opened := s.opened + 1 } := by
  refine safe_sessions h rfl rfl ?_
  intro x hx
  rw [Table.rows_insert hi] at hx
  rcases List.mem_cons.mp hx with rfl | hx
  · exact Or.inl ⟨rfl, rfl⟩
  · exact Or.inr ⟨x, hx, rfl, rfl, rfl, rfl⟩

theorem safe_close {avail : ρ → Prop} {log : List (Note τ key)} {s : Server τ key}
    (h : Safe avail log s) (sid : Nat) : Safe avail log (s.close sid) := by
  refine safe_sessions h rfl rfl ?_
  intro x hx
  exact Or.inr ⟨x, List.mem_of_mem_filter hx, rfl, rfl, rfl, rfl⟩

theorem safe_pass {avail : ρ → Prop} {log : List (Note τ key)} {s : Server τ key}
    (h : Safe avail log s) {x : Session τ key} (hx : x ∈ s.sessions.rows) (rest : List κ) :
    Safe avail log (s.put (x.pass rest)) := by
  refine safe_sessions h rfl rfl ?_
  intro y hy
  rcases Table.mem_put hy with rfl | ⟨hy, _⟩
  · exact Or.inr ⟨x, hx, rfl, rfl, rfl, rfl⟩
  · exact Or.inr ⟨y, hy, rfl, rfl, rfl, rfl⟩

/-! ## Every event, and every run -/

theorem safe_acts {avail : ρ → Prop} {log : List (Note τ key)} {s s' : Server τ key}
    {e : Event τ key} {o : Option (Note τ key)} (h : Safe avail log s) (ha : Acts s e s' o) :
    Safe avail (log ++ o.toList) s' := by
  -- an event that shows nothing leaves the log
  have hquiet : ∀ t : Server τ key, Safe avail log t →
      Safe avail (log ++ (none : Option (Note τ key)).toList) t := by
    intro t ht
    rwa [Option.toList_none, List.append_nil]
  cases ha with
  | still => exact hquiet s h
  | started hi => exact hquiet _ (safe_start h hi)
  | @passed x k rest hx _ _ _ => exact hquiet _ (safe_pass h hx rest)
  | @locked x k r rest hx _ _ hfree hf => exact safe_lock h hx rest hfree hf
  | committed hx _ _ => exact safe_commit h hx
  | @failed x _ _ _ => exact hquiet _ (safe_close h x.sid)
  | aborted sid => exact hquiet _ (safe_close h sid)
  | inserted hnew hi => exact hquiet _ (safe_insert h hnew hi)

theorem safe_step {avail : ρ → Prop} {log : List (Note τ key)} {s : Server τ key}
    (h : Safe avail log s) (e : Event τ key) :
    Safe avail (log ++ (step s e).2.toList) (step s e).1 := safe_acts h (step_acts s e)

omit [DecidableEq κ] in
theorem notes_snoc (tr : List (Event τ key × Option (Note τ key))) (e : Event τ key)
    (o : Option (Note τ key)) :
    (tr ++ [(e, o)]).filterMap Prod.snd = tr.filterMap Prod.snd ++ o.toList := by
  rw [List.filterMap_append]
  cases o with
  | none => rfl
  | some n => rfl

theorem safe_run (avail : ρ → Prop) (table : Table key) (events : List (Event τ key)) :
    Safe avail (notes (Server.rest τ table) events) (run step (Server.rest τ table) events) := by
  refine run_induction (P := fun tr s => Safe avail (tr.filterMap Prod.snd) s)
    (safe_rest avail table) ?_ events
  intro tr s e h
  rw [notes_snoc]
  exact safe_step h e

/-- Two commits that take the row of one key: a commit between them revived it, and the
second locked it after that. -/
theorem no_double_take (avail : ρ → Prop) {table : Table key} {events : List (Event τ key)}
    {a b c : List (Note τ key)} {n : Note τ key} {sid : Nat} {st : Statement τ key}
    {changes : List (ρ × Option ρ)} {k : κ}
    (h : notes (Server.rest τ table) events = a ++ n :: (b ++ .committed sid st changes :: c))
    (h1 : n.takes avail k) (h2 : Note.takes avail k (.committed sid st changes)) :
    ∃ b1 m b2 b3, b = b1 ++ m :: (b2 ++ .locked sid k :: b3) ∧ m.revives avail k :=
  (safe_run avail table events).law a n b c sid st changes k h h1 h2

/-- What a commit changed: rows that its statement wants, as it writes them. The statement
is one of those that were started. -/
structure FromStart (started : List (Statement τ key)) (st : Statement τ key)
    (changes : List (ρ × Option ρ)) : Prop where
  started : st ∈ started
  wants : ∀ c ∈ changes, st.wants c.1 = true
  writes : ∀ c ∈ changes, c.2 = st.write c.1
  once : (changes.map (fun c => key c.1)).Nodup

def startedIn (events : List (Event τ key)) : List (Statement τ key) :=
  events.filterMap (fun e => match e with
    | .start st => some st
    | _ => none)

/-- A commit is one of a session that was open, with the rows that it picked. -/
theorem committed_step {s : Server τ key} {e : Event τ key} {sid : Nat} {st : Statement τ key}
    {changes : List (ρ × Option ρ)} (h : (step s e).2 = some (.committed sid st changes)) :
    ∃ x ∈ s.sessions.rows, x.st = st ∧ changes = changesOf s.table x := by
  have ha := step_acts s e
  rw [h] at ha
  generalize (step s e).1 = s' at ha
  cases ha with
  | @committed x hx _ _ => exact ⟨x, hx, rfl, rfl⟩

theorem fromStart_changesOf {avail : ρ → Prop} {log : List (Note τ key)} {s : Server τ key}
    (h : Safe avail log s) {x : Session τ key} (hx : x ∈ s.sessions.rows)
    {started : List (Statement τ key)} (hst : x.st ∈ started) :
    FromStart started x.st (changesOf s.table x) := by
  refine ⟨hst, ?_, ?_, ?_⟩
  · intro c hc
    obtain ⟨hmem, hpick, _⟩ := mem_changesOf.mp hc
    obtain ⟨_, r, hf, hw⟩ := picked h hx hpick
    rw [Table.find_of_mem hmem, Option.some.injEq] at hf
    rw [hf]
    exact hw
  · intro c hc
    exact (mem_changesOf.mp hc).2.2
  · unfold changesOf
    rw [List.map_map]
    exact Table.matching_nodup s.table _

/-- What the events so far started, in the open sessions and in the commits. -/
structure Started (tr : List (Event τ key × Option (Note τ key))) (s : Server τ key) : Prop where
  safe : Safe (fun _ => True) (tr.filterMap Prod.snd) s
  sessions : ∀ x ∈ s.sessions.rows, x.st ∈ startedIn (tr.map Prod.fst)
  commits : ∀ sid st changes, .committed sid st changes ∈ tr.filterMap Prod.snd →
    FromStart (startedIn (tr.map Prod.fst)) st changes

theorem started_rest (table : Table key) : Started [] (Server.rest τ table) := by
  refine ⟨safe_rest _ table, ?_, ?_⟩
  · intro x hx
    cases hx
  · intro sid st changes h
    cases h

theorem started_step {tr : List (Event τ key × Option (Note τ key))} {s : Server τ key}
    (h : Started tr s) (e : Event τ key) : Started (tr ++ [(e, (step s e).2)]) (step s e).1 := by
  obtain ⟨hsafe, hst, hcm⟩ := h
  have hmore : ∀ st, st ∈ startedIn (tr.map Prod.fst) →
      st ∈ startedIn ((tr ++ [(e, (step s e).2)]).map Prod.fst) := by
    intro st h
    unfold startedIn at h ⊢
    rw [List.map_append, List.filterMap_append]
    exact List.mem_append_left _ h
  refine ⟨?_, ?_, ?_⟩
  · rw [notes_snoc]
    exact safe_step hsafe e
  · intro x' hx'
    rcases rows_acts (step_acts s e) hx' with ⟨x, hx, _, he⟩ | ⟨st, rfl, rfl⟩
    · rw [he]
      exact hmore _ (hst x hx)
    · unfold startedIn Server.newSession
      simp
  · intro sid st changes hmem
    rw [notes_snoc] at hmem
    rcases List.mem_append.mp hmem with hmem | hmem
    · obtain ⟨h1, h2, h3, h4⟩ := hcm sid st changes hmem
      exact ⟨hmore st h1, h2, h3, h4⟩
    · rw [Option.mem_toList] at hmem
      obtain ⟨x, hx, rfl, rfl⟩ := committed_step hmem
      exact fromStart_changesOf hsafe hx (hmore _ (hst x hx))

theorem committed_from_start {table : Table key} {events : List (Event τ key)} {sid : Nat}
    {st : Statement τ key} {changes : List (ρ × Option ρ)}
    (h : .committed sid st changes ∈ notes (Server.rest τ table) events) :
    FromStart (startedIn events) st changes := by
  have hlaw := run_induction (P := Started) (started_rest (τ := τ) table)
    (fun _ _ e h => started_step h e) events
  have hst := hlaw.commits sid st changes h
  rwa [trace_map_fst] at hst

/-! ## What an event does to the row of one key -/

/-- What an event does to the row of one key: nothing, or the commit of a session that found
the row writes it, or an insert of a key that never was brings it. -/
inductive RowActs (s : Server τ key) (k : κ) :
    Event τ key → Option (Note τ key) → Option ρ → Prop where
  | kept {e : Event τ key} {o : Option (Note τ key)} : (∀ n ∈ o, ¬ n.changes k) →
      RowActs s k e o (s.table.find k)
  | written {x : Session τ key} {r : ρ} : x ∈ s.sessions.rows → s.table.find k = some r →
      x.st.wants r = true → (∀ c ∈ changesOf s.table x, x.st.fits c.1 = true) →
      (r, x.st.write r) ∈ changesOf s.table x →
      RowActs s k (.commit x.sid) (some (.committed x.sid x.st (changesOf s.table x)))
        (x.st.write r)
  | inserted {r : ρ} : key r = k → k ∉ s.ever → RowActs s k (.insert r) none (some r)

/-- The commit of a session writes the rows that it picked, and keeps the others. -/
theorem rowActs_commit {avail : ρ → Prop} {log : List (Note τ key)} {s : Server τ key}
    (h : Safe avail log s) {x : Session τ key} (hx : x ∈ s.sessions.rows)
    (hfits : ∀ c ∈ changesOf s.table x, x.st.fits c.1 = true) (k : κ) :
    RowActs s k (.commit x.sid) (some (.committed x.sid x.st (changesOf s.table x)))
      ((s.commit x).table.find k) := by
  rw [find_commit]
  by_cases hpick : k ∈ x.st.pick x.got
  · obtain ⟨_, r, hf, hw⟩ := picked h hx hpick
    have hmem : (r, x.st.write r) ∈ changesOf s.table x := by
      apply mem_changesOf.mpr
      exact ⟨Table.mem_of_find hf, (Table.key_of_find hf).symm ▸ hpick, rfl⟩
    rw [hf, Option.bind_some, if_pos hpick]
    exact RowActs.written hx hf hw hfits hmem
  · have hsame : (s.table.find k).bind
        (fun r => if k ∈ x.st.pick x.got then x.st.write r else some r) = s.table.find k := by
      simp [hpick]
    rw [hsame]
    apply RowActs.kept
    intro n hn hchanges
    cases hn
    obtain ⟨c, hc, rfl⟩ := hchanges
    exact hpick (mem_changesOf.mp hc).2.1

theorem step_row {avail : ρ → Prop} {log : List (Note τ key)} {s : Server τ key}
    (h : Safe avail log s) (e : Event τ key) (k : κ) :
    RowActs s k e (step s e).2 ((step s e).1.table.find k) := by
  have ha := step_acts s e
  generalize (step s e).1 = s' at ha ⊢
  generalize (step s e).2 = o at ha ⊢
  have hquiet : ∀ e, RowActs s k e (none : Option (Note τ key)) (s.table.find k) :=
    fun e => RowActs.kept (fun n hn => nomatch hn)
  cases ha with
  | still => exact hquiet _
  | started hi => exact hquiet _
  | passed _ _ _ _ => exact hquiet _
  | locked _ _ _ _ _ =>
    apply RowActs.kept
    rintro n hn
    cases hn
    exact id
  | committed hx _ hfits => exact rowActs_commit h hx hfits k
  | failed _ _ _ => exact hquiet _
  | aborted _ => exact hquiet _
  | @inserted r table hnew hi =>
    rw [Table.find_insert hi k]
    by_cases hk : key r = k
    · rw [if_pos hk]
      exact RowActs.inserted hk (hk ▸ hnew)
    · rw [if_neg hk]
      exact hquiet _

/-! ## The limit of a statement -/

/-- No session found more rows than its limit. -/
def Bounded (s : Server τ key) : Prop :=
  ∀ x ∈ s.sessions.rows, ∀ n, x.st.limit = some n → x.got.length ≤ n

omit [DecidableEq κ] in
theorem bounded_put {s : Server τ key} (h : Bounded s) {y : Session τ key}
    (hy : ∀ n, y.st.limit = some n → y.got.length ≤ n) : Bounded (s.put y) := by
  intro x hx
  rcases Table.mem_put hx with rfl | ⟨hx, _⟩
  · exact hy
  · exact h x hx

omit [DecidableEq κ] in
theorem bounded_close {s : Server τ key} (h : Bounded s) (sid : Nat) : Bounded (s.close sid) :=
  fun x hx => h x (mem_close.mp hx).1

theorem bounded_step {s : Server τ key} (h : Bounded s) (e : Event τ key) :
    Bounded (step s e).1 := by
  have ha := step_acts s e
  generalize (step s e).1 = s' at ha ⊢
  generalize (step s e).2 = o at ha
  cases ha with
  | still => exact h
  | started hi =>
    intro x hx
    rw [Table.rows_insert hi] at hx
    rcases List.mem_cons.mp hx with rfl | hx
    · exact fun n _ => Nat.zero_le n
    · exact h x hx
  | @passed x k rest hx _ _ _ => exact bounded_put h (fun n hn => h x hx n hn)
  | @locked x k r rest hx hfull _ _ _ =>
    apply bounded_put h
    intro n hn
    have hn : x.st.limit = some n := hn
    have hroom : x.got.length < n := by simpa [Session.full, hn] using hfull
    unfold Session.lock
    dsimp only
    split
    · rw [List.length_append, List.length_singleton]
      omega
    · omega
  | committed _ _ _ => exact bounded_close h _
  | failed _ _ _ => exact bounded_close h _
  | aborted sid => exact bounded_close h sid
  | inserted _ _ => exact h

/-! ## A statement that nobody disturbs -/

/-- The rows that a statement finds when the keys in `locked` stay locked by others. -/
def Statement.window (st : Statement τ key) (table : Table key) (locked : κ → Bool) : List ρ :=
  let rows := (st.order (table.rows.filter st.wants)).filter (fun r => !locked (key r))
  match st.limit with
  | none => rows
  | some n => rows.take n

/-- The table after a statement that found `rows`. -/
def Statement.apply (st : Statement τ key) (table : Table key) (rows : List ρ) : Table key :=
  if (table.rows.filter (fun r => decide (key r ∈ st.pick rows))).all st.fits then
    table.rewrite (st.pick rows) st.write st.write_key
  else table

theorem apply_fits {st : Statement τ key} {table : Table key} {rows : List ρ}
    (h : ∀ r ∈ table.rows, key r ∈ st.pick rows → st.fits r = true) :
    st.apply table rows = table.rewrite (st.pick rows) st.write st.write_key := by
  unfold Statement.apply
  rw [if_pos]
  rw [List.all_eq_true]
  intro r hr
  obtain ⟨hmem, hpick⟩ := List.mem_filter.mp hr
  exact h r hmem (of_decide_eq_true hpick)

theorem apply_misfit {st : Statement τ key} {table : Table key} {rows : List ρ} {r : ρ}
    (hr : r ∈ table.rows) (hpick : key r ∈ st.pick rows) (hfits : st.fits r = false) :
    st.apply table rows = table := by
  unfold Statement.apply
  rw [if_neg]
  intro hall
  rw [List.all_eq_true.mp hall r (List.mem_filter.mpr ⟨hr, decide_eq_true hpick⟩)] at hfits
  cases hfits

/-- A session from its start to its commit, with `n` visits. -/
def straight (st : Statement τ key) (sid n : Nat) : List (Event τ key) :=
  .start st :: (List.replicate n (.visit sid) ++ [.commit sid])

theorem lockedByOther_put (s : Server τ key) (x : Session τ key) (k : κ) :
    (s.put x).lockedByOther x.sid k = s.lockedByOther x.sid k := by
  unfold Server.lockedByOther Server.put Table.put Table.update
  dsimp only
  rw [List.any_map]
  congr 1
  funext y
  by_cases hy : y.sid = x.sid
  · simp [hy]
  · simp [hy]

theorem visit_full {s : Server τ key} {x : Session τ key} (hf : s.sessions.find x.sid = some x)
    (hfull : x.full = true) (n : Nat) :
    run step s (List.replicate n (.visit x.sid)) = s := by
  induction n with
  | zero => rfl
  | succ n ih =>
    have hstep : (step s (.visit x.sid)).1 = s := by simp [step, hf, visitIn, hfull]
    rw [List.replicate_succ, run_cons, hstep]
    exact ih

/-- The rows found by the visits of the keys of `l`, on top of those found already. -/
def gather (limit : Option Nat) (got l : List ρ) : List ρ :=
  match limit with
  | none => got ++ l
  | some n => got ++ l.take (n - got.length)

omit [DecidableEq κ] in
/-- A session that has its limit finds no more. -/
theorem gather_full {x : Session τ key} (h : x.full = true) (l : List ρ) :
    gather x.st.limit x.got l = x.got := by
  unfold Session.full at h
  unfold gather
  split
  · rename_i hlim
    simp [hlim] at h
  · rename_i n hlim
    rw [hlim] at h
    have hle : n ≤ x.got.length := by simpa using h
    simp [Nat.sub_eq_zero_of_le hle]

omit [DecidableEq κ] in
/-- A session below its limit finds the next row. -/
theorem gather_next {x : Session τ key} (h : x.full = false) (r : ρ) (l : List ρ) :
    gather x.st.limit (x.got ++ [r]) l = gather x.st.limit x.got (r :: l) := by
  unfold gather
  split
  · simp
  · rename_i n hlim
    have hlt : x.got.length < n := by
      unfold Session.full at h
      rw [hlim] at h
      simpa using h
    obtain ⟨m, hm⟩ : ∃ m, n - x.got.length = m + 1 := ⟨n - x.got.length - 1, by omega⟩
    have hm' : n - (x.got ++ [r]).length = m := by
      rw [List.length_append, List.length_singleton]
      omega
    rw [hm, hm', List.take_succ_cons]
    simp

/-- The visits of the rows of `l` leave the session through its keys, or at its limit, with
the rows that no other session has locked. -/
def Gathers (s : Server τ key) (x : Session τ key) (l : List ρ) : Prop :=
  ∃ x', (run step s (List.replicate l.length (.visit x.sid))).sessions.find x.sid = some x' ∧
    x'.sid = x.sid ∧ x'.st = x.st ∧
    x'.got = gather x.st.limit x.got (l.filter (fun r => !s.lockedByOther x.sid (key r))) ∧
    (x'.todo = [] ∨ x'.full = true) ∧
    (run step s (List.replicate l.length (.visit x.sid))).table = s.table

/-- One visit, which leaves the session as `y`, and the visits of the rest. -/
theorem gathers_cons {s : Server τ key} {x y : Session τ key} {r : ρ} {rest : List ρ}
    (hsid : y.sid = x.sid) (hst : y.st = x.st) (hstep : (step s (.visit x.sid)).1 = s.put y)
    (hgather : gather x.st.limit y.got (rest.filter (fun r => !s.lockedByOther x.sid (key r))) =
      gather x.st.limit x.got ((r :: rest).filter (fun r => !s.lockedByOther x.sid (key r))))
    (h : Gathers (s.put y) y rest) : Gathers s x (r :: rest) := by
  have hput : ∀ k, (s.put y).lockedByOther y.sid k = s.lockedByOther y.sid k :=
    fun k => lockedByOther_put s y k
  obtain ⟨x', h1, h2, h3, h4, h5, h6⟩ := h
  unfold Gathers
  rw [List.length_cons, List.replicate_succ, run_cons, hstep, ← hsid]
  refine ⟨x', h1, h2, h3.trans hst, ?_, h5, h6⟩
  rw [h4, hst]
  simp only [hput]
  rw [hsid]
  exact hgather

theorem run_visits {s : Server τ key} {x : Session τ key} {l : List ρ}
    (hx : s.sessions.find x.sid = some x) (htodo : x.todo = l.map key)
    (hl : ∀ r ∈ l, s.table.find (key r) = some r ∧ x.st.wants r = true)
    (hskip : x.st.skip = true ∨ ∀ r ∈ l, s.lockedByOther x.sid (key r) = false) :
    Gathers s x l := by
  induction l generalizing s x with
  | nil =>
    refine ⟨x, hx, rfl, rfl, ?_, Or.inl htodo, rfl⟩
    unfold gather
    split
    · simp
    · simp
  | cons r rest ih =>
    by_cases hfull : x.full = true
    · unfold Gathers
      rw [visit_full hx hfull]
      exact ⟨x, hx, rfl, rfl, (gather_full hfull _).symm, Or.inr hfull, rfl⟩
    have hnotfull : x.full = false := by simpa using hfull
    obtain ⟨hfr, hwr⟩ := hl r List.mem_cons_self
    -- whatever the visit does, the session goes on with the rest
    have hrest : ∀ y : Session τ key, y.sid = x.sid → y.st = x.st → y.todo = rest.map key →
        Gathers (s.put y) y rest := by
      intro y hsid hst hytodo
      have hfind : (s.put y).sessions.find y.sid = some y := by
        unfold Server.put
        dsimp only
        rw [Table.find_put, if_pos rfl, hsid, hx]
        rfl
      refine ih hfind hytodo ?_ ?_
      · rw [hst]
        exact fun r' hr' => hl r' (List.mem_cons_of_mem _ hr')
      · rw [hst]
        rcases hskip with hskip | hfree
        · exact Or.inl hskip
        · right
          intro r' hr'
          rw [lockedByOther_put, hsid]
          exact hfree r' (List.mem_cons_of_mem _ hr')
    have hvisit : (step s (.visit x.sid)).1 = (visitIn s x).1 := by simp [step, hx]
    by_cases hlock : s.lockedByOther x.sid (key r) = true
    · rcases hskip with hskip | hfree
      · refine gathers_cons (y := x.pass (rest.map key)) rfl rfl ?_ ?_ (hrest _ rfl rfl rfl)
        · rw [hvisit]
          simp [visitIn, hnotfull, htodo, hlock, hskip]
        · simp [hlock, Session.pass]
      · rw [hfree r List.mem_cons_self] at hlock
        cases hlock
    · have hfree : s.lockedByOther x.sid (key r) = false := by simpa using hlock
      refine gathers_cons (y := x.lock (key r) r (rest.map key)) rfl rfl ?_ ?_ (hrest _ rfl rfl rfl)
      · rw [hvisit]
        simp [visitIn, hnotfull, htodo, hfree, hfr]
      · have hgot : (x.lock (key r) r (rest.map key)).got = x.got ++ [r] := by
          simp [Session.lock, hwr]
        rw [hgot, List.filter_cons_of_pos (by simp [hfree])]
        exact gather_next hnotfull r _

theorem commit_apply {s : Server τ key} {x : Session τ key}
    (hf : s.sessions.find x.sid = some x) (hdone : x.todo = [] ∨ x.full = true) :
    (step s (.commit x.sid)).1.table = x.st.apply s.table x.got := by
  have hstep : (step s (.commit x.sid)).1 = (commitIn s x).1 := by simp [step, hf]
  have hfits : (changesOf s.table x).all (fun c => x.st.fits c.1) =
      (s.table.rows.filter (fun r => decide (key r ∈ x.st.pick x.got))).all x.st.fits := by
    unfold changesOf Table.matching
    rw [List.all_map]
    rfl
  rw [hstep]
  unfold commitIn Statement.apply
  rw [if_pos hdone, hfits]
  split
  · rfl
  · rfl

/-- A statement with no others on the way between its steps: it finds its window, and writes
what it picks of that. -/
theorem run_straight {s : Server τ key} {st : Statement τ key}
    (hnew : s.sessions.find s.opened = none)
    (hskip : st.skip = true ∨
      ∀ r ∈ s.table.rows, st.wants r = true → s.lockedByOther s.opened (key r) = false) :
    (run step s (straight st s.opened (s.table.rows.filter st.wants).length)).table =
      st.apply s.table (st.window s.table (s.lockedByOther s.opened)) := by
  have hperm := st.order_perm (s.table.rows.filter st.wants)
  have hmem : ∀ r ∈ st.order (s.table.rows.filter st.wants),
      r ∈ s.table.rows ∧ st.wants r = true := by
    intro r hr
    rw [hperm.mem_iff] at hr
    exact List.mem_filter.mp hr
  have hlen : (s.table.rows.filter st.wants).length =
      (st.order (s.table.rows.filter st.wants)).length :=
    hperm.length_eq.symm
  let x : Session τ key :=
    { sid := s.opened, st, todo := (st.order (s.table.rows.filter st.wants)).map key,
      held := [], got := [] }
  obtain ⟨sessions, hi⟩ := Table.insert_isSome (r := x) hnew
  have hstart : (step s (.start st)).1 = { s with sessions, opened := s.opened + 1 } := by
    show startIn s st = _
    unfold startIn
    dsimp only
    rw [hi]
  have hrows : sessions.rows = x :: s.sessions.rows := Table.rows_insert hi
  have hlocked : ∀ k, Server.lockedByOther { s with sessions, opened := s.opened + 1 } x.sid k =
      s.lockedByOther s.opened k := by
    intro k
    unfold Server.lockedByOther
    simp [hrows, x]
  have hfind : Table.find sessions x.sid = some x := (Table.find_insert hi x.sid).trans (if_pos rfl)
  obtain ⟨x', h1, h2, h3, h4, h5, h6⟩ := run_visits
    (s := { s with sessions, opened := s.opened + 1 }) (x := x)
    (l := st.order (s.table.rows.filter st.wants)) hfind rfl
    (fun r hr => ⟨Table.find_of_mem (hmem r hr).1, (hmem r hr).2⟩) (by
      rcases hskip with hskip | hfree
      · exact Or.inl hskip
      · right
        intro r hr
        rw [hlocked]
        exact hfree r (hmem r hr).1 (hmem r hr).2)
  unfold straight
  rw [run_cons, hstart, run_append, hlen]
  have hsid : x.sid = s.opened := rfl
  rw [← hsid, ← h2] at h1 ⊢
  rw [run_cons, run_nil, commit_apply h1 h5, h2, h6, h3, h4]
  congr 1
  unfold gather Statement.window
  simp only [hlocked, x]
  split
  · simp
  · simp

end row_locks
