-- `examples/demo_idempotency.rs`: the handler that inserts the key of its event
-- into `processed_events` and its effect into `notifications`, in one
-- transaction. Any number of calls run at once, and each may crash at any step.
-- The parts of a key are texts of Postgres, which have no U+0000.
import SkipLocked.Postgres
import SkipLocked.Runs
import Mathlib.Data.Finset.Card

open postgres event_runs

namespace skip_locked.idempotency

inductive Outcome where
  | Applied
  | Duplicate
deriving DecidableEq, Repr

/-- `format!("{carrier_id}:{event_id}")`. -/
def keyOf (carrier_id event_id : Text) : Text := carrier_id ++ ":" ++ event_id

/-- The committed rows: the keys of the ledger, and the keys of the effects. -/
structure Store where
  processed_events : List Text
  notifications : List Text

def Store.empty : Store := ⟨[], []⟩

/-- What the transaction of a call commits. -/
def Store.add (s : Store) (key : Text) : Store :=
  { processed_events := s.processed_events ++ [key], notifications := s.notifications ++ [key] }

/-! ## The steps of a call -/

/-- Where a call is in its body. A call that is `inserted` or `notified` has a row in
`processed_events` that is not committed. A call that is `conflicted` has read
`rows_affected() == 0`. -/
inductive Stage where
  | began
  | inserted
  | conflicted
  | notified
  | committed
  | rolled_back
  | returned (o : Outcome)
  | crashed
deriving DecidableEq, Repr

structure Handling where
  carrier_id : Text
  event_id : Text
  stage : Stage

def Handling.key (h : Handling) : Text := keyOf h.carrier_id h.event_id

/-- The call has an uncommitted row of its key. -/
def Handling.holds (h : Handling) : Bool :=
  decide (h.stage = .inserted) || decide (h.stage = .notified)

structure State where
  tables : Store
  calls : List Handling

def State.empty : State := ⟨Store.empty, []⟩

inductive Action where
  | insert
  | notify
  | commit
  | rollback
  | reply
  | crash
deriving DecidableEq, Repr

inductive Event where
  | call (carrier_id event_id : Text)
  | act (i : Nat) (a : Action)
deriving DecidableEq, Repr

/-- `INSERT INTO processed_events … ON CONFLICT DO NOTHING`. A committed row of the key is a
conflict. An uncommitted one of another call makes the insert wait. -/
def insertKey (s : State) (key : Text) : Option Stage :=
  if key ∈ s.tables.processed_events then some .conflicted
  else if s.calls.any (fun h => h.holds && decide (h.key = key)) then none
  else some .inserted

/-- What an action of a call does to the tables, and where the call is then. A crash rolls
back what is not committed. -/
def move (s : State) (h : Handling) : Action → Option (Store × Stage)
  | .insert => if h.stage = .began then (insertKey s h.key).map (fun st => (s.tables, st)) else none
  | .notify => if h.stage = .inserted then some (s.tables, .notified) else none
  | .commit => if h.stage = .notified then some (s.tables.add h.key, .committed) else none
  | .rollback => if h.stage = .conflicted then some (s.tables, .rolled_back) else none
  | .reply =>
    match h.stage with
    | .committed => some (s.tables, .returned .Applied)
    | .rolled_back => some (s.tables, .returned .Duplicate)
    | _ => none
  | .crash =>
    match h.stage with
    | .returned _ => none
    | _ => some (s.tables, .crashed)

def answerOf : Stage → Option Outcome
  | .returned o => some o
  | _ => none

/-- One event, with what the call returns. -/
def step (s : State) : Event → State × Option Outcome
  | .call carrier_id event_id =>
    ({ s with calls := s.calls ++ [⟨carrier_id, event_id, .began⟩] }, none)
  | .act i a =>
    match s.calls[i]? with
    | none => (s, none)
    | some h =>
      match move s h a with
      | none => (s, none)
      | some (tables, stage) =>
        ({ tables, calls := s.calls.set i { h with stage } }, answerOf stage)

/-- Everything that an event may do. -/
inductive Does (s : State) : State → Prop where
  | still : Does s s
  | called (carrier_id event_id : Text) :
      Does s { s with calls := s.calls ++ [⟨carrier_id, event_id, .began⟩] }
  | moved {a : Action} {tables : Store} {stage : Stage} (before later : List Handling)
      (h : Handling) : s.calls = before ++ h :: later → move s h a = some (tables, stage) →
      Does s { tables, calls := before ++ { h with stage } :: later }

theorem step_does (s : State) (e : Event) : Does s (step s e).1 := by
  cases e with
  | call carrier_id event_id => exact Does.called carrier_id event_id
  | act i a =>
    simp only [step]
    cases hi : s.calls[i]? with
    | none => exact Does.still
    | some h =>
      obtain ⟨hlt, hget⟩ := List.getElem?_eq_some_iff.mp hi
      cases hm : move s h a with
      | none =>
        simp only [hm]
        exact Does.still
      | some x =>
        obtain ⟨tables, stage⟩ := x
        have hsplit : s.calls = s.calls.take i ++ h :: s.calls.drop (i + 1) := by
          rw [← hget, List.getElem_cons_drop, List.take_append_drop]
        have hset : s.calls.set i { h with stage } =
            s.calls.take i ++ { h with stage } :: s.calls.drop (i + 1) := by
          rw [List.set_eq_take_append_cons_drop, if_pos hlt]
        simp only [hm, hset]
        exact Does.moved _ _ h hsplit hm

/-! ## The law of the ledger -/

/-- The call has committed, and it has answered or will answer `Applied`. -/
def Handling.applied (h : Handling) : Bool :=
  decide (h.stage = .committed) || decide (h.stage = .returned .Applied)

/-- The call met a committed row of its key. -/
def Handling.refused (h : Handling) : Prop :=
  h.stage = .conflicted ∨ h.stage = .rolled_back ∨ h.stage = .returned .Duplicate

def holders (k : Text) (calls : List Handling) : Nat :=
  calls.countP (fun h => h.holds && decide (h.key = k))

def appliers (k : Text) (calls : List Handling) : Nat :=
  calls.countP (fun h => h.applied && decide (h.key = k))

/-- The ledger and the effects have the same keys. A key is in the ledger once, or one call
at most holds it. Each call that committed has its own row of the ledger, and each call that
was refused has a row to point at. -/
structure Agrees (s : State) : Prop where
  balanced : ∀ k, s.tables.processed_events.count k = s.tables.notifications.count k
  unique : ∀ k, s.tables.processed_events.count k + holders k s.calls ≤ 1
  applied : ∀ k, appliers k s.calls ≤ s.tables.processed_events.count k
  known : ∀ h ∈ s.calls, h.refused → h.key ∈ s.tables.processed_events

theorem agrees_empty : Agrees State.empty := by
  refine ⟨fun k => rfl, fun k => ?_, fun k => ?_, fun h hh => by simp [State.empty] at hh⟩
  · simp [State.empty, Store.empty, holders]
  · simp [State.empty, appliers]

theorem holders_split (k : Text) (before later : List Handling) (h : Handling) :
    holders k (before ++ h :: later) = holders k (before ++ later) +
      if h.holds && decide (h.key = k) then 1 else 0 := by
  unfold holders
  simp only [List.countP_append, List.countP_cons]
  omega

theorem appliers_split (k : Text) (before later : List Handling) (h : Handling) :
    appliers k (before ++ h :: later) = appliers k (before ++ later) +
      if h.applied && decide (h.key = k) then 1 else 0 := by
  unfold appliers
  simp only [List.countP_append, List.countP_cons]
  omega

/-- A call that moves on and leaves the tables keeps the law, when it holds no key that it did
not hold, has committed nothing new, and is refused for a row that is there. -/
theorem agrees_pass {s : State} (hs : Agrees s) {before later : List Handling} {h : Handling}
    {stage : Stage} (hsplit : s.calls = before ++ h :: later)
    (hholds : (Handling.holds { h with stage }) = true → h.holds = true)
    (happlied : (Handling.applied { h with stage }) = true → h.applied = true)
    (hknown : Handling.refused { h with stage } → h.key ∈ s.tables.processed_events) :
    Agrees { s with calls := before ++ { h with stage } :: later } := by
  obtain ⟨hbal, huniq, happ, hkn⟩ := hs
  rw [hsplit] at huniq happ hkn
  refine ⟨hbal, fun k => ?_, fun k => ?_, ?_⟩
  · have hold := huniq k
    rw [holders_split] at hold ⊢
    have hkey : Handling.key { h with stage } = h.key := rfl
    rw [hkey]
    cases hb : Handling.holds { h with stage } with
    | false => simp; omega
    | true => rw [hholds hb] at hold; exact hold
  · have hold := happ k
    rw [appliers_split] at hold ⊢
    have hkey : Handling.key { h with stage } = h.key := rfl
    rw [hkey]
    cases hb : Handling.applied { h with stage } with
    | false => simp; omega
    | true => rw [happlied hb] at hold; exact hold
  · intro g hg hr
    rcases List.mem_append.mp hg with hg | hg
    · exact hkn g (List.mem_append_left _ hg) hr
    · rcases List.mem_cons.mp hg with rfl | hg
      · exact hknown hr
      · exact hkn g (List.mem_append_right _ (List.mem_cons_of_mem _ hg)) hr

/-- An insert that does not wait meets a row of its key, or nobody has the key. -/
theorem insertKey_ok {s : State} {key : Text} {stage : Stage}
    (h : insertKey s key = some stage) :
    (stage = .conflicted ∧ key ∈ s.tables.processed_events) ∨
    (stage = .inserted ∧ s.tables.processed_events.count key = 0 ∧ holders key s.calls = 0) := by
  unfold insertKey at h
  split at h
  · rename_i hin
    cases h
    exact Or.inl ⟨rfl, hin⟩
  · rename_i hout
    split at h
    · cases h
    · rename_i hfree
      cases h
      refine Or.inr ⟨rfl, List.count_eq_zero.mpr hout, ?_⟩
      unfold holders
      rw [List.countP_eq_zero]
      intro g hg hhold
      exact hfree (List.any_eq_true.mpr ⟨g, hg, hhold⟩)

theorem agrees_inserted {s : State} (hs : Agrees s) {before later : List Handling} {h : Handling}
    (hsplit : s.calls = before ++ h :: later) (hbegan : h.stage = .began)
    (hnone : s.tables.processed_events.count h.key = 0) (hfree : holders h.key s.calls = 0) :
    Agrees { s with calls := before ++ { h with stage := .inserted } :: later } := by
  obtain ⟨hbal, huniq, happ, hkn⟩ := hs
  rw [hsplit] at huniq happ hkn hfree
  refine ⟨hbal, fun k => ?_, fun k => ?_, ?_⟩
  · have hold := huniq k
    rw [holders_split] at hold hfree ⊢
    have hkey : Handling.key { h with stage := .inserted } = h.key := rfl
    rw [hkey]
    by_cases hk : h.key = k
    · subst hk
      simp only [hnone]
      simp [Handling.holds] at hfree ⊢
      omega
    · simp only [hk, decide_false, Bool.and_false] at hold ⊢
      exact hold
  · have hold := happ k
    rw [appliers_split] at hold ⊢
    simp only [Handling.applied, hbegan] at hold ⊢
    simpa using hold
  · intro g hg hr
    rcases List.mem_append.mp hg with hg | hg
    · exact hkn g (List.mem_append_left _ hg) hr
    · rcases List.mem_cons.mp hg with rfl | hg
      · simp [Handling.refused] at hr
      · exact hkn g (List.mem_append_right _ (List.mem_cons_of_mem _ hg)) hr

/-- A commit turns the key that the call holds into a row of the ledger and an effect. -/
theorem agrees_commit {s : State} (hs : Agrees s) {before later : List Handling} {h : Handling}
    (hsplit : s.calls = before ++ h :: later) (hnotified : h.stage = .notified) :
    Agrees { tables := s.tables.add h.key,
             calls := before ++ { h with stage := .committed } :: later } := by
  obtain ⟨hbal, huniq, happ, hkn⟩ := hs
  rw [hsplit] at huniq happ hkn
  refine ⟨fun k => ?_, fun k => ?_, fun k => ?_, ?_⟩
  · simp only [Store.add, List.count_append]
    rw [hbal k]
  · have hold := huniq k
    rw [holders_split] at hold ⊢
    have hkey : Handling.key { h with stage := .committed } = h.key := rfl
    simp only [Store.add, List.count_append, List.count_singleton, Handling.holds, hkey,
      hnotified] at hold ⊢
    by_cases hk : h.key = k
    · simp [hk] at hold ⊢
      omega
    · simpa [hk] using hold
  · have hold := happ k
    rw [appliers_split] at hold ⊢
    have hkey : Handling.key { h with stage := .committed } = h.key := rfl
    simp only [Store.add, List.count_append, List.count_singleton, Handling.applied, hkey,
      hnotified] at hold ⊢
    by_cases hk : h.key = k
    · simp [hk] at hold ⊢
      omega
    · simpa [hk] using hold
  · intro g hg hr
    have hin : ∀ k ∈ s.tables.processed_events, k ∈ (s.tables.add h.key).processed_events :=
      fun k hk => List.mem_append_left _ hk
    rcases List.mem_append.mp hg with hg | hg
    · exact hin _ (hkn g (List.mem_append_left _ hg) hr)
    · rcases List.mem_cons.mp hg with rfl | hg
      · simp [Handling.refused] at hr
      · exact hin _ (hkn g (List.mem_append_right _ (List.mem_cons_of_mem _ hg)) hr)

theorem agrees_moved {s : State} (hs : Agrees s) {a : Action} {tables : Store} {stage : Stage}
    {before later : List Handling} {h : Handling} (hsplit : s.calls = before ++ h :: later)
    (hm : move s h a = some (tables, stage)) :
    Agrees { tables, calls := before ++ { h with stage } :: later } := by
  have hmem : h ∈ s.calls := by simp [hsplit]
  cases a with
  | insert =>
    simp only [move] at hm
    split at hm
    · rename_i hbegan
      obtain ⟨st, hins, he⟩ := Option.map_eq_some_iff.mp hm
      cases he
      rcases insertKey_ok hins with ⟨rfl, hin⟩ | ⟨rfl, hnone, hfree⟩
      · exact agrees_pass hs hsplit (by simp [Handling.holds]) (by simp [Handling.applied])
          (fun _ => hin)
      · exact agrees_inserted hs hsplit hbegan hnone hfree
    · cases hm
  | notify =>
    simp only [move] at hm
    split at hm
    · rename_i hinserted
      cases hm
      exact agrees_pass hs hsplit (by simp [Handling.holds, hinserted])
        (by simp [Handling.applied]) (by simp [Handling.refused])
    · cases hm
  | commit =>
    simp only [move] at hm
    split at hm
    · rename_i hnotified
      cases hm
      exact agrees_commit hs hsplit hnotified
    · cases hm
  | rollback =>
    simp only [move] at hm
    split at hm
    · rename_i hconflicted
      cases hm
      exact agrees_pass hs hsplit (by simp [Handling.holds]) (by simp [Handling.applied])
        (fun _ => hs.known h hmem (Or.inl hconflicted))
    · cases hm
  | reply =>
    simp only [move] at hm
    split at hm
    · rename_i hcommitted
      cases hm
      exact agrees_pass hs hsplit (by simp [Handling.holds])
        (by simp [Handling.applied, hcommitted])
        (by simp [Handling.refused])
    · rename_i hrolled
      cases hm
      exact agrees_pass hs hsplit (by simp [Handling.holds]) (by simp [Handling.applied])
        (fun _ => hs.known h hmem (Or.inr (Or.inl hrolled)))
    · cases hm
  | crash =>
    simp only [move] at hm
    split at hm
    · cases hm
    · cases hm
      exact agrees_pass hs hsplit (by simp [Handling.holds]) (by simp [Handling.applied])
        (by simp [Handling.refused])

theorem agrees_step {s : State} (hs : Agrees s) (e : Event) : Agrees (step s e).1 := by
  have hdoes := step_does s e
  generalize (step s e).1 = s' at hdoes
  cases hdoes with
  | still => exact hs
  | called carrier_id event_id =>
    obtain ⟨hbal, huniq, happ, hkn⟩ := hs
    refine ⟨hbal, fun k => ?_, fun k => ?_, ?_⟩
    · simpa [holders, List.countP_append, Handling.holds] using huniq k
    · simpa [appliers, List.countP_append, Handling.applied] using happ k
    · intro g hg hr
      rcases List.mem_append.mp hg with hg | hg
      · exact hkn g hg hr
      · rw [List.mem_singleton] at hg
        simp [hg, Handling.refused] at hr
  | moved before later h hsplit hm => exact agrees_moved hs hsplit hm

theorem agrees_run (events : List Event) : Agrees (run step State.empty events) :=
  run_invariant agrees_empty (fun _ e hs => agrees_step hs e) events

/-- After any steps of any calls, with crashes anywhere: each key has as many rows in the ledger
as effects, and one at most. One call of a key at most has returned `Applied`. When a call has
returned `Duplicate`, the effect of its key is committed. -/
theorem ledger_and_effects_agree (events : List Event) :
    let s := run step State.empty events
    (∀ k, s.tables.processed_events.count k = s.tables.notifications.count k ∧
      s.tables.processed_events.count k ≤ 1) ∧
    (∀ k, s.calls.countP
      (fun h => decide (h.stage = .returned .Applied) && decide (h.key = k)) ≤ 1) ∧
    ∀ h ∈ s.calls, h.stage = .returned .Duplicate → h.key ∈ s.tables.notifications := by
  intro s
  have hs : Agrees s := agrees_run events
  have hone : ∀ k, s.tables.processed_events.count k ≤ 1 := by
    intro k
    have := hs.unique k
    omega
  refine ⟨fun k => ⟨hs.balanced k, hone k⟩, fun k => ?_, fun h hh hdup => ?_⟩
  · have hle : s.calls.countP
        (fun h => decide (h.stage = .returned .Applied) && decide (h.key = k)) ≤
        appliers k s.calls := by
      refine List.countP_mono_left (fun h _ hp => ?_)
      simp only [Bool.and_eq_true, decide_eq_true_eq] at hp
      simp [Handling.applied, hp]
    have := hs.applied k
    have := hone k
    omega
  · have hin := hs.known h hh (Or.inr (Or.inr hdup))
    rw [← List.count_pos_iff] at hin ⊢
    rw [← hs.balanced]
    exact hin

end skip_locked.idempotency
