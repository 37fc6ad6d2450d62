-- The law of the event keys: calls of the handler one after the other apply
-- each event once, as long as no two events share a key. The key joins two
-- strings with a colon, and a colon inside them lets two events share one.
import SkipLocked.Idempotency
import Mathlib.Data.Finset.Insert

open postgres event_runs

namespace skip_locked.idempotency

/-- A call that runs on its own, from its begin to its answer. -/
def process (s : Store) (carrier_id event_id : Text) : Store × Outcome :=
  let key := keyOf carrier_id event_id
  if key ∈ s.processed_events then (s, .Duplicate) else (s.add key, .Applied)

/-! ## A call alone -/

/-- The actions of a call in turn. The one that is not for its branch does nothing. -/
def wholeCall (i : Nat) (carrier_id event_id : Text) : List Event :=
  [.call carrier_id event_id, .act i .insert, .act i .notify, .act i .commit, .act i .rollback,
    .act i .reply]

/-- The call that `act` moves is the last one. -/
theorem step_last (tables : Store) (calls : List Handling) (h : Handling) (a : Action) :
    step ⟨tables, calls ++ [h]⟩ (.act calls.length a) =
      match move ⟨tables, calls ++ [h]⟩ h a with
      | none => (⟨tables, calls ++ [h]⟩, none)
      | some (tables', stage) => (⟨tables', calls ++ [{ h with stage }]⟩, answerOf stage) := by
  simp only [step, List.getElem?_concat_length]
  cases move ⟨tables, calls ++ [h]⟩ h a with
  | none => rfl
  | some x => simp

theorem insertKey_alone (tables : Store) {calls : List Handling} {carrier_id event_id : Text}
    (hfree : holders (keyOf carrier_id event_id) calls = 0) :
    insertKey ⟨tables, calls ++ [⟨carrier_id, event_id, .began⟩]⟩ (keyOf carrier_id event_id) =
      if keyOf carrier_id event_id ∈ tables.processed_events then some .conflicted
      else some .inserted := by
  have hnobody : (calls ++ [(⟨carrier_id, event_id, .began⟩ : Handling)]).any
      (fun g => g.holds && decide (g.key = keyOf carrier_id event_id)) = false := by
    unfold holders at hfree
    rw [List.countP_eq_zero] at hfree
    rw [List.any_append, Bool.or_eq_false_iff]
    refine ⟨List.any_eq_false.mpr hfree, ?_⟩
    simp [Handling.holds]
  unfold insertKey
  simp only [hnobody, Bool.false_eq_true, if_false]

/-- When nobody holds its key, the actions of a call in turn are the call. -/
theorem a_call_alone_is_its_body {s : State} {carrier_id event_id : Text}
    (hfree : holders (keyOf carrier_id event_id) s.calls = 0) :
    run step s (wholeCall s.calls.length carrier_id event_id) =
      { tables := (process s.tables carrier_id event_id).1,
        calls := s.calls ++
          [⟨carrier_id, event_id, .returned (process s.tables carrier_id event_id).2⟩] } := by
  have hins := insertKey_alone s.tables hfree
  have hcall : (step s (.call carrier_id event_id)).1 =
      ⟨s.tables, s.calls ++ [⟨carrier_id, event_id, .began⟩]⟩ := rfl
  unfold process
  by_cases hin : keyOf carrier_id event_id ∈ s.tables.processed_events
  · rw [if_pos hin] at hins
    simp [wholeCall, hcall, step_last, move, Handling.key, hins, hin]
  · rw [if_neg hin] at hins
    simp [wholeCall, hcall, step_last, move, Handling.key, hins, hin]

/-! ## Calls in turn -/

/-- The handler on one event. -/
def handle (s : Store) (e : Text × Text) : Store × Outcome := process s e.1 e.2

/-- The whole calls of a list of events, one after the other. -/
def inTurn : Nat → List (Text × Text) → List Event
  | _, [] => []
  | i, e :: rest => wholeCall i e.1 e.2 ++ inTurn (i + 1) rest

/-- The calls of a run, with what they returned. -/
def answered (h : List ((Text × Text) × Outcome)) : List Handling :=
  h.map (fun x => ⟨x.1.1, x.1.2, .returned x.2⟩)

theorem holders_answered (k : Text) (h : List ((Text × Text) × Outcome)) :
    holders k (answered h) = 0 := by
  unfold holders answered
  rw [List.countP_eq_zero]
  intro g hg
  obtain ⟨x, _, rfl⟩ := List.mem_map.mp hg
  simp [Handling.holds]

/-- Calls in turn are the runs of `handle`. -/
theorem calls_in_turn (tables : Store) (before : List ((Text × Text) × Outcome))
    (events : List (Text × Text)) :
    run step ⟨tables, answered before⟩ (inTurn before.length events) =
      ⟨run handle tables events, answered (before ++ trace handle tables events)⟩ := by
  induction events generalizing tables before with
  | nil => simp [inTurn]
  | cons e rest ih =>
    have halone := a_call_alone_is_its_body (s := ⟨tables, answered before⟩)
      (holders_answered (keyOf e.1 e.2) before)
    have hlen : (answered before).length = before.length := List.length_map _
    have hnext : answered before ++ [⟨e.1, e.2, .returned (process tables e.1 e.2).2⟩] =
        answered (before ++ [(e, (handle tables e).2)]) := by
      simp [answered, handle]
    have hih := ih (handle tables e).1 (before ++ [(e, (handle tables e).2)])
    simp only [hlen, hnext] at halone
    rw [inTurn, run_append, halone]
    simp only [List.length_append, List.length_singleton, List.append_assoc,
      List.singleton_append] at hih
    exact hih

/-! ## Events that share a key -/

/-- The two events differ in where they split one text at a colon. -/
def Clash (p q : Text × Text) : Prop :=
  ∃ x, q.1 = p.1 ++ ":" ++ x ∧ p.2 = x ++ ":" ++ q.2

theorem val_colon : (Text.lit ":").val = ":" := Text.val_lit (by decide +kernel)

theorem clash_key {p q : Text × Text} (h : Clash p q) : keyOf p.1 p.2 = keyOf q.1 q.2 := by
  obtain ⟨x, hq, hp⟩ := h
  rw [Text.ext_iff]
  simp only [keyOf, hq, hp, Text.val_append, String.append_assoc]

theorem clash_ne {p q : Text × Text} (h : Clash p q) : p ≠ q := by
  rintro rfl
  obtain ⟨x, hx, _⟩ := h
  have hlen := congrArg (fun s : Text => s.val.toList.length) hx
  simp only [Text.val_append, val_colon, String.toList_append, List.length_append] at hlen
  simp at hlen
  omega

/-- Two parts around a colon are the parts of another split, or one of the splits is later. -/
theorem split_colon {a b c d : List Char} (h : a ++ ':' :: b = c ++ ':' :: d) :
    (a = c ∧ b = d) ∨ (∃ x, c = a ++ ':' :: x ∧ b = x ++ ':' :: d) ∨
      ∃ x, a = c ++ ':' :: x ∧ d = x ++ ':' :: b := by
  rcases List.append_eq_append_iff.mp h with ⟨x, hc, hb⟩ | ⟨x, ha, hd⟩
  · cases x with
    | nil =>
      rw [List.nil_append, List.cons.injEq] at hb
      exact Or.inl ⟨by rw [hc, List.append_nil], hb.2⟩
    | cons y x =>
      rw [List.cons_append, List.cons.injEq] at hb
      obtain ⟨rfl, hb⟩ := hb
      exact Or.inr (Or.inl ⟨x, hc, hb⟩)
  · cases x with
    | nil =>
      rw [List.nil_append, List.cons.injEq] at hd
      exact Or.inl ⟨by rw [ha, List.append_nil], hd.2.symm⟩
    | cons y x =>
      rw [List.cons_append, List.cons.injEq] at hd
      obtain ⟨rfl, hd⟩ := hd
      exact Or.inr (Or.inr ⟨x, ha, hd⟩)

theorem clash_of_lists {p q : Text × Text} {x : List Char}
    (hq : q.1.val.toList = p.1.val.toList ++ ':' :: x)
    (hp : p.2.val.toList = x ++ ':' :: q.2.val.toList) : Clash p q := by
  have hx : NoNul (String.ofList x) := by
    intro c hc
    rw [String.toList_ofList] at hc
    refine p.2.no_nul c ?_
    rw [hp]
    exact List.mem_append_left _ hc
  refine ⟨⟨String.ofList x, hx⟩, ?_, ?_⟩
  · rw [Text.ext_iff, ← String.toList_inj, hq]
    simp [val_colon]
  · rw [Text.ext_iff, ← String.toList_inj, hp]
    simp [val_colon]

/-- Two events share a key exactly when they are one event or clash. -/
theorem keyOf_eq_iff {p q : Text × Text} :
    keyOf p.1 p.2 = keyOf q.1 q.2 ↔ p = q ∨ Clash p q ∨ Clash q p := by
  constructor
  · intro h
    have hlists : p.1.val.toList ++ ':' :: p.2.val.toList =
        q.1.val.toList ++ ':' :: q.2.val.toList := by
      have h := congrArg (fun k : Text => k.val.toList) h
      simpa [keyOf, val_colon] using h
    rcases split_colon hlists with ⟨h1, h2⟩ | ⟨x, hq, hp⟩ | ⟨x, hp, hq⟩
    · exact Or.inl (Prod.ext (Text.ext (String.toList_inj.mp h1))
        (Text.ext (String.toList_inj.mp h2)))
    · exact Or.inr (Or.inl (clash_of_lists hq hp))
    · exact Or.inr (Or.inr (clash_of_lists hp hq))
  · rintro (rfl | h | h)
    · rfl
    · exact clash_key h
    · exact (clash_key h).symm

/-- An event whose carrier has no colon clashes with no event after it. -/
theorem no_clash_of_no_colon {p q : Text × Text} (h : ':' ∉ q.1.val.toList) : ¬ Clash p q := by
  rintro ⟨x, hq, _⟩
  refine h ?_
  rw [hq]
  simp [val_colon]

/-! ## The law of the events -/

/-- The calls in turn apply each event once: the first call of an event is `Applied`, each
later one is `Duplicate`, and there are as many applied calls as events. -/
structure ExactlyOnce (events : List (Text × Text)) : Prop where
  each : ∀ before e later, events = before ++ e :: later →
    (handle (run handle Store.empty before) e).2 = if e ∈ before then .Duplicate else .Applied
  applied : (trace handle Store.empty events).countP (fun x => decide (x.2 = .Applied)) =
    events.toFinset.card

theorem handle_answer (s : Store) (e : Text × Text) :
    (handle s e).2 = if keyOf e.1 e.2 ∈ s.processed_events then .Duplicate else .Applied := by
  unfold handle process
  dsimp only
  split <;> rfl

theorem mem_handle {s : Store} {e : Text × Text} {k : Text} :
    k ∈ (handle s e).1.processed_events ↔ k ∈ s.processed_events ∨ k = keyOf e.1 e.2 := by
  unfold handle process
  dsimp only
  split
  · rename_i hin
    constructor
    · exact fun h => Or.inl h
    · rintro (h | rfl)
      · exact h
      · exact hin
  · simp [Store.add]

/-- The ledger holds the keys of the events so far. -/
theorem mem_ledger (events : List (Text × Text)) (k : Text) :
    k ∈ (run handle Store.empty events).processed_events ↔ ∃ e ∈ events, keyOf e.1 e.2 = k := by
  induction events using List.reverseRecOn with
  | nil => simp [Store.empty]
  | append_singleton events e ih =>
    rw [run_snoc, mem_handle, ih]
    constructor
    · rintro (⟨d, hd, hk⟩ | hk)
      · exact ⟨d, List.mem_append_left _ hd, hk⟩
      · exact ⟨e, by simp, hk.symm⟩
    · rintro ⟨d, hd, hk⟩
      rcases List.mem_append.mp hd with hd | hd
      · exact Or.inl ⟨d, hd, hk⟩
      · rw [List.mem_singleton] at hd
        exact Or.inr (by rw [← hk, hd])

/-- When each event gets its answer, the applied calls are as many as the events. -/
theorem applied_of_each {events : List (Text × Text)}
    (h : ∀ before e later, events = before ++ e :: later →
      (handle (run handle Store.empty before) e).2 = if e ∈ before then .Duplicate else .Applied) :
    (trace handle Store.empty events).countP (fun x => decide (x.2 = .Applied)) =
      events.toFinset.card := by
  induction events using List.reverseRecOn with
  | nil => simp
  | append_singleton events e ih =>
    have hold := ih (fun before d later hd => h before d (later ++ [e]) (by simp [hd]))
    have hlast := h events e [] rfl
    rw [trace_snoc, List.countP_append, hold, hlast]
    have hset : (events ++ [e]).toFinset = insert e events.toFinset := by
      rw [List.toFinset_append, Finset.union_comm]
      rfl
    rw [hset]
    by_cases hin : e ∈ events
    · rw [if_pos hin, Finset.insert_eq_of_mem (List.mem_toFinset.mpr hin)]
      simp
    · rw [if_neg hin, Finset.card_insert_of_notMem (fun he => hin (List.mem_toFinset.mp he))]
      simp

/-- Calls in turn apply each event exactly once, if and only if no two of the events clash. -/
theorem events_are_applied_once_unless_they_clash (events : List (Text × Text)) :
    ExactlyOnce events ↔ ∀ p ∈ events, ∀ q ∈ events, ¬ Clash p q := by
  constructor
  · intro honce p hp q hq hclash
    have hkey := clash_key hclash
    have hne := clash_ne hclash
    -- the later of the two events meets the key of the earlier one
    have hmeets : ∀ (d e : Text × Text) (before later : List (Text × Text)),
        events = before ++ e :: later → e ∉ before → d ∈ before →
        keyOf d.1 d.2 = keyOf e.1 e.2 → False := by
      intro d e before later hsplit hfirst hd hk
      have hans := honce.each before e later hsplit
      rw [handle_answer, if_pos ((mem_ledger before _).mpr ⟨d, hd, hk⟩), if_neg hfirst] at hans
      cases hans
    obtain ⟨before, later, hsplit, hfirst⟩ := List.eq_append_cons_of_mem hp
    rw [hsplit, List.mem_append, List.mem_cons] at hq
    rcases hq with hq | hq | hq
    · exact hmeets q p before later hsplit hfirst hq hkey.symm
    · exact hne hq.symm
    · by_cases hqb : q ∈ before
      · exact hmeets q p before later hsplit hfirst hqb hkey.symm
      · obtain ⟨mid, tail, hlater, hmid⟩ := List.eq_append_cons_of_mem hq
        refine hmeets p q (before ++ p :: mid) tail ?_ ?_ ?_ hkey
        · rw [hsplit, hlater]
          simp
        · simp [hqb, hmid, hne.symm]
        · simp
  · intro hno
    have heach : ∀ before e later, events = before ++ e :: later →
        (handle (run handle Store.empty before) e).2 =
          if e ∈ before then .Duplicate else .Applied := by
      intro before e later hsplit
      have hin : keyOf e.1 e.2 ∈ (run handle Store.empty before).processed_events ↔ e ∈ before := by
        rw [mem_ledger]
        constructor
        · rintro ⟨d, hd, hk⟩
          have hde : d ∈ events ∧ e ∈ events := by
            rw [hsplit]
            exact ⟨List.mem_append_left _ hd, by simp⟩
          rcases keyOf_eq_iff.mp hk with rfl | hc | hc
          · exact hd
          · exact absurd hc (hno d hde.1 e hde.2)
          · exact absurd hc (hno e hde.2 d hde.1)
        · intro hd
          exact ⟨e, hd, rfl⟩
      rw [handle_answer]
      simp only [hin]
    exact ⟨heach, applied_of_each heach⟩

/-- Two events of two carriers with one key: the second is lost. -/
theorem a_colon_swallows_an_event :
    ¬ ExactlyOnce [("a:b", "c"), ("a", "b:c")] := by
  intro honce
  have hans := honce.each [("a:b", "c")] ("a", "b:c") [] rfl
  have hlost : (handle (run handle Store.empty [("a:b", "c")]) ("a", "b:c")).2 = .Duplicate := by
    decide +kernel
  have hfirst : (("a", "b:c") : Text × Text) ∉ [(("a:b", "c") : Text × Text)] := by decide +kernel
  rw [hlost, if_neg hfirst] at hans
  cases hans

end skip_locked.idempotency
