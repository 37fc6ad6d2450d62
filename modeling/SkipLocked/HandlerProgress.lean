-- The law of progress of the idempotent handler: a call waits only for the call
-- that holds its key, and that one never waits. So every call that has not
-- crashed can finish, with the effect of its key in the tables, once.
import SkipLocked.Idempotency
import Mathlib.Algebra.GroupWithZero.Nat

open event_runs

namespace skip_locked.idempotency

/-! ## The steps that are left -/

/-- The steps that a call has left in its longest way out. -/
def Stage.left : Stage → Nat
  | .began => 4
  | .inserted => 3
  | .notified => 2
  | .conflicted => 2
  | .committed => 1
  | .rolled_back => 1
  | .returned _ => 0
  | .crashed => 0

def work (s : State) : Nat := (s.calls.map (fun h => h.stage.left)).sum

/-- A step of a call that does not crash. -/
def Goes : Event → Prop
  | .act _ a => a ≠ .crash
  | .call _ _ => False

theorem left_of_move {s : State} {h : Handling} {a : Action} {tables : Store} {stage : Stage}
    (hm : move s h a = some (tables, stage)) (ha : a ≠ .crash) :
    stage.left < h.stage.left ∧ stage ≠ .crashed := by
  cases a with
  | insert =>
    simp only [move] at hm
    split at hm
    · rename_i hbegan
      obtain ⟨st, hins, he⟩ := Option.map_eq_some_iff.mp hm
      cases he
      rw [hbegan]
      rcases insertKey_ok hins with ⟨rfl, _⟩ | ⟨rfl, _, _⟩
      · exact ⟨by decide, by decide⟩
      · exact ⟨by decide, by decide⟩
    · cases hm
  | notify =>
    simp only [move] at hm
    split at hm
    · rename_i hs
      cases hm
      rw [hs]
      exact ⟨by decide, by decide⟩
    · cases hm
  | commit =>
    simp only [move] at hm
    split at hm
    · rename_i hs
      cases hm
      rw [hs]
      exact ⟨by decide, by decide⟩
    · cases hm
  | rollback =>
    simp only [move] at hm
    split at hm
    · rename_i hs
      cases hm
      rw [hs]
      exact ⟨by decide, by decide⟩
    · cases hm
  | reply =>
    simp only [move] at hm
    split at hm
    · rename_i hs
      cases hm
      rw [hs]
      exact ⟨by decide, by decide⟩
    · rename_i hs
      cases hm
      rw [hs]
      exact ⟨by decide, by decide⟩
    · cases hm
  | crash => exact absurd rfl ha

theorem step_moved {s : State} {i : Nat} {h : Handling} (hi : s.calls[i]? = some h) {a : Action}
    {tables : Store} {stage : Stage} (hm : move s h a = some (tables, stage)) :
    (step s (.act i a)).1 = { tables, calls := s.calls.set i { h with stage } } := by
  simp only [step, hi, hm]

theorem work_set {s : State} {i : Nat} {h : Handling} (hi : s.calls[i]? = some h) (tables : Store)
    (stage : Stage) :
    work { tables, calls := s.calls.set i { h with stage } } + h.stage.left =
      work s + stage.left := by
  obtain ⟨hlt, hget⟩ := List.getElem?_eq_some_iff.mp hi
  have hsplit : s.calls = s.calls.take i ++ h :: s.calls.drop (i + 1) := by
    rw [← hget, List.getElem_cons_drop, List.take_append_drop]
  have hset : s.calls.set i { h with stage } =
      s.calls.take i ++ { h with stage } :: s.calls.drop (i + 1) := by
    rw [List.set_eq_take_append_cons_drop, if_pos hlt]
  unfold work
  rw [hset]
  nth_rewrite 3 [hsplit]
  simp only [List.map_append, List.map_cons, List.sum_append, List.sum_cons]
  omega

/-! ## Somebody goes on -/

/-- The call has returned, or crashed. -/
def Stage.Over : Stage → Prop
  | .returned _ => True
  | .crashed => True
  | _ => False

/-- The call has a step that is no crash. -/
def CanGo (s : State) (h : Handling) : Prop := ∃ a, a ≠ .crash ∧ (move s h a).isSome = true

/-- A call that is not over can go on, or it waits for the call that holds its key. -/
theorem goes_or_waits (s : State) {h : Handling} (hopen : ¬ h.stage.Over) :
    CanGo s h ∨ (h.stage = .began ∧ ∃ g ∈ s.calls, g.holds = true ∧ g.key = h.key) := by
  cases hs : h.stage with
  | began =>
    cases hins : insertKey s h.key with
    | some st => exact Or.inl ⟨.insert, by decide, by simp [move, hs, hins]⟩
    | none =>
      refine Or.inr ⟨rfl, ?_⟩
      unfold insertKey at hins
      split at hins
      · cases hins
      split at hins
      · rename_i hheld
        obtain ⟨g, hg, hboth⟩ := List.any_eq_true.mp hheld
        rw [Bool.and_eq_true, decide_eq_true_eq] at hboth
        exact ⟨g, hg, hboth⟩
      · cases hins
  | inserted => exact Or.inl ⟨.notify, by decide, by simp [move, hs]⟩
  | notified => exact Or.inl ⟨.commit, by decide, by simp [move, hs]⟩
  | conflicted => exact Or.inl ⟨.rollback, by decide, by simp [move, hs]⟩
  | committed => exact Or.inl ⟨.reply, by decide, by simp [move, hs]⟩
  | rolled_back => exact Or.inl ⟨.reply, by decide, by simp [move, hs]⟩
  | returned o =>
    rw [hs] at hopen
    exact absurd trivial hopen
  | crashed =>
    rw [hs] at hopen
    exact absurd trivial hopen

/-- The holder of a key never waits. -/
theorem holder_goes (s : State) {g : Handling} (hg : g.holds = true) : CanGo s g := by
  unfold Handling.holds at hg
  rw [Bool.or_eq_true, decide_eq_true_eq, decide_eq_true_eq] at hg
  rcases hg with hs | hs
  · exact ⟨.notify, by decide, by simp [move, hs]⟩
  · exact ⟨.commit, by decide, by simp [move, hs]⟩

/-- While a call is not over, some call can go on. -/
theorem somebody_goes {s : State} (hopen : ¬ ∀ h ∈ s.calls, h.stage.Over) :
    ∃ (i : Nat) (h : Handling), s.calls[i]? = some h ∧ CanGo s h := by
  simp only [not_forall] at hopen
  obtain ⟨h, hmem, hopen⟩ := hopen
  rcases goes_or_waits s hopen with hgo | ⟨_, g, hg, hholds, _⟩
  · obtain ⟨i, hi⟩ := List.mem_iff_getElem?.mp hmem
    exact ⟨i, h, hi, hgo⟩
  · obtain ⟨i, hi⟩ := List.mem_iff_getElem?.mp hg
    exact ⟨i, g, hi, holder_goes s hholds⟩

/-! ## Everybody finishes -/

/-- The calls of `s` that have not crashed are still there, and still have not. -/
def Follows (s t : State) : Prop :=
  ∀ (i : Nat) (h : Handling), s.calls[i]? = some h → h.stage ≠ .crashed →
    ∃ stage, t.calls[i]? = some { h with stage } ∧ stage ≠ .crashed

theorem follows_set {s t : State} (hf : Follows s t) {k : Nat} {g : Handling}
    (hk : t.calls[k]? = some g) (tables : Store) {stage : Stage} (hstage : stage ≠ .crashed) :
    Follows s { tables, calls := t.calls.set k { g with stage } } := by
  intro i h hi hlive
  obtain ⟨now, hnow, hnot⟩ := hf i h hi hlive
  by_cases hik : k = i
  · subst hik
    rw [hk, Option.some.injEq] at hnow
    subst hnow
    refine ⟨stage, ?_, hstage⟩
    obtain ⟨hlt, _⟩ := List.getElem?_eq_some_iff.mp hk
    rw [List.getElem?_set_self hlt]
  · refine ⟨now, ?_, hnot⟩
    rw [List.getElem?_set_ne hik, hnow]

/-- While a call is not over, a step lowers the work. -/
theorem work_falls {s t : State} (h : Agrees t ∧ Follows s t)
    (hopen : ¬ ∀ h ∈ t.calls, h.stage.Over) :
    ∃ e, Goes e ∧ (Agrees (step t e).1 ∧ Follows s (step t e).1) ∧ work (step t e).1 < work t := by
  obtain ⟨i, g, hi, a, ha, hgo⟩ := somebody_goes hopen
  obtain ⟨⟨tables, stage⟩, hm⟩ := Option.isSome_iff_exists.mp hgo
  obtain ⟨hleft, hstage⟩ := left_of_move hm ha
  have hwork := work_set hi tables stage
  have hnext := step_moved hi hm
  refine ⟨.act i a, ha, ⟨agrees_step h.1 _, ?_⟩, ?_⟩
  · rw [hnext]
    exact follows_set h.2 hi tables hstage
  · rw [hnext]
    omega

/-- The effect of a call that has returned is in the tables, once. -/
theorem once_of_returned {s : State} (hs : Agrees s) {h : Handling} (hmem : h ∈ s.calls)
    {o : Outcome} (hret : h.stage = .returned o) :
    s.tables.processed_events.count h.key = 1 ∧ s.tables.notifications.count h.key = 1 := by
  have hone := hs.unique h.key
  have hsame := hs.balanced h.key
  have hpos : 0 < s.tables.processed_events.count h.key := by
    cases o with
    | Applied =>
      have hle := hs.applied h.key
      have happ : 0 < appliers h.key s.calls := by
        apply List.countP_pos_iff.mpr
        exact ⟨h, hmem, by simp [Handling.applied, hret]⟩
      omega
    | Duplicate => exact List.count_pos_iff.mpr (hs.known h hmem (Or.inr (Or.inr hret)))
  omega

/-- From every reachable state, steps of the calls alone, no more of them than the calls have
left and none of them a crash, bring each call that has not crashed to its answer, and its
key is then in the ledger once and has one effect. -/
theorem every_handler_can_finish (events : List Event) :
    let s := run step State.empty events
    ∃ acts, (∀ e ∈ acts, Goes e) ∧ acts.length ≤ work s ∧
      ∀ (i : Nat) (h : Handling), s.calls[i]? = some h → h.stage ≠ .crashed →
        ∃ o, (run step s acts).calls[i]? = some { h with stage := .returned o } ∧
          (run step s acts).tables.processed_events.count h.key = 1 ∧
          (run step s acts).tables.notifications.count h.key = 1 := by
  intro s
  have hstart : Agrees s ∧ Follows s s :=
    ⟨agrees_run events, fun i h hi hlive => ⟨h.stage, hi, hlive⟩⟩
  have hstep : ∀ t, Agrees t ∧ Follows s t → ¬ (∀ h ∈ t.calls, h.stage.Over) →
      ∃ e, Goes e ∧ (Agrees (step t e).1 ∧ Follows s (step t e).1) ∧
        work (step t e).1 < work t := fun t ht hopen => work_falls ht hopen
  obtain ⟨acts, hgoes, hlen, ⟨hagrees, hfollows⟩, hover⟩ := finishes hstep hstart
  refine ⟨acts, hgoes, hlen, ?_⟩
  intro i h hi hlive
  obtain ⟨stage, hnow, hnot⟩ := hfollows i h hi hlive
  have hmem := List.mem_of_getElem? hnow
  have hend := hover _ hmem
  cases stage with
  | returned o =>
    have honce := once_of_returned hagrees hmem rfl
    exact ⟨o, hnow, honce⟩
  | crashed => exact absurd rfl hnot
  | _ => exact absurd hend id

end skip_locked.idempotency
