-- The law of the pace: a loop that finds nothing does not spin. Each claim that
-- comes back empty, after the first, has taken a notification, a broken
-- listener or a whole poll interval.
import SkipLocked.Backstop

open jsonb postgres keyed_table event_runs

namespace skip_locked.worker

open claim

/-! ## The account of a run -/

/-- The wait of the idle loop may end with a listener that is broken. -/
def breaksListener : Event → Bool
  | .recv_failed => true
  | _ => false

/-- The claims that came back empty or still can, but the first one, those that a broken
listener let through and those that a notification woke. `n0` were sent before the run. -/
def charged (n0 : Nat) (tr : List (Event × Option Deal)) (s : Worker) : Int :=
  (tr.countP (fun x => emptyAnswer x.2) : Int) + due s - 1
    - (tr.countP (fun x => breaksListener x.1) : Int) - ((s.heard - n0 : Nat) : Int)

/-- Each claim that is charged has taken a poll interval. -/
structure Paced (cfg : WorkerConfig) (n0 : Nat) (c0 : Int) (tr : List (Event × Option Deal))
    (s : Worker) : Prop where
  buffered : Buffered s
  before : n0 ≤ s.db.notified
  listening : Listening s.phase → n0 ≤ s.heard
  waits : waitsFrom s ≤ s.clock
  paid : charged n0 tr s * micros cfg.poll_interval ≤ waitsFrom s - c0

theorem charged_snoc (n0 : Nat) (tr : List (Event × Option Deal)) (e : Event) (s s' : Worker)
    (d : Option Deal) :
    charged n0 (tr ++ [(e, d)]) s' = charged n0 tr s
      + ((if emptyAnswer d = true then 1 else 0) + due s' - due s)
      - (if breaksListener e = true then 1 else 0)
      - (((s'.heard - n0 : Nat) : Int) - ((s.heard - n0 : Nat) : Int)) := by
  unfold charged
  rw [List.countP_append, List.countP_append, List.countP_singleton, List.countP_singleton]
  push_cast
  omega

theorem waitsFrom_of_idle {s : Worker} {since : Int} (h : s.phase = .idle since) :
    waitsFrom s = since := by
  unfold waitsFrom
  rw [h]

theorem waitsFrom_of_away {s : Worker} (h : ¬ Awaits s.phase) : waitsFrom s = s.clock := by
  unfold waitsFrom
  split
  · rename_i since hp
    rw [hp] at h
    exact absurd trivial h
  · rfl

theorem due_of_idle {s : Worker} {since : Int} (h : s.phase = .idle since) :
    due s = if s.orphan = true then 1 else 0 := by
  unfold due
  rw [h]
  exact Nat.zero_add _

theorem due_of_unsent {s : Worker} (h : s.phase = .claiming .unsent) :
    due s = 1 + if s.orphan = true then 1 else 0 := by
  unfold due
  rw [h]
  rfl

/-- Nothing more is charged, and no time is given back. -/
theorem paid_of_le {m x x' w w' c0 : Int} (hm : 0 ≤ m) (hx : x' ≤ x) (hw : w ≤ w')
    (h : x * m ≤ w - c0) : x' * m ≤ w' - c0 := by
  have hmul : x' * m ≤ x * m := Int.mul_le_mul_of_nonneg_right hx hm
  omega

/-- One more is charged, for a whole interval. -/
theorem paid_of_interval {m x x' w w' c0 : Int} (hm : 0 ≤ m) (hx : x' ≤ x + 1) (hw : w + m ≤ w')
    (h : x * m ≤ w - c0) : x' * m ≤ w' - c0 := by
  have hmul : x' * m ≤ (x + 1) * m := Int.mul_le_mul_of_nonneg_right hx hm
  rw [Int.add_mul, Int.one_mul] at hmul
  omega

theorem waits_step {cfg : WorkerConfig} {s s' : Worker} {e : Event} {d : Option Deal}
    (hp : Paces cfg s e s' d) (h : waitsFrom s ≤ s.clock) : waitsFrom s' ≤ s'.clock := by
  cases hp with
  | ticked usecs hphase _ _ hclock =>
    unfold waitsFrom at h ⊢
    rw [hphase, hclock]
    split at h <;> omega
  | connected _ hto _ _ _ => exact Int.le_of_eq (waitsFrom_of_away (by rw [hto]; exact id))
  | woke _ hto _ _ _ => exact Int.le_of_eq (waitsFrom_of_away (by rw [hto]; exact id))
  | emptied _ hidle _ _ hclock =>
    rw [waitsFrom_of_idle hidle, hclock]
  | spent _ _ hclock hmoved _ =>
    rcases hmoved with hphase | haway | ⟨_, hnow⟩
    · unfold waitsFrom at h ⊢
      rw [hphase, hclock]
      exact h
    · exact Int.le_of_eq (waitsFrom_of_away haway)
    · rw [hnow, hclock]

theorem listening_step {cfg : WorkerConfig} {s s' : Worker} {e : Event} {d : Option Deal} {n0 : Nat}
    (hp : Paces cfg s e s' d) (hbefore : n0 ≤ s.db.notified)
    (h : Listening s.phase → n0 ≤ s.heard) (hl : Listening s'.phase) : n0 ≤ s'.heard := by
  cases hp with
  | ticked usecs hphase _ hheard _ =>
    rw [hheard]
    exact h (hphase ▸ hl)
  | connected _ _ _ hheard _ =>
    rw [hheard]
    exact hbefore
  | woke hidle _ _ _ hwhy =>
    have hn := h (by rw [hidle]; trivial)
    omega
  | emptied hfrom _ _ hheard _ =>
    rw [hheard]
    exact h (by rw [hfrom]; trivial)
  | spent _ hheard _ _ hback =>
    rw [hheard]
    exact h (hback hl)

/-- One event keeps the account. -/
theorem paid_step {cfg : WorkerConfig} {s s' : Worker} {e : Event} {d : Option Deal} {n0 : Nat}
    {c0 : Int} {tr : List (Event × Option Deal)} (hp : Paces cfg s e s' d)
    (h : Paced cfg n0 c0 tr s) :
    charged n0 (tr ++ [(e, d)]) s' * micros cfg.poll_interval ≤ waitsFrom s' - c0 := by
  have hm := micros_nonneg cfg.poll_interval
  have hwaits := h.waits
  have hheard := h.buffered.heard
  have hsnoc := charged_snoc n0 tr e s s' d
  have hnone : ¬ emptyAnswer none = true := fun hno => by cases hno
  cases hp with
  | ticked usecs hphase horphan hkept hclock =>
    have hdue : due s' = due s := by
      unfold due
      rw [hphase, horphan]
    refine paid_of_le hm ?_ ?_ h.paid
    · rw [hsnoc, hdue, hkept, if_neg hnone]
      split <;> omega
    · unfold waitsFrom
      rw [hphase, hclock]
      split <;> omega
  | connected hfrom hto horphan hnow hclock =>
    have hdue : due s' = due s := by
      unfold due
      rw [hfrom, hto, horphan]
      rfl
    refine paid_of_le hm ?_ ?_ h.paid
    · rw [hsnoc, hdue, hnow, if_neg hnone]
      split <;> omega
    · have hended : waitsFrom s' = s'.clock :=
        waitsFrom_of_away (by rw [hto]; exact id)
      rw [hended, hclock]
      exact hwaits
  | @woke e since _ hidle hto horphan hclock hwhy =>
    have hdue : due s' = due s + 1 := by
      rw [due_of_idle hidle, due_of_unsent hto, horphan]
      omega
    have hlisten : n0 ≤ s.heard := h.listening (by rw [hidle]; trivial)
    have hstarted : waitsFrom s = since := waitsFrom_of_idle hidle
    have hended : waitsFrom s' = s'.clock :=
      waitsFrom_of_away (by rw [hto]; exact id)
    rcases hwhy with ⟨rfl, htaken⟩ | ⟨rfl, hkept⟩ | ⟨hinterval, hkept⟩
    · -- the notification pays
      refine paid_of_le hm ?_ (by omega) h.paid
      rw [hsnoc, hdue, htaken, if_neg hnone]
      split <;> omega
    · refine paid_of_le hm ?_ (by omega) h.paid
      have hbroke : breaksListener .recv_failed = true := rfl
      rw [hsnoc, hdue, hkept, if_neg hnone, if_pos hbroke]
      omega
    · refine paid_of_interval hm ?_ (by omega) h.paid
      rw [hsnoc, hdue, hkept, if_neg hnone]
      split <;> omega
  | emptied hfrom hidle horphan hkept hclock =>
    have hdue : due s' = due s := by
      unfold due
      rw [hfrom, hidle, horphan]
      rfl
    refine paid_of_le hm ?_ ?_ h.paid
    · rw [hsnoc, hdue, hkept, if_neg hnone]
      split <;> omega
    · rw [waitsFrom_of_idle hidle]
      exact hwaits
  | spent hdue hkept hclock hmoved _ =>
    refine paid_of_le hm ?_ ?_ h.paid
    · rw [hsnoc, hkept]
      by_cases hempty : emptyAnswer d = true
      · rw [if_pos hempty] at hdue ⊢
        split <;> omega
      · rw [if_neg hempty] at hdue ⊢
        split <;> omega
    · rcases hmoved with hphase | haway | ⟨_, hnow⟩
      · unfold waitsFrom
        rw [hphase, hclock]
      · rw [waitsFrom_of_away haway, hclock]
        exact hwaits
      · rw [hnow]
        exact hwaits

theorem paced_step (cfg : WorkerConfig) {n0 : Nat} {c0 : Int} {tr : List (Event × Option Deal)}
    {s : Worker} (h : Paced cfg n0 c0 tr s) (e : Event) :
    Paced cfg n0 c0 (tr ++ [(e, (step cfg s e).2)]) (step cfg s e).1 where
  buffered := buffered_step cfg h.buffered e
  before := Nat.le_trans h.before (notified_mono cfg h.buffered.good e)
  listening := listening_step (step_paces cfg s e) h.before h.listening
  waits := waits_step (step_paces cfg s e) h.waits
  paid := paid_step (step_paces cfg s e) h

theorem paced_start (cfg : WorkerConfig) (calls : List Call) (clock : Int) :
    Paced cfg (after calls).notified clock [] (start cfg (after calls) clock) := by
  have hphase : (start cfg (after calls) clock).phase = .connecting ∨
      (start cfg (after calls) clock).phase = .panicked := by
    unfold start
    dsimp only
    split
    · exact Or.inl rfl
    · exact Or.inr rfl
  have hnow : waitsFrom (start cfg (after calls) clock) = clock :=
    waitsFrom_of_away (by rcases hphase with hp | hp <;> (rw [hp]; exact id))
  have hdue : due (start cfg (after calls) clock) ≤ 1 := by
    unfold due
    rcases hphase with hp | hp
    · rw [hp]
      exact Nat.le_refl _
    · rw [hp]
      exact Nat.zero_le _
  refine ⟨⟨after_good calls, Nat.zero_le _⟩, Nat.le_refl _, ?_, Int.le_of_eq hnow, ?_⟩
  · intro hl
    rcases hphase with hp | hp
    · rw [hp] at hl
      exact absurd hl id
    · rw [hp] at hl
      exact absurd hl id
  · have hzero : charged (after calls).notified [] (start cfg (after calls) clock) ≤ 0 := by
      unfold charged
      rw [List.countP_nil, List.countP_nil]
      omega
    refine paid_of_le (micros_nonneg _) hzero (Int.le_of_eq hnow.symm) ?_
    omega

/-! ## The law -/

/-- In every run of a worker with any other clients: each claim that came back empty, but the
first one, one for each notification sent in the run and one for each broken listener, has
taken a whole poll interval. -/
theorem an_idle_loop_is_paced (cfg : WorkerConfig) (calls : List Call) (clock : Int)
    (events : List Event) :
    let init := start cfg (after calls) clock
    let s := run (step cfg) init events
    let empty := (trace (step cfg) init events).countP (fun x => emptyAnswer x.2)
    let sent := s.db.notified - init.db.notified
    ((empty : Int) - 1 - sent - events.countP breaksListener) * micros cfg.poll_interval ≤
      s.clock - clock := by
  intro init s empty sent
  have hpaced : Paced cfg (after calls).notified clock (trace (step cfg) init events) s :=
    run_induction (paced_start cfg calls clock) (fun _ _ e h => paced_step cfg h e) events
  have hbroken : (trace (step cfg) init events).countP (fun x => breaksListener x.1) =
      events.countP breaksListener := by
    have hfst := congrArg (List.countP breaksListener) (trace_map_fst (step cfg) init events)
    rw [List.countP_map] at hfst
    exact hfst
  refine paid_of_le (micros_nonneg _) ?_ hpaced.waits hpaced.paid
  have hheard := hpaced.buffered.heard
  have hbefore := hpaced.before
  have hsent : sent = s.db.notified - (after calls).notified := rfl
  have hempty : empty = (trace (step cfg) init events).countP (fun x => emptyAnswer x.2) := rfl
  unfold charged
  rw [hbroken, ← hempty, hsent]
  omega

end skip_locked.worker
