-- Runs of a machine that answers each input. The trace of a run is the list
-- of the inputs with their answers. A law of all runs is proved by one
-- induction here, and each machine gives only its step.
import Mathlib.Data.List.Induction

namespace event_runs

variable {σ ι ο : Type} (step : σ → ι → σ × ο)

/-- The state after a list of inputs. -/
def run (s : σ) : List ι → σ
  | [] => s
  | i :: rest => run (step s i).1 rest

/-- The inputs with their answers, oldest first. -/
def trace (s : σ) : List ι → List (ι × ο)
  | [] => []
  | i :: rest => (i, (step s i).2) :: trace (step s i).1 rest

/-- The inputs, each with the state that it meets, oldest first. -/
def met (s : σ) : List ι → List (σ × ι)
  | [] => []
  | i :: rest => (s, i) :: met (step s i).1 rest

/-- Each step of the run meets `Q` in the state that it starts from. -/
def EveryStep (Q : σ → ι → Prop) (s : σ) : List ι → Prop
  | [] => True
  | i :: rest => Q s i ∧ EveryStep Q (step s i).1 rest

instance decidableEveryStep (Q : σ → ι → Prop) [∀ s i, Decidable (Q s i)] (s : σ) :
    (is : List ι) → Decidable (EveryStep step Q s is)
  | [] => isTrue trivial
  | i :: rest =>
    have := decidableEveryStep Q (step s i).1 rest
    inferInstanceAs (Decidable (Q s i ∧ EveryStep step Q (step s i).1 rest))

@[simp] theorem run_nil (s : σ) : run step s [] = s := rfl

@[simp] theorem run_cons (s : σ) (i : ι) (rest : List ι) :
    run step s (i :: rest) = run step (step s i).1 rest := rfl

@[simp] theorem trace_nil (s : σ) : trace step s [] = [] := rfl

@[simp] theorem trace_cons (s : σ) (i : ι) (rest : List ι) :
    trace step s (i :: rest) = (i, (step s i).2) :: trace step (step s i).1 rest := rfl

theorem run_append (s : σ) (a b : List ι) :
    run step s (a ++ b) = run step (run step s a) b := by
  induction a generalizing s with
  | nil => rfl
  | cons i rest ih => exact ih (step s i).1

theorem trace_append (s : σ) (a b : List ι) :
    trace step s (a ++ b) = trace step s a ++ trace step (run step s a) b := by
  induction a generalizing s with
  | nil => rfl
  | cons i rest ih => simp [ih]

theorem run_snoc (s : σ) (a : List ι) (i : ι) :
    run step s (a ++ [i]) = (step (run step s a) i).1 := run_append step s a [i]

theorem trace_snoc (s : σ) (a : List ι) (i : ι) :
    trace step s (a ++ [i]) = trace step s a ++ [(i, (step (run step s a) i).2)] :=
  trace_append step s a [i]

theorem trace_map_fst (s : σ) (is : List ι) : (trace step s is).map Prod.fst = is := by
  induction is generalizing s with
  | nil => rfl
  | cons i rest ih => simp [ih]

theorem met_snoc (s : σ) (a : List ι) (i : ι) :
    met step s (a ++ [i]) = met step s a ++ [(run step s a, i)] := by
  induction a generalizing s with
  | nil => rfl
  | cons k rest ih => simp [met, ih]

/-- What the answers tell of a run is what the inputs and their states tell, when it is so at
each step. -/
theorem flatMap_met {β : Type} {f : σ × ι → List β} {g : ι × ο → List β}
    (h : ∀ t i, f (t, i) = g (i, (step t i).2)) (s : σ) (is : List ι) :
    (met step s is).flatMap f = (trace step s is).flatMap g := by
  induction is generalizing s with
  | nil => rfl
  | cons i rest ih =>
    rw [met, trace, List.flatMap_cons, List.flatMap_cons, h, ih]

/-- An answer in the trace is the answer of the step at that place. -/
theorem trace_split {s : σ} {is : List ι} {pre post : List (ι × ο)} {e : ι × ο}
    (h : trace step s is = pre ++ e :: post) :
    ∃ a b, is = a ++ e.1 :: b ∧ trace step s a = pre ∧ e.2 = (step (run step s a) e.1).2 ∧
      trace step (step (run step s a) e.1).1 b = post := by
  induction pre generalizing s is with
  | nil =>
    cases is with
    | nil => simp at h
    | cons i rest =>
      simp only [trace_cons, List.nil_append, List.cons.injEq] at h
      obtain ⟨rfl, hpost⟩ := h
      exact ⟨[], rest, rfl, rfl, rfl, hpost⟩
  | cons d pre ih =>
    cases is with
    | nil => simp at h
    | cons i rest =>
      simp only [trace_cons, List.cons_append, List.cons.injEq] at h
      obtain ⟨rfl, hrest⟩ := h
      obtain ⟨a, b, hab, ha, he, hb⟩ := ih hrest
      exact ⟨i :: a, b, by simp [hab], by simp [ha], he, hb⟩

/-- `i` is the last input of the run whose step meets `Q`. -/
def LastStep (Q : σ → ι → Prop) (s : σ) (is : List ι) (i : ι) : Prop :=
  ∃ a b, is = a ++ i :: b ∧ Q (run step s a) i ∧
    EveryStep step (fun t k => ¬ Q t k) (run step s (a ++ [i])) b

/-! ## The induction rules -/

variable {step}

/-- What holds of the empty trace, and of a trace with one step more, holds of every run. -/
theorem run_induction {P : List (ι × ο) → σ → Prop} {s : σ} (h0 : P [] s)
    (hstep : ∀ tr t i, P tr t → P (tr ++ [(i, (step t i).2)]) (step t i).1) (is : List ι) :
    P (trace step s is) (run step s is) := by
  induction is using List.reverseRecOn with
  | nil => exact h0
  | append_singleton is i ih =>
    rw [run_snoc, trace_snoc]
    exact hstep _ _ _ ih

/-- The rule for a law of the inputs and the states that they meet. -/
theorem met_induction {P : List (σ × ι) → σ → Prop} {s : σ} (h0 : P [] s)
    (hstep : ∀ m t i, P m t → P (m ++ [(t, i)]) (step t i).1) (is : List ι) :
    P (met step s is) (run step s is) := by
  induction is using List.reverseRecOn with
  | nil => exact h0
  | append_singleton is i ih =>
    rw [run_snoc, met_snoc]
    exact hstep _ _ _ ih

/-- The same rule for a law of the state alone. -/
theorem run_invariant {P : σ → Prop} {s : σ} (h0 : P s)
    (hstep : ∀ t i, P t → P (step t i).1) (is : List ι) : P (run step s is) :=
  run_induction (P := fun _ t => P t) h0 (fun _ t i h => hstep t i h) is

theorem everyStep_append {Q : σ → ι → Prop} {s : σ} {a b : List ι} :
    EveryStep step Q s (a ++ b) ↔ EveryStep step Q s a ∧ EveryStep step Q (run step s a) b := by
  induction a generalizing s with
  | nil => simp [EveryStep]
  | cons i rest ih => simp [EveryStep, ih, and_assoc]

/-- What holds of every step holds of the steps of a run. -/
theorem everyStep_of {Q : σ → ι → Prop} (h : ∀ t i, Q t i) (s : σ) (is : List ι) :
    EveryStep step Q s is := by
  induction is generalizing s with
  | nil => trivial
  | cons i rest ih => exact ⟨h s i, ih (step s i).1⟩

/-- A law of the inputs alone. -/
theorem everyStep_of_inputs {Q : ι → Prop} {s : σ} {is : List ι} (h : ∀ i ∈ is, Q i) :
    EveryStep step (fun _ i => Q i) s is := by
  induction is generalizing s with
  | nil => trivial
  | cons i rest ih =>
    exact ⟨h i List.mem_cons_self, ih (fun k hk => h k (List.mem_cons_of_mem i hk))⟩

theorem inputs_of_everyStep {Q : ι → Prop} {s : σ} {is : List ι}
    (h : EveryStep step (fun _ i => Q i) s is) : ∀ i ∈ is, Q i := by
  induction is generalizing s with
  | nil => simp
  | cons i rest ih => exact List.forall_mem_cons.mpr ⟨h.1, ih h.2⟩

/-- The rule for a run whose steps all meet `Q`. -/
theorem run_induction_every {Q : σ → ι → Prop} {P : List (ι × ο) → σ → Prop} {s : σ} (h0 : P [] s)
    (hstep : ∀ tr t i, Q t i → P tr t → P (tr ++ [(i, (step t i).2)]) (step t i).1) {is : List ι}
    (hq : EveryStep step Q s is) : P (trace step s is) (run step s is) := by
  induction is using List.reverseRecOn with
  | nil => exact h0
  | append_singleton is i ih =>
    obtain ⟨hrest, hlast, _⟩ := everyStep_append.mp hq
    rw [run_snoc, trace_snoc]
    exact hstep _ _ _ hlast (ih hrest)

/-- The rule for a run whose inputs all meet `Q`. -/
theorem run_induction_of {Q : ι → Prop} {P : List (ι × ο) → σ → Prop} {s : σ} (h0 : P [] s)
    (hstep : ∀ tr t i, Q i → P tr t → P (tr ++ [(i, (step t i).2)]) (step t i).1) {is : List ι}
    (hq : ∀ i ∈ is, Q i) : P (trace step s is) (run step s is) :=
  run_induction_every h0 hstep (everyStep_of_inputs hq)

/-- One more step is the last to meet `Q`, or it does not meet `Q` and the last one stays. -/
theorem lastStep_snoc {Q : σ → ι → Prop} {s : σ} {is : List ι} {i k : ι} :
    LastStep step Q s (is ++ [k]) i ↔
      (Q (run step s is) k ∧ i = k) ∨ (¬ Q (run step s is) k ∧ LastStep step Q s is i) := by
  constructor
  · rintro ⟨a, b, hab, hq, hrest⟩
    rcases List.eq_nil_or_concat b with rfl | ⟨b, d, rfl⟩
    · obtain ⟨rfl, hk⟩ := List.append_inj' hab rfl
      rw [List.singleton_inj] at hk
      subst hk
      exact Or.inl ⟨hq, rfl⟩
    · rw [List.concat_eq_append] at hab hrest
      rw [← List.cons_append, ← List.append_assoc] at hab
      obtain ⟨rfl, hk⟩ := List.append_inj' hab rfl
      rw [List.singleton_inj] at hk
      subst hk
      obtain ⟨hrest, hlast, _⟩ := everyStep_append.mp hrest
      rw [← run_append, List.append_assoc, List.singleton_append] at hlast
      exact Or.inr ⟨hlast, a, b, rfl, hq, hrest⟩
  · rintro (⟨hq, rfl⟩ | ⟨hno, a, b, rfl, hq, hrest⟩)
    · exact ⟨is, [], rfl, hq, trivial⟩
    · refine ⟨a, b ++ [k], by simp, hq, everyStep_append.mpr ⟨hrest, ?_, trivial⟩⟩
      rwa [← run_append, List.append_assoc, List.singleton_append]

/-- Two laws of the steps say the same of a run when they agree at each step that meets `I`,
and the first law keeps `I`. `I` may speak of the inputs still to come. -/
theorem everyStep_congr {P Q : σ → ι → Prop} (I : σ → List ι → Prop)
    (hiff : ∀ s i rest, I s (i :: rest) → (P s i ↔ Q s i))
    (hnext : ∀ s i rest, I s (i :: rest) → P s i → I (step s i).1 rest) {s : σ} {is : List ι}
    (h : I s is) : EveryStep step P s is ↔ EveryStep step Q s is := by
  induction is generalizing s with
  | nil => exact Iff.rfl
  | cons i rest ih =>
    constructor
    · rintro ⟨hp, hrest⟩
      exact ⟨(hiff s i rest h).mp hp, (ih (hnext s i rest h hp)).mp hrest⟩
    · rintro ⟨hq, hrest⟩
      have hp := (hiff s i rest h).mpr hq
      exact ⟨hp, (ih (hnext s i rest h hp)).mpr hrest⟩

theorem everyStep_and {P Q : σ → ι → Prop} {s : σ} {is : List ι} :
    EveryStep step (fun t i => P t i ∧ Q t i) s is ↔
      EveryStep step P s is ∧ EveryStep step Q s is := by
  induction is generalizing s with
  | nil => simp [EveryStep]
  | cons i rest ih =>
    simp only [EveryStep, ih]
    exact and_and_and_comm

/-- A law stays when each step that meets `P` keeps it, and what it says of such steps holds
at each step. -/
theorem everyStep_of_law {I : σ → Prop} {P Q : σ → ι → Prop}
    (hnext : ∀ t i, I t → P t i → I (step t i).1) (hsay : ∀ t i, I t → P t i → Q t i) {s : σ}
    {is : List ι} (h0 : I s) (hp : EveryStep step P s is) :
    EveryStep step Q s is ∧ I (run step s is) := by
  induction is generalizing s with
  | nil => exact ⟨trivial, h0⟩
  | cons i rest ih =>
    obtain ⟨hrest, hend⟩ := ih (hnext s i h0 hp.1) hp.2
    exact ⟨⟨hsay s i h0 hp.1, hrest⟩, hend⟩

/-! ## Steps that commute -/

section
variable {R : σ → σ → Prop} {P : ι → Prop}

/-- Runs from related states, when each step keeps them related and answers the same. -/
theorem run_congr (hcongr : ∀ s t i, P i → R s t →
      R (step s i).1 (step t i).1 ∧ (step s i).2 = (step t i).2)
    {is : List ι} (hp : ∀ i ∈ is, P i) {s t : σ} (hst : R s t) :
    R (run step s is) (run step t is) ∧ trace step s is = trace step t is := by
  induction is generalizing s t with
  | nil => exact ⟨hst, rfl⟩
  | cons i rest ih =>
    obtain ⟨hnext, hsame⟩ := hcongr s t i (hp i List.mem_cons_self) hst
    obtain ⟨hrun, htrace⟩ := ih (fun k hk => hp k (List.mem_cons_of_mem i hk)) hnext
    exact ⟨hrun, by rw [trace_cons, trace_cons, hsame, htrace]⟩

/-- When any two steps that stand in `D` commute, up to `R`, and neither sees the other, then
the inputs of a run may come in any order. -/
theorem run_perm {D : ι → ι → Prop} (hrefl : ∀ s, R s s) (htrans : ∀ s t u, R s t → R t u → R s u)
    (hsymm : ∀ i k, D i k → D k i)
    (hcongr : ∀ s t i, P i → R s t → R (step s i).1 (step t i).1 ∧ (step s i).2 = (step t i).2)
    (hswap : ∀ s i k, P i → P k → D i k →
      R (step (step s i).1 k).1 (step (step s k).1 i).1 ∧ (step (step s i).1 k).2 = (step s k).2)
    {is is' : List ι} (hperm : is.Perm is') (hp : ∀ i ∈ is, P i) (hd : is.Pairwise D) {s t : σ}
    (hst : R s t) :
    R (run step s is) (run step t is') ∧ (trace step s is).Perm (trace step t is') := by
  induction hperm generalizing s t with
  | nil => exact ⟨hst, List.Perm.refl _⟩
  | cons i _ ih =>
    rw [List.pairwise_cons] at hd
    obtain ⟨hnext, hsame⟩ := hcongr s t i (hp i List.mem_cons_self) hst
    obtain ⟨hrun, htrace⟩ := ih (fun k hk => hp k (List.mem_cons_of_mem i hk)) hd.2 hnext
    refine ⟨hrun, ?_⟩
    rw [trace_cons, trace_cons, hsame]
    exact htrace.cons _
  | swap i k rest =>
    -- first `k` and then `i` on the left, first `i` and then `k` on the right
    have hpk := hp k List.mem_cons_self
    have hpi := hp i (List.mem_cons_of_mem k List.mem_cons_self)
    have hki : D k i := (List.pairwise_cons.mp hd).1 i List.mem_cons_self
    obtain ⟨h1, ha1⟩ := hcongr s t k hpk hst
    obtain ⟨h2, ha2⟩ := hcongr _ _ i hpi h1
    obtain ⟨h3, ha3⟩ := hswap t k i hpk hpi hki
    obtain ⟨_, ha4⟩ := hswap t i k hpi hpk (hsymm k i hki)
    obtain ⟨hrun, htrace⟩ := run_congr hcongr
      (fun m hm => hp m (List.mem_cons_of_mem k (List.mem_cons_of_mem i hm)))
      (htrans _ _ _ h2 h3)
    refine ⟨hrun, ?_⟩
    simp only [trace_cons]
    rw [ha1, ha2, ha3, ha4, htrace]
    exact List.Perm.swap _ _ _
  | trans h12 _ ih1 ih2 =>
    obtain ⟨hrun1, htrace1⟩ := ih1 hp hd hst
    obtain ⟨hrun2, htrace2⟩ := ih2 (fun i hi => hp i (h12.mem_iff.mpr hi))
      ((h12.pairwise_iff (fun h => hsymm _ _ h)).mp hd) (hrefl t)
    exact ⟨htrans _ _ _ hrun1 hrun2, htrace1.trans htrace2⟩

end

/-! ## Budgets -/

/-- A law of each input with its answer is a law of the steps. -/
theorem everyStep_answers {Q : ι × ο → Prop} {s : σ} {is : List ι} :
    EveryStep step (fun t i => Q (i, (step t i).2)) s is ↔ ∀ e ∈ trace step s is, Q e := by
  induction is generalizing s with
  | nil => simp [EveryStep]
  | cons i rest ih => simp [EveryStep, ih]

/-- A tick spends at least one of the budget, and no step refills it: no run ticks more often
than its first budget. -/
theorem ticks_le_budget {I : σ → Prop} {P : σ → ι → Prop} {tick : ι → Bool} {budget : σ → Nat}
    (hnext : ∀ t i, I t → P t i → I (step t i).1)
    (hspend : ∀ t i, I t → P t i →
      budget (step t i).1 + (if tick i = true then 1 else 0) ≤ budget t)
    {s : σ} {is : List ι} (h0 : I s) (hp : EveryStep step P s is) :
    budget (run step s is) + is.countP tick ≤ budget s := by
  induction is generalizing s with
  | nil => simp
  | cons i rest ih =>
    have hfirst := hspend s i h0 hp.1
    have hrest := ih (hnext s i h0 hp.1) hp.2
    rw [run_cons, List.countP_cons]
    omega

/-- When each state that is not done has an allowed step that lowers the work, some allowed
steps, no more of them than the work, bring the machine to its end. -/
theorem finishes_every {I Done : σ → Prop} {P : σ → ι → Prop} {work : σ → Nat}
    (hstep : ∀ t, I t → ¬ Done t → ∃ i, P t i ∧ I (step t i).1 ∧ work (step t i).1 < work t) {s : σ}
    (h : I s) : ∃ is, EveryStep step P s is ∧ is.length ≤ work s ∧ I (run step s is) ∧
      Done (run step s is) := by
  induction hn : work s using Nat.strongRecOn generalizing s with
  | ind n ih =>
    by_cases hdone : Done s
    · exact ⟨[], trivial, Nat.zero_le _, h, hdone⟩
    · obtain ⟨i, hi, hnext, hless⟩ := hstep s h hdone
      obtain ⟨is, hall, hlen, hend⟩ := ih _ (hn ▸ hless) hnext rfl
      refine ⟨i :: is, ⟨hi, hall⟩, ?_, hend⟩
      rw [List.length_cons]
      omega

/-- The same rule for a law of the inputs alone. -/
theorem finishes {I Done : σ → Prop} {P : ι → Prop} {work : σ → Nat}
    (hstep : ∀ t, I t → ¬ Done t → ∃ i, P i ∧ I (step t i).1 ∧ work (step t i).1 < work t) {s : σ}
    (h : I s) : ∃ is, (∀ i ∈ is, P i) ∧ is.length ≤ work s ∧ I (run step s is) ∧
      Done (run step s is) := by
  obtain ⟨is, hall, hend⟩ := finishes_every (P := fun _ i => P i) hstep h
  exact ⟨is, inputs_of_everyStep hall, hend⟩

/-! ## Simulation -/

/-- When some steps of a second machine do what one step of the first does, and show the same,
some run of the second does what a run of the first does, and shows the same. -/
theorem run_simulation {τ κ π α : Type} {next : τ → κ → τ × π} {abs : σ → τ}
    {acts : σ → ι → List κ} {shown : ι × ο → List α} {seen : κ × π → List α}
    (hsteps : ∀ s i, run next (abs s) (acts s i) = abs (step s i).1 ∧
      (trace next (abs s) (acts s i)).flatMap seen = shown (i, (step s i).2))
    (s : σ) (is : List ι) :
    ∃ ks, run next (abs s) ks = abs (run step s is) ∧
      (trace next (abs s) ks).flatMap seen = (trace step s is).flatMap shown := by
  induction is generalizing s with
  | nil => exact ⟨[], rfl, rfl⟩
  | cons i rest ih =>
    obtain ⟨hrun, hseen⟩ := hsteps s i
    obtain ⟨ks, hks, hshown⟩ := ih (step s i).1
    refine ⟨acts s i ++ ks, ?_, ?_⟩
    · rw [run_append, hrun, hks]
      rfl
    · rw [trace_append, List.flatMap_append, hseen, hrun, hshown]
      rfl

end event_runs
