-- A dispatcher with a fixed number of slots that starts the jobs of a batch in
-- order, each as soon as a slot is free. When no run is longer than a limit,
-- the slots turn over once in each limit, and so each job starts in its round.
import Mathlib.Data.List.Count
import Mathlib.Tactic.Ring

namespace greedy_slots

/-- How many of the runs started after `t`. -/
def later (t : Int) (starts : List Int) : Nat := starts.countP (fun s => decide (t < s))

/-- The dispatcher opened a batch at `opened` and has started `n` of its jobs. After `q`
limits it can have started `q` rounds, one job for each slot: the runs that are younger are
of the jobs above these, and as long as it has not, the clock is within `q` limits. -/
structure OnTime (slots limit : Nat) (opened : Int) (n : Nat) (clock : Int) (starts : List Int) :
    Prop where
  few : ∀ q : Nat, later (opened + (q * limit : Nat)) starts ≤ n - q * slots
  soon : ∀ q : Nat, n < q * slots → clock ≤ opened + (q * limit : Nat)

variable {slots limit n : Nat} {opened clock : Int} {starts : List Int}

theorem later_eq_zero {t : Int} (h : ∀ s ∈ starts, s ≤ t) : later t starts = 0 := by
  unfold later
  rw [List.countP_eq_zero]
  intro s hs
  have := h s hs
  simpa using this

/-- When fewer runs than there are started after `t`, one of them started before. -/
theorem exists_start_le {t : Int} (h : later t starts < starts.length) : ∃ s ∈ starts, s ≤ t := by
  by_contra hnone
  push Not at hnone
  have hall : later t starts = starts.length := by
    unfold later
    rw [List.countP_eq_length]
    intro s hs
    simpa using hnone s hs
  omega

/-- A batch opens, and all that runs is older. -/
theorem OnTime.opens (h : ∀ s ∈ starts, s ≤ clock) : OnTime slots limit clock 0 clock starts := by
  refine ⟨?_, ?_⟩
  · intro q
    have hle : ∀ s ∈ starts, s ≤ clock + (q * limit : Nat) := by
      intro s hs
      have := h s hs
      omega
    rw [later_eq_zero hle]
    exact Nat.zero_le _
  · intro q _
    omega

/-- The next job starts. -/
theorem OnTime.begins (h : OnTime slots limit opened n clock starts) :
    OnTime slots limit opened (n + 1) clock (clock :: starts) := by
  refine ⟨?_, ?_⟩
  · intro q
    have hfew := h.few q
    have hsoon := h.soon q
    unfold later at *
    rw [List.countP_cons]
    split
    · rename_i hlt
      have : opened + (q * limit : Nat) < clock := by simpa using hlt
      omega
    · omega
  · intro q hq
    exact h.soon q (by omega)

/-- Some runs end. -/
theorem OnTime.ends {fewer : List Int} (h : OnTime slots limit opened n clock starts)
    (hsub : fewer.Sublist starts) : OnTime slots limit opened n clock fewer := by
  refine ⟨?_, h.soon⟩
  intro q
  exact Nat.le_trans hsub.countP_le (h.few q)

/-- Time passes while each slot is taken: the oldest run keeps the clock within its round. -/
theorem OnTime.waits {clock' : Int} (h : OnTime slots limit opened n clock starts)
    (hfull : starts.length = slots) (hlimit : ∀ s ∈ starts, clock' ≤ s + limit) :
    OnTime slots limit opened n clock' starts := by
  refine ⟨h.few, ?_⟩
  intro q hq
  cases q with
  | zero => omega
  | succ p =>
    have hfew := h.few p
    rw [Nat.succ_mul] at hq
    have hpos : 0 < slots := by
      apply Nat.pos_of_ne_zero
      rintro rfl
      omega
    have hsome : later (opened + (p * limit : Nat)) starts < starts.length := by omega
    obtain ⟨s, hs, hle⟩ := exists_start_le hsome
    have := hlimit s hs
    rw [Nat.succ_mul]
    omega

/-- The next job of the batch starts within its round. -/
theorem OnTime.due (h : OnTime slots limit opened n clock starts) (hslots : 0 < slots) :
    clock ≤ opened + ((n / slots + 1) * limit : Nat) := by
  apply h.soon
  rw [Nat.mul_comm]
  exact Nat.lt_mul_div_succ n hslots

end greedy_slots
