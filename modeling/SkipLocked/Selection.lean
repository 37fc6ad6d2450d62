-- The lowest elements of a list by a key, as an ORDER BY with a LIMIT selects
-- them. A tie may go either way.
import Mathlib.Data.List.Basic
import Mathlib.Order.Lattice

namespace selection

section
variable {α κ : Type} [LinearOrder κ] (key : α → κ)

/-- `chosen` are `n` elements of `l`, or all of `l` when it has no more, and no element that
is left has a lower key than a chosen one. -/
structure Lowest (n : Nat) (l chosen : List α) : Prop where
  size : chosen.length = min n l.length
  split : ∃ rest, (chosen ++ rest).Perm l ∧ ∀ a ∈ chosen, ∀ b ∈ rest, key a ≤ key b

variable {key}

/-- The first elements of a list in order are the lowest. -/
theorem lowest_take {l : List α} (h : l.Pairwise (fun a b => key a ≤ key b)) (n : Nat) :
    Lowest key n l (l.take n) := by
  refine ⟨List.length_take, l.drop n, ?_, ?_⟩
  · rw [List.take_append_drop]
  · rw [← List.take_append_drop n l, List.pairwise_append] at h
    exact h.2.2

theorem Lowest.perm {n : Nat} {l l' chosen chosen' : List α} (h : Lowest key n l chosen)
    (hl : l.Perm l') (hc : chosen.Perm chosen') : Lowest key n l' chosen' := by
  obtain ⟨rest, hperm, hle⟩ := h.split
  refine ⟨?_, rest, ?_, ?_⟩
  · rw [← hc.length_eq, ← hl.length_eq]
    exact h.size
  · exact ((hc.symm.append_right rest).trans hperm).trans hl
  · intro a ha
    exact hle a (hc.mem_iff.mpr ha)

theorem Lowest.mem {n : Nat} {l chosen : List α} (h : Lowest key n l chosen) {a : α}
    (ha : a ∈ chosen) : a ∈ l := by
  obtain ⟨rest, hperm, _⟩ := h.split
  exact hperm.mem_iff.mp (List.mem_append_left rest ha)

/-- Where the list is no longer than the limit, all of it is chosen. -/
theorem Lowest.all {n : Nat} {l chosen : List α} (h : Lowest key n l chosen) (hn : l.length ≤ n) :
    chosen.Perm l := by
  obtain ⟨rest, hperm, _⟩ := h.split
  have hlen := hperm.length_eq
  rw [List.length_append, h.size] at hlen
  have hnil : rest = [] := List.length_eq_zero_iff.mp (by omega)
  rwa [hnil, List.append_nil] at hperm

/-- No element that is left behind has a lower key. -/
theorem Lowest.le {n : Nat} {l chosen : List α} (h : Lowest key n l chosen) {a b : α}
    (ha : a ∈ chosen) (hb : b ∈ l) (hleft : b ∉ chosen) : key a ≤ key b := by
  obtain ⟨rest, hperm, hle⟩ := h.split
  rcases List.mem_append.mp (hperm.mem_iff.mpr hb) with hin | hin
  · exact absurd hin hleft
  · exact hle a ha b hin

end

end selection
