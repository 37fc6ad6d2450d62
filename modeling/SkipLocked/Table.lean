-- A table with a primary key, and the four statements on it. A row is found
-- by its key, and each statement is described by what it does to the row of
-- one key.
import Mathlib.Algebra.GroupWithZero.Nat
import Mathlib.Data.List.Basic
import Mathlib.Data.List.Nodup

namespace keyed_table

/-- The rows of a table. No two rows share a primary key. -/
structure Table {ρ κ : Type} (key : ρ → κ) where
  rows : List ρ
  pk : (rows.map key).Nodup

namespace Table

variable {ρ κ : Type} [DecidableEq κ] {key : ρ → κ}

def empty : Table key := ⟨[], List.nodup_nil⟩

/-- The row with primary key `k`. -/
def find (t : Table key) (k : κ) : Option ρ := t.rows.find? (fun r => decide (key r = k))

/-- `INSERT`: it fails when a row has the key already. -/
def insert (t : Table key) (r : ρ) : Option (Table key) :=
  if h : key r ∈ t.rows.map key then none
  else some ⟨r :: t.rows, List.nodup_cons.mpr ⟨h, t.pk⟩⟩

/-- `UPDATE … WHERE p`: every row that matches is rewritten, and keeps its key. -/
def update (t : Table key) (p : ρ → Bool) (f : ρ → ρ) (hf : ∀ r, key (f r) = key r) :
    Table key where
  rows := t.rows.map (fun r => if p r then f r else r)
  pk := by
    have hkey : (key ∘ fun r => if p r then f r else r) = key := by
      funext r
      simp only [Function.comp_apply]
      split
      · exact hf r
      · rfl
    rw [List.map_map, hkey]
    exact t.pk

/-- `DELETE … WHERE p`. -/
def delete (t : Table key) (p : ρ → Bool) : Table key where
  rows := t.rows.filter (fun r => !p r)
  pk := t.pk.sublist (List.filter_sublist.map key)

/-- The row with the key of `r` becomes `r`, when there is one. -/
def put (t : Table key) (r : ρ) : Table key :=
  t.update (fun s => decide (key s = key r)) (fun s => if key s = key r then r else s) (by
    intro s
    split
    · rename_i h
      exact h.symm
    · rfl)

/-- The rows of some keys are rewritten by `f`, or deleted. -/
def rewrite (t : Table key) (ks : List κ) (f : ρ → Option ρ)
    (hf : ∀ r r', f r = some r' → key r' = key r) : Table key where
  rows := t.rows.filterMap (fun r => if key r ∈ ks then f r else some r)
  pk := by
    have hkey : ∀ r r', (if key r ∈ ks then f r else some r) = some r' → key r' = key r := by
      intro r r' h
      split at h
      · exact hf r r' h
      · rw [Option.some.inj h]
    refine t.pk.sublist ?_
    generalize t.rows = l
    induction l with
    | nil => exact List.Sublist.refl _
    | cons r rest ih =>
      rw [List.filterMap_cons]
      split
      · exact ih.cons (key r)
      · rename_i r' h
        rw [List.map_cons, List.map_cons, hkey r r' h]
        exact ih.cons_cons (key r)

/-- The rows that match, in the order of the table. -/
def matching (t : Table key) (p : ρ → Bool) : List ρ := t.rows.filter p

/-- The number of rows that match: the rows that the statement reports. -/
def count (t : Table key) (p : ρ → Bool) : Nat := (t.matching p).length

/-! ## A row and its key -/

theorem key_of_find {t : Table key} {k : κ} {r : ρ} (h : t.find k = some r) : key r = k := by
  simpa using List.find?_some h

theorem mem_of_find {t : Table key} {k : κ} {r : ρ} (h : t.find k = some r) : r ∈ t.rows :=
  List.mem_of_find?_eq_some h

theorem find?_of_nodup {l : List ρ} (h : (l.map key).Nodup) {r : ρ} (hr : r ∈ l) :
    l.find? (fun s => decide (key s = key r)) = some r := by
  induction l with
  | nil => simp at hr
  | cons s rest ih =>
    rw [List.map_cons, List.nodup_cons] at h
    rcases List.mem_cons.mp hr with rfl | hr
    · simp
    · have hne : key s ≠ key r := fun he => h.1 (he ▸ List.mem_map_of_mem hr)
      rw [List.find?_cons_of_neg (by simpa using hne)]
      exact ih h.2 hr

/-- Each row is the row of its key. -/
theorem find_of_mem {t : Table key} {r : ρ} (h : r ∈ t.rows) : t.find (key r) = some r :=
  find?_of_nodup t.pk h

/-- Two rows with one key are one row. -/
theorem eq_of_key {t : Table key} {r s : ρ} (hr : r ∈ t.rows) (hs : s ∈ t.rows)
    (hk : key r = key s) : r = s :=
  Option.some.inj ((find_of_mem hr).symm.trans (hk ▸ find_of_mem hs))

theorem find_eq_none {t : Table key} {k : κ} : t.find k = none ↔ k ∉ t.rows.map key := by
  simp [find]

theorem find_isSome {t : Table key} {k : κ} : (t.find k).isSome ↔ k ∈ t.rows.map key := by
  simp [find]

@[simp] theorem find_empty (k : κ) : (empty : Table key).find k = none := rfl

omit [DecidableEq κ] in
@[simp] theorem rows_empty : (empty : Table key).rows = [] := rfl

/-! ## What each statement does to the row of one key -/

theorem find_insert {t u : Table key} {r : ρ} (h : t.insert r = some u) (k : κ) :
    u.find k = if key r = k then some r else t.find k := by
  unfold insert at h
  split at h
  · cases h
  · cases h
    unfold find
    by_cases hk : key r = k
    · simp [hk]
    · simp [hk]

/-- An insert that lands found no row with its key. -/
theorem find_of_insert {t u : Table key} {r : ρ} (h : t.insert r = some u) :
    t.find (key r) = none := by
  unfold insert at h
  split at h
  · cases h
  · rw [find_eq_none]
    assumption

/-- The rows after an insert are the new row and those before. -/
theorem rows_insert {t u : Table key} {r : ρ} (h : t.insert r = some u) : u.rows = r :: t.rows := by
  unfold insert at h
  split at h
  · cases h
  · cases h
    rfl

theorem insert_isSome {t : Table key} {r : ρ} (h : t.find (key r) = none) :
    ∃ u, t.insert r = some u := by
  rw [find_eq_none] at h
  exact ⟨_, dif_neg h⟩

@[simp] theorem find_update (t : Table key) (p : ρ → Bool) (f : ρ → ρ)
    (hf : ∀ r, key (f r) = key r) (k : κ) :
    (t.update p f hf).find k = (t.find k).map (fun r => if p r then f r else r) := by
  have hkey : ∀ r, key (if p r then f r else r) = key r := by
    intro r
    split
    · exact hf r
    · rfl
  unfold find update
  simp only [List.find?_map, Function.comp_def, hkey]

@[simp] theorem find_delete (t : Table key) (p : ρ → Bool) (k : κ) :
    (t.delete p).find k = (t.find k).filter (fun r => !p r) := by
  have hdel : ∀ r, r ∈ (t.delete p).rows ↔ r ∈ t.rows ∧ p r = false := by
    intro r
    simp [delete]
  cases hf : t.find k with
  | none =>
    rw [Option.filter_none, find_eq_none]
    rw [find_eq_none] at hf
    intro hk
    obtain ⟨r, hr, he⟩ := List.mem_map.mp hk
    exact hf (List.mem_map.mpr ⟨r, ((hdel r).mp hr).1, he⟩)
  | some r =>
    have hrk := key_of_find hf
    by_cases hp : p r = true
    · rw [Option.filter_some_neg (by simp [hp]), find_eq_none]
      intro hk
      obtain ⟨s, hs, he⟩ := List.mem_map.mp hk
      obtain ⟨hst, hps⟩ := (hdel s).mp hs
      obtain rfl : s = r := eq_of_key hst (mem_of_find hf) (he.trans hrk.symm)
      rw [hp] at hps
      cases hps
    · have hmem : r ∈ (t.delete p).rows := (hdel r).mpr ⟨mem_of_find hf, by simpa using hp⟩
      rw [Option.filter_some_pos (by simp [hp])]
      exact hrk ▸ find_of_mem hmem

theorem find_put {t : Table key} {r : ρ} (k : κ) :
    (t.put r).find k = if k = key r then (t.find k).map (fun _ => r) else t.find k := by
  unfold put
  rw [find_update]
  cases hf : t.find k with
  | none => simp
  | some s =>
    have hs := key_of_find hf
    by_cases h : k = key r
    · simp [hs, h]
    · simp [hs, h]

theorem mem_put {t : Table key} {r s : ρ} (h : s ∈ (t.put r).rows) :
    s = r ∨ (s ∈ t.rows ∧ key s ≠ key r) := by
  obtain ⟨u, hu, he⟩ := List.mem_map.mp h
  by_cases hk : key u = key r
  · left
    simpa [hk] using he.symm
  · right
    have hus : u = s := by simpa [hk] using he
    subst hus
    exact ⟨hu, hk⟩

/-- Each row but the one with the key of `r` stays. -/
theorem mem_put_other {t : Table key} {r s : ρ} (hs : s ∈ t.rows) (hk : key s ≠ key r) :
    s ∈ (t.put r).rows :=
  List.mem_map.mpr ⟨s, hs, by simp [hk]⟩

theorem mem_put_self {t : Table key} {r s : ρ} (hs : s ∈ t.rows) (hk : key s = key r) :
    r ∈ (t.put r).rows :=
  List.mem_map.mpr ⟨s, hs, by simp [hk]⟩

theorem find_rewrite {t : Table key} {ks : List κ} {f : ρ → Option ρ}
    {hf : ∀ r r', f r = some r' → key r' = key r} (k : κ) :
    (t.rewrite ks f hf).find k = (t.find k).bind (fun r => if k ∈ ks then f r else some r) := by
  have hmem : ∀ r', r' ∈ (t.rewrite ks f hf).rows ↔
      ∃ r ∈ t.rows, (if key r ∈ ks then f r else some r) = some r' := by
    intro r'
    exact List.mem_filterMap
  have hkey : ∀ r r', (if key r ∈ ks then f r else some r) = some r' → key r' = key r := by
    intro r r' h
    split at h
    · exact hf r r' h
    · rw [Option.some.inj h]
  cases hk : t.find k with
  | none =>
    rw [Option.bind_none, find_eq_none]
    rw [find_eq_none] at hk
    intro hmap
    obtain ⟨r', hr', rfl⟩ := List.mem_map.mp hmap
    obtain ⟨r, hr, he⟩ := (hmem r').mp hr'
    exact hk (List.mem_map.mpr ⟨r, hr, (hkey r r' he).symm⟩)
  | some r =>
    have hrk := key_of_find hk
    rw [Option.bind_some]
    cases hg : (if k ∈ ks then f r else some r) with
    | some r' =>
      rw [← hrk] at hg
      have hr' := (hmem r').mpr ⟨r, mem_of_find hk, hg⟩
      rw [← hrk, ← hkey r r' hg]
      exact find_of_mem hr'
    | none =>
      rw [find_eq_none]
      intro hmap
      obtain ⟨r', hr', he⟩ := List.mem_map.mp hmap
      obtain ⟨s, hs, hsome⟩ := (hmem r').mp hr'
      have hsk : key s = k := (hkey s r' hsome).symm.trans he
      obtain rfl : s = r := eq_of_key hs (mem_of_find hk) (hsk.trans hrk.symm)
      rw [hrk, hg] at hsome
      cases hsome

omit [DecidableEq κ] in
theorem ext_rows {t u : Table key} (h : t.rows = u.rows) : t = u := by
  cases t
  cases u
  dsimp only at h
  subst h
  rfl

theorem rewrite_none {t : Table key} {ks : List κ} {w : ρ → Option ρ}
    {hw : ∀ r r', w r = some r' → key r' = key r} (hks : ∀ r ∈ t.rows, key r ∉ ks) :
    t.rewrite ks w hw = t := by
  apply ext_rows
  show t.rows.filterMap _ = t.rows
  conv_rhs => rw [← List.filterMap_some (l := t.rows)]
  apply List.filterMap_congr
  intro r hr
  rw [if_neg (hks r hr)]

/-- A rewrite of the keys that match, to some row each, is an update. -/
theorem rewrite_eq_update {t : Table key} {ks : List κ} {w : ρ → Option ρ}
    {hw : ∀ r r', w r = some r' → key r' = key r} {p : ρ → Bool} {f : ρ → ρ}
    (hf : ∀ r, key (f r) = key r) (hks : ∀ r ∈ t.rows, key r ∈ ks ↔ p r = true)
    (hwf : ∀ r ∈ t.rows, p r = true → w r = some (f r)) : t.rewrite ks w hw = t.update p f hf := by
  apply ext_rows
  show t.rows.filterMap _ = t.rows.map _
  rw [← List.filterMap_eq_map]
  apply List.filterMap_congr
  intro r hr
  by_cases hp : p r = true
  · simp [(hks r hr).mpr hp, hp, hwf r hr hp]
  · have hno : key r ∉ ks := fun h => hp ((hks r hr).mp h)
    simp [hno, hp]

theorem rewrite_eq_delete {t : Table key} {ks : List κ}
    {hw : ∀ r r', (none : Option ρ) = some r' → key r' = key r} {p : ρ → Bool}
    (hks : ∀ r ∈ t.rows, key r ∈ ks ↔ p r = true) :
    t.rewrite ks (fun _ => none) hw = t.delete p := by
  apply ext_rows
  show t.rows.filterMap _ = t.rows.filter _
  rw [← List.filterMap_eq_filter]
  apply List.filterMap_congr
  intro r hr
  by_cases hp : p r = true
  · simp [(hks r hr).mpr hp, hp, Option.guard]
  · have hno : key r ∉ ks := fun h => hp ((hks r hr).mp h)
    simp [hno, hp, Option.guard]

/-- Rewrites of two keys commute. -/
theorem rewrite_comm {t : Table key} {k l : κ} (hkl : k ≠ l) {v w : ρ → Option ρ}
    {hv : ∀ r r', v r = some r' → key r' = key r} {hw : ∀ r r', w r = some r' → key r' = key r} :
    (t.rewrite [k] v hv).rewrite [l] w hw = (t.rewrite [l] w hw).rewrite [k] v hv := by
  apply ext_rows
  show (t.rows.filterMap _).filterMap _ = (t.rows.filterMap _).filterMap _
  rw [List.filterMap_filterMap, List.filterMap_filterMap]
  apply List.filterMap_congr
  intro r _
  by_cases hk : key r = k
  · have hl : key r ≠ l := fun h => hkl (hk.symm.trans h)
    cases hr : v r with
    | none => simp [hk, hkl, hr]
    | some r' => simp [hk, hkl, hr, hv r r' hr]
  · by_cases hl : key r = l
    · cases hr : w r with
      | none => simp [hl, Ne.symm hkl, hr]
      | some r' => simp [hl, Ne.symm hkl, hr, hw r r' hr]
    · simp [hk, hl]

/-- A delete of a key that is not there does nothing. -/
theorem delete_of_none {t : Table key} {k : κ} (h : t.find k = none) :
    t.delete (fun r => decide (key r = k)) = t := by
  rw [find_eq_none] at h
  have hrows : t.rows.filter (fun r => !decide (key r = k)) = t.rows := by
    rw [List.filter_eq_self]
    intro r hr
    have hne : key r ≠ k := fun he => h (he ▸ List.mem_map_of_mem hr)
    simp [hne]
  unfold delete
  congr

/-! ## The rows that match -/

omit [DecidableEq κ] in
theorem mem_matching {t : Table key} {p : ρ → Bool} {r : ρ} :
    r ∈ t.matching p ↔ r ∈ t.rows ∧ p r = true := List.mem_filter

/-- The key of a row is among those that match when the row matches. -/
theorem key_mem_matching {t : Table key} {p : ρ → Bool} {r : ρ} (hr : r ∈ t.rows) :
    key r ∈ (t.matching p).map key ↔ p r = true := by
  rw [List.mem_map]
  constructor
  · rintro ⟨s, hs, hk⟩
    obtain ⟨hmem, hp⟩ := mem_matching.mp hs
    exact eq_of_key hmem hr hk ▸ hp
  · intro hp
    exact ⟨r, mem_matching.mpr ⟨hr, hp⟩, rfl⟩

omit [DecidableEq κ] in
theorem matching_nodup (t : Table key) (p : ρ → Bool) : ((t.matching p).map key).Nodup :=
  t.pk.sublist (List.filter_sublist.map key)

/-- A statement about the keys of some rows of the table matches these rows. -/
theorem matching_perm {t : Table key} {l : List ρ} (hkeys : (l.map key).Nodup)
    (hmem : ∀ r ∈ l, r ∈ t.rows) :
    (t.matching (fun r => (l.map key).contains (key r))).Perm l := by
  rw [List.perm_ext_iff_of_nodup (matching_nodup t _).of_map hkeys.of_map]
  intro r
  rw [mem_matching, List.contains_iff_mem, List.mem_map]
  constructor
  · rintro ⟨hr, s, hs, hk⟩
    exact eq_of_key (hmem s hs) hr hk ▸ hs
  · intro hr
    exact ⟨hmem r hr, r, hr, rfl⟩

/-- A statement about one key matches at most the row of that key. -/
theorem matching_key (t : Table key) (p : ρ → Bool) (k : κ) (h : ∀ r, p r = true → key r = k) :
    t.matching p = (t.find k).toList.filter p := by
  have hsub : t.matching p = (t.matching (fun r => decide (key r = k))).filter p := by
    unfold matching
    rw [List.filter_filter]
    apply List.filter_congr
    intro r _
    by_cases hp : p r = true
    · simp [hp, h r hp]
    · simp [hp]
  have hone : t.matching (fun r => decide (key r = k)) = (t.find k).toList := by
    have hnd := t.pk
    unfold matching find
    generalize t.rows = l at hnd
    induction l with
    | nil => rfl
    | cons s rest ih =>
      rw [List.map_cons, List.nodup_cons] at hnd
      by_cases hk : key s = k
      · have hrest : rest.filter (fun r => decide (key r = k)) = [] := by
          rw [List.filter_eq_nil_iff]
          intro r hr he
          exact hnd.1 (by rw [hk, ← of_decide_eq_true he]; exact List.mem_map_of_mem hr)
        simp [hk, hrest]
      · simp [hk, ih hnd.2]
  rw [hsub, hone]

theorem find?_key (t : Table key) (p : ρ → Bool) (k : κ) (h : ∀ r, p r = true → key r = k) :
    t.rows.find? p = (t.find k).filter p := by
  have hm := matching_key t p k h
  unfold matching at hm
  rw [← List.head?_filter, hm]
  cases t.find k with
  | none => rfl
  | some r =>
    by_cases hp : p r = true
    · simp [Option.filter, hp]
    · simp [Option.filter, hp]

/-- The rows reported by a statement about one key: one when the row is there and
matches, and else none. -/
theorem count_key (t : Table key) (p : ρ → Bool) (k : κ) (h : ∀ r, p r = true → key r = k) :
    t.count p = if (t.find k).any p then 1 else 0 := by
  unfold count
  rw [matching_key t p k h]
  cases t.find k with
  | none => rfl
  | some r =>
    by_cases hp : p r = true
    · simp [hp]
    · simp [hp]

/-! ## Sums over the rows -/

/-- The row of a key, among rows of other keys. -/
theorem rows_split {t : Table key} {k : κ} {r : ρ} (h : t.find k = some r) :
    ∃ before later, t.rows = before ++ r :: later ∧ (∀ x ∈ before, key x ≠ k) ∧
      ∀ x ∈ later, key x ≠ k := by
  obtain ⟨before, later, hrows⟩ := List.append_of_mem (mem_of_find h)
  have hk := key_of_find h
  have hnd := t.pk
  rw [hrows, List.map_append, List.map_cons, List.nodup_append, List.nodup_cons] at hnd
  obtain ⟨_, ⟨hlater, _⟩, hbefore⟩ := hnd
  refine ⟨before, later, hrows, ?_, ?_⟩
  · intro x hx
    rw [← hk]
    exact hbefore (key x) (List.mem_map_of_mem hx) (key r) List.mem_cons_self
  · intro x hx he
    rw [hk, ← he] at hlater
    exact hlater (List.mem_map_of_mem hx)

theorem sum_update_key {t : Table key} {k : κ} {r : ρ} (h : t.find k = some r) (f : ρ → ρ)
    (hf : ∀ r, key (f r) = key r) (g : ρ → Nat) :
    ((t.update (fun r => decide (key r = k)) f hf).rows.map g).sum + g r =
      (t.rows.map g).sum + g (f r) := by
  obtain ⟨before, later, hrows, hbefore, hlater⟩ := rows_split h
  have hsame : ∀ l : List ρ, (∀ x ∈ l, key x ≠ k) →
      l.map (fun x => if decide (key x = k) then f x else x) = l := by
    intro l hl
    conv_rhs => rw [← List.map_id l]
    apply List.map_congr_left
    intro x hx
    simp [hl x hx]
  simp only [update, hrows, List.map_append, List.map_cons, hsame before hbefore,
    hsame later hlater, key_of_find h, decide_true, if_true, List.sum_append, List.sum_cons]
  omega

theorem sum_delete_key {t : Table key} {k : κ} {r : ρ} (h : t.find k = some r) (g : ρ → Nat) :
    ((t.delete (fun r => decide (key r = k))).rows.map g).sum + g r = (t.rows.map g).sum := by
  obtain ⟨before, later, hrows, hbefore, hlater⟩ := rows_split h
  have hsame : ∀ l : List ρ, (∀ x ∈ l, key x ≠ k) →
      l.filter (fun x => !decide (key x = k)) = l := by
    intro l hl
    rw [List.filter_eq_self]
    intro x hx
    simp [hl x hx]
  simp only [delete, hrows, List.filter_append, List.filter_cons, hsame before hbefore,
    hsame later hlater, key_of_find h, decide_true, Bool.not_true, Bool.false_eq_true, if_false,
    List.map_append, List.map_cons, List.sum_append, List.sum_cons]
  omega

end Table

end keyed_table
