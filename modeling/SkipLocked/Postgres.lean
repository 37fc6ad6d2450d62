-- What the statements use of Postgres: its texts, the ranges of its integers
-- and its timestamps, intervals of seconds, and `power`. A value that leaves
-- its range is an error, and the statement changes nothing.
import Mathlib.Data.Int.Basic
import Mathlib.Data.Nat.Basic
import Mathlib.Tactic.Ring

namespace postgres

inductive PgError where
  | integer_out_of_range
  | bigint_out_of_range
  | double_out_of_range
  | timestamp_out_of_range
  | negative_limit
  | sequence_limit
  | unique_violation
  | no_such_transaction
  | character_not_in_repertoire
deriving DecidableEq, Repr

/-! ## Texts -/

/-- The string has no U+0000. -/
def NoNul (s : String) : Prop := ∀ c ∈ s.toList, c.toNat ≠ 0

instance (s : String) : Decidable (NoNul s) :=
  decidable_of_iff (s.toList.all (fun c => c.toNat != 0) = true) (by simp [NoNul])

theorem noNul_append {a b : String} (ha : NoNul a) (hb : NoNul b) : NoNul (a ++ b) := by
  intro c hc
  rw [String.toList_append, List.mem_append] at hc
  rcases hc with hc | hc
  · exact ha c hc
  · exact hb c hc

theorem noNul_empty : NoNul "" := by simp [NoNul]

theorem noNul_digits (n : Nat) : NoNul (toString n) := by
  intro c hc h0
  have hdigit := Nat.isDigit_of_mem_toDigits (by omega) (by omega) (Nat.toList_repr ▸ hc)
  simp only [Char.isDigit, Bool.and_eq_true, decide_eq_true_eq] at hdigit
  have hle : '0'.toNat ≤ c.toNat := hdigit.1
  rw [h0] at hle
  exact absurd hle (by decide)

/-- A `text`, or a string in a `jsonb`. Postgres refuses a string with U+0000, and no
statement runs with one. -/
@[ext]
structure Text where
  val : String
  no_nul : NoNul val
deriving DecidableEq, Repr

/-- What Postgres makes of a string. -/
def Text.of (s : String) : Option Text := if h : NoNul s then some ⟨s, h⟩ else none

theorem Text.of_noNul {s : String} (h : NoNul s) : Text.of s = some ⟨s, h⟩ := dif_pos h

theorem Text.of_nul {s : String} (h : ¬ NoNul s) : Text.of s = none := dif_neg h

instance : Inhabited Text := ⟨⟨"", noNul_empty⟩⟩

/-- A literal as a text. No literal here has U+0000. -/
def Text.lit (s : String) : Text := (Text.of s).getD default

instance : Coe String Text := ⟨Text.lit⟩

theorem Text.val_lit {s : String} (h : NoNul s) : (Text.lit s).val = s := by
  unfold Text.lit
  rw [Text.of_noNul h]
  rfl

instance : Append Text := ⟨fun a b => ⟨a.val ++ b.val, noNul_append a.no_nul b.no_nul⟩⟩

@[simp] theorem Text.val_append (a b : Text) : (a ++ b).val = a.val ++ b.val := rfl

/-- A number in a `format!`. -/
def Text.ofNat (n : Nat) : Text := ⟨toString n, noNul_digits n⟩

/-! ## Integers and times -/

def INT4_MAX : Int := 2147483647

def INT8_MIN : Int := -9223372036854775808

def INT8_MAX : Int := 9223372036854775807

/-- 4713 BC. A `timestamptz` is the microseconds since 2000-01-01 UTC. -/
def MIN_TIMESTAMP : Int := -211813488000000000

/-- The end of the year 294276, the first value out of range. -/
def END_TIMESTAMP : Int := 9223371331200000000

def USECS_PER_SEC : Int := 1000000

/-- A timestamp after arithmetic on it. -/
def checked (t : Int) : Except PgError Int :=
  if MIN_TIMESTAMP ≤ t ∧ t < END_TIMESTAMP then .ok t else .error .timestamp_out_of_range

/-- `t - make_interval(secs => secs)`. The seconds pass through a double precision, which is
exact up to 18000 years. The last bits of a longer interval are left out here. -/
def minusSeconds (t : Int) (secs : Int) : Except PgError Int :=
  checked (t - secs * USECS_PER_SEC)

/-- `n / d` rounded to the nearest integer, and to the even one at the middle. -/
def rint (n d : Nat) : Nat :=
  if 2 * (n % d) < d then n / d
  else if d < 2 * (n % d) then n / d + 1
  else n / d + n / d % 2

/-- `least(power(2, k), cap) * interval '1 second'`, in microseconds. The power is a double
precision: both arguments of `least` are evaluated, and the power is an error when the
double is too large or too small. -/
def leastPower (k cap : Int) : Except PgError Int :=
  if 1024 ≤ k ∨ k < -1074 then .error .double_out_of_range
  else if 0 ≤ k then .ok (min (2 ^ k.toNat) cap * USECS_PER_SEC)
  else .ok (min (rint 1000000 (2 ^ (-k).toNat)) (cap * USECS_PER_SEC))

theorem checked_ok {t u : Int} (h : checked t = .ok u) : u = t := by
  unfold checked at h
  split at h
  · cases h; rfl
  · cases h

/-- A value of `timestamptz`. -/
def InRange (t : Int) : Prop := MIN_TIMESTAMP ≤ t ∧ t < END_TIMESTAMP

instance (t : Int) : Decidable (InRange t) :=
  inferInstanceAs (Decidable (MIN_TIMESTAMP ≤ t ∧ t < END_TIMESTAMP))

theorem checked_eq {t u : Int} : checked t = .ok u ↔ InRange t ∧ u = t := by
  unfold checked InRange
  split
  · rename_i h
    simp [h, eq_comm]
  · rename_i h
    simp [h]

theorem minusSeconds_ok {t u : Int} {secs : Int} (h : minusSeconds t secs = .ok u) :
    u = t - secs * USECS_PER_SEC := checked_ok h

theorem leastPower_of_nonneg {k : Int} (cap : Int) (h0 : 0 ≤ k) (h : k < 1024) :
    leastPower k cap = .ok (min (2 ^ k.toNat) cap * USECS_PER_SEC) := by
  unfold leastPower
  rw [if_neg (by omega), if_pos h0]

/-- A statement that goes through went through each of its parts. -/
theorem bind_ok {α β : Type} {x : Except PgError α} {f : α → Except PgError β} {b : β}
    (h : x >>= f = .ok b) : ∃ a, x = .ok a ∧ f a = .ok b := by
  rcases x with e | a
  · cases h
  · exact ⟨a, rfl, h⟩

/-! ## Seconds of a Rust `Duration` -/

/-- `n as i64` for a `u64`. -/
def asI64 (n : Nat) : Int := if n < 2 ^ 63 then n else n - 2 ^ 64

theorem asI64_le (n : Nat) : asI64 n ≤ n := by
  unfold asI64
  split <;> omega

theorem asI64_of_lt {n : Nat} (h : n < 2 ^ 63) : asI64 n = n := if_pos h

theorem asI64_neg {n : Nat} (h : 2 ^ 63 ≤ n) (hlt : n < 2 ^ 64) : asI64 n < 0 := by
  unfold asI64
  rw [if_neg (by omega)]
  omega

/-- `std::time::Duration`: `u64` seconds, and nanoseconds below one second. -/
structure Duration where
  secs : Nat
  nanos : Nat
  secs_lt : secs < 2 ^ 64
  nanos_lt : nanos < 1000000000

/-- `Duration::from_secs`. -/
def Duration.from_secs (secs : UInt64) : Duration := ⟨secs.toNat, 0, secs.toNat_lt, by decide⟩

/-- `Duration::as_nanos`. -/
def Duration.as_nanos (d : Duration) : Nat := d.secs * 1000000000 + d.nanos

/-- The order of `Duration`: by the seconds, then by the nanoseconds. -/
instance : LE Duration := ⟨fun a b => a.secs < b.secs ∨ (a.secs = b.secs ∧ a.nanos ≤ b.nanos)⟩

instance (a b : Duration) : Decidable (a ≤ b) :=
  inferInstanceAs (Decidable (a.secs < b.secs ∨ (a.secs = b.secs ∧ a.nanos ≤ b.nanos)))

theorem Duration.secs_le {a b : Duration} (h : a ≤ b) : a.secs ≤ b.secs := by
  rcases h with h | ⟨h, _⟩
  · exact le_of_lt h
  · exact le_of_eq h

end postgres
