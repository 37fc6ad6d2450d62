-- The two programs of `webhook.normalize`: `examples/bench_migration.rs` in
-- Rust and `bench/celery_normalize.py` in Python. A decoded webhook has the
-- fields of the Rust struct, and its timestamp is an RFC 3339 instant.
import SkipLocked.Doubles

open double_precision

/-! ## RFC 3339 instants -/

namespace rfc3339

def isLeap (year : Nat) : Bool :=
  decide (year % 4 = 0) && (decide (year % 100 ≠ 0) || decide (year % 400 = 0))

def daysIn (year month : Nat) : Nat :=
  match month with
  | 2 => if isLeap year then 29 else 28
  | 4 | 6 | 9 | 11 => 30
  | _ => 31

/-- The days from 1970-01-01, in the calendar of Gregory for all years. -/
def epochDay (year month day : Nat) : Int :=
  let y : Int := year - 1
  365 * y + y / 4 - y / 100 + y / 400 +
    (((List.range (month - 1)).map (fun m => daysIn year (m + 1))).sum : Nat) + day - 719163

/-- `Z`, or a numeric offset. The grammar takes a `z` as well. -/
inductive Zone where
  | zulu (lower : Bool)
  | offset (negative : Bool) (hour : Fin 24) (minute : Fin 60)
deriving DecidableEq

/-- The seconds east of UTC. -/
def Zone.seconds : Zone → Int
  | .zulu _ => 0
  | .offset negative hour minute =>
    let secs : Int := hour.val * 3600 + minute.val * 60
    if negative then -secs else secs

/-- An instant as it is written: its local date and time, the digits of its fraction of a
second, and its zone. The second 60 is a leap second. -/
structure Instant where
  year : Fin 10000
  month : Nat
  day : Nat
  hour : Fin 24
  minute : Fin 60
  second : Fin 61
  fraction : List (Fin 10)
  zone : Zone
  month_in : 1 ≤ month ∧ month ≤ 12
  day_in : 1 ≤ day ∧ day ≤ daysIn year.val month

/-- The first `n` digits of a fraction, as a number of `n` digits. -/
def leading : Nat → List (Fin 10) → Nat
  | 0, _ => 0
  | _ + 1, [] => 0
  | n + 1, d :: rest => d.val * 10 ^ n + leading n rest

/-- The seconds of the local time up to its minute. -/
def Instant.minutesPast (t : Instant) : Int :=
  epochDay t.year.val t.month t.day * 86400 + t.hour.val * 3600 + t.minute.val * 60

/-- The microseconds of the local time since 1970: six digits of the fraction. -/
def Instant.localMicros (t : Instant) : Int :=
  (t.minutesPast + t.second.val) * 1000000 + leading 6 t.fraction

example : epochDay 1970 1 1 = 0 := by decide

example : epochDay 2026 6 16 = 20620 := by decide

/-! ## Their digits and their range -/

theorem leading_lt (n : Nat) (ds : List (Fin 10)) : leading n ds < 10 ^ n := by
  induction n generalizing ds with
  | zero => simp [leading]
  | succ n ih =>
    cases ds with
    | nil => simp [leading]
    | cons d rest =>
      have hrest := ih rest
      have hdigit : d.val * 10 ^ n ≤ 9 * 10 ^ n := Nat.mul_le_mul_right _ (by omega)
      simp only [leading, pow_succ]
      omega

theorem leading_add (n k : Nat) (ds : List (Fin 10)) :
    leading (n + k) ds = leading n ds * 10 ^ k + leading k (ds.drop n) := by
  induction n generalizing ds with
  | zero => simp [leading]
  | succ n ih =>
    rw [Nat.succ_add]
    cases ds with
    | nil =>
      have hnil : leading k [] = 0 := by cases k <;> rfl
      simp [leading, hnil]
    | cons d rest =>
      simp only [leading, ih rest, List.drop_succ_cons, pow_add]
      ring

/-- The last digits of a fraction are cut off. -/
theorem leading_div (n k : Nat) (ds : List (Fin 10)) :
    leading (n + k) ds / 10 ^ k = leading n ds := by
  rw [leading_add, Nat.add_comm, Nat.add_mul_div_right _ _ (by positivity),
    Nat.div_eq_of_lt (leading_lt k _), Nat.zero_add]

theorem daysIn_le (year month : Nat) : daysIn year month ≤ 31 := by
  unfold daysIn
  split
  · split <;> omega
  all_goals omega

/-- The instants lie within some 3 million days of 1970. -/
theorem Instant.minutesPast_range (t : Instant) :
    |t.minutesPast| ≤ 3000000 * 86400 := by
  have hmonths : ((List.range (t.month - 1)).map (fun m => daysIn t.year.val (m + 1))).sum ≤
      (t.month - 1) * 31 := by
    have h := List.sum_le_card_nsmul
      ((List.range (t.month - 1)).map (fun m => daysIn t.year.val (m + 1))) 31 (by
        intro days hdays
        obtain ⟨m, -, rfl⟩ := List.mem_map.mp hdays
        exact daysIn_le _ _)
    simpa using h
  have hday := t.day_in.2.trans (daysIn_le _ _)
  have hmonth := t.month_in
  have hyear := t.year.isLt
  rw [abs_le]
  simp only [Instant.minutesPast, epochDay]
  omega

end rfc3339

/-! ## The webhook -/

namespace bench_migration

open rfc3339

structure RawLoc where
  city : String
  country : String
  postal : String

structure RawEvent where
  status : String
  timestamp : Instant
  location : RawLoc

structure RawPackage where
  weight_grams : Int64
  pieces : Int64

structure Raw where
  carrier_code : String
  tracking_number : String
  event : RawEvent
  package : RawPackage

/-! ## In Rust -/

structure Normalized where
  carrier : String
  tracking : String
  status : String
  ts_millis : Int
  country : String
  billable_grams : Int64

def STATUSES : List String :=
  ["created", "in_transit", "out_for_delivery", "delivered", "exception", "returned"]

def canonical_status (s : String) : Option String :=
  match s with
  | "created" => some "CREATED"
  | "in_transit" => some "IN_TRANSIT"
  | "out_for_delivery" => some "OUT_FOR_DELIVERY"
  | "delivered" => some "DELIVERED"
  | "exception" => some "EXCEPTION"
  | "returned" => some "RETURNED"
  | _ => none

/-- `DateTime::parse_from_rfc3339(…).timestamp_millis()`. It takes every instant. Nine digits
of the fraction count, and a leap second is second 59 with a second more of nanoseconds. -/
def timestamp_millis (t : Instant) : Int :=
  let second := if t.second.val = 60 then 59 else t.second.val
  let nano := if t.second.val = 60 then 1000000000 + leading 9 t.fraction else leading 9 t.fraction
  let timestamp := t.minutesPast + (second : Nat) - t.zone.seconds
  timestamp * 1000 + ((nano / 1000000 : Nat) : Int)

/-- The product wraps: release arithmetic. -/
def process (to_uppercase : String → String) (r : Raw) : Except Unit Normalized := do
  if r.carrier_code.isEmpty ∨ r.tracking_number.utf8ByteSize < 6 then throw ()
  if ¬ STATUSES.contains r.event.status then throw ()
  if r.package.weight_grams ≤ 0 ∨ r.package.pieces ≤ 0 then throw ()
  let status ← match canonical_status r.event.status with
    | some status => .ok status
    | none => .error ()
  let ts := timestamp_millis r.event.timestamp
  return { carrier := to_uppercase r.carrier_code
           tracking := r.tracking_number
           status
           ts_millis := ts
           country := to_uppercase r.event.location.country
           billable_grams := max r.package.weight_grams (r.package.pieces * 500) }

end bench_migration

/-! ## In Python -/

namespace celery_normalize

open rfc3339 bench_migration

inductive PyError where
  | ValueError
deriving DecidableEq

/-- The dictionary `_normalized`. -/
structure Normalized where
  carrier : String
  tracking : String
  status : String
  ts_millis : Int
  country : String
  billable_grams : Int

def STATUSES : List String :=
  ["created", "in_transit", "out_for_delivery", "delivered", "exception", "returned"]

def CANONICAL : List (String × String) :=
  [("created", "CREATED"), ("in_transit", "IN_TRANSIT"),
    ("out_for_delivery", "OUT_FOR_DELIVERY"), ("delivered", "DELIVERED"),
    ("exception", "EXCEPTION"), ("returned", "RETURNED")]

/-- A `datetime` with its zone: the microseconds of its local time since 1970, and the seconds
of its offset. -/
structure datetime where
  micros : Int
  utcoffset : Int

/-- `timestamp.replace("Z", "+00:00")`: no other letter of an instant is a `Z`. -/
def replaceZ : Zone → Zone
  | .zulu false => .offset false 0 0
  | zone => zone

/-- `datetime.fromisoformat`, since Python 3.11: six digits of the fraction count. It knows no
year 0, no second 60 and no `z`. -/
def fromisoformat (t : Instant) (zone : Zone) : Except PyError datetime :=
  if t.year.val = 0 ∨ t.second.val = 60 ∨ zone = .zulu true then .error .ValueError
  else .ok { micros := t.localMicros, utcoffset := zone.seconds }

/-- `.replace(tzinfo=timezone.utc)`: the local time stays. -/
def datetime.replace_utc (d : datetime) : datetime := { d with utcoffset := 0 }

/-- `.timestamp()`: the microseconds since 1970 UTC, divided into a double. -/
def datetime.timestamp (d : datetime) : ℚ :=
  toDouble ((d.micros - d.utcoffset * 1000000 : Int) / 1000000)

/-- It returns the dictionary for True, and none for False. -/
def process (upper : String → String) (r : Raw) : Except PyError (Option Normalized) := do
  if r.carrier_code.isEmpty ∨ r.tracking_number.length < 6 then return none
  if ¬ STATUSES.contains r.event.status then return none
  if r.package.weight_grams.toInt ≤ 0 ∨ r.package.pieces.toInt ≤ 0 then return none
  match CANONICAL.lookup r.event.status with
  | none => return none
  | some status =>
    let ts ← fromisoformat r.event.timestamp (replaceZ r.event.timestamp.zone)
    let ts_millis := truncate (toDouble (ts.replace_utc.timestamp * 1000))
    return some { carrier := upper r.carrier_code
                  tracking := r.tracking_number
                  status
                  ts_millis
                  country := upper r.event.location.country
                  billable_grams :=
                    max r.package.weight_grams.toInt (r.package.pieces.toInt * 500) }

end celery_normalize
