-- The laws of the two programs of `webhook.normalize`: what each makes of a
-- webhook, and exactly which webhooks they treat alike.
import SkipLocked.Normalize

open double_precision rfc3339 bench_migration

namespace identical_work

/-! ## The checks -/

/-- The Rust program turns the webhook away. It counts the bytes of the tracking number. -/
def Invalid (r : Raw) : Prop :=
  r.carrier_code.isEmpty = true ∨ r.tracking_number.utf8ByteSize < 6 ∨
    ¬ bench_migration.STATUSES.contains r.event.status = true ∨
    r.package.weight_grams.toInt ≤ 0 ∨ r.package.pieces.toInt ≤ 0

theorem canonical_of_status {s : String} (h : bench_migration.STATUSES.contains s = true) :
    ∃ status, canonical_status s = some status ∧
      celery_normalize.CANONICAL.lookup s = some status := by
  have hmem : s ∈ bench_migration.STATUSES := List.contains_iff_mem.mp h
  simp only [bench_migration.STATUSES, List.mem_cons, List.not_mem_nil, or_false] at hmem
  rcases hmem with rfl | rfl | rfl | rfl | rfl | rfl
  · exact ⟨"CREATED", rfl, by decide⟩
  · exact ⟨"IN_TRANSIT", rfl, by decide⟩
  · exact ⟨"OUT_FOR_DELIVERY", rfl, by decide⟩
  · exact ⟨"DELIVERED", rfl, by decide⟩
  · exact ⟨"EXCEPTION", rfl, by decide⟩
  · exact ⟨"RETURNED", rfl, by decide⟩

theorem nonpos_iff (n : Int64) : n ≤ 0 ↔ n.toInt ≤ 0 := by
  rw [Int64.le_iff_toInt_le, Int64.toInt_zero]

/-- What is left when a webhook that is turned away passes the first checks. -/
theorem package_invalid {r : Raw} {short : Prop} (h : Invalid r)
    (hshort : r.tracking_number.utf8ByteSize < 6 → short)
    (hnames : ¬ (r.carrier_code.isEmpty = true ∨ short))
    (hstatus : bench_migration.STATUSES.contains r.event.status = true) :
    r.package.weight_grams.toInt ≤ 0 ∨ r.package.pieces.toInt ≤ 0 := by
  rcases h with h | h | h | h
  · exact absurd (Or.inl h) hnames
  · exact absurd (Or.inr (hshort h)) hnames
  · exact absurd hstatus h
  · exact h

theorem rust_rejects (upper : String → String) {r : Raw} (h : Invalid r) :
    bench_migration.process upper r = .error () := by
  unfold bench_migration.process
  simp only [nonpos_iff]
  by_cases hnames : r.carrier_code.isEmpty = true ∨ r.tracking_number.utf8ByteSize < 6
  · rw [if_pos hnames]
    rfl
  · rw [if_neg hnames]
    by_cases hstatus : bench_migration.STATUSES.contains r.event.status = true
    · have hpackage := package_invalid h id hnames hstatus
      rw [if_neg (not_not.mpr hstatus), if_pos hpackage]
      rfl
    · rw [if_pos hstatus]
      rfl

theorem length_le_utf8ByteSize (s : String) : s.length ≤ s.utf8ByteSize := by
  induction s using String.push_induction with
  | empty => simp
  | push s c ih =>
    have hchar := c.utf8Size_pos
    rw [String.length_push, String.utf8ByteSize_push]
    omega

theorem python_rejects_short (upper : String → String) {r : Raw}
    (h : r.tracking_number.length < 6) : celery_normalize.process upper r = .ok none := by
  unfold celery_normalize.process
  rw [if_pos (Or.inr h)]
  rfl

theorem python_rejects (upper : String → String) {r : Raw} (h : Invalid r) :
    celery_normalize.process upper r = .ok none := by
  unfold celery_normalize.process
  by_cases hnames : r.carrier_code.isEmpty = true ∨ r.tracking_number.length < 6
  · rw [if_pos hnames]
    rfl
  · rw [if_neg hnames]
    by_cases hstatus : celery_normalize.STATUSES.contains r.event.status = true
    · have hpackage := package_invalid h (length_le_utf8ByteSize _).trans_lt hnames hstatus
      rw [if_neg (not_not.mpr hstatus), if_pos hpackage]
      rfl
    · rw [if_pos hstatus]
      rfl

/-! ## The timestamps -/

/-- Python reads the timestamp. -/
def Readable (t : Instant) : Prop :=
  1 ≤ t.year.val ∧ t.second.val ≤ 59 ∧ t.zone ≠ .zulu true

/-- Microseconds since 1970 as milliseconds in double precision: the seconds are rounded, and
then a thousand times the seconds. -/
def inMillis (micros : Int) : ℚ := toDouble (toDouble (micros / 1000000) * 1000)

/-- Double precision leaves the microseconds in their millisecond, where the milliseconds are
cut towards 1970. -/
def KeepsMillis (micros : Int) : Prop :=
  if 0 ≤ micros then
    ((micros / 1000 : Int) : ℚ) ≤ inMillis micros ∧ inMillis micros < (micros / 1000 : Int) + 1
  else
    ((micros / 1000 : Int) : ℚ) - 1 < inMillis micros ∧ inMillis micros ≤ (micros / 1000 : Int)

/-- The replacement changes no offset, and it leaves the lower-case `z`. -/
theorem replaceZ_spec (zone : Zone) : (celery_normalize.replaceZ zone).seconds = zone.seconds ∧
    (celery_normalize.replaceZ zone = .zulu true ↔ zone = .zulu true) := by
  rcases zone with lower | ⟨negative, hour, minute⟩
  · cases lower with
    | false => exact ⟨by decide, by decide⟩
    | true => exact ⟨rfl, Iff.rfl⟩
  · exact ⟨rfl, Iff.rfl⟩

theorem unreadable_iff (t : Instant) : ¬ Readable t ↔
    t.year.val = 0 ∨ t.second.val = 60 ∨ celery_normalize.replaceZ t.zone = .zulu true := by
  have hyear : ¬ 1 ≤ t.year.val ↔ t.year.val = 0 := by omega
  have hsecond : ¬ t.second.val ≤ 59 ↔ t.second.val = 60 := by omega
  unfold Readable
  rw [not_and_or, not_and_or, not_ne_iff, hyear, hsecond, (replaceZ_spec t.zone).2]

theorem fromisoformat_readable {t : Instant} (h : Readable t) :
    celery_normalize.fromisoformat t (celery_normalize.replaceZ t.zone) =
      .ok { micros := t.localMicros, utcoffset := t.zone.seconds } := by
  have hreads := (unreadable_iff t).not.mp (not_not.mpr h)
  unfold celery_normalize.fromisoformat
  rw [if_neg hreads, (replaceZ_spec t.zone).1]

theorem fromisoformat_unreadable {t : Instant} (h : ¬ Readable t) :
    celery_normalize.fromisoformat t (celery_normalize.replaceZ t.zone) = .error .ValueError := by
  unfold celery_normalize.fromisoformat
  rw [if_pos ((unreadable_iff t).mp h)]

/-- Rust counts the milliseconds of the UTC time. -/
theorem timestamp_millis_eq {t : Instant} (h : t.second.val ≤ 59) :
    timestamp_millis t = t.localMicros / 1000 - t.zone.seconds * 1000 := by
  have hsecond : t.second.val ≠ 60 := by omega
  have hnine : leading 9 t.fraction / 1000000 = leading 3 t.fraction :=
    leading_div 3 6 t.fraction
  have hsix : leading 6 t.fraction / 1000 = leading 3 t.fraction := leading_div 3 3 t.fraction
  simp only [timestamp_millis, if_neg hsecond, hnine]
  unfold Instant.localMicros
  omega

theorem keepsMillis_iff (micros : Int) :
    KeepsMillis micros ↔ truncate (inMillis micros) = micros / 1000 := by
  unfold KeepsMillis
  have hsign : ((micros : ℚ) / 1000000) * 1000 = micros / 1000 := by ring
  split
  · next h =>
    have hpos : (0 : ℚ) ≤ micros / 1000000 * 1000 := by
      rw [hsign]
      exact div_nonneg (by exact_mod_cast h) (by norm_num)
    exact (truncate_eq_iff_of_nonneg (toDouble_mul_nonneg hpos)).symm
  · next h =>
    have hneg : (micros : ℚ) / 1000000 * 1000 ≤ 0 := by
      rw [hsign]
      exact div_nonpos_of_nonpos_of_nonneg (by exact_mod_cast (not_le.mp h).le) (by norm_num)
    exact (truncate_eq_iff_of_nonpos (toDouble_mul_nonpos hneg)).symm

theorem inMillis_error (micros : Int) :
    |inMillis micros - micros / 1000| ≤ |(micros : ℚ)| / 1000 * 3 / 2 ^ 53 := by
  have herror := toDouble_mul_error ((micros : ℚ) / 1000000) 1000
  have hmillis : (micros : ℚ) / 1000000 * 1000 = micros / 1000 := by ring
  rw [hmillis, abs_div, abs_of_pos (by norm_num : (0 : ℚ) < 1000)] at herror
  exact herror

/-- The milliseconds in double precision are less than 1 off. -/
theorem inMillis_close (t : Instant) : |inMillis t.localMicros - t.localMicros / 1000| < 1 := by
  have hrange : |(t.localMicros : ℚ)| ≤ 3000001 * 86400 * 1000000 := by
    have hminutes := abs_le.mp t.minutesPast_range
    have hsecond := t.second.isLt
    have hfraction : leading 6 t.fraction < 1000000 := leading_lt 6 t.fraction
    have hint : |t.localMicros| ≤ 3000001 * 86400 * 1000000 := by
      rw [abs_le]
      unfold Instant.localMicros
      omega
    exact_mod_cast hint
  refine (inMillis_error t.localMicros).trans_lt ?_
  linarith

theorem seconds_mod_60 (zone : Zone) : zone.seconds % 60 = 0 := by
  cases zone with
  | zulu lower => rfl
  | offset negative hour minute =>
    simp only [Zone.seconds]
    split <;> omega

/-- A minute of offset is more than any rounding. -/
theorem millis_agree_iff {t : Instant} (h : t.second.val ≤ 59) :
    timestamp_millis t = truncate (inMillis t.localMicros) ↔
      t.zone.seconds = 0 ∧ KeepsMillis t.localMicros := by
  rw [timestamp_millis_eq h, keepsMillis_iff]
  constructor
  · intro heq
    have hclose : |truncate (inMillis t.localMicros) - t.localMicros / 1000| < 3 := by
      have hcut := abs_lt.mp (truncate_error (inMillis t.localMicros))
      have hround := abs_lt.mp (inMillis_close t)
      have hfloor : ⌊(t.localMicros : ℚ) / 1000⌋ = t.localMicros / 1000 := by
        exact_mod_cast Rat.floor_intCast_div_natCast t.localMicros 1000
      have hlow := Int.floor_le ((t.localMicros : ℚ) / 1000)
      have hhigh := Int.lt_floor_add_one ((t.localMicros : ℚ) / 1000)
      rw [hfloor] at hlow hhigh
      have hrat : |(truncate (inMillis t.localMicros) : ℚ) - (t.localMicros / 1000 : Int)| < 3 := by
        rw [abs_lt]
        constructor <;> linarith
      exact_mod_cast hrat
    have hminute := seconds_mod_60 t.zone
    rw [abs_lt] at hclose
    omega
  · rintro ⟨hzone, hkeeps⟩
    rw [hzone, hkeeps]
    omega

/-! ## The grams -/

theorem toInt_max (a b : Int64) : (max a b).toInt = max a.toInt b.toInt := by
  have hmax : max a b = if a ≤ b then b else a := rfl
  rw [hmax, max_def]
  simp only [Int64.le_iff_toInt_le]
  split <;> rfl

/-- The product must fit: a sum too large for 64 bits is no grams of Rust. -/
theorem grams_agree_iff (weight_grams : Int64) {pieces : Int64} (h : 0 < pieces.toInt) :
    (max weight_grams (pieces * 500)).toInt = max weight_grams.toInt (pieces.toInt * 500) ↔
      pieces.toInt * 500 < 2 ^ 63 := by
  rw [toInt_max, Int64.toInt_mul]
  have hconst : (500 : Int64).toInt = 500 := by decide
  rw [hconst]
  constructor
  · intro heq
    have hlow := weight_grams.toInt_lt
    have hwrapped := Int.bmod_lt (x := pieces.toInt * 500) (m := 2 ^ 64) (by decide)
    by_contra hlarge
    omega
  · intro hfits
    rw [Int.bmod_eq_of_le (by omega) (by omega)]

/-! ## The two programs -/

theorem rust_accepts (upper : String → String) {r : Raw} (h : ¬ Invalid r) :
    ∃ status, canonical_status r.event.status = some status ∧
      bench_migration.process upper r = .ok {
        carrier := upper r.carrier_code
        tracking := r.tracking_number
        status
        ts_millis := timestamp_millis r.event.timestamp
        country := upper r.event.location.country
        billable_grams := max r.package.weight_grams (r.package.pieces * 500) } := by
  obtain ⟨hcarrier, htracking, hstatus, hweight, hpieces⟩ := by
    simpa only [Invalid, not_or, not_not] using h
  obtain ⟨status, hcanonical, -⟩ := canonical_of_status hstatus
  refine ⟨status, hcanonical, ?_⟩
  unfold bench_migration.process
  simp only [nonpos_iff]
  rw [if_neg (not_or.mpr ⟨hcarrier, htracking⟩), if_neg (not_not.mpr hstatus),
    if_neg (not_or.mpr ⟨hweight, hpieces⟩), hcanonical]
  rfl

theorem python_reaches (upper : String → String) {r : Raw} (h : ¬ Invalid r)
    (hlen : 6 ≤ r.tracking_number.length) :
    ∃ status, canonical_status r.event.status = some status ∧
      celery_normalize.process upper r = (do
        let ts ← celery_normalize.fromisoformat r.event.timestamp
          (celery_normalize.replaceZ r.event.timestamp.zone)
        return some {
          carrier := upper r.carrier_code
          tracking := r.tracking_number
          status
          ts_millis := truncate (toDouble (ts.replace_utc.timestamp * 1000))
          country := upper r.event.location.country
          billable_grams := max r.package.weight_grams.toInt (r.package.pieces.toInt * 500) }) := by
  obtain ⟨hcarrier, -, hstatus, hweight, hpieces⟩ := by
    simpa only [Invalid, not_or, not_not] using h
  obtain ⟨status, hcanonical, hlookup⟩ := canonical_of_status hstatus
  refine ⟨status, hcanonical, ?_⟩
  have hset : celery_normalize.STATUSES.contains r.event.status = true := hstatus
  unfold celery_normalize.process
  rw [if_neg (not_or.mpr ⟨hcarrier, not_lt.mpr hlen⟩), if_neg (not_not.mpr hset),
    if_neg (not_or.mpr ⟨hweight, hpieces⟩), hlookup]

theorem python_accepts (upper : String → String) {r : Raw} (h : ¬ Invalid r)
    (hlen : 6 ≤ r.tracking_number.length) (hread : Readable r.event.timestamp) :
    ∃ status, canonical_status r.event.status = some status ∧
      celery_normalize.process upper r = .ok (some {
        carrier := upper r.carrier_code
        tracking := r.tracking_number
        status
        ts_millis := truncate (inMillis r.event.timestamp.localMicros)
        country := upper r.event.location.country
        billable_grams := max r.package.weight_grams.toInt (r.package.pieces.toInt * 500) }) := by
  obtain ⟨status, hcanonical, hprocess⟩ := python_reaches upper h hlen
  refine ⟨status, hcanonical, ?_⟩
  have hmillis (micros offset : Int) :
      toDouble ((celery_normalize.datetime.mk micros offset).replace_utc.timestamp * 1000) =
        inMillis micros := by
    unfold celery_normalize.datetime.replace_utc celery_normalize.datetime.timestamp inMillis
    rw [zero_mul, sub_zero]
  rw [hprocess, fromisoformat_readable hread, ← hmillis _ r.event.timestamp.zone.seconds]
  rfl

theorem python_raises (upper : String → String) {r : Raw} (h : ¬ Invalid r)
    (hlen : 6 ≤ r.tracking_number.length) (hread : ¬ Readable r.event.timestamp) :
    celery_normalize.process upper r = .error .ValueError := by
  obtain ⟨status, -, hprocess⟩ := python_reaches upper h hlen
  rw [hprocess, fromisoformat_unreadable hread]
  rfl

/-! ## The laws -/

/-- The two results are the same, field by field. -/
structure Same (n : bench_migration.Normalized) (d : celery_normalize.Normalized) : Prop where
  carrier : n.carrier = d.carrier
  tracking : n.tracking = d.tracking
  status : n.status = d.status
  ts_millis : n.ts_millis = d.ts_millis
  country : n.country = d.country
  billable_grams : n.billable_grams.toInt = d.billable_grams

/-- The two programs accept the webhook together, and then with the same result. -/
def Agree (upper : String → String) (r : Raw) : Prop :=
  ((∃ n, bench_migration.process upper r = .ok n) ↔
    ∃ d, celery_normalize.process upper r = .ok (some d)) ∧
  ∀ n d, bench_migration.process upper r = .ok n →
    celery_normalize.process upper r = .ok (some d) → Same n d

/-- A webhook that the checks turn away, or one with six characters in its tracking number,
pieces whose grams fit 64 bits, and a timestamp in UTC that Python reads and that double
precision keeps. -/
def Comparable (r : Raw) : Prop :=
  Invalid r ∨
    (6 ≤ r.tracking_number.length ∧ r.package.pieces.toInt * 500 < 2 ^ 63 ∧
      Readable r.event.timestamp ∧ r.event.timestamp.zone.seconds = 0 ∧
      KeepsMillis r.event.timestamp.localMicros)

theorem agree_of_invalid (upper : String → String) {r : Raw} (h : Invalid r) :
    Agree upper r := by
  unfold Agree
  rw [rust_rejects upper h, python_rejects upper h]
  refine ⟨⟨?_, ?_⟩, ?_⟩
  · rintro ⟨n, hn⟩
    cases hn
  · rintro ⟨d, hd⟩
    cases hd
  · intro n d hn
    cases hn

/-- A webhook that only Rust accepts. -/
theorem disagree_of_rust_alone {upper : String → String} {r : Raw} (h : ¬ Invalid r)
    (hpython : ∀ d, celery_normalize.process upper r ≠ .ok (some d)) : ¬ Agree upper r := by
  rintro ⟨haccept, -⟩
  obtain ⟨status, -, hrust⟩ := rust_accepts upper h
  obtain ⟨d, hd⟩ := haccept.mp ⟨_, hrust⟩
  exact hpython d hd

/-- A webhook that both programs accept. -/
theorem agree_of_accepted (upper : String → String) {r : Raw} (h : ¬ Invalid r)
    (hlen : 6 ≤ r.tracking_number.length) (hread : Readable r.event.timestamp) :
    Agree upper r ↔ r.package.pieces.toInt * 500 < 2 ^ 63 ∧
      r.event.timestamp.zone.seconds = 0 ∧ KeepsMillis r.event.timestamp.localMicros := by
  obtain ⟨status, hcanonical, hrust⟩ := rust_accepts upper h
  obtain ⟨status', hcanonical', hpython⟩ := python_accepts upper h hlen hread
  obtain rfl : status = status' := by
    rw [hcanonical] at hcanonical'
    exact Option.some.inj hcanonical'
  have hpieces : 0 < r.package.pieces.toInt := by
    by_contra hnone
    exact h (Or.inr (Or.inr (Or.inr (Or.inr (not_lt.mp hnone)))))
  have hgrams := grams_agree_iff r.package.weight_grams hpieces
  have hmillis := millis_agree_iff hread.2.1
  unfold Agree
  rw [hrust, hpython, ← hmillis, ← hgrams]
  constructor
  · rintro ⟨-, hsame⟩
    have hfields := hsame _ _ rfl rfl
    exact ⟨hfields.billable_grams, hfields.ts_millis⟩
  · rintro ⟨hgrams_eq, hmillis_eq⟩
    refine ⟨⟨fun _ => ⟨_, rfl⟩, fun _ => ⟨_, rfl⟩⟩, ?_⟩
    intro n d hn hd
    cases hn
    cases hd
    exact { carrier := rfl, tracking := rfl, status := rfl, ts_millis := hmillis_eq,
            country := rfl, billable_grams := hgrams_eq }

theorem comparable_of_agree {upper : String → String} {r : Raw} (h : Agree upper r) :
    Comparable r := by
  by_cases hvalid : Invalid r
  · exact Or.inl hvalid
  have hlen : 6 ≤ r.tracking_number.length := by
    by_contra hshort
    refine disagree_of_rust_alone hvalid ?_ h
    intro d
    rw [python_rejects_short upper (not_le.mp hshort)]
    simp
  have hread : Readable r.event.timestamp := by
    by_contra hraises
    refine disagree_of_rust_alone hvalid ?_ h
    intro d
    rw [python_raises upper hvalid hlen hraises]
    simp
  obtain ⟨hgrams, hzone, hkeeps⟩ := (agree_of_accepted upper hvalid hlen hread).mp h
  exact Or.inr ⟨hlen, hgrams, hread, hzone, hkeeps⟩

/-- The programs do the same work on exactly the comparable webhooks. -/
theorem the_work_is_identical_on_comparable_webhooks (upper : String → String) (r : Raw) :
    Agree upper r ↔ Comparable r := by
  constructor
  · exact comparable_of_agree
  · intro h
    by_cases hvalid : Invalid r
    · exact agree_of_invalid upper hvalid
    · obtain ⟨hlen, hgrams, hread, hzone, hkeeps⟩ := h.resolve_left hvalid
      exact (agree_of_accepted upper hvalid hlen hread).mpr ⟨hgrams, hzone, hkeeps⟩

def twoHoursEast : Zone := .offset false ⟨2, by decide⟩ ⟨0, by decide⟩

def noon (zone : Zone) : Instant :=
  { year := ⟨2026, by decide⟩, month := 6, day := 16, hour := ⟨12, by decide⟩,
    minute := ⟨0, by decide⟩, second := ⟨0, by decide⟩, fraction := [], zone,
    month_in := by decide, day_in := by decide }

def delivery (tracking_number : String) (zone : Zone) (pieces : Int64) : Raw :=
  { carrier_code := "dhl"
    tracking_number
    event := { status := "delivered"
               timestamp := noon zone
               location := { city := "Lyon", country := "FR", postal := "69001" } }
    package := { weight_grams := 500, pieces } }

/-- Noon at +02:00 is another time for Python, a tracking number of three letters is long
enough for Rust, and the grams of so many pieces wrap in Rust. -/
theorem an_offset_is_not_identical_work :
    ¬ Agree String.toUpper (delivery "1Z999AA0000000001" twoHoursEast 1) ∧
      ¬ Agree String.toUpper (delivery "äöü" (.zulu false) 1) ∧
      ¬ Agree String.toUpper
        (delivery "1Z999AA0000000001" (.zulu false) 18446744073709552) := by
  have hvalid (tracking_number : String) (zone : Zone) (pieces : Int64)
      (htracking : 6 ≤ tracking_number.utf8ByteSize) (hpieces : 0 < pieces.toInt) :
      ¬ Invalid (delivery tracking_number zone pieces) := by
    rintro (h | h | h | h | h)
    · exact absurd h (show ¬ "dhl".isEmpty = true by decide)
    · exact absurd h (not_lt.mpr htracking)
    · exact h (show bench_migration.STATUSES.contains "delivered" = true by decide)
    · exact absurd h (show ¬ (500 : Int64).toInt ≤ 0 by decide)
    · exact absurd h (not_le.mpr hpieces)
  refine ⟨?_, ?_, ?_⟩
  · intro h
    have hcomparable := (comparable_of_agree h).resolve_left
      (hvalid _ _ _ (by decide) (by decide))
    exact absurd hcomparable.2.2.2.1 (by decide)
  · intro h
    have hcomparable := (comparable_of_agree h).resolve_left
      (hvalid _ _ _ (by decide) (by decide))
    exact absurd hcomparable.1 (by decide)
  · intro h
    have hcomparable := (comparable_of_agree h).resolve_left
      (hvalid _ _ _ (by decide) (by decide))
    exact absurd hcomparable.2.1 (by decide)

/-! ## What double precision keeps -/

theorem keepsMillis_of_whole_seconds {secs : Int} (h : |secs * 1000| < 2 ^ 53) :
    KeepsMillis (secs * 1000000) := by
  have hsecs : |secs| < 2 ^ 53 := by
    rw [abs_lt] at h ⊢
    omega
  have hexact : inMillis (secs * 1000000) = ((secs * 1000 : Int) : ℚ) := by
    unfold inMillis
    have hquot : (((secs * 1000000 : Int) : ℚ) / 1000000) = secs := by
      push_cast
      field_simp
    rw [hquot, toDouble_intCast hsecs]
    have hproduct : (secs : ℚ) * 1000 = ((secs * 1000 : Int) : ℚ) := by push_cast; ring
    rw [hproduct, toDouble_intCast h]
  have hmillis : secs * 1000000 / 1000 = secs * 1000 := by omega
  unfold KeepsMillis
  rw [hexact, hmillis]
  split
  · constructor <;> linarith
  · constructor <;> linarith

/-- Every timestamp in whole seconds of UTC is kept: those of the dumped payloads are such. -/
theorem comparable_of_whole_seconds {r : Raw} (hlen : 6 ≤ r.tracking_number.length)
    (hgrams : r.package.pieces.toInt * 500 < 2 ^ 63) (hread : Readable r.event.timestamp)
    (hzone : r.event.timestamp.zone.seconds = 0) (hwhole : r.event.timestamp.fraction = []) :
    Comparable r := by
  refine Or.inr ⟨hlen, hgrams, hread, hzone, ?_⟩
  have hsecs : r.event.timestamp.localMicros =
      (r.event.timestamp.minutesPast + r.event.timestamp.second.val) * 1000000 := by
    unfold Instant.localMicros
    rw [hwhole]
    simp [leading]
  rw [hsecs]
  apply keepsMillis_of_whole_seconds
  have hminutes := abs_le.mp r.event.timestamp.minutesPast_range
  have hsecond := r.event.timestamp.second.isLt
  rw [abs_lt]
  omega

/-- Up to the year 2065, the rounding is less than a microsecond. -/
theorem inMillis_near {micros : Int} (h : |micros| ≤ 3000000000000000) :
    |inMillis micros - micros / 1000| < 1 / 1000 := by
  have hrange : |(micros : ℚ)| ≤ 3000000000000000 := by exact_mod_cast h
  refine (inMillis_error micros).trans_lt ?_
  linarith

theorem micros_split (micros : Int) :
    (micros : ℚ) / 1000 = (micros / 1000 : Int) + (micros % 1000 : Int) / 1000 := by
  have hdiv : (micros : ℚ) = 1000 * (micros / 1000 : Int) + (micros % 1000 : Int) := by
    exact_mod_cast (Int.mul_ediv_add_emod micros 1000).symm
  linarith

/-- After 1970, fractions of a millisecond are kept: only whole milliseconds can be lost. -/
theorem keepsMillis_of_fraction {micros : Int} (hsince : 0 ≤ micros)
    (huntil : micros ≤ 3000000000000000) (hfraction : micros % 1000 ≠ 0) :
    KeepsMillis micros := by
  have hnear := abs_lt.mp (inMillis_near (abs_le.mpr ⟨by omega, huntil⟩))
  rw [micros_split] at hnear
  have hlow : (1 : ℚ) ≤ (micros % 1000 : Int) := by exact_mod_cast (by omega : 1 ≤ micros % 1000)
  have hhigh : ((micros % 1000 : Int) : ℚ) ≤ 999 := by
    exact_mod_cast (by omega : micros % 1000 ≤ 999)
  unfold KeepsMillis
  rw [if_pos hsince]
  constructor <;> linarith

-- 1.001 s after 1970 is one of the lost ones: Python has 1000 milliseconds.
example : ¬ KeepsMillis 1001000 := by
  rw [keepsMillis_iff]
  decide +kernel

/-- Before 1970, fractions are cut the other way. -/
theorem not_keepsMillis_before_1970 {micros : Int} (hsince : -3000000000000000 ≤ micros)
    (hbefore : micros < 0) (hfraction : micros % 1000 ≠ 0) : ¬ KeepsMillis micros := by
  have hnear := abs_lt.mp (inMillis_near (abs_le.mpr ⟨hsince, by omega⟩))
  rw [micros_split] at hnear
  have hlow : (1 : ℚ) ≤ (micros % 1000 : Int) := by exact_mod_cast (by omega : 1 ≤ micros % 1000)
  unfold KeepsMillis
  rw [if_neg (not_le.mpr hbefore)]
  rintro ⟨-, hle⟩
  linarith

end identical_work
