-- The payloads of the benchmark: `build_payloads` writes them, Rust works on
-- them and dumps them, and Python reads the dump. Both programs see the same
-- payloads and accept every one of them with the same result.
import SkipLocked.IdenticalWork

open rfc3339

/-! ## In Rust -/

namespace bench_migration

def cities : List String := ["Hamburg", "Lyon", "Turin", "Gdansk", "Porto", "Brno"]

def countries : List String := ["DE", "FR", "IT", "PL", "PT", "CZ"]

def carriers : List String := ["uxz", "dhl", "gls", "dpd", "inpost", "ups"]

/-- The generator of `build_payloads`: the new state, and its upper half. -/
def next (state : UInt64) : UInt64 × UInt32 :=
  let state := state * 6364136223846793005 + 1442695040888963407
  (state, (state >>> 33).toUInt32)

/-- What one turn of the loop draws, in this order. -/
structure Draws where
  c : Fin carriers.length
  s : Fin STATUSES.length
  loc : Fin cities.length
  w : Fin 40000
  p : Fin 5
  hour : Fin 24
  min : Fin 60
  postal : Fin 100000

/-- `next() % k`. -/
def nextBelow (k : Nat) (h : k ≠ 0) : StateM UInt64 (Fin k) := do
  let (state, x) := next (← get)
  set state
  return ⟨x.toNat % k, Nat.mod_lt _ (Nat.pos_of_ne_zero h)⟩

def draw : StateM UInt64 Draws := do
  let c ← nextBelow carriers.length (by decide)
  let s ← nextBelow STATUSES.length (by decide)
  let loc ← nextBelow cities.length (by decide)
  let w ← nextBelow 40000 (by decide)
  let p ← nextBelow 5 (by decide)
  let hour ← nextBelow 24 (by decide)
  let min ← nextBelow 60 (by decide)
  let postal ← nextBelow 100000 (by decide)
  return { c, s, loc, w, p, hour, min, postal }

def drawsFrom : Nat → UInt64 → List Draws
  | 0, _ => []
  | n + 1, state => (draw.run state).1 :: drawsFrom n (draw.run state).2

def draws (n : Nat) : List Draws := drawsFrom n 0xC0FFEE

/-- `{n:0width}`. -/
def padded (width n : Nat) : String := String.ofList ((Nat.toDigits 10 n).leftpad width '0')

/-- The line of the payload `i`. -/
def payload (i : Nat) (d : Draws) : String :=
  String.join
    ["\x7b\"carrier_code\":\"", carriers.get d.c,
      "\",\"tracking_number\":\"1Z999AA", padded 10 i,
      "\",\"event\":\x7b\"status\":\"", STATUSES.get d.s,
      "\",\"timestamp\":\"2026-06-16T", padded 2 d.hour.val, ":", padded 2 d.min.val,
      ":00Z\",\"location\":\x7b\"city\":\"", cities.get d.loc,
      "\",\"country\":\"", countries.get d.loc,
      "\",\"postal\":\"", padded 5 d.postal.val,
      "\"\x7d\x7d,\"package\":\x7b\"weight_grams\":", (500 + d.w.val).repr,
      ",\"pieces\":", (1 + d.p.val).repr,
      "\x7d,\"meta\":\x7b\"source\":\"carrier-push\",\"attempt\":1\x7d\x7d"]

def build_payloads (n : Nat) : List String := (draws n).mapIdx payload

/-- `payloads.join("\n")`, as `-dump` writes it. -/
def dump (payloads : List String) : String := String.intercalate (String.singleton '\n') payloads

/-- `process` on a line, which `serde_json::from_str` reads. -/
def processLine (from_str : String → Option Raw) (to_uppercase : String → String)
    (raw : String) : Except Unit Normalized :=
  match from_str raw with
  | none => .error ()
  | some r => process to_uppercase r

/-- The counter `ok` of `main`. -/
def mainOk (from_str : String → Option Raw) (to_uppercase : String → String) (n : Nat) : Nat :=
  (build_payloads n).countP (fun raw => (processLine from_str to_uppercase raw).isOk)

end bench_migration

/-! ## In Python -/

namespace celery_normalize

open bench_migration

/-- `f.read().split("\n")`. -/
def splitLines (text : String) : List String := (text.split '\n').toList.map (·.copy)

/-- `process` on a line, which `json.loads` reads. -/
def processLine (loads : String → Option Raw) (upper : String → String) (raw : String) :
    Except PyError (Option Normalized) :=
  match loads raw with
  | none => .ok none
  | some r => process upper r

/-- The loop of `main`: how many lines are not empty, and how many of them are `ok`. -/
def mainLoop (loads : String → Option Raw) (upper : String → String) :
    List String → Except PyError (Nat × Nat)
  | [] => .ok (0, 0)
  | raw :: rest =>
    if raw.isEmpty then mainLoop loads upper rest
    else do
      let accepted ← processLine loads upper raw
      let (n, ok) ← mainLoop loads upper rest
      return (n + 1, if accepted.isSome then ok + 1 else ok)

def main (loads : String → Option Raw) (upper : String → String) (text : String) :
    Except PyError (Nat × Nat) := mainLoop loads upper (splitLines text)

end celery_normalize

/-! ## What a payload spells -/

namespace identical_work

open bench_migration

theorem june : 1 ≤ 6 ∧ 6 ≤ 12 := by decide

theorem june_sixteenth : 1 ≤ 16 ∧ 16 ≤ daysIn 2026 6 := by decide

/-- The webhook of a payload. -/
def rawOf (i : Nat) (d : Draws) : Raw :=
  { carrier_code := carriers.get d.c
    tracking_number := "1Z999AA" ++ padded 10 i
    event :=
      { status := STATUSES.get d.s
        timestamp :=
          { year := 2026, month := 6, day := 16, hour := d.hour, minute := d.min, second := 0,
            fraction := [], zone := .zulu false, month_in := june, day_in := june_sixteenth }
        location :=
          { city := cities.get d.loc, country := countries.get d.loc,
            postal := padded 5 d.postal.val } }
    package :=
      { weight_grams := Int64.ofNat (500 + d.w.val), pieces := Int64.ofNat (1 + d.p.val) } }

theorem valid_payload (i : Nat) (d : Draws) : ¬ Invalid (rawOf i d) := by
  have hcarrier : ∀ c, ¬ (carriers.get c).isEmpty = true := by decide
  have hprefix : "1Z999AA".utf8ByteSize = 7 := by decide
  have hw := d.w.isLt
  have hp := d.p.isLt
  have hweight : (Int64.ofNat (500 + d.w.val)).toInt = (500 + d.w.val : Nat) :=
    Int64.toInt_ofNat_of_lt (by omega)
  have hpieces : (Int64.ofNat (1 + d.p.val)).toInt = (1 + d.p.val : Nat) :=
    Int64.toInt_ofNat_of_lt (by omega)
  rintro (h | h | h | h | h)
  · exact hcarrier d.c h
  · simp only [rawOf, String.utf8ByteSize_append] at h
    omega
  · exact h (List.contains_iff_mem.mpr (List.get_mem _ _))
  · simp only [rawOf] at h
    omega
  · simp only [rawOf] at h
    omega

theorem comparable_payload (i : Nat) (d : Draws) : Comparable (rawOf i d) := by
  have hp := d.p.isLt
  have hprefix : "1Z999AA".length = 7 := by decide
  apply comparable_of_whole_seconds
  · simp only [rawOf, String.length_append]
    omega
  · have hpieces : (Int64.ofNat (1 + d.p.val)).toInt = (1 + d.p.val : Nat) :=
      Int64.toInt_ofNat_of_lt (by omega)
    simp only [rawOf, hpieces]
    omega
  · refine ⟨?_, ?_, ?_⟩
    · simp [rawOf]
    · simp [rawOf]
    · simp [rawOf]
  · rfl
  · rfl

/-- Both programs accept the webhook of a payload, with the same result. -/
theorem both_accept (upper : String → String) (i : Nat) (d : Draws) :
    ∃ a b, bench_migration.process upper (rawOf i d) = .ok a ∧
      celery_normalize.process upper (rawOf i d) = .ok (some b) ∧ Same a b := by
  have hvalid := valid_payload i d
  obtain ⟨hlen, hgrams, hread, hzone, hkeeps⟩ := (comparable_payload i d).resolve_left hvalid
  obtain ⟨hboth, hsame⟩ := (agree_of_accepted upper hvalid hlen hread).mpr ⟨hgrams, hzone, hkeeps⟩
  obtain ⟨status, _, hrust⟩ := rust_accepts upper hvalid
  obtain ⟨b, hpython⟩ := hboth.mp ⟨_, hrust⟩
  exact ⟨_, b, hrust, hpython, hsame _ b hrust hpython⟩

/-! ## The dump -/

/-- The text has no line break. -/
def Inline (s : String) : Prop := '\n' ∉ s.toList

instance (s : String) : Decidable (Inline s) := inferInstanceAs (Decidable (¬ _))

theorem inline_join {l : List String} (h : ∀ s ∈ l, Inline s) : Inline (String.join l) := by
  unfold Inline
  rw [String.toList_join, List.mem_flatMap]
  rintro ⟨s, hs, hbreak⟩
  exact h s hs hbreak

theorem digit_ne_break {n : Nat} {c : Char} (hc : c ∈ Nat.toDigits 10 n) : c ≠ '\n' := by
  rintro rfl
  have hdigit := Nat.isDigit_of_mem_toDigits (by decide) (by decide) hc
  exact absurd hdigit (by decide)

theorem inline_repr (n : Nat) : Inline n.repr := by
  unfold Inline
  rw [Nat.toList_repr]
  exact fun hc => digit_ne_break hc rfl

theorem inline_padded (width n : Nat) : Inline (padded width n) := by
  unfold Inline padded
  rw [String.toList_ofList]
  intro hc
  rcases List.mem_append.mp hc with hc | hc
  · have hzero := (List.mem_replicate.mp hc).2
    exact absurd hzero (by decide)
  · exact digit_ne_break hc rfl

theorem inline_payload (i : Nat) (d : Draws) : Inline (payload i d) := by
  have hcarriers : ∀ c, Inline (carriers.get c) := by decide
  have hstatuses : ∀ s, Inline (STATUSES.get s) := by decide
  have hcities : ∀ l, Inline (cities.get l) := by decide
  have hcountries : ∀ l, Inline (countries.get l) := by decide
  apply inline_join
  simp only [List.forall_mem_cons]
  exact ⟨by decide, hcarriers _, by decide, inline_padded _ _, by decide, hstatuses _, by decide,
    inline_padded _ _, by decide, inline_padded _ _, by decide, hcities _, by decide,
    hcountries _, by decide, inline_padded _ _, by decide, inline_repr _, by decide, inline_repr _,
    by decide, by simp⟩

theorem payload_not_empty (i : Nat) (d : Draws) : (payload i d).isEmpty = false := by
  have hfirst : 0 < "\x7b\"carrier_code\":\"".utf8ByteSize := by decide
  unfold payload
  rw [String.join_cons]
  unfold String.isEmpty
  rw [String.utf8ByteSize_append, beq_eq_false_iff_ne]
  omega

theorem mem_payloads {n : Nat} {raw : String} (h : raw ∈ build_payloads n) :
    ∃ i d, (draws n)[i]? = some d ∧ raw = payload i d := by
  obtain ⟨i, hi⟩ := List.mem_iff_getElem?.mp h
  unfold build_payloads at hi
  rw [List.getElem?_mapIdx] at hi
  obtain ⟨d, hd, he⟩ := Option.map_eq_some_iff.mp hi
  exact ⟨i, d, hd, he.symm⟩

theorem draws_length (n : Nat) : (draws n).length = n := by
  have hfrom : ∀ (n : Nat) (state : UInt64), (drawsFrom n state).length = n := by
    intro n
    induction n with
    | zero => exact fun _ => rfl
    | succ n ih =>
      intro state
      simp only [drawsFrom, List.length_cons, ih]
  exact hfrom n _

/-- Python reads the lines that Rust dumped. Of no lines it reads an empty one. -/
theorem splitLines_dump {payloads : List String} (h : ∀ raw ∈ payloads, Inline raw) :
    celery_normalize.splitLines (dump payloads) = if payloads = [] then [""] else payloads :=
  String.toList_split_intercalate h

/-! ## The two runs -/

/-- The loop of Python over lines that it accepts. -/
theorem mainLoop_accepts {loads : String → Option Raw} {upper : String → String}
    {lines : List String} (hne : ∀ raw ∈ lines, raw.isEmpty = false)
    (hok : ∀ raw ∈ lines, ∃ b, celery_normalize.processLine loads upper raw = .ok (some b)) :
    celery_normalize.mainLoop loads upper lines = .ok (lines.length, lines.length) := by
  induction lines with
  | nil => rfl
  | cons raw rest ih =>
    obtain ⟨b, hb⟩ := hok raw List.mem_cons_self
    have hrest := ih (fun x hx => hne x (List.mem_cons_of_mem _ hx))
      (fun x hx => hok x (List.mem_cons_of_mem _ hx))
    unfold celery_normalize.mainLoop
    rw [if_neg (by simp [hne raw List.mem_cons_self]), hb, hrest]
    rfl

theorem build_payloads_length (n : Nat) : (build_payloads n).length = n := by
  unfold build_payloads
  rw [List.length_mapIdx, draws_length]

theorem build_payloads_nil {n : Nat} : build_payloads n = [] ↔ n = 0 := by
  rw [← List.length_eq_zero_iff, build_payloads_length]

/-- The lines of the dump, as Python reads them. -/
theorem lines_of_dump (n : Nat) :
    celery_normalize.splitLines (dump (build_payloads n)) =
      if n = 0 then [""] else build_payloads n := by
  rw [splitLines_dump]
  · simp only [build_payloads_nil]
  · intro raw hraw
    obtain ⟨i, d, _, rfl⟩ := mem_payloads hraw
    exact inline_payload i d

/-- For every number of payloads: Python reads from the dump the payloads of Rust, or one empty
line when there are none, both programs count all of them as `ok`, and each has the same
result in both. -/
theorem both_programs_take_every_payload (from_str loads : String → Option Raw)
    (upper : String → String) (n : Nat)
    (hrust : ∀ i d, (draws n)[i]? = some d → from_str (payload i d) = some (rawOf i d))
    (hpython : ∀ i d, (draws n)[i]? = some d → loads (payload i d) = some (rawOf i d)) :
    celery_normalize.splitLines (dump (build_payloads n)) =
      (if n = 0 then [""] else build_payloads n) ∧
    mainOk from_str upper n = n ∧
    celery_normalize.main loads upper (dump (build_payloads n)) = .ok (n, n) ∧
    ∀ raw ∈ build_payloads n, ∃ a b, bench_migration.processLine from_str upper raw = .ok a ∧
      celery_normalize.processLine loads upper raw = .ok (some b) ∧ Same a b := by
  have hall : ∀ raw ∈ build_payloads n, ∃ a b,
      bench_migration.processLine from_str upper raw = .ok a ∧
        celery_normalize.processLine loads upper raw = .ok (some b) ∧ Same a b := by
    intro raw hraw
    obtain ⟨i, d, hd, rfl⟩ := mem_payloads hraw
    unfold bench_migration.processLine celery_normalize.processLine
    rw [hrust i d hd, hpython i d hd]
    exact both_accept upper i d
  refine ⟨lines_of_dump n, ?_, ?_, hall⟩
  · unfold mainOk
    rw [List.countP_eq_length.mpr, build_payloads_length]
    intro raw hraw
    obtain ⟨a, _, ha, _⟩ := hall raw hraw
    rw [ha]
    rfl
  · unfold celery_normalize.main
    rw [lines_of_dump]
    split
    · rename_i hzero
      subst hzero
      rfl
    · have hne : ∀ raw ∈ build_payloads n, raw.isEmpty = false := by
        intro raw hraw
        obtain ⟨i, d, _, rfl⟩ := mem_payloads hraw
        exact payload_not_empty i d
      have hok : ∀ raw ∈ build_payloads n,
          ∃ b, celery_normalize.processLine loads upper raw = .ok (some b) := by
        intro raw hraw
        obtain ⟨_, b, _, hb, _⟩ := hall raw hraw
        exact ⟨b, hb⟩
      rw [mainLoop_accepts hne hok, build_payloads_length]

def firstDraws : Draws := (draw.run 0xC0FFEE).1

def secondDraws : Draws := (draw.run (draw.run 0xC0FFEE).2).1

/-- A reader of the first two payloads. -/
def readTwo (raw : String) : Option Raw :=
  if raw = payload 0 firstDraws then some (rawOf 0 firstDraws)
  else if raw = payload 1 secondDraws then some (rawOf 1 secondDraws)
  else none

theorem readTwo_reads {i : Nat} {d : Draws} (hd : (draws 2)[i]? = some d) :
    readTwo (payload i d) = some (rawOf i d) := by
  have hdiffer : payload 1 secondDraws ≠ payload 0 firstDraws := by decide +kernel
  match i with
  | 0 =>
    cases hd
    exact if_pos rfl
  | 1 =>
    cases hd
    exact (if_neg hdiffer).trans (if_pos rfl)
  | i + 2 => cases hd

theorem both_programs_take_two_payloads :
    celery_normalize.splitLines (dump (build_payloads 2)) = build_payloads 2 ∧
    mainOk readTwo String.toUpper 2 = 2 ∧
    celery_normalize.main readTwo String.toUpper (dump (build_payloads 2)) = .ok (2, 2) ∧
    ∀ raw ∈ build_payloads 2, ∃ a b,
      bench_migration.processLine readTwo String.toUpper raw = .ok a ∧
      celery_normalize.processLine readTwo String.toUpper raw = .ok (some b) ∧ Same a b :=
  both_programs_take_every_payload readTwo readTwo String.toUpper 2
    (fun _ _ hd => readTwo_reads hd) (fun _ _ hd => readTwo_reads hd)

end identical_work
