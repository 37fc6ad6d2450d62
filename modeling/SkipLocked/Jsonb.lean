-- The values of a `jsonb` column, their text, and the operator `->>`. An
-- object holds each key once, in the order in which `jsonb` stores the keys.
-- No string and no key has U+0000: Postgres refuses such a value.
import Mathlib.Data.List.Basic
import SkipLocked.Postgres

open postgres

namespace jsonb

inductive Jsonb where
  | null
  | bool (b : Bool)
  | number (digits : Text)
  | string (s : Text)
  | array (items : List Jsonb)
  | object (fields : List (Text × Jsonb))
deriving Inhabited, Repr

def hexDigits : List Text :=
  ["0", "1", "2", "3", "4", "5", "6", "7", "8", "9", "a", "b", "c", "d", "e", "f"]

def hexDigit (n : Nat) : Text := hexDigits.getD n "0"

theorem noNul_singleton {c : Char} (h : 32 ≤ c.toNat) : NoNul (String.singleton c) := by
  intro d hd
  rw [String.toList_singleton, List.mem_singleton] at hd
  rw [hd]
  omega

/-- One character inside the quotes of a JSON text. -/
def escapeChar (c : Char) : Text :=
  if c.toNat = 34 then "\\\""
  else if c.toNat = 92 then "\\\\"
  else if c.toNat = 8 then "\\b"
  else if c.toNat = 9 then "\\t"
  else if c.toNat = 10 then "\\n"
  else if c.toNat = 12 then "\\f"
  else if c.toNat = 13 then "\\r"
  else if h : 32 ≤ c.toNat then ⟨String.singleton c, noNul_singleton h⟩
  else "\\u00" ++ hexDigit (c.toNat / 16) ++ hexDigit (c.toNat % 16)

def quote (s : Text) : Text :=
  "\"" ++ s.val.toList.foldl (fun t c => t ++ escapeChar c) "" ++ "\""

mutual

/-- The text of a value, as `jsonb` prints it. -/
def Jsonb.text : Jsonb → Text
  | .null => "null"
  | .bool b => if b then "true" else "false"
  | .number digits => digits
  | .string s => quote s
  | .array items => "[" ++ itemsText items ++ "]"
  | .object fields => "\x7b" ++ fieldsText fields ++ "\x7d"

def itemsText : List Jsonb → Text
  | [] => ""
  | [v] => v.text
  | v :: rest => v.text ++ ", " ++ itemsText rest

def fieldsText : List (Text × Jsonb) → Text
  | [] => ""
  | [(k, v)] => quote k ++ ": " ++ v.text
  | (k, v) :: rest => quote k ++ ": " ++ v.text ++ ", " ++ fieldsText rest

end

/-- `->>` with a text key: the text of a field. It is NULL for a value that is no
object, for a missing key and for a JSON null. A string loses its quotes. -/
def Jsonb.arrowText (v : Jsonb) (key : Text) : Option Text :=
  match v with
  | .object fields =>
    match fields.find? (fun f => decide (f.1 = key)) with
    | none => none
    | some (_, .null) => none
    | some (_, .string s) => some s
    | some (_, w) => some w.text
  | _ => none

example : (Jsonb.object [("carrier_id", .string "A")]).arrowText "carrier_id" = some "A" := rfl

example : (Jsonb.object [("carrier_id", .null)]).arrowText "carrier_id" = none := rfl

end jsonb
