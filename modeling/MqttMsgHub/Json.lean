import MqttMsgHub.CTypes
import MqttMsgHub.Lib.Assoc

/-! # JSON values

The part of json-c that the hub uses on a parsed value. Objects keep their
members in insertion order with unique keys, as json-c's linked hash table
does; a C `NULL` inside a value is JSON `null`. Numbers with a fraction or an
exponent keep the text they were read from (`json_object_new_double_s`).

* `get_add_self`, `get_add_ne` — reading a member after a write;
* `add_get_self` — writing back what is already there changes nothing.
-/

namespace MqttMsgHub

/-- `json_object`. -/
inductive Json where
  | null
  | boolean (b : Bool)
  | int (n : CInt64)
  | double (text : Text)
  | string (s : Text)
  | array (elems : List Json)
  | object (members : List (Text × Json))
deriving Repr

/-! ## Members -/

/-- `json_object_object_get_ex`; `none` when it returns FALSE. -/
def jsonObjectObjectGetEx (jso : Json) (key : Text) : Option Json :=
  match jso with
  | .object members => Assoc.find key members
  | _ => none

/-- `json_object_object_add`, defined on objects only. -/
def jsonObjectObjectAdd (jso : Json) (key : Text) (val : Json) : Json :=
  match jso with
  | .object members => .object (Assoc.set key val members)
  | jso => jso

/-- A value with a member is an object. -/
theorem object_of_get {jso v : Json} {key : Text} (h : jsonObjectObjectGetEx jso key = some v) :
    ∃ members, jso = .object members ∧ Assoc.find key members = some v := by
  cases jso with
  | object members => exact ⟨members, rfl, h⟩
  | _ => simp [jsonObjectObjectGetEx] at h

@[simp] theorem get_add_self (members : List (Text × Json)) (key : Text) (v : Json) :
    jsonObjectObjectGetEx (jsonObjectObjectAdd (.object members) key v) key = some v :=
  Assoc.find_set_self key v members

theorem get_add_ne (jso : Json) {key key' : Text} (hne : key' ≠ key) (v : Json) :
    jsonObjectObjectGetEx (jsonObjectObjectAdd jso key v) key' = jsonObjectObjectGetEx jso key' := by
  cases jso with
  | object members => exact Assoc.find_set_ne hne v members
  | _ => rfl

theorem add_get_self {jso v : Json} {key : Text} (h : jsonObjectObjectGetEx jso key = some v) :
    jsonObjectObjectAdd jso key v = jso := by
  rcases object_of_get h with ⟨members, rfl, hfind⟩
  simp only [jsonObjectObjectAdd, Assoc.set_find_self hfind]

/-! ## Scalars -/

/-- `json_object_get_string` on a string: the characters before the first
NUL. -/
def jsonObjectGetString (s : Text) : Text := s.takeWhile (· ≠ '\x00')

/-- `json_object_get_int` on an integer: the nearest `int`. -/
def jsonObjectGetInt (n : CInt64) : CInt :=
  if hlow : n.1 ≤ -2147483648 then ⟨-2147483648, by decide⟩
  else if hhigh : 2147483647 ≤ n.1 then 2147483647
  else ⟨n.1, by omega⟩

/-- `json_helper_get_string`, with the message it leaves in `errorMsg`. -/
def jsonHelperGetString (jobj : Json) (key : Text) : Except Text Text :=
  match jsonObjectObjectGetEx jobj key with
  | some (.string s) => .ok (jsonObjectGetString s)
  | some _ => .error ("node '".toList ++ key ++ "' is not a string".toList)
  | none => .error ("no node '".toList ++ key ++ "'".toList)

/-- `json_helper_get_int`, with the message it leaves in `errorMsg`. -/
def jsonHelperGetInt (jobj : Json) (key : Text) : Except Text CInt :=
  match jsonObjectObjectGetEx jobj key with
  | some (.int n) => .ok (jsonObjectGetInt n)
  | some _ => .error ("node '".toList ++ key ++ "' is not a int".toList)
  | none => .error ("no node '".toList ++ key ++ "'".toList)

theorem getString_add_ne (jso : Json) {key key' : Text} (hne : key' ≠ key) (v : Json) :
    jsonHelperGetString (jsonObjectObjectAdd jso key v) key' = jsonHelperGetString jso key' := by
  simp only [jsonHelperGetString, get_add_ne jso hne]

theorem getInt_add_ne (jso : Json) {key key' : Text} (hne : key' ≠ key) (v : Json) :
    jsonHelperGetInt (jsonObjectObjectAdd jso key v) key' = jsonHelperGetInt jso key' := by
  simp only [jsonHelperGetInt, get_add_ne jso hne]

/-! ## Serialisation -/

/-- A digit of `json_hex_chars`. -/
def jsonHexChar (n : ℕ) : Char := "0123456789abcdefABCDEF".toList.getD n '0'

/-- `json_escape_str` for one character, with `JSON_C_TO_STRING_NOSLASHESCAPE`. -/
def jsonEscapeChar (c : Char) : Text :=
  if c = '\x08' then ['\\', 'b']
  else if c = '\n' then ['\\', 'n']
  else if c = '\r' then ['\\', 'r']
  else if c = '\t' then ['\\', 't']
  else if c = '\x0c' then ['\\', 'f']
  else if c = '"' then ['\\', '"']
  else if c = '\\' then ['\\', '\\']
  else if c < ' ' then
    ['\\', 'u', '0', '0', jsonHexChar (c.toNat / 16), jsonHexChar (c.toNat % 16)]
  else [c]

/-- `json_escape_str` between its quotes. -/
def jsonQuote (s : Text) : Text := '"' :: s.flatMap jsonEscapeChar ++ ['"']

mutual
/-- `json_object_to_json_string_ext` with `JSON_C_TO_STRING_PLAIN |
JSON_C_TO_STRING_NOSLASHESCAPE`. -/
def jsonObjectToJsonString : Json → Text
  | .null => "null".toList
  | .boolean b => if b then "true".toList else "false".toList
  | .int n => sprintfD n.1
  | .double text => text
  | .string s => jsonQuote s
  | .array elems => '[' :: jsonElements elems ++ [']']
  | .object members => '\x7b' :: jsonMembers members ++ ['\x7d']

/-- The elements of an array, separated by commas. -/
def jsonElements : List Json → Text
  | [] => []
  | [v] => jsonObjectToJsonString v
  | v :: vs => jsonObjectToJsonString v ++ ',' :: jsonElements vs

/-- The members of an object, separated by commas. -/
def jsonMembers : List (Text × Json) → Text
  | [] => []
  | [(k, v)] => jsonQuote k ++ ':' :: jsonObjectToJsonString v
  | (k, v) :: ms => jsonQuote k ++ ':' :: jsonObjectToJsonString v ++ ',' :: jsonMembers ms
end

end MqttMsgHub
