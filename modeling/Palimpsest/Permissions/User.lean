import Mathlib.Data.String.Basic
import Mathlib.Data.List.Sort
import Palimpsest.Foundation.Text
import Palimpsest.Sql.Catalog

/-! Values bound to `$user` fields: literals, canonical representations and validation. -/
namespace Palimpsest.Permissions
open Sql

/-- A double seen through its decimal rendering, which is all the permission layer uses. -/
inductive F64 where
  | nan
  | infinite (negative : Bool)
  | finite (negative : Bool) (whole : ℕ) (fraction : List (Fin 10))
deriving Repr, DecidableEq

def digits (ds : List (Fin 10)) : String :=
  String.join (ds.map fun d => toString d.val)

def signText (negative : Bool) : String := if negative then "-" else ""

def F64.display : F64 → String
  | .nan => "NaN"
  | .infinite negative => signText negative ++ "inf"
  | .finite negative whole fraction =>
    signText negative ++ toString whole ++
      (if fraction.isEmpty then "" else "." ++ digits fraction)

/-- A JSON document; a non-integer number carries its value and its rendering. -/
inductive Json where
  | null
  | bool (value : Bool)
  | int (value : ℤ)
  | float (value : F64) (rendered : String)
  | string (value : String)
  | array (items : List Json)
  | object (keys : List String) (values : List Json)
deriving Repr

def Json.isStructured : Json → Bool
  | .array _ | .object _ _ => true
  | _ => false

def Json.get (document : Json) (key : String) : Option Json :=
  match document with
  | .object keys values => (keys.zip values).lookup key
  | _ => none

def hexDigit (n : ℕ) : Char := "0123456789abcdef".toList.getD n (Char.ofNat 48)

def jsonEscape (c : Char) : List Char :=
  let backslash := Char.ofNat 92
  let n := c.toNat
  if n = 34 then [backslash, c]
  else if n = 92 then [backslash, c]
  else if n = 8 then [backslash, 'b']
  else if n = 9 then [backslash, 't']
  else if n = 10 then [backslash, 'n']
  else if n = 12 then [backslash, 'f']
  else if n = 13 then [backslash, 'r']
  else if n < 32 then [backslash, 'u', '0', '0', hexDigit (n / 16), hexDigit (n % 16)]
  else [c]

def doubleQuoted (body : List Char) : String :=
  String.ofList ([Char.ofNat 34] ++ body ++ [Char.ofNat 34])

def jsonString (s : String) : String := doubleQuoted (s.toList.flatMap jsonEscape)

mutual
def Json.render : Json → String
  | .null => "null"
  | .bool value => toString value
  | .int value => toString value
  | .float _ rendered => rendered
  | .string value => jsonString value
  | .array items => "[" ++ String.intercalate "," (Json.renderAll items) ++ "]"
  | .object keys values =>
    "\x7b" ++ String.intercalate ","
      ((keys.zip (Json.renderAll values)).map fun p => jsonString p.1 ++ ":" ++ p.2) ++ "\x7d"

def Json.renderAll : List Json → List String
  | [] => []
  | item :: items => item.render :: Json.renderAll items
end

inductive UserValue where
  | bool (value : Bool)
  | int (value : ℤ)
  | float (value : F64)
  | text (value : String)
  | timestamp (value : String)
  | uuid (value : String)
  | jsonb (value : Json)
  | enum (value : String)
  | list (items : List UserValue)
  | null
deriving Repr

def quoteChar : Char := Char.ofNat 39

def sqlString (s : String) : String :=
  String.ofList ([quoteChar] ++ TextSearch.double quoteChar s.toList ++ [quoteChar])

def isHexDigit (c : Char) : Bool :=
  c.isDigit || ('a' ≤ c && c ≤ 'f') || ('A' ≤ c && c ≤ 'F')

def stripBraces (s : List Char) : List Char :=
  match s with
  | c :: rest =>
    if c = Char.ofNat 123 ∧ rest.getLast? = some (Char.ofNat 125) then rest.dropLast else s
  | [] => []

def hyphenated (s : List Char) : Bool :=
  [8, 13, 18, 23].all fun i => s[i]? == some '-'

/-- Non-ASCII text has no UUID form, so counting characters agrees with counting bytes. -/
def uuidHex (s : List Char) : Option (List Char) :=
  if s.length = 36 then
    if hyphenated s then some (s.filter (· ≠ '-')) else none
  else if s.length = 32 then some s
  else none

def uuidGroups (hex : List Char) : List Char :=
  let lower := hex.map Char.toLower
  lower.take 8 ++ ['-'] ++ (lower.drop 8).take 4 ++ ['-'] ++ (lower.drop 12).take 4 ++ ['-'] ++
    (lower.drop 16).take 4 ++ ['-'] ++ (lower.drop 20).take 12

def normalizedUuid (raw : String) : Option String :=
  match uuidHex (stripBraces (Text.trim raw.toList)) with
  | none => none
  | some hex =>
    if hex.length = 32 ∧ hex.all isHexDigit then some (String.ofList (uuidGroups hex)) else none

def normalizeOrRaw (raw : String) : String := (normalizedUuid raw).getD raw

namespace UserValue

mutual
def columnType : UserValue → ColumnType
  | .bool _ => .bool
  | .int _ => .int
  | .float _ => .float
  | .text _ => .text
  | .timestamp _ => .timestamp
  | .uuid _ => .uuid
  | .jsonb _ => .jsonb
  | .enum _ => .enum
  | .list items => headType items
  | .null => .unknown

def headType : List UserValue → ColumnType
  | [] => .unknown
  | item :: _ => item.columnType
end

mutual
def toSqlLiteral : UserValue → String
  | .bool value => toString value
  | .int value => toString value
  | .float value => value.display
  | .text value => sqlString value
  | .timestamp value => sqlString value
  | .enum value => sqlString value
  | .uuid value => sqlString (normalizeOrRaw value)
  | .jsonb value => sqlString value.render
  | .list items => "ARRAY[" ++ String.intercalate ", " (toSqlLiterals items) ++ "]"
  | .null => "NULL"

def toSqlLiterals : List UserValue → List String
  | [] => []
  | item :: items => item.toSqlLiteral :: toSqlLiterals items
end

mutual
def canonicalRepr : UserValue → String
  | .bool value => "bool:" ++ toString value
  | .int value => "int:" ++ toString value
  | .float value => "float:" ++ value.display
  | .text value => "text:" ++ value
  | .timestamp value => "ts:" ++ value
  | .uuid value => "uuid:" ++ normalizeOrRaw value
  | .jsonb value => "jsonb:" ++ value.render
  | .enum value => "enum:" ++ value
  | .list items =>
    let reprs := ((canonicalReprs items).insertionSort (· ≤ ·)).dedup
    let framed := reprs.map fun repr => toString repr.utf8ByteSize ++ ":" ++ repr
    "list:[" ++ String.intercalate "," framed ++ "]"
  | .null => "null"

def canonicalReprs : List UserValue → List String
  | [] => []
  | item :: items => item.canonicalRepr :: canonicalReprs items
end

end UserValue

example : UserValue.toSqlLiteral (.list [.text "o'k", .int (-3)]) = "ARRAY['o''k', -3]" := by
  decide

end Palimpsest.Permissions
