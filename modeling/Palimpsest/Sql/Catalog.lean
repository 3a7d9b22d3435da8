import Mathlib.Data.List.Basic

/-! The logical catalog: column types and the tables a statement may name. -/
namespace Palimpsest.Sql

inductive ColumnType where
  | bool
  | int
  | float
  | text
  | timestamp
  | timestampTz
  | date
  | time
  | interval
  | numeric
  | bytea
  | uuid
  | jsonb
  | enum
  | array
  | unknown
deriving Repr, DecidableEq

namespace ColumnType

def isNumeric : ColumnType → Bool
  | .int | .float | .numeric => true
  | _ => false

def isTemporal : ColumnType → Bool
  | .timestamp | .timestampTz | .date | .time | .interval => true
  | _ => false

def isTextual : ColumnType → Bool
  | .text | .uuid | .enum => true
  | _ => false

def isCompatibleWith (self other : ColumnType) : Bool :=
  (self == unknown || other == unknown) || self == other ||
    (self.isNumeric && other.isNumeric) || (self.isTextual && other.isTextual) ||
    (self.isTemporal && (other.isTemporal || other == text)) ||
    (other.isTemporal && self == text) ||
    ((self == jsonb && other == text) || (self == text && other == jsonb))

/-- The type a cast names, without its length or precision. -/
def castWord (dataType : String) : String :=
  let word := dataType.toList.takeWhile (· ≠ '(')
  if word.length = dataType.toList.length ∨ dataType.toList.getLast? = some ')'
  then String.ofList word else dataType

def fromCastTarget (dataType : String) : Option ColumnType :=
  let word := castWord dataType
  if word ∈ ["TEXT", "STRING", "VARCHAR", "CHAR VARYING", "CHARACTER VARYING", "CHAR", "CHARACTER"]
  then some text
  else if word ∈ ["TINYINT", "SMALLINT", "INT2", "INT", "INT4", "INTEGER", "BIGINT", "INT8"]
  then some int
  else if word ∈ ["REAL", "FLOAT4", "FLOAT8", "FLOAT", "DOUBLE", "DOUBLE PRECISION"]
  then some float
  else if word ∈ ["BOOL", "BOOLEAN"] then some bool
  else if word = "UUID" then some uuid
  else if word ∈ ["JSON", "JSONB"] then some jsonb
  else none

end ColumnType

structure ColumnSchema where
  name : String
  ty : ColumnType
deriving Repr, DecidableEq

structure TableSchema where
  name : String
  columns : List ColumnSchema
deriving Repr, DecidableEq

def TableSchema.column (t : TableSchema) (name : String) : Option ColumnSchema :=
  t.columns.find? fun c => c.name == name

/-- Tables keyed by name; a later table of the same name replaces an earlier one. -/
structure Catalog where
  tables : List TableSchema
deriving Repr, DecidableEq

def Catalog.table (c : Catalog) (name : String) : Option TableSchema :=
  c.tables.reverse.find? fun t => t.name == name

end Palimpsest.Sql
