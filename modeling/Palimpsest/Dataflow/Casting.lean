import Palimpsest.Dataflow.Evaluator
import Palimpsest.Sql.Catalog

/-! Conversions between values of different kinds, as `CAST` makes them. -/
namespace Palimpsest.Dataflow
open Sql

/-- Printing and rounding of floats, printing of uuids, and the readers of temporal texts. -/
structure Casts where
  textOfDouble : UInt64 → String
  textOfSingle : UInt32 → String
  textOfUuid : List UInt8 → String
  roundDouble : UInt64 → Int64
  roundSingle : UInt32 → Int64
  readTimestamp : String → Option Int64
  readTimestampTz : String → Option Int64
  readDate : String → Option Int32
  readTime : String → Option Int64
  readInterval : String → Option (Int32 × Int32 × Int64)

def plainCasts : Casts where
  textOfDouble _ := ""
  textOfSingle _ := ""
  textOfUuid _ := ""
  roundDouble _ := 0
  roundSingle _ := 0
  readTimestamp _ := none
  readTimestampTz _ := none
  readDate _ := none
  readTime _ := none
  readInterval _ := none

section Casting
variable (P : Primitives) (K : Casts)

def textOf : Datum → Option String
  | .text s => some s
  | .i64 v => some (toString v)
  | .i32 v => some (toString v)
  | .i16 v => some (toString v)
  | .f64 bits => some (K.textOfDouble bits)
  | .f32 bits => some (K.textOfSingle bits)
  | .bool v => some (toString v)
  | .uuid bytes => some (K.textOfUuid bytes)
  | .numeric digits => some digits
  | .jsonb document | .json document => some document
  | _ => none

def castInt : Datum → Datum
  | .i64 v => .i64 v
  | .i32 v => .i64 v.toInt64
  | .i16 v => .i64 v.toInt64
  | .f64 bits => .i64 (K.roundDouble bits)
  | .f32 bits => .i64 (K.roundSingle bits)
  | .bool v => .i64 (if v then 1 else 0)
  | .text s => ((parseI64 (Text.trim s.toList)).map Datum.i64).getD .null
  | _ => .null

def castFloat : Datum → Datum
  | .f64 bits => .f64 bits
  | .f32 bits => .f64 (P.widen bits)
  | .i64 v => .f64 (P.ofInt v)
  | .i32 v => .f64 (P.ofInt v.toInt64)
  | .i16 v => .f64 (P.ofInt v.toInt64)
  | .text s => ((P.parseFloat (Text.trim s.toList)).map Datum.f64).getD .null
  | _ => .null

def castBool : Datum → Datum
  | .bool v => .bool v
  | .i64 v => .bool (v != 0)
  | .i32 v => .bool (v != 0)
  | .i16 v => .bool (v != 0)
  | .text s =>
    let word := String.ofList ((Text.trim s.toList).map Char.toLower)
    if word ∈ ["t", "true", "yes", "on", "1"] then .bool true
    else if word ∈ ["f", "false", "no", "off", "0"] then .bool false
    else .null
  | _ => .null

def castUuid : Datum → Datum
  | .uuid bytes => .uuid bytes
  | .text s => ((P.parseUuid s).map Datum.uuid).getD .null
  | _ => .null

def castJsonb : Datum → Datum
  | .jsonb document | .json document | .text document => .jsonb document
  | _ => .null

def microsPerDay : Int64 := 86400000000

/-- A value that already is a timestamp of either kind stays as it is. -/
def castTimestamp (zoned : Bool) : Datum → Datum
  | .timestamp micros => .timestamp micros
  | .timestampTz micros => .timestampTz micros
  | .date days => .timestamp (days.toInt64 * microsPerDay)
  | .text s =>
    if zoned then ((K.readTimestampTz s).map Datum.timestampTz).getD .null
    else ((K.readTimestamp s).map Datum.timestamp).getD .null
  | _ => .null

def dayOf (micros : Int64) : Int32 := Int32.ofInt (micros.toInt / microsPerDay.toInt)

def castDate : Datum → Datum
  | .date days => .date days
  | .timestamp micros => .date (dayOf micros)
  | .timestampTz micros => .date (dayOf micros)
  | .text s => ((K.readDate s).map Datum.date).getD .null
  | _ => .null

def castTime : Datum → Datum
  | .time micros => .time micros
  | .text s => ((K.readTime s).map Datum.time).getD .null
  | _ => .null

def castInterval : Datum → Datum
  | .interval months days micros => .interval months days micros
  | .text s => ((K.readInterval s).map fun i => Datum.interval i.1 i.2.1 i.2.2).getD .null
  | _ => .null

def castNumeric : Datum → Datum
  | .numeric digits => .numeric digits
  | .i64 v => .numeric (toString v)
  | .i32 v => .numeric (toString v)
  | .i16 v => .numeric (toString v)
  | .f64 bits => .numeric (K.textOfDouble bits)
  | .f32 bits => .numeric (K.textOfSingle bits)
  | .text s => .numeric s
  | _ => .null

def castBytea : Datum → Datum
  | .bytea bytes => .bytea bytes
  | .text s => .bytea s.toUTF8.toList
  | _ => .null

def castArray : Datum → Datum
  | .array items => .array items
  | _ => .null

/-- NULL stands for every value that a cast cannot convert. -/
def castDatum (datum : Datum) (target : ColumnType) : Datum :=
  if datum.isNull then .null
  else
    match target with
    | .text | .enum => ((textOf K datum).map Datum.text).getD .null
    | .int => castInt K datum
    | .float => castFloat P datum
    | .bool => castBool datum
    | .uuid => castUuid P datum
    | .jsonb => castJsonb datum
    | .timestamp => castTimestamp K false datum
    | .timestampTz => castTimestamp K true datum
    | .date => castDate K datum
    | .time => castTime K datum
    | .interval => castInterval K datum
    | .numeric => castNumeric K datum
    | .bytea => castBytea datum
    | .array => castArray datum
    | .unknown => datum

end Casting

end Palimpsest.Dataflow
