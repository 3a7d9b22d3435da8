import Palimpsest.Dataflow.Datum
import Palimpsest.Dataflow.Host

/-! The row payload of a diff: each datum in its wire form, the wire rows serialized. -/
namespace Palimpsest.Server
open Dataflow

inductive WireDatum where
  | bool (value : Bool)
  | i16 (value : Int16)
  | i32 (value : Int32)
  | i64 (value : Int64)
  | f32 (bits : UInt32)
  | f64 (bits : UInt64)
  | numeric (value : String)
  | text (value : String)
  | bytea (bytes : List UInt8)
  | json (value : String)
  | jsonb (value : String)
  | uuid (bytes : List UInt8)
  | null
  | date (days : Int32)
  | time (micros : Int64)
  | timestamp (micros : Int64)
  | timestampTz (micros : Int64)
  | interval (months days : Int32) (micros : Int64)
  | array (elements : List WireDatum)

inductive CodecError where
  | unsupportedDatum
  | wire (detail : String)
deriving Repr, DecidableEq

def datumToWire : Datum → Except CodecError WireDatum
  | .bool value => .ok (.bool value)
  | .i16 value => .ok (.i16 value)
  | .i32 value => .ok (.i32 value)
  | .i64 value => .ok (.i64 value)
  | .f32 bits => .ok (.f32 bits)
  | .f64 bits => .ok (.f64 bits)
  | .numeric value => .ok (.numeric value)
  | .text value => .ok (.text value)
  | .bytea bytes => .ok (.bytea bytes)
  | .json value => .ok (.json value)
  | .jsonb value => .ok (.jsonb value)
  | .uuid bytes => .ok (.uuid bytes)
  | .null => .ok .null
  | .date days => .ok (.date days)
  | .time micros => .ok (.time micros)
  | .timestamp micros => .ok (.timestamp micros)
  | .timestampTz micros => .ok (.timestampTz micros)
  | .interval months days micros => .ok (.interval months days micros)
  | .array elements => (elements.mapM datumToWire).map .array
  | .unchanged => .error .unsupportedDatum

def wireToDatum : WireDatum → Datum
  | .bool value => .bool value
  | .i16 value => .i16 value
  | .i32 value => .i32 value
  | .i64 value => .i64 value
  | .f32 bits => .f32 bits
  | .f64 bits => .f64 bits
  | .numeric value => .numeric value
  | .text value => .text value
  | .bytea bytes => .bytea bytes
  | .json value => .json value
  | .jsonb value => .jsonb value
  | .uuid bytes => .uuid bytes
  | .null => .null
  | .date days => .date days
  | .time micros => .time micros
  | .timestamp micros => .timestamp micros
  | .timestampTz micros => .timestampTz micros
  | .interval months days micros => .interval months days micros
  | .array elements => .array (elements.map wireToDatum)

/-- The serializer under the codec, with its payloads. -/
structure Bincode (β : Type) where
  serialize : List (List WireDatum) → Except String β
  deserialize : β → Except String (List (List WireDatum))

namespace Bincode
variable {β : Type} (codec : Bincode β)

def RoundTrips : Prop :=
  ∀ rows, ∃ bytes, codec.serialize rows = .ok bytes ∧ codec.deserialize bytes = .ok rows

def encodeRows (rows : List (Row Datum)) : Except CodecError β := do
  let wireRows ← rows.mapM (List.mapM datumToWire)
  (codec.serialize wireRows).mapError .wire

def decodeRows (bytes : β) : Except CodecError (List (Row Datum)) := do
  let wireRows ← (codec.deserialize bytes).mapError .wire
  .ok (wireRows.map (List.map wireToDatum))

end Bincode

/-- The datum is the placeholder, or an array that holds it at some depth. -/
inductive HoldsUnchanged : Datum → Prop
  | unchanged : HoldsUnchanged .unchanged
  | element {elements : List Datum} {datum : Datum} : datum ∈ elements → HoldsUnchanged datum →
      HoldsUnchanged (.array elements)

section
variable {α β ε : Type}

/-- The conversion fails where the property holds, and is undone elsewhere. -/
def Converts (f : α → Except ε β) (g : β → α) (e : ε) (P : α → Prop) (a : α) : Prop :=
  P a ∧ f a = .error e ∨ ¬ P a ∧ ∃ b, f a = .ok b ∧ g b = a

theorem Converts.mapM {f : α → Except ε β} (h : ∀ a ∈ as, Converts f g e P a) :
    Converts (List.mapM f) (List.map g) e (fun as => ∃ a ∈ as, P a) as := by
  induction as with
  | nil => exact .inr ⟨by simp, [], rfl, rfl⟩
  | cons a as ih =>
    rw [List.forall_mem_cons] at h
    rcases h.1 with ⟨hp, ha⟩ | ⟨hp, b, ha, hb⟩
    · exact .inl ⟨by simp [hp], by simp [ha]; rfl⟩
    · rcases ih h.2 with ⟨hq, has⟩ | ⟨hq, bs, has, hbs⟩
      · exact .inl ⟨by simpa [hp] using hq, by simp [ha, has]; rfl⟩
      · exact .inr ⟨by simpa [hp] using hq, b :: bs, by simp [ha, has]; rfl, by simp [hb, hbs]⟩

end

theorem datumToWire_converts : ∀ datum,
    Converts datumToWire wireToDatum .unsupportedDatum HoldsUnchanged datum
  | .unchanged => .inl ⟨.unchanged, by rw [datumToWire]⟩
  | .array elems => by
    rcases Converts.mapM fun datum (_ : datum ∈ elems) => datumToWire_converts datum with
      ⟨⟨datum, hmem, hunchanged⟩, herr⟩ | ⟨hnone, wires, hok, hback⟩
    · exact .inl ⟨.element hmem hunchanged, by rw [datumToWire, herr]; rfl⟩
    · refine .inr ⟨?_, .array wires, by rw [datumToWire, hok]; rfl, by rw [wireToDatum, hback]⟩
      rintro ⟨⟩
      exact hnone ⟨_, ‹_›, ‹_›⟩
  | .bool _ | .i16 _ | .i32 _ | .i64 _ | .f32 _ | .f64 _ | .numeric _ | .text _ | .bytea _
  | .date _ | .time _ | .timestamp _ | .timestampTz _ | .interval .. | .uuid _ | .json _ | .jsonb _
  | .null => .inr ⟨nofun, by simp [datumToWire, wireToDatum]⟩

/-- Encoding fails just on a placeholder at any depth, and otherwise decoding undoes it. -/
theorem Bincode.decodeRows_encodeRows {β : Type} {codec : Bincode β} (hcodec : codec.RoundTrips)
    (rows : List (Row Datum)) : ((∃ error, codec.encodeRows rows = .error error) ↔
        ∃ row ∈ rows, ∃ datum ∈ row, HoldsUnchanged datum) ∧
      ∀ bytes, codec.encodeRows rows = .ok bytes → codec.decodeRows bytes = .ok rows := by
  rcases Converts.mapM fun row (_ : row ∈ rows) =>
      Converts.mapM fun datum (_ : datum ∈ row) => datumToWire_converts datum with
    ⟨hsome, herr⟩ | ⟨hnone, wires, hok, hback⟩
  · have hfails : codec.encodeRows rows = .error .unsupportedDatum := by
      rw [encodeRows, herr]
      rfl
    rw [hfails]
    exact ⟨iff_of_true ⟨_, rfl⟩ hsome, nofun⟩
  · obtain ⟨bytes, hserialize, hdeserialize⟩ := hcodec wires
    have hencode : codec.encodeRows rows = .ok bytes := by
      rw [encodeRows, hok]
      exact congrArg (Except.mapError _) hserialize
    rw [hencode]
    refine ⟨iff_of_false (by simp) hnone, fun _ hbytes => ?_⟩
    cases hbytes
    rw [decodeRows, hdeserialize]
    exact congrArg Except.ok hback

theorem Bincode.nested_placeholder_refused :
    let codec : Bincode (List (List WireDatum)) := ⟨.ok, .ok⟩
    codec.RoundTrips ∧
      (∃ error, codec.encodeRows [[.null, .array [.array [.unchanged]]]] = .error error) ∧
      ∀ bytes, codec.encodeRows [[.array [.i32 7]]] = .ok bytes →
        codec.decodeRows bytes = .ok [[.array [.i32 7]]] := by
  have hcodec : (⟨.ok, .ok⟩ : Bincode (List (List WireDatum))).RoundTrips :=
    fun rows => ⟨rows, rfl, rfl⟩
  refine ⟨hcodec, ?_, (decodeRows_encodeRows hcodec _).2⟩
  exact (decodeRows_encodeRows hcodec _).1.mpr ⟨_, .head _, .array [.array [.unchanged]], by simp,
    .element (.head _) (.element (.head _) .unchanged)⟩

end Palimpsest.Server
