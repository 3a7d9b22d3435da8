import Mathlib.Algebra.Order.BigOperators.Group.List
import Mathlib.Data.Nat.Size
import Palimpsest.Server.Acceptance
import Palimpsest.Permissions.Substitution

/-! From the claims of a token to a user context, and what a subscribe makes of values that do not
have their declared type or spell a UUID in another way. -/
namespace Palimpsest.Server
open Sql Dataflow Permissions List UserContext

inductive AuthError where
  | missingClaim (claim : String)
deriving Repr, DecidableEq

section Values

/-- Nearest double to an integer, ties to even. -/
def roundToDouble (n : ℕ) : ℕ :=
  let unit := 2 ^ (n.size - 53)
  let quotient := n / unit
  let remainder := n % unit
  if unit < 2 * remainder ∨ 2 * remainder = unit ∧ quotient % 2 = 1 then (quotient + 1) * unit
  else quotient * unit

/-- Integers beyond 64 bits with sign become doubles. -/
def jsonInteger (n : ℤ) : UserValue :=
  if -2 ^ 63 ≤ n ∧ n < 2 ^ 63 then .int n
  else .float (.finite (n < 0) (roundToDouble n.natAbs) [])

def jsonScalar : Json → UserValue
  | .bool b => .bool b
  | .int n => jsonInteger n
  | .float value _ => .float value
  | .string s => .text s
  | .null => .null
  | value => .jsonb value

/-- Arrays of scalars become lists; other structured values stay documents. -/
def jsonToUserValue : Json → UserValue
  | .array items =>
    if items.all fun item => !item.isStructured then .list (items.map jsonScalar)
    else .jsonb (.array items)
  | value => jsonScalar value

/-- The types a scalar of a token may be bound to. -/
def scalarFits (expected : ColumnType) : Json → Bool
  | .null => true
  | .bool _ => expected == .bool || expected == .unknown
  | .int _ | .float _ _ => expected.isNumeric || expected == .unknown
  | .string s =>
    if expected = .uuid then (normalizedUuid s).isSome
    else expected.isTextual || expected.isTemporal || expected == .unknown
  | .array _ | .object _ _ => expected == .jsonb || expected == .text || expected == .unknown

/-- The types a claim may be bound to; an array of scalars is judged by its items. -/
def claimFits : Option ColumnType → Json → Bool
  | none, _ => true
  | some expected, .array items =>
    if items.all fun item => !item.isStructured then items.all (scalarFits expected)
    else scalarFits expected (.array items)
  | some expected, value => scalarFits expected value

theorem jsonInteger_cases (n : ℤ) :
    (∃ m, jsonInteger n = .int m) ∨ ∃ x, jsonInteger n = .float x := by
  by_cases hsmall : -2 ^ 63 ≤ n ∧ n < 2 ^ 63
  · exact .inl ⟨n, if_pos hsmall⟩
  · exact .inr ⟨_, if_neg hsmall⟩

/-- A scalar is checked in the same way alone and as an item, and not at all without a type. -/
theorem validate_jsonScalar (field) (value : Json) :
    validateScalar field (jsonScalar value) none = .ok () ∧
      (∀ schema, validateField schema field (jsonScalar value) =
        validateScalar field (jsonScalar value) (schema.field field)) ∧
      (value.isStructured = false → ∀ expected, validateItem field expected (jsonScalar value) =
          validateScalar field (jsonScalar value) expected) := by
  cases value with
  | int n =>
    rw [jsonScalar]
    rcases jsonInteger_cases n with ⟨m, hm⟩ | ⟨m, hm⟩ <;>
      exact hm ▸ ⟨rfl, fun _ => rfl, fun _ _ => rfl⟩
  | array | object => exact ⟨rfl, fun _ => rfl, nofun⟩
  | _ => exact ⟨rfl, fun _ => rfl, fun _ _ => rfl⟩

theorem validateScalar_some (field expected) (value : Json) :
    validateScalar field (jsonScalar value) (some expected) = .ok () ↔
      scalarFits expected value = true := by
  cases value with
  | null => exact ⟨fun _ => rfl, fun _ => rfl⟩
  | int n =>
    rcases jsonInteger_cases n with ⟨m, hm⟩ | ⟨m, hm⟩ <;> rw [jsonScalar, hm] <;>
      cases expected <;> constructor <;> intro h <;> first | rfl | cases h
  | string s =>
    rcases eq_or_ne expected .uuid with rfl | huuid
    · rw [jsonScalar, scalarFits]
      have hfits : ColumnType.uuid.isCompatibleWith (UserValue.text s).columnType = true := rfl
      cases hnormal : normalizedUuid s <;>
        simp [validateScalar, hnormal, hfits, throw, throwThe, MonadExceptOf.throw, pure,
          Except.pure]
    · cases expected <;> first
        | exact absurd rfl huuid
        | (constructor <;> intro h <;> first | rfl | cases h)
  | _ => cases expected <;> constructor <;> intro h <;> first | rfl | cases h

theorem validateField_jsonScalar (value : Json) (schema field) :
    validateField schema field (jsonScalar value) = .ok () ↔
      ∀ expected, schema.field field = some expected → scalarFits expected value = true := by
  obtain ⟨hnone, hscalar, -⟩ := validate_jsonScalar field value
  rw [hscalar]
  cases schema.field field with
  | none => simp [hnone]
  | some expected =>
    simp [validateScalar_some]

/-- The types are what `validate` would accept. -/
theorem validateField_jsonToUserValue (schema field) (value : Json) :
    validateField schema field (jsonToUserValue value) = .ok () ↔
      claimFits (schema.field field) value = true := by
  cases value with
  | array items =>
    by_cases hscalars : items.all fun item => !item.isStructured
    · have hval : jsonToUserValue (.array items) = .list (items.map jsonScalar) := if_pos hscalars
      have hitem : ∀ item ∈ items, ∀ expected, validateItem field expected (jsonScalar item) =
            validateScalar field (jsonScalar item) expected := fun item hitem =>
        (validate_jsonScalar field item).2.2 (by simpa using all_eq_true.mp hscalars item hitem)
      rw [hval, validateField, Fallible.forM_ok_iff]
      cases hfield : schema.field field with
      | none =>
        simp only [forall_mem_map, claimFits, iff_true]
        intro item hmem
        rw [hitem item hmem, (validate_jsonScalar field item).1]
      | some =>
        simp only [forall_mem_map, claimFits, hscalars, ↓reduceIte, all_eq_true]
        refine forall₂_congr fun item hmem => ?_
        rw [hitem item hmem, validateScalar_some]
    · have hval : jsonToUserValue (.array items) = jsonScalar (.array items) := if_neg hscalars
      rw [hval, validateField_jsonScalar]
      cases schema.field field <;> simp [claimFits, hscalars]
  | _ =>
    rw [jsonToUserValue, validateField_jsonScalar]
    · cases schema.field field with
      | none | some => simp [claimFits]
    · rintro _ ⟨⟩

end Values

section Claims

/-- Claims in key order with the field each of them is bound to. -/
structure ClaimMap where
  entries : List (String × String)
  sorted : (entries.map Prod.fst).Pairwise (· < ·)

def bindClaim (claims : Json) (context : UserContext) (entry : String × String) :
    Except AuthError UserContext :=
  match claims.get entry.1 with
  | none => .error (.missingClaim entry.1)
  | some value => .ok (context.insert entry.2 (jsonToUserValue value))

/-- The context of a token whose signature has been verified. -/
def authenticate (claimToField : ClaimMap) (claims : Json) : Except AuthError UserContext :=
  claimToField.entries.foldlM (bindClaim claims) .empty

/-- The claim that decides a field: the last one bound to it. -/
def claimOf (entries : List (String × String)) (field : String) : Option String :=
  (entries.reverse.find? fun entry => entry.2 == field).map Prod.fst

def tokenValue (claimToField : ClaimMap) (claims : Json) (field : String) : Option Json :=
  (claimOf claimToField.entries field).bind claims.get

theorem claimOf_cons (entry ents field) : claimOf (entry :: ents) field =
      (claimOf ents field).or (if entry.2 = field then some entry.1 else none) := by
  unfold claimOf
  rw [reverse_cons, find?_append]
  cases ents.reverse.find? fun entry => entry.2 == field with
  | some => rfl
  | none => by_cases hfield : entry.2 = field <;> simp

theorem claimOf_mem (h : claimOf entries field = some claim) : (claim, field) ∈ entries := by
  obtain ⟨entry, hfind, rfl⟩ := Option.map_eq_some_iff.mp h
  have hfield : entry.2 = field := by simpa using find?_some hfind
  have hmem := mem_reverse.mp (mem_of_find?_eq_some hfind)
  rw [← hfield]
  exact hmem

theorem foldlM_bindClaim (h : ents.foldlM (bindClaim claims) context = .ok out) (field) :
    out.get field = match claimOf ents field with
      | some claim => (claims.get claim).map jsonToUserValue
      | none => context.get field := by
  induction ents generalizing context with
  | nil =>
    cases h
    rfl
  | cons entry ents ih =>
    rw [foldlM_cons] at h
    cases hval : claims.get entry.1 with
    | none =>
      simp only [bindClaim, hval] at h
      cases h
    | some value =>
      have hbind : bindClaim claims context entry =
          .ok (context.insert entry.2 (jsonToUserValue value)) := by
        simp [bindClaim, hval]
      rw [hbind] at h
      rw [ih h, claimOf_cons]
      cases claimOf ents field with
      | some => rfl
      | none =>
        rw [get_insert]
        by_cases hfield : field = entry.2
        · simp [hfield, hval]
        · simp [hfield, Ne.symm hfield]

theorem authenticate_get (h : authenticate claimToField claims = .ok context) (field) :
    context.get field = (tokenValue claimToField claims field).map jsonToUserValue := by
  rw [foldlM_bindClaim h, tokenValue]
  cases claimOf claimToField.entries field <;> rfl

theorem authenticate_ok_iff : (∃ context, authenticate claimToField claims = .ok context) ↔
      ∀ entry ∈ claimToField.entries, (claims.get entry.1).isSome := by
  unfold authenticate
  generalize empty = context
  induction claimToField.entries generalizing context with
  | nil => simp [pure, Except.pure]
  | cons entry ents ih =>
    rw [forall_mem_cons, foldlM_cons]
    cases hval : claims.get entry.1 with
    | none =>
      simp only [bindClaim, hval]
      constructor
      · rintro ⟨_, ⟨⟩⟩
      · rintro ⟨⟨⟩, -⟩
    | some value =>
      simp only [bindClaim, hval, Option.isSome_some, true_and]
      exact ih (context.insert entry.2 (jsonToUserValue value))

end Claims

section Respelling

def SameUuid : Json → Json → Prop
  | .string a, .string b => (normalizedUuid a).isSome ∧ normalizedUuid a = normalizedUuid b
  | _, _ => False

/-- A claim with other spellings of the UUIDs it carries, alone or as items of a list. -/
inductive Respelled : Json → Json → Prop
  | alone {a b : Json} : SameUuid a b → Respelled a b
  | listed {as bs : List Json} : (∀ item ∈ as, item.isStructured = false) →
      List.Forall₂ (fun a b => a = b ∨ SameUuid a b) as bs → Respelled (.array as) (.array bs)

/-- Another token for the same user: only claims bound to UUID fields differ, and they only in
the spelling. -/
def RespelledClaims (schema : UserContextSchema) (claimToField : ClaimMap) (claims claims' : Json) :
    Prop :=
  ∀ entry ∈ claimToField.entries, claims'.get entry.1 = claims.get entry.1 ∨
    schema.field entry.2 = some .uuid ∧ ∃ value value', claims.get entry.1 = some value ∧
      claims'.get entry.1 = some value' ∧ Respelled value value'

def isUuidString : Json → Bool
  | .string s => (normalizedUuid s).isSome
  | _ => false

def carriesUuid : Json → Bool
  | .array items => (items.all fun item => !item.isStructured) && items.any isUuidString
  | value => isUuidString value

theorem SameUuid.isUuidString (h : SameUuid a b) : isUuidString a = true := by
  unfold SameUuid at h
  split at h
  · exact h.1
  · exact h.elim

theorem Respelled.eq_of_not_carriesUuid {value : Json} (h : Respelled value value')
    (hfree : carriesUuid value = false) : value = value' := by
  cases h with
  | alone hsame =>
    have huuid := hsame.isUuidString
    cases value with
    | string =>
      rw [carriesUuid] at hfree
      · simp [huuid] at hfree
      · rintro _ ⟨⟩
    | _ => cases huuid
  | @listed as bs hscalars hall =>
    have hnone : ∀ item ∈ as, Server.isUuidString item = false := by
      have hall : (as.all fun item => !item.isStructured) = true := by simpa using hscalars
      simpa [carriesUuid, hall] using hfree
    congr 1
    clear hfree hscalars
    induction hall with
    | nil => rfl
    | cons hitem _ ih =>
      rw [forall_mem_cons] at hnone
      rw [ih hnone.2]
      rcases hitem with rfl | hsame
      · rfl
      · rw [hsame.isUuidString] at hnone
        cases hnone.1

def padString (s : String) : String := if (normalizedUuid s).isSome then s ++ " " else s

def padScalar : Json → Json
  | .string s => .string (padString s)
  | value => value

def padUuids : Json → Json
  | .array items =>
    if items.all fun item => !item.isStructured then .array (items.map padScalar)
    else .array items
  | value => padScalar value

theorem normalizedUuid_append_blank (s) : normalizedUuid (s ++ " ") = normalizedUuid s := by
  have hblank : Text.isWhitespace ' ' = true := by decide
  have hchars : (s ++ " ").toList = s.toList ++ [' '] := by simp [String.toList_append]
  unfold normalizedUuid
  rw [hchars, Text.trim_append_whitespace hblank]

theorem normalizedUuid_padString (s) : normalizedUuid (padString s) = normalizedUuid s := by
  unfold padString
  split
  · exact normalizedUuid_append_blank s
  · rfl

theorem padScalar_isStructured (item : Json) :
    (padScalar item).isStructured = item.isStructured := by
  cases item <;> rfl

theorem padScalar_respelled (item : Json) :
    padScalar item = item ∨ SameUuid item (padScalar item) := by
  cases item with
  | string s =>
    by_cases huuid : (normalizedUuid s).isSome
    · exact .inr ⟨huuid, (normalizedUuid_padString s).symm⟩
    · exact .inl (by rw [padScalar, padString, if_neg huuid])
  | _ => exact .inl rfl

theorem padUuids_respelled (value : Json) :
    padUuids value = value ∨ Respelled value (padUuids value) := by
  cases value with
  | array items =>
    by_cases hscalars : items.all fun item => !item.isStructured
    · have hpad : padUuids (.array items) = .array (items.map padScalar) := if_pos hscalars
      rw [hpad]
      refine .inr (.listed (by simpa using hscalars) ?_)
      rw [forall₂_map_right_iff, forall₂_same]
      intro item _
      exact (padScalar_respelled item).imp Eq.symm id
    · exact .inl (if_neg hscalars)
  | string s => exact (padScalar_respelled (.string s)).imp_right .alone
  | _ => exact .inl rfl

theorem toSqlLiterals_eq_map (items) :
    UserValue.toSqlLiterals items = items.map UserValue.toSqlLiteral := by
  induction items with
  | nil => rfl
  | cons item items ih => rw [UserValue.toSqlLiterals, map_cons, ih]

theorem length_sqlString_append_blank (s) :
    (sqlString (s ++ " ")).length = (sqlString s).length + 1 := by
  have hchars : (s ++ " ").toList = s.toList ++ [' '] := by simp [String.toList_append]
  have hdouble : TextSearch.double quoteChar (s.toList ++ [' ']) =
      TextSearch.double quoteChar s.toList ++ [' '] := by
    rw [TextSearch.double, flatMap_append]
    rfl
  unfold sqlString
  rw [hchars, hdouble, ← String.length_toList, ← String.length_toList, String.toList_ofList,
    String.toList_ofList]
  simp only [length_append, length_singleton]
  omega

theorem length_literal_padScalar (item : Json) :
    (jsonScalar item).toSqlLiteral.length ≤ (jsonScalar (padScalar item)).toSqlLiteral.length ∧
      (isUuidString item = true → (jsonScalar item).toSqlLiteral.length <
          (jsonScalar (padScalar item)).toSqlLiteral.length) := by
  cases item with
  | string =>
    simp only [padScalar, jsonScalar, UserValue.toSqlLiteral, padString]
    split
    next huuid =>
      rw [length_sqlString_append_blank]
      exact ⟨Nat.le_succ _, fun _ => Nat.lt_succ_self _⟩
    next huuid => exact ⟨le_rfl, fun h => absurd h huuid⟩
  | _ => exact ⟨le_rfl, by rintro ⟨⟩⟩

theorem length_literal_padUuids (value : Json) : (jsonToUserValue value).toSqlLiteral.length ≤
        (jsonToUserValue (padUuids value)).toSqlLiteral.length ∧
      (carriesUuid value = true → (jsonToUserValue value).toSqlLiteral.length <
        (jsonToUserValue (padUuids value)).toSqlLiteral.length) := by
  cases value with
  | array items =>
    by_cases hscalars : items.all fun item => !item.isStructured
    · have hpad : padUuids (.array items) = .array (items.map padScalar) := if_pos hscalars
      have hscalars' : (items.map padScalar).all (fun item => !item.isStructured) = true := by
        simpa [padScalar_isStructured] using hscalars
      have hval : jsonToUserValue (.array items) = .list (items.map jsonScalar) := if_pos hscalars
      have hval' : jsonToUserValue (.array (items.map padScalar)) =
          .list ((items.map padScalar).map jsonScalar) := if_pos hscalars'
      rw [hpad, hval, hval', UserValue.toSqlLiteral, UserValue.toSqlLiteral,
        toSqlLiterals_eq_map, toSqlLiterals_eq_map]
      have hpointwise : List.Forall₂ (fun part part' => part.length ≤ part'.length)
          ((items.map jsonScalar).map UserValue.toSqlLiteral)
          (((items.map padScalar).map jsonScalar).map UserValue.toSqlLiteral) := by
        simp only [forall₂_map_left_iff, forall₂_map_right_iff, forall₂_same]
        exact fun item _ => (length_literal_padScalar item).1
      obtain ⟨hle, hlt⟩ := Text.length_intercalate_mono ", " hpointwise
      simp only [String.length_append]
      refine ⟨by omega, fun hcarry => ?_⟩
      have hsum : (((items.map jsonScalar).map UserValue.toSqlLiteral).map String.length).sum <
          ((((items.map padScalar).map jsonScalar).map UserValue.toSqlLiteral).map
            String.length).sum := by
        simp only [map_map]
        apply sum_lt_sum
        · exact fun item _ => (length_literal_padScalar item).1
        · have hany : ∃ item ∈ items, isUuidString item = true := by
            simpa [carriesUuid, hscalars] using hcarry
          obtain ⟨item, hitem, huuid⟩ := hany
          exact ⟨item, hitem, (length_literal_padScalar item).2 huuid⟩
      omega
    · have hpad : padUuids (.array items) = .array items := if_neg hscalars
      rw [hpad]
      refine ⟨le_rfl, fun hcarry => ?_⟩
      simp [carriesUuid, hscalars] at hcarry
  | string s => exact length_literal_padScalar (.string s)
  | _ => exact ⟨le_rfl, by rintro ⟨⟩⟩

def isUuidClaim (schema : UserContextSchema) (claimToField : ClaimMap) (claim : String) : Bool :=
  (claimToField.entries.lookup claim).bind schema.field == some .uuid

/-- The token with a blank behind every UUID it binds to a UUID field. -/
def padClaims (schema : UserContextSchema) (claimToField : ClaimMap) : Json → Json
  | .object keys values => .object keys ((keys.zip values).map fun entry =>
      if isUuidClaim schema claimToField entry.1 then padUuids entry.2 else entry.2)
  | claims => claims

theorem lookup_entry {ents : List (String × String)}
    (hsort : (ents.map Prod.fst).Pairwise (· < ·)) (h : entry ∈ ents) :
    ents.lookup entry.1 = some entry.2 := by
  induction ents with
  | nil => cases h
  | cons first ents ih =>
    rw [map_cons, pairwise_cons] at hsort
    rw [lookup_cons_ite]
    rcases mem_cons.mp h with rfl | hrest
    · rw [if_pos rfl]
    · have hlt := hsort.1 entry.1 (mem_map_of_mem hrest)
      rw [if_neg hlt.ne', ih hsort.2 hrest]

theorem isUuidClaim_entry (schema) (h : entry ∈ claimToField.entries) :
    isUuidClaim schema claimToField entry.1 = true ↔ schema.field entry.2 = some .uuid := by
  rw [isUuidClaim, lookup_entry claimToField.sorted h, Option.bind_some, beq_iff_eq]

theorem get_padClaims (schema claimToField) (claims : Json) (key) :
    (padClaims schema claimToField claims).get key = (claims.get key).map fun value =>
      if isUuidClaim schema claimToField key then padUuids value else value := by
  cases claims with
  | object keys vals =>
    simp only [padClaims, Json.get]
    induction keys generalizing vals with
    | nil => rfl
    | cons name keys ih =>
      cases vals with
      | nil => rfl
      | cons value vals =>
        simp only [zip_cons_cons, map_cons, lookup_cons_ite]
        by_cases hkey : key = name
        · simp [hkey]
        · simpa [hkey] using ih vals
  | _ => rfl

theorem padClaims_respelled (schema claimToField) (claims : Json) :
    RespelledClaims schema claimToField claims (padClaims schema claimToField claims) := by
  intro entry hentry
  rw [get_padClaims]
  cases hval : claims.get entry.1 with
  | none => exact .inl rfl
  | some value =>
    rw [Option.map_some]
    by_cases huuid : schema.field entry.2 = some .uuid
    · rw [if_pos ((isUuidClaim_entry schema hentry).mpr huuid)]
      rcases padUuids_respelled value with hsame | hrespelled
      · exact .inl (by rw [hsame])
      · exact .inr ⟨huuid, value, _, rfl, rfl, hrespelled⟩
    · rw [if_neg (mt (isUuidClaim_entry schema hentry).mp huuid)]
      exact .inl rfl

theorem tokenValue_padClaims (schema claimToField) (claims : Json) (field) :
    tokenValue claimToField (padClaims schema claimToField claims) field =
      (tokenValue claimToField claims field).map fun value =>
        if schema.field field = some .uuid then padUuids value else value := by
  unfold tokenValue
  cases hclaim : claimOf claimToField.entries field with
  | none => rfl
  | some =>
    have hentry := isUuidClaim_entry schema (claimOf_mem hclaim)
    rw [Option.bind_some, get_padClaims]
    by_cases huuid : schema.field field = some .uuid
    · simp [hentry.mpr huuid, huuid]
    · simp [mt hentry.mp huuid, huuid]

/-- A field whose claim carries no UUID has the same value in both tokens. -/
theorem tokenValue_respelled (h : RespelledClaims schema claimToField claims claims')
    (hfree : schema.field field = some .uuid →
      ∀ value, tokenValue claimToField claims field = some value → carriesUuid value = false) :
    tokenValue claimToField claims' field = tokenValue claimToField claims field := by
  unfold tokenValue at hfree ⊢
  cases hclaim : claimOf claimToField.entries field with
  | none => rfl
  | some claim =>
    rw [hclaim] at hfree
    rw [Option.bind_some, Option.bind_some]
    rcases h (claim, field) (claimOf_mem hclaim) with hsame | ⟨huuid, value, value', hv, hv', hr⟩
    · exact hsame
    · rw [hv, hv', hr.eq_of_not_carriesUuid (hfree huuid value hv)]

end Respelling

section Subscribe
variable {δ : Type}

def Applicable (rules : List CompiledRule) (graph : MirGraph) (rule : CompiledRule) : Prop :=
  rule ∈ rules ∧ Reads graph rule.table

/-- The subscribe is accepted only if every context value an applicable rule refers to has its
declared type. -/
def TypedWhenAccepted (d : Deployment δ) (s : State δ) (userSchema : UserContextSchema)
    (request : SubscribeRequest) (schema : Except String Unit)
    (fetched : Except String (SnapshotBatch δ)) : Prop :=
  Accepted d s request schema fetched → ∀ rule, Applicable s.router.rules request.graph rule →
    ∀ field ∈ rule.predicate.references, ∀ value,
      request.userCtx.get (String.ofList field) = some value →
      validateField userSchema (String.ofList field) value = .ok ()

/-- However a token spells its UUIDs, the rewritten query is the same. -/
def SpellingBlind (rules : List CompiledRule) (userSchema : UserContextSchema)
    (claimToField : ClaimMap) (claims : Json) (graph : MirGraph) (context : UserContext) : Prop :=
  ∀ claims' context' out out', RespelledClaims userSchema claimToField claims claims' →
    authenticate claimToField claims' = .ok context' → rewrite graph rules context = .ok out →
    rewrite graph rules context' = .ok out' → out.graph = out'.graph

/-- Every claim that an applicable rule refers to has the declared type already. -/
def ClaimsFit (rules : List CompiledRule) (userSchema : UserContextSchema)
    (claimToField : ClaimMap) (claims : Json) (graph : MirGraph) : Prop :=
  ∀ rule, Applicable rules graph rule → ∀ field ∈ rule.predicate.references, ∀ value,
    tokenValue claimToField claims (String.ofList field) = some value →
    claimFits (userSchema.field (String.ofList field)) value = true

/-- No filter of the query takes a UUID from the token. -/
def FiltersWithoutUuids (rules : List CompiledRule) (userSchema : UserContextSchema)
    (claimToField : ClaimMap) (claims : Json) (graph : MirGraph) : Prop :=
  ∀ table, Reads graph table → Guarded rules table → ∀ rule ∈ rulesFor rules table,
    ∀ field ∈ rule.predicate.references, userSchema.field (String.ofList field) = some .uuid →
      ∀ value, tokenValue claimToField claims (String.ofList field) = some value →
        carriesUuid value = false

theorem typedWhenAccepted_iff (d : Deployment δ) (s schema fetched)
    (h : authenticate claimToField claims = .ok req.userCtx) :
    TypedWhenAccepted d s userSchema req schema fetched ↔ (Refuses d s req schema fetched ∨
        ClaimsFit s.router.rules userSchema claimToField claims req.graph) := by
  have hfits : (∀ rule, Applicable s.router.rules req.graph rule →
      ∀ field ∈ rule.predicate.references, ∀ value,
        req.userCtx.get (String.ofList field) = some value →
        validateField userSchema (String.ofList field) value = .ok ()) ↔
      ClaimsFit s.router.rules userSchema claimToField claims req.graph := by
    refine forall₂_congr fun rule _ => forall₂_congr fun field _ => ?_
    rw [authenticate_get h]
    simp [validateField_jsonToUserValue]
  rw [TypedWhenAccepted, accepted_iff_not_refuses, hfits]
  exact or_iff_not_imp_left.symm

variable (h : authenticate claimToField claims = .ok context)
include h

theorem literal_of_token (field) :
    context.literal field = (tokenValue claimToField claims (String.ofList field)).map fun value =>
      (jsonToUserValue value).toSqlLiteral.toList := by
  rw [literal, authenticate_get h, Option.map_map]
  rfl

/-- Without UUIDs in the filters, another spelling changes nothing. -/
theorem SpellingBlind.of_filtersWithoutUuids
    (hfree : FiltersWithoutUuids rules userSchema claimToField claims graph) :
    SpellingBlind rules userSchema claimToField claims graph context := by
  intro claims' context' out out' hrespelled h' hout hout'
  have hsame : rewrite graph rules context = rewrite graph rules context' := by
    apply rewrite_congr
    intro table hreads hguard rule hrule
    obtain ⟨text, htext⟩ := materialize_of_bound hguard
      ((rewrite_ok_iff rules context).mp ⟨out, hout⟩ table hreads) rule hrule
    rw [htext]
    refine (CompiledPredicate.materialize_congr ?_ htext).symm
    intro field hfield
    rw [literal_of_token h, literal_of_token h']
    rw [tokenValue_respelled hrespelled (hfree table hreads hguard rule hrule field hfield)]
  rw [hout, hout'] at hsame
  cases hsame
  rfl

/-- Padding the token's UUIDs makes no clause shorter, and longer if it refers to one. -/
theorem materialize_padded
    (h' : authenticate claimToField (padClaims userSchema claimToField claims) = .ok context')
    {p : CompiledPredicate} {text : String} (htext : p.materialize context = .ok text) :
    ∃ text', p.materialize context' = .ok text' ∧ text.length ≤ text'.length ∧
      ((∃ field ∈ p.references, userSchema.field (String.ofList field) = some .uuid ∧
          ∃ value, tokenValue claimToField claims (String.ofList field) = some value ∧
            carriesUuid value = true) → text.length < text'.length) := by
  obtain ⟨items, hits, hfill⟩ := CompiledPredicate.materialize_ok_iff.mp htext
  obtain ⟨hbound, hout⟩ := Template.fill?_eq_some.mp hfill
  have hlit : ∀ field, context'.literal field =
      (tokenValue claimToField claims (String.ofList field)).map fun value =>
        (jsonToUserValue (if userSchema.field (String.ofList field) = some .uuid
          then padUuids value else value)).toSqlLiteral.toList := by
    intro field
    rw [literal_of_token h', tokenValue_padClaims, Option.map_map]
    rfl
  have hle : ∀ field ∈ Template.refs items,
      ((context.literal field).getD []).length ≤ ((context'.literal field).getD []).length := by
    intro field _
    rw [literal_of_token h, hlit]
    cases tokenValue claimToField claims (String.ofList field) with
    | none => exact le_rfl
    | some value =>
      split
      · exact (length_literal_padUuids value).1
      · exact le_rfl
  have hbound' : ∀ field ∈ Template.refs items, (context'.literal field).isSome := by
    simpa [literal_of_token h, hlit] using hbound
  refine ⟨String.ofList (Template.fill (fun field => (context'.literal field).getD []) items),
    ?_, ?_, ?_⟩
  · refine CompiledPredicate.materialize_ok_iff.mpr ⟨items, hits, ?_⟩
    rw [String.toList_ofList]
    exact Template.fill?_eq_some.mpr ⟨hbound', rfl⟩
  · rw [← String.length_toList, hout, ← String.length_toList, String.toList_ofList]
    exact Template.length_fill_le hle
  · rintro ⟨field, hfield, huuid, value, hval, hcarry⟩
    have hrefs : p.references = Template.refs items := by
      simp [CompiledPredicate.references, hits]
    rw [← String.length_toList, hout, ← String.length_toList, String.toList_ofList]
    refine Template.length_fill_lt hle (hrefs ▸ hfield) ?_
    rw [literal_of_token h, hlit, hval]
    simp only [huuid]
    exact (length_literal_padUuids value).2 hcarry

/-- A filter that takes a UUID from the token shows how it was spelled. -/
theorem FiltersWithoutUuids.of_spellingBlind
    (hbound : ∀ table, Reads graph table → ¬ Unbound rules context table)
    (hblind : SpellingBlind rules userSchema claimToField claims graph context) :
    FiltersWithoutUuids rules userSchema claimToField claims graph := by
  intro table hreads hguard rule hrule field hfield huuid value hval
  rw [Bool.eq_false_iff]
  intro hcarry
  have hpres : ∀ entry ∈ claimToField.entries,
      ((padClaims userSchema claimToField claims).get entry.1).isSome := by
    simpa [get_padClaims] using authenticate_ok_iff.mp ⟨context, h⟩
  obtain ⟨context', h'⟩ := authenticate_ok_iff.mpr hpres
  have hclauses : ∀ table', Guarded rules table' → ∀ rule ∈ rulesFor rules table', ∀ text,
      rule.predicate.materialize context = .ok text →
      ∃ text', rule.predicate.materialize context' = .ok text' ∧ text.length ≤ text'.length := by
    intro table' _ rule' _ text htext
    obtain ⟨text', htext', hle, -⟩ := materialize_padded h h' htext
    exact ⟨text', htext', hle⟩
  have hbound' : ∀ table', Reads graph table' → ¬ Unbound rules context' table' := by
    rintro table' hreads' ⟨hguard', rule', hrule', e, he⟩
    obtain ⟨text, htext⟩ :=
      materialize_of_bound hguard' (hbound table' hreads') rule' hrule'
    obtain ⟨text', htext', -⟩ := hclauses table' hguard' rule' hrule' text htext
    simp [he] at htext'
  obtain ⟨out, hout⟩ := (rewrite_ok_iff rules context).mpr hbound
  obtain ⟨out', hout'⟩ := (rewrite_ok_iff rules context').mpr hbound'
  have hgraph :=
    hblind _ context' out out' (padClaims_respelled userSchema claimToField claims) h' hout
    hout'
  have hwidth := (rewrite_run hout).width (scans_baseTables graph)
  have hwidth' := (rewrite_run hout').width (scans_baseTables graph)
  rw [hgraph] at hwidth
  have hlt :
      (graph.baseTableIndices.map fun i => guardWidth rules context (scanTable graph i)).sum <
      (graph.baseTableIndices.map fun i => guardWidth rules context' (scanTable graph i)).sum := by
    apply sum_lt_sum
    · intro i hi
      obtain ⟨project, hkind⟩ := kind_scanTable hi
      exact (guardWidth_mono (hbound _ ⟨i, project, hkind⟩) (hclauses _)).1
    · obtain ⟨i, project, hkind⟩ := hreads
      refine ⟨i, mem_baseTableIndices.mpr ⟨table, project, hkind⟩, ?_⟩
      rw [scanTable_eq hkind]
      refine (guardWidth_mono (hbound _ ⟨i, project, hkind⟩) (hclauses _)).2 hguard ?_
      obtain ⟨text, htext⟩ :=
        materialize_of_bound hguard (hbound _ ⟨i, project, hkind⟩) rule hrule
      obtain ⟨text', htext', -, hlonger⟩ := materialize_padded h h' htext
      exact ⟨rule, hrule, text, text', htext, htext',
        hlonger ⟨field, hfield, huuid, value, hval, hcarry⟩⟩
  omega

omit h

/-- For an authenticated token: the subscribe guards the declared types, and the spelling of
UUIDs makes no difference, exactly when the claims fit or the subscribe is refused on other
grounds, and no filter takes a UUID from the token or the query cannot be filtered at all. -/
theorem typed_and_spellingBlind_iff (d : Deployment δ) (s : State δ) (request : SubscribeRequest)
    (schema : Except String Unit) (fetched : Except String (SnapshotBatch δ))
    (userSchema : UserContextSchema) (claimToField : ClaimMap) (claims : Json)
    (h : authenticate claimToField claims = .ok request.userCtx) :
    (TypedWhenAccepted d s userSchema request schema fetched ∧
      SpellingBlind s.router.rules userSchema claimToField claims request.graph request.userCtx) ↔
    ((Refuses d s request schema fetched ∨
        ClaimsFit s.router.rules userSchema claimToField claims request.graph) ∧
      ((∃ table, Reads request.graph table ∧ Unbound s.router.rules request.userCtx table) ∨
        FiltersWithoutUuids s.router.rules userSchema claimToField claims request.graph)) := by
  rw [typedWhenAccepted_iff d s schema fetched h]
  refine and_congr_right fun _ => ?_
  constructor
  · intro hblind
    refine or_iff_not_imp_left.mpr fun hbound => .of_spellingBlind h ?_ hblind
    exact fun table hreads hunbound => hbound ⟨table, hreads, hunbound⟩
  · rintro (⟨table, hreads, hunbound⟩ | hfree)
    · intro claims' context' out out' _ _ hout _
      exact absurd hunbound ((rewrite_ok_iff ..).mp ⟨out, hout⟩ table hreads)
    · exact .of_filtersWithoutUuids h hfree

/-- Tokens carry the user's id in `sub`. -/
def subjectIsId : ClaimMap := ⟨[("sub", "id")], pairwise_singleton _ _⟩

def subjectToken (subject : Json) : Json := .object ["sub"] [subject]

def idSchema (expected : ColumnType) : UserContextSchema := ⟨[("id", expected)]⟩

def readPostsAs (id : UserValue) : SubscribeRequest :=
  { readPosts "a" with userCtx := ⟨[("id", id)], pairwise_singleton _ _⟩ }

def guardedPosts : State ℕ := postsRun [.setRules ownPosts]

theorem ownPosts_references (h : rule ∈ ownPosts) : rule.predicate.references = ["id".toList] := by
  rw [mem_singleton.mp h]
  decide +kernel

theorem integer_subject_typed :
    TypedWhenAccepted postsDeployment guardedPosts (idSchema .int) (readPostsAs (.int 7)) (.ok ())
        (.ok twoPosts) ∧
      SpellingBlind ownPosts (idSchema .int) subjectIsId (subjectToken (.int 7)) (readAll "posts")
        userSeven := by
  refine (typed_and_spellingBlind_iff postsDeployment guardedPosts (readPostsAs (.int 7)) (.ok ())
    (.ok twoPosts) (idSchema .int) subjectIsId (subjectToken (.int 7)) rfl).mpr
      ⟨.inr ?_, .inr ?_⟩
  · rintro rule ⟨hrule, -⟩ field hfield value hval
    rw [ownPosts_references hrule, mem_singleton] at hfield
    subst hfield
    cases hval
    rfl
  · intro table _ _ rule hrule field hfield huuid
    rw [ownPosts_references (rulesFor_subset hrule).1, mem_singleton] at hfield
    subst hfield
    cases huuid

def subjectUuid : String := "0123456789abcdef0123456789abcdef"

/-- A text is accepted for an integer field, and a UUID is filtered by as it is spelled. -/
theorem untyped_subject_accepted :
    ¬ (TypedWhenAccepted postsDeployment guardedPosts (idSchema .int) (readPostsAs (.text "seven"))
          (.ok ()) (.ok twoPosts) ∧
        SpellingBlind ownPosts (idSchema .int) subjectIsId (subjectToken (.string "seven"))
          (readAll "posts") (readPostsAs (.text "seven")).userCtx) ∧
    ¬ (TypedWhenAccepted postsDeployment guardedPosts (idSchema .uuid)
          (readPostsAs (.text subjectUuid)) (.ok ()) (.ok twoPosts) ∧
        SpellingBlind ownPosts (idSchema .uuid) subjectIsId (subjectToken (.string subjectUuid))
          (readAll "posts") (readPostsAs (.text subjectUuid)).userCtx) := by
  have hreads : Reads (readAll "posts") "posts" := ⟨0, [], rfl⟩
  have hrule : ∃ rule, rule ∈ ownPosts ∧ rule.table = "posts" := ⟨_, mem_singleton_self _, rfl⟩
  obtain ⟨rule, hmem, htab⟩ := hrule
  constructor
  · rintro ⟨htyped, -⟩
    have hvalid := htyped ⟨_, rfl, rfl⟩ rule ⟨hmem, htab ▸ hreads⟩ "id".toList
      (by rw [ownPosts_references hmem]; exact mem_singleton_self _) (.text "seven") rfl
    cases hvalid
  · rintro ⟨-, hblind⟩
    have hbound : ∀ table, Reads (readAll "posts") table →
        ¬ Unbound ownPosts (readPostsAs (.text subjectUuid)).userCtx table := by
      rintro table - ⟨-, rule', hrule', e, he⟩
      have htext : rule'.predicate.materialize (readPostsAs (.text subjectUuid)).userCtx =
          .ok ("author_id = " ++ sqlString subjectUuid) := by
        rw [mem_singleton.mp (rulesFor_subset hrule').1]
        decide +kernel
      simp [he] at htext
    have hfree := FiltersWithoutUuids.of_spellingBlind rfl hbound hblind
    have hguard : Guarded ownPosts "posts" := by
      unfold Guarded
      decide +kernel
    have hown : rule ∈ rulesFor ownPosts "posts" := by
      rw [mem_singleton.mp hmem]
      decide +kernel
    have hcarry := hfree "posts" hreads hguard rule hown "id".toList
      (by rw [ownPosts_references hmem]; exact mem_singleton_self _) rfl _ rfl
    revert hcarry
    decide +kernel

end Subscribe

end Palimpsest.Server
