import Mathlib.Data.List.Dedup
import Palimpsest.Foundation.Fallible
import Palimpsest.Permissions.Literal
import Palimpsest.Permissions.Placeholder

/-! Encoding `$user` references as sentinels, and which references a predicate really has. -/
namespace Palimpsest.Permissions
open Template Fallible List

def userMark : List Char := "$user.".toList

def isFieldChar (c : Char) : Bool := c.isAlphanum || c == '_'

section

def stringTail : List Char → List Char × List Char
  | [] => ([], [])
  | c :: rest =>
    if c = quoteChar then
      match rest with
      | next :: rest' =>
        -- a doubled quote stays inside the literal
        if next = quoteChar then (c :: next :: (stringTail rest').1, (stringTail rest').2)
        else ([c], next :: rest')
      | [] => ([c], [])
    else (c :: (stringTail rest).1, (stringTail rest).2)

theorem stringTail_of_ne (hc : c ≠ quoteChar) (rest) :
    stringTail (c :: rest) = (c :: (stringTail rest).1, (stringTail rest).2) := by
  rw [stringTail.eq_def]
  exact if_neg hc

/-- The encoding loop; `fuel` bounds the number of turns. -/
def encodeFrom (rule : String) (schema : UserContextSchema) :
    ℕ → List Char → Except PermissionError (List Char × List (List Char))
  | 0, _ => .ok ([], [])
  | _ + 1, [] => .ok ([], [])
  | fuel + 1, c :: rest =>
    if c = quoteChar then
      (encodeFrom rule schema fuel (stringTail rest).2).map fun out =>
        (c :: (stringTail rest).1 ++ out.1, out.2)
    else if userMark <+: c :: rest then
      let field := fieldAt userMark isFieldChar (c :: rest)
      if field = [] then .error (.malformedUserReference rule (String.ofList (c :: rest)))
      else if schema.contains (String.ofList field) then
        (encodeFrom rule schema fuel ((c :: rest).drop (userMark.length + field.length))).map
          fun out => (userPlaceholderPrefix ++ field ++ userPlaceholderSuffix ++ out.1,
            field :: out.2)
      else .error (.unknownUserField rule (String.ofList field))
    else (encodeFrom rule schema fuel rest).map fun out => (c :: out.1, out.2)

/-- The encoded text and the referenced fields, in order and without repetition. -/
def encodeUserPlaceholders (predicate rule : String) (schema : UserContextSchema) :
    Except PermissionError CompiledPredicate :=
  (encodeFrom rule schema predicate.toList.length predicate.toList).map fun out =>
    ⟨String.ofList out.1, ((out.2.map String.ofList).insertionSort (· ≤ ·)).dedup⟩

end

section Plain

/-- What the encoder knows about SQL: a quote opens a literal or closes it. -/
def plainLexer : Lexer Char Bool where
  next inString c _ := if c = quoteChar then !inString else inString
  isOpen inString := !inString
  afterRef := false

def plainItems (s : List Char) : List (Item Char) := scan plainLexer userMark isFieldChar 0 false s

theorem not_userMark_quote (rest) : ¬ userMark <+: quoteChar :: rest := by
  rintro ⟨tail, htail⟩
  have hhead : '$' = quoteChar := (cons.inj htail).1
  revert hhead
  decide

theorem scan_quote (inString : Bool) (rest) :
    scan plainLexer userMark isFieldChar 0 inString (quoteChar :: rest) =
      .raw quoteChar :: scan plainLexer userMark isFieldChar 0 (!inString) rest := by
  rw [scan_raw fun h => not_userMark_quote rest h.2.1]
  rfl

theorem scan_inside (hc : c ≠ quoteChar) (rest) :
    scan plainLexer userMark isFieldChar 0 true (c :: rest) =
      .raw c :: scan plainLexer userMark isFieldChar 0 true rest := by
  rw [scan_raw fun h => by cases h.1]
  congr 2
  exact if_neg hc

theorem scan_stringTail (s) : scan plainLexer userMark isFieldChar 0 true s =
      (stringTail s).1.map .raw ++ plainItems (stringTail s).2 := by
  induction s using stringTail.induct with
  | case1 => rfl
  | case2 rest ih =>
    simp [scan_quote, scan_quote, ih, stringTail]
  | case3 next rest hnext =>
    simp [scan_quote, stringTail, hnext, plainItems]
  | case4 =>
    simp [scan_quote, stringTail, plainItems]
  | case5 c rest hc ih =>
    simp [scan_inside hc, ih, stringTail_of_ne hc]

theorem length_stringTail (s) : (stringTail s).2.length ≤ s.length := by
  induction s using stringTail.induct with
  | case1 => exact le_rfl
  | case2 =>
    simp [stringTail]
    omega
  | case3 next rest hnext =>
    simp [stringTail, hnext]
  | case4 =>
    simp [stringTail]
  | case5 c rest hc ih =>
    rw [stringTail_of_ne hc]
    exact Nat.le_succ_of_le ih

theorem encodeFrom_ok (hfuel : s.length ≤ fuel) (h : encodeFrom rule schema fuel s = .ok out) :
    out.1 = encode userPlaceholderPrefix userPlaceholderSuffix (plainItems s) ∧
      out.2 = refs (plainItems s) ∧
      ∀ field ∈ refs (plainItems s), schema.contains (String.ofList field) = true := by
  induction fuel generalizing s out with
  | zero =>
    cases h
    rw [eq_nil_of_length_eq_zero (Nat.le_zero.mp hfuel)]
    exact ⟨rfl, rfl, nofun⟩
  | succ fuel ih =>
    cases s with
    | nil =>
      cases h
      exact ⟨rfl, rfl, nofun⟩
    | cons c rest =>
      rw [length_cons] at hfuel
      unfold encodeFrom at h
      split at h
      next hquote =>
        obtain ⟨tail, htail, rfl⟩ := map_ok_iff.mp h
        have hlen := length_stringTail rest
        obtain ⟨hcode, hrefs, hdecl⟩ := ih (by omega) htail
        have hits : plainItems (c :: rest) =
            .raw c :: ((stringTail rest).1.map .raw ++ plainItems (stringTail rest).2) := by
          rw [hquote, plainItems, scan_quote, Bool.not_false, scan_stringTail]
        rw [hits]
        exact ⟨by simp [encode, hcode], by simp [hrefs], by simpa using hdecl⟩
      next hquote =>
        split at h
        next hmark =>
          dsimp only at h
          split at h
          · cases h
          next hfield =>
            split at h
            next hdecl =>
              obtain ⟨tail, htail, rfl⟩ := map_ok_iff.mp h
              have hshort : ((c :: rest).drop (userMark.length +
                  (fieldAt userMark isFieldChar (c :: rest)).length)).length ≤ fuel := by
                rw [length_drop, length_cons]
                have : 0 < userMark.length := by decide
                omega
              obtain ⟨hcode, hrefs, hrest⟩ := ih hshort htail
              rw [plainItems, scan_ref rfl hmark hfield]
              refine ⟨?_, congrArg _ hrefs, ?_⟩
              · rw [hcode]
                rfl
              · rw [refs_ref, forall_mem_cons]
                exact ⟨hdecl, hrest⟩
            · cases h
        next hmark =>
          obtain ⟨tail, htail, rfl⟩ := map_ok_iff.mp h
          obtain ⟨hcode, hrefs, hdecl⟩ := ih (Nat.le_of_succ_le_succ hfuel) htail
          have hits : plainItems (c :: rest) = .raw c :: plainItems rest := by
            rw [plainItems, scan_raw fun h => hmark h.2.1]
            congr 2
            exact if_neg hquote
          rw [hits]
          exact ⟨congrArg _ hcode, hrefs, hdecl⟩

end Plain

section

/-- What stands before a character of SQL code: nothing of a word, the inside of a word, or an `E`
that opens an escape string if a quote follows. -/
inductive Previous where
  | blank
  | word
  | escape
deriving Repr, DecidableEq

inductive SqlMode where
  | code (previous : Previous)
  | string
  | escapeString
  | identifier
  | lineComment
  | blockComment (depth : ℕ)
  | dollar (tag : List Char)
  | skip (n : ℕ) (after : SqlMode)
deriving Repr, DecidableEq

def isWordChar (c : Char) : Bool := c.isAlphanum || c == '_' || c == '$' || 128 ≤ c.toNat

/-- The tag of a dollar-quoted string whose first dollar has been read. -/
def dollarTag (rest : List Char) : Option (List Char) :=
  let tag := rest.takeWhile fun c => isWordChar c && c != '$'
  match rest.drop tag.length with
  | '$' :: _ => if tag.head?.any Char.isDigit then none else some tag
  | _ => none

def nextInCode (previous : Previous) (c : Char) (rest : List Char) : SqlMode :=
  if c = quoteChar then if previous = .escape then .escapeString else .string
  else if c = Char.ofNat 34 then .identifier
  else if c = '-' ∧ rest.head? = some '-' then .lineComment
  else if c = '/' ∧ rest.head? = some '*' then .skip 0 (.blockComment 0)
  else match (if c = '$' ∧ previous = .blank then dollarTag rest else none) with
    | some tag => .skip tag.length (.dollar tag)
    | none =>
      if isWordChar c then
        if previous = .blank ∧ c.toLower = 'e' then .code .escape else .code .word
      else .code .blank

def SqlMode.next : SqlMode → Char → List Char → SqlMode
  | .code previous, c, rest => nextInCode previous c rest
  | .string, c, rest =>
    if c = quoteChar then if rest.head? = some quoteChar then .skip 0 .string else .code .blank
    else .string
  | .escapeString, c, rest =>
    if c = Char.ofNat 92 then .skip 0 .escapeString
    else if c = quoteChar then
      if rest.head? = some quoteChar then .skip 0 .escapeString else .code .blank
    else .escapeString
  | .identifier, c, rest =>
    if c = Char.ofNat 34 then
      if rest.head? = some (Char.ofNat 34) then .skip 0 .identifier else .code .blank
    else .identifier
  | .lineComment, c, _ => if c = '\n' ∨ c = '\r' then .code .blank else .lineComment
  | .blockComment depth, c, rest =>
    if c = '*' ∧ rest.head? = some '/' then
      .skip 0 (if depth = 0 then .code .blank else .blockComment (depth - 1))
    else if c = '/' ∧ rest.head? = some '*' then .skip 0 (.blockComment (depth + 1))
    else .blockComment depth
  | .dollar tag, c, rest =>
    if c = '$' ∧ tag ++ ['$'] <+: rest then .skip tag.length (.code .blank) else .dollar tag
  | .skip 0 after, _, _ => after
  | .skip (n + 1) after, _, _ => .skip n after

/-- The lexical rules of the SQL dialect: references stand in code, outside string literals of
every form, quoted identifiers and comments. -/
def sqlLexer : Lexer Char SqlMode where
  next := SqlMode.next
  isOpen mode := match mode with
    | .code _ => true
    | _ => false
  afterRef := .code .word

def sqlItems (s : List Char) : List (Item Char) :=
  scan sqlLexer userMark isFieldChar 0 (.code .blank) s

end

section Substitution
variable {schema : UserContextSchema} {p : CompiledPredicate} {text : String}

/-- Encoding and then materializing replaces the references of the text and nothing else, whatever
values the declared fields have. -/
def ReplacesReferences (schema : UserContextSchema) (text : String)
    (p : CompiledPredicate) : Prop :=
  ∀ context : UserContext,
    (∀ field, schema.contains field = true → (context.get field).isSome = true) →
    ∃ out, p.materialize context = .ok out ∧
      fill? context.literal (sqlItems text.toList) = some out.toList

/-- Binds each name, and tells one of them from the others. -/
def tellingContext (marked : List Char) (names : List String) : UserContext :=
  names.foldr (fun name context =>
    context.insert name (.int (if name.toList = marked then 1 else 2))) .empty

theorem get_tellingContext (marked names name) : (tellingContext marked names).get name =
      if name ∈ names then some (.int (if name.toList = marked then 1 else 2)) else none := by
  induction names with
  | nil => rfl
  | cons first names ih =>
    rw [tellingContext, foldr_cons, UserContext.get_insert, ← tellingContext, ih]
    by_cases hname : name = first <;> simp [hname]

theorem literal_tellingContext (h : ((tellingContext marked names).literal field).isSome = true) :
    ((tellingContext marked names).literal field).getD [] = telling '1' '2' marked field := by
  rw [UserContext.literal, get_tellingContext] at h ⊢
  split at h
  next hmem =>
    rw [if_pos hmem, String.toList_ofList, telling]
    split <;> rfl
  next => cases h

theorem fill?_tellingContext (h : fill? (tellingContext marked names).literal items = some out) :
    out = fill (telling '1' '2' marked) items := by
  obtain ⟨hbound, rfl⟩ := fill?_eq_some.mp h
  exact fill_congr fun field hfield => literal_tellingContext (hbound field hfield)

theorem contains_iff_mem (schema : UserContextSchema) (name) :
    schema.contains name = true ↔ name ∈ schema.fields.map Prod.fst := by
  rw [UserContextSchema.contains, UserContextSchema.field]
  induction schema.fields with
  | nil => simp
  | cons entry =>
    by_cases hname : name = entry.1 <;> simp

variable (h : encodeUserPlaceholders text rule schema = .ok p)
include h

/-- What the encoder wrote down is the text as it reads it. -/
theorem encodeUserPlaceholders_ok : p.canonical.toList =
        encode userPlaceholderPrefix userPlaceholderSuffix (plainItems text.toList) ∧
      ∀ field ∈ refs (plainItems text.toList), schema.contains (String.ofList field) = true := by
  obtain ⟨out, hout, rfl⟩ := map_ok_iff.mp h
  obtain ⟨hcode, -, hdecl⟩ := encodeFrom_ok le_rfl hout
  exact ⟨by rw [String.toList_ofList, hcode], hdecl⟩

theorem template_eq_iff : p.template = some (plainItems text.toList) ↔
      Clean userPlaceholderPrefix userPlaceholderSuffix (plainItems text.toList) := by
  rw [CompiledPredicate.template, (encodeUserPlaceholders_ok h).1]
  exact parse_encode_iff (by decide) le_rfl

/-- Where the encoder reads the text as SQL does and its sentinels can be read back, a context that
binds the references fills them and nothing else. -/
theorem materialize_of_clean (hagree : plainItems text.toList = sqlItems text.toList)
    (hclean : Clean userPlaceholderPrefix userPlaceholderSuffix (plainItems text.toList)) (ctx)
    (hbound : ∀ field ∈ refs (plainItems text.toList), (ctx.literal field).isSome = true) :
    ∃ out, p.materialize ctx = .ok out ∧
      fill? ctx.literal (sqlItems text.toList) = some out.toList := by
  have htemplate := (template_eq_iff h).mpr hclean
  rw [hagree] at htemplate hbound
  obtain ⟨out, hout⟩ : ∃ out, fill? ctx.literal (sqlItems text.toList) = some out :=
    ⟨_, fill?_eq_some.mpr ⟨hbound, rfl⟩⟩
  rw [← String.toList_ofList (l := out)] at hout
  exact ⟨String.ofList out, CompiledPredicate.materialize_ok_iff.mpr ⟨_, htemplate, hout⟩, hout⟩

theorem replacesReferences_of_clean (hagree : plainItems text.toList = sqlItems text.toList)
    (hclean : Clean userPlaceholderPrefix userPlaceholderSuffix (plainItems text.toList)) :
    ReplacesReferences schema text p := by
  intro ctx hctx
  refine materialize_of_clean h hagree hclean ctx fun field hfield => ?_
  rw [UserContext.literal, Option.isSome_map]
  exact hctx _ ((encodeUserPlaceholders_ok h).2 field hfield)

theorem mem_userFields (hfield : field ∈ refs (plainItems text.toList)) :
    String.ofList field ∈ p.userFields := by
  obtain ⟨out, hout, rfl⟩ := map_ok_iff.mp h
  obtain ⟨-, hrefs, -⟩ := encodeFrom_ok le_rfl hout
  rw [mem_dedup, mem_insertionSort, hrefs]
  exact mem_map_of_mem hfield

omit h in
/-- The references read back are those an SQL reader sees. -/
theorem template_of_replaces {text : String} (h : ReplacesReferences schema text p) :
    p.template = some (sqlItems text.toList) := by
  have hreads : ∀ marked, ∃ items, p.template = some items ∧ fill (telling '1' '2' marked) items =
        fill (telling '1' '2' marked) (sqlItems text.toList) := by
    intro marked
    obtain ⟨out, hok, hfill⟩ := h (tellingContext marked (schema.fields.map Prod.fst)) (by
      intro field hfield
      rw [get_tellingContext, if_pos ((contains_iff_mem schema field).mp hfield)]
      rfl)
    obtain ⟨items, hits, hfilled⟩ := CompiledPredicate.materialize_ok_iff.mp hok
    exact ⟨items, hits, (fill?_tellingContext hfilled).symm.trans (fill?_tellingContext hfill)⟩
  obtain ⟨items, hits, -⟩ := hreads []
  rw [hits]
  refine congrArg some (eq_of_fill_eq (show '1' ≠ '2' by decide) fun marked => ?_)
  obtain ⟨items', hits', hfill⟩ := hreads marked
  rw [hits, Option.some.injEq] at hits'
  rw [hits']
  exact hfill

theorem agree_of_replaces (hreplaces : ReplacesReferences schema text p) :
    plainItems text.toList = sqlItems text.toList := by
  have hcode := encode_parse _ _ (template_of_replaces hreplaces)
  rw [(encodeUserPlaceholders_ok h).1] at hcode
  refine (eq_of_encode_eq isFieldChar (show '$' ≠ '_' by decide) (scan_maximal ..)
    (scan_maximal ..) ?_ hcode).symm
  exact (fill_scan sqlLexer userMark isFieldChar 0 _ _).trans
    (fill_scan plainLexer userMark isFieldChar 0 _ _).symm

theorem replacesReferences_iff :
    ReplacesReferences schema text p ↔ plainItems text.toList = sqlItems text.toList ∧
      Clean userPlaceholderPrefix userPlaceholderSuffix (plainItems text.toList) := by
  constructor
  · intro hreplaces
    have hagree := agree_of_replaces h hreplaces
    refine ⟨hagree, (template_eq_iff h).mp ?_⟩
    rw [hagree]
    exact template_of_replaces hreplaces
  · rintro ⟨hagree, hclean⟩
    exact replacesReferences_of_clean h hagree hclean

omit h

/-- References are replaced faithfully, and by literals, exactly when the encoder reads the text as
SQL does, every sentinel can be read back, and the value has no signed or non-finite number. -/
theorem faithful_substitution_iff {text rule : String} {schema : UserContextSchema}
    {p : CompiledPredicate} (h : encodeUserPlaceholders text rule schema = .ok p) (v : UserValue) :
    (ReplacesReferences schema text p ∧ OneLiteral v.toSqlLiteral) ↔
      (plainItems text.toList = sqlItems text.toList ∧
        Clean userPlaceholderPrefix userPlaceholderSuffix (plainItems text.toList)) ∧
      v.isPlain = true := by
  rw [replacesReferences_iff h, UserValue.oneLiteral_iff]

/-- Two fields of which one is the other with an underscore. -/
def orgSchema : UserContextSchema := ⟨[("org", .int), ("org_", .int)]⟩

theorem owner_org_faithful :
    (∃ p, encodeUserPlaceholders "owner = $user.org" "own" orgSchema = .ok p ∧
      ReplacesReferences orgSchema "owner = $user.org" p) ∧
    OneLiteral (UserValue.toSqlLiteral (.list [.text "o'k", .int 3])) := by
  obtain ⟨p, hp⟩ : ∃ p, encodeUserPlaceholders "owner = $user.org" "own" orgSchema = .ok p :=
    ⟨_, rfl⟩
  have hboth := (faithful_substitution_iff hp (.list [.text "o'k", .int 3])).mpr
    (by decide +kernel)
  exact ⟨⟨p, hp, hboth.1⟩, hboth.2⟩

/-- The sentinel of a field that ends in an underscore is read back as another field, and a
negative number is an operator before a literal. -/
theorem owner_org_underscore_unfaithful :
    (∃ p, encodeUserPlaceholders "owner = $user.org_" "own" orgSchema = .ok p ∧
      ¬ ReplacesReferences orgSchema "owner = $user.org_" p) ∧
    ¬ OneLiteral (UserValue.toSqlLiteral (.int (-5))) := by
  obtain ⟨p, hp⟩ : ∃ p, encodeUserPlaceholders "owner = $user.org_" "own" orgSchema = .ok p :=
    ⟨_, rfl⟩
  refine ⟨⟨p, hp, ?_⟩, ?_⟩
  · rw [replacesReferences_iff hp]
    decide +kernel
  · decide

end Substitution

end Palimpsest.Permissions
