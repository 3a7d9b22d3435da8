import Palimpsest.Permissions.Compilation

/-! What a compiled rule predicate means to the evaluator, compared with the predicate that was
written. -/
namespace Palimpsest.Dataflow
open Sql Precedence Permissions Template List

section Spelling

def nameItems (name : String) : List (Item Char) :=
  (Template.parse userPlaceholderPrefix userPlaceholderSuffix name.toList.length name.toList).getD
    (name.toList.map .raw)

def leafItems : Leaf → List (Item Char)
  | .identifier ⟨name, false⟩ => nameItems name
  | a => a.display.toList.map .raw

def wordItems : Token Leaf Symbol → List (Item Char)
  | .atom a => leafItems a
  | t => (word t).toList.map .raw

def textItems : Tokens → List (Item Char)
  | [] => []
  | [t] => wordItems t
  | .opening :: rest => .raw '(' :: textItems rest
  | t :: .closing :: rest => wordItems t ++ textItems (.closing :: rest)
  | t :: rest => wordItems t ++ .raw ' ' :: textItems rest

theorem encode_nameItems (name) :
    encode userPlaceholderPrefix userPlaceholderSuffix (nameItems name) = name.toList := by
  unfold nameItems
  cases h : Template.parse userPlaceholderPrefix userPlaceholderSuffix name.toList.length
      name.toList with
  | none => exact fill_map_raw _
  | some items => exact encode_parse _ _ h

theorem encode_wordItems (t) :
    encode userPlaceholderPrefix userPlaceholderSuffix (wordItems t) = (word t).toList := by
  have hraw : ∀ s : List Char,
      encode userPlaceholderPrefix userPlaceholderSuffix (s.map .raw) = s := fun s => fill_map_raw s
  cases t with
  | atom a =>
    cases a with
    | identifier name =>
      obtain ⟨name, quoted⟩ := name
      cases quoted with
      | false => exact encode_nameItems name
      | true => exact hraw _
    | _ => exact hraw _
  | _ => exact hraw _

theorem encode_textItems (ts) :
    encode userPlaceholderPrefix userPlaceholderSuffix (textItems ts) = (text ts).toList := by
  fun_induction text ts with
  | case1 => rfl
  | case2 t => exact encode_wordItems t
  | case3 rest hne ih =>
    rw [textItems.eq_3 _ hne, String.toList_append, ← ih]
    rfl
  | case4 t rest hopen ih =>
    rw [textItems.eq_4 _ _ hopen, String.toList_append, ← ih, ← encode_wordItems]
    exact fill_append
  | case5 t rest hne hopen hclose ih =>
    rw [textItems.eq_5 _ _ hne hopen hclose, String.toList_append, String.toList_append, ← ih,
      ← encode_wordItems, encode, fill_append, append_assoc]
    rfl

theorem clean_word
    (h : ∀ a, t = .atom a → Clean userPlaceholderPrefix userPlaceholderSuffix (leafItems a)) :
    Clean userPlaceholderPrefix userPlaceholderSuffix (wordItems t) := by
  cases t with
  | atom a => exact h a rfl
  | op s => cases s <;> decide
  | opening | closing => decide

theorem textItems_closing (rest : Tokens) :
    ∃ items, textItems (.closing :: rest) = .raw ')' :: items := by
  match rest with
  | [] => exact ⟨_, rfl⟩
  | .closing :: rest => exact ⟨_, rfl⟩
  | .atom a :: rest | .op s :: rest | .opening :: rest => exact ⟨_, rfl⟩

/-- The sentinels of a text can be read back if those of each word can: no sentinel starts in one
word and ends in another. -/
theorem clean_textItems
    (h : ∀ a, .atom a ∈ ts → Clean userPlaceholderPrefix userPlaceholderSuffix (leafItems a)) :
    Clean userPlaceholderPrefix userPlaceholderSuffix (textItems ts) := by
  have hpre : userPlaceholderPrefix ≠ [] := by decide
  fun_induction textItems ts with
  | case1 => decide
  | case2 => exact clean_word fun a ha => h a (by rw [ha]; exact mem_singleton_self _)
  | case3 rest hne ih =>
    exact Clean.cons_raw hpre (by decide) (ih fun a ha => h a (mem_cons_of_mem _ ha))
  | case4 t rest hopen ih =>
    have hword : Clean userPlaceholderPrefix userPlaceholderSuffix (wordItems t) :=
      clean_word fun a ha => h a (by rw [ha]; exact mem_cons_self)
    have hrest := ih fun a ha => h a (mem_cons_of_mem _ ha)
    obtain ⟨items, hits⟩ := textItems_closing rest
    rw [hits] at hrest ⊢
    exact CleanFrom.append (by decide) hword hrest
  | case5 t rest hne hopen hclose ih =>
    have hword : Clean userPlaceholderPrefix userPlaceholderSuffix (wordItems t) :=
      clean_word fun a ha => h a (by rw [ha]; exact mem_cons_self)
    have hrest := ih fun a ha => h a (mem_cons_of_mem _ ha)
    exact CleanFrom.append (by decide) hword (Clean.cons_raw hpre (by decide) hrest)

@[simp]
theorem wordItems_op (s) : wordItems (.op s) = s.display.toList.map .raw := rfl

theorem refs_append (items items' : List (Item Char)) :
    refs (items ++ items') = refs items ++ refs items' := filterMap_append

theorem refs_map_raw (s : List Char) : refs (s.map Item.raw) = [] := by
  rw [← append_nil (s.map Item.raw), refs_map_raw_append]
  rfl

theorem mem_refs_word (h : field ∈ refs (wordItems t)) :
    ∃ a, t = .atom a ∧ field ∈ refs (leafItems a) := by
  cases t with
  | atom a => exact ⟨a, rfl, h⟩
  | op => exact absurd h (by simp [wordItems_op, refs_map_raw])
  | opening | closing => cases h

theorem mem_refs_textItems (h : field ∈ refs (textItems ts)) :
    ∃ a, .atom a ∈ ts ∧ field ∈ refs (leafItems a) := by
  have hhead : ∀ {t : Token Leaf Symbol} {rest : Tokens}, field ∈ refs (wordItems t) →
      ∃ a, .atom a ∈ t :: rest ∧ field ∈ refs (leafItems a) := by
    intro t rest hword
    obtain ⟨a, rfl, ha⟩ := mem_refs_word hword
    exact ⟨a, mem_cons_self, ha⟩
  have htail : ∀ {t : Token Leaf Symbol} {rest : Tokens},
      (∃ a, .atom a ∈ rest ∧ field ∈ refs (leafItems a)) →
      ∃ a, .atom a ∈ t :: rest ∧ field ∈ refs (leafItems a) := by
    rintro t rest ⟨a, hmem, ha⟩
    exact ⟨a, mem_cons_of_mem _ hmem, ha⟩
  fun_induction textItems ts with
  | case1 => cases h
  | case2 => exact hhead h
  | case3 rest hne ih => exact htail (ih h)
  | case4 t rest hopen ih | case5 t rest hne hopen hclose ih =>
    rw [refs_append, mem_append] at h
    exact h.elim hhead fun h => htail (ih h)

def filledText (context : UserContext) (ts : Tokens) : String :=
  String.ofList (fill (fun field => (context.literal field).getD []) (textItems ts))

theorem materialize_text
    (hclean : ∀ a, .atom a ∈ ts → Clean userPlaceholderPrefix userPlaceholderSuffix (leafItems a))
    (hbound : ∀ a, .atom a ∈ ts → ∀ field ∈ refs (leafItems a), (context.literal field).isSome) :
    CompiledPredicate.materialize ⟨text ts, fields⟩ context = .ok (filledText context ts) := by
  refine CompiledPredicate.materialize_ok_iff.mpr ⟨textItems ts, ?_, ?_⟩
  · rw [CompiledPredicate.template, ← encode_textItems]
    exact (parse_encode_iff (by decide) le_rfl).mpr (clean_textItems hclean)
  · refine fill?_eq_some.mpr ⟨fun field hfield => ?_, String.toList_ofList ..⟩
    obtain ⟨a, ha, hmem⟩ := mem_refs_textItems hfield
    exact hbound a ha field hmem

end Spelling

section

def operandOf (text : List Char) : Scalar :=
  if h : isNumeral text = true then .atom (.number ⟨text, h⟩)
  else .atom (.identifier ⟨String.ofList text, false⟩)

/-- A number's sign is an operator before it. -/
def signedOperand : List Char → Scalar
  | '-' :: rest => .unary .minus (operandOf rest)
  | text => operandOf text

def literalTree (v : UserValue) : Scalar :=
  match v with
  | .bool b => .atom (.boolean b)
  | .null => .atom .null
  | .int _ | .float _ => signedOperand v.toSqlLiteral.toList
  | .text s | .timestamp s | .enum s => .atom (.string .single s)
  | .uuid s => .atom (.string .single (normalizeOrRaw s))
  | .jsonb document => .atom (.string .single document.render)
  | .list _ => .atom (.identifier ⟨v.toSqlLiteral, false⟩)

/-- What stands in a leaf's place after materializing: a literal for a reference, and the text with
its references filled in for a form that is copied as it is. -/
def fillLeaf (context : UserContext) : Leaf → Scalar
  | .identifier ⟨name, false⟩ =>
    match nameItems name with
    | [.ref field] =>
      ((context.get (String.ofList field)).map literalTree).getD
        (.atom (.identifier ⟨name, false⟩))
    | items =>
      .atom (.identifier
        ⟨String.ofList (fill (fun field => (context.literal field).getD []) items), false⟩)
  | a => .atom a

/-- An `EXISTS` is a truth value of the row like any other form the evaluator does not take
apart. -/
def fillOperand (context : UserContext) (operand : Operand) : Scalar :=
  fillLeaf context operand.spelled

variable (context : UserContext)

theorem tight_operandOf (text) : Tight postgres (operandOf text) := by
  unfold operandOf
  split
  · exact .atom _
  · exact .atom _

theorem tight_signedOperand (text) : Tight postgres (signedOperand text) := by
  unfold signedOperand
  split
  next rest =>
    refine ⟨?_, rfl, ?_⟩
    · exact fits_unary.mpr ⟨11, rfl, (tight_operandOf rest).fits,
        by simp [above, (tight_operandOf rest).strength]⟩
    · intro s k hs
      have hloose : k < 11 := by
        cases s <;> simp [postgres] at hs <;> omega
      rw [swallows, (tight_operandOf rest).swallows s k hs]
      simp [postgres, hloose]
  next => exact tight_operandOf _

theorem tight_literalTree (v) : Tight postgres (literalTree v) := by
  cases v with
  | int | float => exact tight_signedOperand _
  | _ => exact .atom _

theorem tight_fillLeaf (a : Leaf) : Tight postgres (fillLeaf context a) := by
  unfold fillLeaf
  split
  next name =>
    split
    next field _ =>
      cases context.get (String.ofList field) with
      | none => exact .atom _
      | some v => exact tight_literalTree v
    next => exact .atom _
  next => exact .atom _

theorem fillOperand_scalarOf (h : scalarOf c = some e) :
    c.subst (fillOperand context) = e.subst (fillLeaf context) := by
  induction c generalizing e with
  | atom operand =>
    cases operand with
    | leaf | form =>
      cases h
      rfl
    | existsIn => cases h
  | unary s c ih =>
    obtain ⟨inner, hinner, rfl⟩ := Option.map_eq_some_iff.mp h
    rw [Tree.subst, ih hinner, Tree.subst]
  | group c ih =>
    obtain ⟨inner, hinner, rfl⟩ := Option.map_eq_some_iff.mp h
    rw [Tree.subst, ih hinner, Tree.subst]
  | binary s left right ihl ihr =>
    obtain ⟨left', hleft, h⟩ := Option.bind_eq_some_iff.mp h
    obtain ⟨right', hright, rfl⟩ := Option.map_eq_some_iff.mp h
    rw [Tree.subst, ihl hleft, ihr hright, Tree.subst]

theorem spelled_of_mem_print (h : scalarOf c = some e) (ha : .atom a ∈ e.print) :
    ∃ operand, .atom operand ∈ c.print ∧ a = operand.spelled := by
  induction c generalizing e with
  | atom operand =>
    cases operand with
    | leaf | form =>
      cases h
      exact ⟨_, mem_singleton_self _, Token.atom.inj (mem_singleton.mp ha)⟩
    | existsIn => cases h
  | unary s c ih =>
    obtain ⟨inner, hinner, rfl⟩ := Option.map_eq_some_iff.mp h
    obtain ⟨operand, hmem, hspelled⟩ := ih hinner (by simpa [Tree.print] using ha)
    exact ⟨operand, mem_cons_of_mem _ hmem, hspelled⟩
  | group c ih =>
    obtain ⟨inner, hinner, rfl⟩ := Option.map_eq_some_iff.mp h
    obtain ⟨operand, hmem, hspelled⟩ := ih hinner (by simpa [Tree.print] using ha)
    exact ⟨operand, by simp [Tree.print, hmem], hspelled⟩
  | binary s left right ihl ihr =>
    obtain ⟨left', hleft, h⟩ := Option.bind_eq_some_iff.mp h
    obtain ⟨right', hright, rfl⟩ := Option.map_eq_some_iff.mp h
    have hsides : .atom a ∈ left'.print ∨ .atom a ∈ right'.print := by
      simpa [Tree.print] using ha
    rcases hsides with hside | hside
    · obtain ⟨operand, hmem, hspelled⟩ := ihl hleft hside
      exact ⟨operand, mem_append_left _ hmem, hspelled⟩
    · obtain ⟨operand, hmem, hspelled⟩ := ihr hright hside
      exact ⟨operand, mem_append_right _ (mem_cons_of_mem _ hmem), hspelled⟩

end

section Meaning

/-- A test that is copied as it is and binds looser than a comparison. -/
def isTest : Operand → Bool
  | .form (.isNull _) | .form (.isNotNull _) | .form (.isTrue _) | .form (.isFalse _)
  | .form (.inList _ _ _) | .form (.inSubquery _ _ _) | .form (.between _ _ _ _)
  | .form (.like _ _ _ _ _) | .form (.anyOp _ _ _) => true
  | _ => false

def hasTest : Condition → Bool
  | .atom operand => isTest operand
  | .unary _ e | .group e => hasTest e
  | .binary _ left right => hasTest left || hasTest right

/-- Tests stand between boolean operators only. Beside another operator a test comes apart without
its parentheses: `open = (owner IS NULL)` is printed as `open = owner IS NULL`. -/
def testsApart : Condition → Bool
  | .atom _ => true
  | .group e | .unary .not e => testsApart e
  | .binary .and left right | .binary .or left right => testsApart left && testsApart right
  | e => !hasTest e

/-- The compiled predicate, materialized, is true on the rows on which the predicate as written,
with literals in the place of its references, is. -/
structure KeepsMeaning (P : Primitives) (columns : ScalarSchema) (rule : PermissionRule)
    (predicate : ConditionTokens) (schema : UserContextSchema) (compiled : CompiledRule)
    (context : UserContext) : Prop where
  written : ∃ encoded out, encodeUserPlaceholders rule.predicate rule.name schema = .ok encoded ∧
    encoded.materialize context = .ok out ∧
    fill? context.literal (sqlItems rule.predicate.toList) = some out.toList
  rows : ∃ canonical written reread, compiledFilter predicate = some canonical ∧
    compiled.predicate.materialize context = .ok (filledText context canonical) ∧
    read postgres (predicate.flatMap (Token.subst (fillOperand context))) = some written ∧
    read postgres (canonical.flatMap (Token.subst (fillLeaf context))) = some reread ∧
    ∀ row, acceptsRow P columns reread row = acceptsRow P columns written row

structure Supplies (context : UserContext) (compiled : CompiledRule)
    (predicate : ConditionTokens) : Prop where
  fields : ∀ field ∈ compiled.predicate.userFields, (context.get field).isSome = true
  named : ∀ operand, .atom operand ∈ predicate → ∀ field ∈ refs (leafItems operand.spelled),
    (context.literal field).isSome = true

/-- The encoder reads the text as SQL does, sentinels can be read back, and the predicate is one
expression without `EXISTS` whose parentheses are not needed, neither for its operators nor for its
tests. -/
structure Transparent (rule : PermissionRule) (predicate : ConditionTokens) : Prop where
  agree : plainItems rule.predicate.toList = sqlItems rule.predicate.toList
  clean : Clean userPlaceholderPrefix userPlaceholderSuffix (plainItems rule.predicate.toList)
  legible : ∀ operand, .atom operand ∈ predicate →
    Clean userPlaceholderPrefix userPlaceholderSuffix (leafItems operand.spelled.canonical)
  spare : ∃ c e, read postgres predicate = some c ∧ scalarOf c = some e ∧ testsApart c = true ∧
    fits postgres (bare e) = true

theorem refs_canonical (a : Leaf) : refs (leafItems a.canonical) = refs (leafItems a) := by
  cases a with
  | number => exact (refs_map_raw _).trans (refs_map_raw _).symm
  | string => rfl
  | _ => rfl

theorem mem_canonicalExpr (h : .atom b ∈ canonicalExpr e) :
    ∃ a, .atom a ∈ e.print ∧ b = a.canonical := by
  induction e with
  | atom a =>
    rw [canonicalExpr, mem_singleton, Token.atom.injEq] at h
    exact ⟨a, mem_singleton_self _, h⟩
  | unary s e ih =>
    obtain ⟨a, ha, hb⟩ := ih (by simpa [canonicalExpr] using h)
    exact ⟨a, mem_cons_of_mem _ ha, hb⟩
  | group e ih =>
    obtain ⟨a, ha, hb⟩ := ih h
    exact ⟨a, by simp [Tree.print, ha], hb⟩
  | binary s left right ihl ihr =>
    have hsides : .atom b ∈ canonicalExpr left ∨ .atom b ∈ canonicalExpr right := by
      rw [canonicalExpr] at h
      split_ifs at h <;> simpa using h
    rcases hsides with hside | hside
    · obtain ⟨a, ha, hb⟩ := ihl hside
      exact ⟨a, mem_append_left _ ha, hb⟩
    · obtain ⟨a, ha, hb⟩ := ihr hside
      exact ⟨a, mem_append_right _ (mem_cons_of_mem _ ha), hb⟩

variable (P : Primitives) (columns : ScalarSchema)

/-- Filling in the references of an expression with and without its parentheses gives the same
truth values. -/
theorem acceptsRow_bare (context e row) :
    acceptsRow P columns ((bare e).subst (fillLeaf context)) row =
      acceptsRow P columns (e.subst (fillLeaf context)) row := by
  have hleaf : ∀ a, (evaluator P columns).eval (fillLeaf context a.canonical) =
      (evaluator P columns).eval (fillLeaf context a) := by
    intro a
    cases a with
    | number n => exact (evaluator P columns).atom_canonical (.number n)
    | string style s => exact (evaluator P columns).atom_canonical (.string style s)
    | _ => rfl
  rw [acceptsRow_eq, acceptsRow_eq, ← eval_evaluator, ← eval_evaluator,
    (evaluator P columns).eval_subst_bare hleaf]

end Meaning

section Rules

def named (name : String) : Token Operand Symbol := .atom (.leaf (.identifier ⟨name, false⟩))

def postsCatalog : Catalog :=
  ⟨[⟨"posts", [⟨"owner", .int⟩, ⟨"org", .int⟩, ⟨"open", .bool⟩, ⟨"role", .text⟩]⟩]⟩

def memberSchema : UserContextSchema := ⟨[("id", .int), ("org", .int)]⟩

def member : UserContext := ⟨[("id", .int 7), ("org", .int (-3))], by decide +kernel⟩

def postsRule (predicate : String) : PermissionRule :=
  ⟨"shared", "posts", predicate, .rowVisibility, none⟩

def ownerIsUser : ConditionTokens := [named "owner", .op .eq, named "__palimpsest_user_id__"]

def orgIsUsers : ConditionTokens := [named "org", .op .eq, named "__palimpsest_user_org__"]

/-- `(owner = $user.id AND open) OR org = $user.org`. -/
def ownOpenOrOrg : ConditionTokens :=
  .opening :: ownerIsUser ++ [.op .and, named "open", .closing, .op .or] ++ orgIsUsers

/-- `(owner = $user.id OR open) AND org = $user.org`. -/
def ownOrOpenInOrg : ConditionTokens :=
  .opening :: ownerIsUser ++ [.op .or, named "open", .closing, .op .and] ++ orgIsUsers

def compiledShared (canonical : String) (fields : List String) : CompiledRule :=
  ⟨"shared", "posts", .rowVisibility, ⟨canonical, fields⟩, none⟩

def postsColumns : ScalarSchema := ⟨["owner", "org", "open", "role"], []⟩

theorem not_keepsMeaning {written reread : Scalar} (row)
    (hfilt : compiledFilter pred = some canonical)
    (hwr : read postgres (pred.flatMap (Token.subst (fillOperand context))) = some written)
    (hreread : read postgres (canonical.flatMap (Token.subst (fillLeaf context))) = some reread)
    (hrow : acceptsRow P columns reread row ≠ acceptsRow P columns written row) :
    ¬ KeepsMeaning P columns rule pred schema compiled context := by
  rintro ⟨-, canonical', written', reread', hfilt', -, hwr', hreread', hrows⟩
  cases Option.mem_unique hfilt hfilt'
  cases Option.mem_unique hwr hwr'
  cases Option.mem_unique hreread hreread'
  exact hrow (hrows row)

/-- `EXISTS` over the teams of a post's organisation; teams and posts have a column `open`. -/
def openTeams : Subquery where
  text := "EXISTS (SELECT 1 FROM teams WHERE teams.org = posts.org AND open)"
  filters := .ok [[.atom (.identifier ⟨"open", false⟩)]]

end Rules

end Palimpsest.Dataflow
