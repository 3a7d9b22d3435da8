import Palimpsest.Permissions.User

/-! What counts as one SQL literal, and which user values are rendered as one. -/
namespace Palimpsest.Permissions
open List

section Grammar

def takeString : List Char → Option (List Char)
  | [] => none
  | c :: rest =>
    if c = quoteChar then
      match rest with
      | next :: rest' => if next = quoteChar then takeString rest' else some (next :: rest')
      | [] => some []
    else takeString rest

def takeNumber (s : List Char) : List Char :=
  match s.dropWhile Char.isDigit with
  | [] => []
  | c :: rest =>
    if c = '.' ∧ rest.head?.any Char.isDigit then rest.dropWhile Char.isDigit else c :: rest

def takeScalar (s : List Char) : Option (List Char) :=
  match s with
  | [] => none
  | c :: rest =>
    if c = quoteChar then takeString rest
    else if c.isDigit then some (takeNumber s)
    else if "true".toList <+: s then some (s.drop 4)
    else if "false".toList <+: s then some (s.drop 5)
    else if "NULL".toList <+: s then some (s.drop 4)
    else none

def arrayOpen : List Char := "ARRAY[".toList

mutual
/-- Passes one literal and returns what follows it; `fuel` bounds nesting and length. A sign is an
operator, and `NaN` or `inf` without quotes is a column. -/
def takeLiteral : ℕ → List Char → Option (List Char)
  | 0, _ => none
  | fuel + 1, s =>
    if arrayOpen <+: s then takeElements fuel (s.drop arrayOpen.length) else takeScalar s

def takeElements : ℕ → List Char → Option (List Char)
  | 0, _ => none
  | fuel + 1, s =>
    if [']'] <+: s then some (s.drop 1) else (takeLiteral fuel s).bind (takeMore fuel)

def takeMore : ℕ → List Char → Option (List Char)
  | 0, _ => none
  | fuel + 1, s =>
    if [']'] <+: s then some (s.drop 1)
    else if [',', ' '] <+: s then (takeLiteral fuel (s.drop 2)).bind (takeMore fuel)
    else none
end

/-- The text is a literal or an array literal and nothing else. -/
def OneLiteral (text : String) : Prop := takeLiteral text.toList.length text.toList = some []

instance (text : String) : Decidable (OneLiteral text) := inferInstanceAs (Decidable (_ = _))

end Grammar

section Scalars

/-- The text ends here or goes on as an array does after an element. -/
def Ends (rest : List Char) : Prop := ∀ c, rest.head? = some c → c = ',' ∨ c = ']'

variable {rest : List Char}

theorem takeString_double (body) (h : Ends rest) :
    takeString (TextSearch.double quoteChar body ++ quoteChar :: rest) = some rest := by
  induction body with
  | nil =>
    cases rest with
    | nil => rfl
    | cons c =>
      have hc : c ≠ quoteChar := by
        rintro rfl
        rcases h quoteChar rfl with h | h <;> revert h <;> decide
      simp [TextSearch.double, takeString, hc]
  | cons c body ih =>
    rw [TextSearch.double_cons]
    split
    · simpa [takeString] using ih
    next hc =>
      rw [← ih, takeString.eq_def]
      exact if_neg hc

theorem dropWhile_digits (hds : ∀ c ∈ ds, c.isDigit = true)
    (hrest : ∀ c, rest.head? = some c → c.isDigit = false) :
    (ds ++ rest).dropWhile Char.isDigit = rest := by
  rw [dropWhile_append_of_pos hds]
  cases rest with
  | nil => rfl
  | cons c => simp [hrest c rfl]

theorem Ends.not_digit (h : Ends rest) : ∀ c, rest.head? = some c → c.isDigit = false := by
  intro c hc
  rcases h c hc with rfl | rfl <;> decide

theorem takeNumber_append (hds : ∀ c ∈ ds, c.isDigit = true)
    (h : Ends rest) : takeNumber (ds ++ rest) = rest := by
  rw [takeNumber, dropWhile_digits hds h.not_digit]
  cases rest with
  | nil => rfl
  | cons c =>
    have hc : c ≠ '.' := by
      rintro rfl
      rcases h '.' rfl with h | h <;> revert h <;> decide
    exact if_neg fun hdot => hc hdot.1

theorem takeNumber_decimal (hds : ∀ c ∈ ds, c.isDigit = true) (hds' : ∀ c ∈ ds', c.isDigit = true)
    (hne : ds' ≠ []) (h : Ends rest) : takeNumber (ds ++ '.' :: (ds' ++ rest)) = rest := by
  have hdot : ∀ c, ('.' :: (ds' ++ rest)).head? = some c → c.isDigit = false := by
    rintro c hc
    cases hc
    decide
  rw [takeNumber, dropWhile_digits hds hdot]
  obtain ⟨d, ds', rfl⟩ := exists_cons_of_ne_nil hne
  have hd : d.isDigit = true := hds' d mem_cons_self
  dsimp only
  rw [if_pos ⟨rfl, by simp [hd]⟩, dropWhile_digits hds' h.not_digit]

theorem takeScalar_digit (hd : d.isDigit = true) (rest) :
    takeScalar (d :: rest) = some (takeNumber (d :: rest)) := by
  have hquote : d ≠ quoteChar := by
    rintro rfl
    revert hd
    decide
  simp [takeScalar, hquote, hd]

theorem toList_toString_nat (n : ℕ) : ∃ d ds, (toString n).toList = d :: ds ∧
    ∀ c ∈ d :: ds, c.isDigit = true := by
  have hrepr : (toString n).toList = Nat.toDigits 10 n := Nat.toList_repr
  obtain ⟨d, ds, hds⟩ := exists_cons_of_ne_nil (Nat.toDigits_ne_nil (n := n) (b := 10))
  refine ⟨d, ds, hrepr.trans hds, ?_⟩
  rw [← hds]
  exact fun c hc => Nat.isDigit_of_mem_toDigits (by decide) (by decide) hc

theorem toList_digits (fraction) : (∀ c ∈ (digits fraction).toList, c.isDigit = true) ∧
      (fraction ≠ [] → (digits fraction).toList ≠ []) := by
  have hdigits : (digits fraction).toList = fraction.flatMap fun d => (toString d.val).toList := by
    rw [digits, String.toList_join, flatMap_map]
  rw [hdigits]
  constructor
  · intro c hc
    obtain ⟨d, -, hc⟩ := mem_flatMap.mp hc
    obtain ⟨d', ds, hds, hall⟩ := toList_toString_nat d.val
    rw [hds] at hc
    exact hall c hc
  · intro hne hnil
    obtain ⟨d, fraction, rfl⟩ := exists_cons_of_ne_nil hne
    obtain ⟨d', ds, hds, -⟩ := toList_toString_nat d.val
    rw [flatMap_cons, hds] at hnil
    cases hnil

theorem takeScalar_sqlString (s) (h : Ends rest) :
    takeScalar ((sqlString s).toList ++ rest) = some rest := by
  simp [sqlString, takeScalar, takeString_double _ h]

namespace UserValue

mutual
/-- Rendered without a sign and without a name. -/
def isPlain : UserValue → Bool
  | .int value => decide (0 ≤ value)
  | .float (.finite negative _ _) => !negative
  | .float _ => false
  | .list items => allPlain items
  | _ => true

def allPlain : List UserValue → Bool
  | [] => true
  | item :: items => item.isPlain && allPlain items
end

def isList : UserValue → Bool
  | .list _ => true
  | _ => false

theorem toList_negSucc (n : ℕ) : (UserValue.int (Int.negSucc n)).toSqlLiteral.toList =
    '-' :: (toString (n + 1)).toList := by
  show ("-" ++ Nat.repr (n + 1)).toList = _
  simp

theorem toList_negative (whole : ℕ) (fraction) :
    (UserValue.float (.finite true whole fraction)).toSqlLiteral.toList =
      '-' :: ((toString whole).toList ++
        (if fraction.isEmpty then "" else "." ++ digits fraction).toList) := by
  simp [toSqlLiteral, F64.display, signText]

theorem toList_finite (fraction) (hds : (toString whole).toList = d :: ds) :
    (UserValue.float (.finite false whole fraction)).toSqlLiteral.toList =
      d :: ds ++ (if fraction.isEmpty then "" else "." ++ digits fraction).toList := by
  simp [← hds, toSqlLiteral, F64.display, signText]

theorem takeScalar_toSqlLiteral {v : UserValue} (hv : v.isList = false) (h : Ends rest) :
    takeScalar (v.toSqlLiteral.toList ++ rest) = if v.isPlain then some rest else none := by
  cases v with
  | list => cases hv
  | bool value => cases value <;> rfl
  | null => rfl
  | int value =>
    cases value with
    | ofNat n =>
      obtain ⟨d, ds, hds, hall⟩ := toList_toString_nat n
      have htext : (UserValue.int (Int.ofNat n)).toSqlLiteral.toList = d :: ds := by
        rw [← hds]
        rfl
      rw [htext, cons_append, takeScalar_digit (hall d mem_cons_self),
        ← cons_append, takeNumber_append hall h]
      simp [isPlain]
    | negSucc =>
      rw [toList_negSucc]
      rfl
  | float value =>
    cases value with
    | nan => rfl
    | infinite negative => cases negative <;> rfl
    | finite negative whole fraction =>
      obtain ⟨d, ds, hds, hall⟩ := toList_toString_nat whole
      cases negative with
      | true =>
        rw [toList_negative]
        rfl
      | false =>
        rw [toList_finite fraction hds, cons_append, cons_append,
          takeScalar_digit (hall d mem_cons_self), ← cons_append, ← cons_append,
          append_assoc]
        cases fraction with
        | nil =>
          rw [show (if ([] : List (Fin 10)).isEmpty then "" else "." ++ digits []).toList ++ rest =
            rest from rfl, takeNumber_append hall h]
          rfl
        | cons d' fraction =>
          obtain ⟨hall', hne⟩ := toList_digits (d' :: fraction)
          have hnumber := takeNumber_decimal hall hall' (hne (cons_ne_nil _ _)) h
          simpa [isPlain] using hnumber
  | text value | timestamp value => exact takeScalar_sqlString value h
  | uuid value => exact takeScalar_sqlString (normalizeOrRaw value) h
  | jsonb value => exact takeScalar_sqlString value.render h
  | enum value => exact takeScalar_sqlString value h

end UserValue

end Scalars

section Arrays
namespace UserValue

/-- Passing the text gives what follows it, unless the value is not plain or the fuel runs out. -/
def Passes (plain : Bool) (fuel : ℕ) (text : List Char) (result : Option (List Char))
    (rest : List Char) : Prop :=
  (plain = true ∧ result = some rest) ∨ (result = none ∧ (plain = true → fuel < text.length))

def moreText : List UserValue → List Char
  | [] => [']']
  | item :: items => ',' :: ' ' :: (item.toSqlLiteral.toList ++ moreText items)

theorem ends_moreText (items rest) : Ends (moreText items ++ rest) := by
  intro c hc
  cases items with
  | nil =>
    cases hc
    exact .inr rfl
  | cons =>
    cases hc
    exact .inl rfl

theorem toList_toSqlLiterals (item : UserValue) (items : List UserValue) :
    (String.intercalate ", " (toSqlLiterals (item :: items)) ++ "]").toList =
      item.toSqlLiteral.toList ++ moreText items := by
  induction items generalizing item with
  | nil => simp [toSqlLiterals, moreText]
  | cons next items ih =>
    rw [toSqlLiterals, toSqlLiterals, String.intercalate_cons_cons, ← toSqlLiterals,
      String.append_assoc, String.toList_append, ih, String.toList_append, append_assoc]
    rfl

theorem toList_toSqlLiteral_list (items : List UserValue) : (toSqlLiteral (.list items)).toList =
      arrayOpen ++ (String.intercalate ", " (toSqlLiterals items) ++ "]").toList := by
  rw [toSqlLiteral, String.append_assoc, String.toList_append]
  rfl

theorem head_toSqlLiteral {v : UserValue} (hv : v.isList = false) :
    ∃ c text, v.toSqlLiteral.toList = c :: text ∧ c ∉ ['A', ']'] := by
  have hdigit : ∀ c : Char, c.isDigit = true → c ∉ ['A', ']'] := by
    intro c hc hmem
    simp only [mem_cons, not_mem_nil, or_false] at hmem
    rcases hmem with rfl | rfl <;> revert hc <;> decide
  have hstr : ∀ s : String, ∃ c text, (sqlString s).toList = c :: text ∧ c ∉ ['A', ']'] := by
    intro s
    exact ⟨quoteChar, _, by simp [sqlString]; rfl, by decide⟩
  cases v with
  | list => cases hv
  | bool value => cases value <;> exact ⟨_, _, rfl, by decide⟩
  | null => exact ⟨_, _, rfl, by decide⟩
  | int value =>
    cases value with
    | ofNat n =>
      obtain ⟨d, ds, hds, hall⟩ := toList_toString_nat n
      exact ⟨d, ds, hds, hdigit d (hall d mem_cons_self)⟩
    | negSucc n => exact ⟨'-', _, toList_negSucc n, by decide⟩
  | float value =>
    cases value with
    | nan => exact ⟨_, _, rfl, by decide⟩
    | infinite negative => cases negative <;> exact ⟨_, _, rfl, by decide⟩
    | finite negative whole fraction =>
      cases negative with
      | true => exact ⟨'-', _, toList_negative whole fraction, by decide⟩
      | false =>
        obtain ⟨d, ds, hds, hall⟩ := toList_toString_nat whole
        exact ⟨d, _, toList_finite fraction hds, hdigit d (hall d mem_cons_self)⟩
  | text value | timestamp value => exact hstr value
  | uuid value => exact hstr (normalizeOrRaw value)
  | jsonb value => exact hstr value.render
  | enum value => exact hstr value

variable (v : UserValue)

theorem isList_iff : v.isList = false ∨ ∃ items, v = .list items := by
  cases v <;> simp [isList]

theorem not_arrayOpen {v : UserValue} (hv : v.isList = false) (rest) :
    ¬ arrayOpen <+: v.toSqlLiteral.toList ++ rest := by
  obtain ⟨c, text, htext, hc⟩ := head_toSqlLiteral hv
  rintro ⟨tail, htail⟩
  rw [htext] at htail
  have hhead : 'A' = c := (cons.inj htail).1
  exact hc (by simp [← hhead])

theorem not_closed (rest : List Char) : ¬ [']'] <+: v.toSqlLiteral.toList ++ rest := by
  rintro ⟨tail, htail⟩
  rcases isList_iff v with hv | ⟨items, rfl⟩
  · obtain ⟨c, text, htext, hc⟩ := head_toSqlLiteral hv
    rw [htext] at htail
    have hhead : ']' = c := (cons.inj htail).1
    exact hc (by simp [← hhead])
  · rw [toList_toSqlLiteral_list] at htail
    have hhead : ']' = 'A' := (cons.inj htail).1
    revert hhead
    decide

theorem takeMore_close (fuel : ℕ) (rest : List Char) :
    takeMore (fuel + 1) (']' :: rest) = some rest := by
  rfl

theorem takeMore_comma (fuel : ℕ) (text : List Char) :
    takeMore (fuel + 1) (',' :: ' ' :: text) = (takeLiteral fuel text).bind (takeMore fuel) := by
  rfl

theorem takeLiteral_array (fuel : ℕ) (text) :
    takeLiteral (fuel + 1) (arrayOpen ++ text) = takeElements fuel text := by
  rw [takeLiteral, if_pos (prefix_append _ _), drop_left]

variable {text rest : List Char}

theorem Passes.bind (h : Passes plain fuel text result (text' ++ rest))
    (h' : Passes plain' fuel text' (cont (text' ++ rest)) rest) :
    Passes (plain && plain') fuel (text ++ text') (result.bind cont) rest := by
  rcases h with ⟨hplain, rfl⟩ | ⟨rfl, hshort⟩
  · rcases h' with ⟨hplain', hnext⟩ | ⟨hnext, hshort'⟩
    · exact .inl ⟨by simp [hplain, hplain'], hnext⟩
    · refine .inr ⟨hnext, fun hboth => ?_⟩
      rw [Bool.and_eq_true] at hboth
      have := hshort' hboth.2
      rw [length_append]
      omega
  · refine .inr ⟨rfl, fun hboth => ?_⟩
    rw [Bool.and_eq_true] at hboth
    have := hshort hboth.1
    rw [length_append]
    omega

theorem Passes.longer (h : Passes plain fuel text result rest)
    (hlen : fuel' + text.length ≤ fuel + text'.length) : Passes plain fuel' text' result rest := by
  rcases h with h | ⟨hnone, hshort⟩
  · exact .inl h
  · refine .inr ⟨hnone, fun hplain => ?_⟩
    have := hshort hplain
    omega

theorem Passes.out_of_fuel (plain : Bool) (rest) (h : text ≠ []) : Passes plain 0 text none rest :=
  .inr ⟨rfl, fun _ => length_pos_of_ne_nil h⟩

theorem takeElements_cons (item : UserValue) (items) (fuel : ℕ) (rest) :
    takeElements (fuel + 1) (item.toSqlLiteral.toList ++ moreText items ++ rest) =
      (takeLiteral fuel (item.toSqlLiteral.toList ++ (moreText items ++ rest))).bind
        (takeMore fuel) := by
  rw [append_assoc, takeElements, if_neg (not_closed item _)]

theorem toSqlLiteral_ne_nil : v.toSqlLiteral.toList ≠ [] := by
  rcases isList_iff v with hv | ⟨items, rfl⟩
  · obtain ⟨c, text, htext, -⟩ := head_toSqlLiteral hv
    rw [htext]
    exact cons_ne_nil _ _
  · rw [toList_toSqlLiteral_list]
    exact cons_ne_nil _ _

theorem takeLiteral_scalar_passes {v : UserValue} (hv : v.isList = false) (fuel : ℕ)
    (h : Ends rest) : Passes v.isPlain fuel v.toSqlLiteral.toList
      (takeLiteral fuel (v.toSqlLiteral.toList ++ rest)) rest := by
  cases fuel with
  | zero => exact .out_of_fuel _ _ (toSqlLiteral_ne_nil v)
  | succ =>
    rw [takeLiteral, if_neg (not_arrayOpen hv rest), takeScalar_toSqlLiteral hv h]
    cases hplain : v.isPlain with
    | true => exact .inl ⟨rfl, rfl⟩
    | false => exact .inr ⟨rfl, nofun⟩

mutual
/-- A literal followed by the end of an element is passed exactly when the value is plain. -/
theorem takeLiteral_passes (v : UserValue) (fuel : ℕ) {rest : List Char} (h : Ends rest) :
    Passes v.isPlain fuel v.toSqlLiteral.toList
      (takeLiteral fuel (v.toSqlLiteral.toList ++ rest)) rest := by
  match v with
  | .list [] =>
    cases fuel with
    | zero => exact .out_of_fuel _ _ (toSqlLiteral_ne_nil _)
    | succ fuel =>
      cases fuel with
      | zero => exact .inr ⟨rfl, fun _ => by decide⟩
      | succ => exact .inl ⟨rfl, rfl⟩
  | .list (item :: items) =>
    rw [toList_toSqlLiteral_list, toList_toSqlLiterals]
    cases fuel with
    | zero => exact .out_of_fuel _ _ (cons_ne_nil _ _)
    | succ fuel =>
      rw [append_assoc arrayOpen, takeLiteral_array]
      cases fuel with
      | zero => exact .inr ⟨rfl, fun _ => by simp [arrayOpen]⟩
      | succ fuel =>
        rw [takeElements_cons]
        have hitem := takeLiteral_passes item fuel (ends_moreText items rest)
        refine (hitem.bind (takeMore_passes items fuel rest)).longer ?_
        have hopen : arrayOpen.length = 6 := rfl
        simp only [length_append, hopen]
        omega
  | .bool value | .int value | .float value | .text value | .timestamp value | .uuid value
  | .jsonb value | .enum value | .null => exact takeLiteral_scalar_passes rfl fuel h

theorem takeMore_passes (items : List UserValue) (fuel : ℕ) (rest : List Char) :
    Passes (allPlain items) fuel (moreText items)
      (takeMore fuel (moreText items ++ rest)) rest := by
  match items with
  | [] =>
    cases fuel with
    | zero => exact .out_of_fuel _ _ (cons_ne_nil _ _)
    | succ fuel => exact .inl ⟨rfl, takeMore_close fuel rest⟩
  | item :: items =>
    cases fuel with
    | zero => exact .out_of_fuel _ _ (cons_ne_nil _ _)
    | succ fuel =>
      have hitem := takeLiteral_passes item fuel (ends_moreText items rest)
      have hboth := hitem.bind (takeMore_passes items fuel rest)
      rw [moreText, cons_append, cons_append, takeMore_comma, append_assoc]
      refine hboth.longer ?_
      simp only [length_cons]
      omega
end

/-- Values are rendered as one literal exactly when no number in them is signed or not finite. -/
theorem oneLiteral_iff : OneLiteral v.toSqlLiteral ↔ v.isPlain = true := by
  have hends : Ends [] := fun c hc => by cases hc
  have hpass := takeLiteral_passes v v.toSqlLiteral.toList.length hends
  rw [append_nil] at hpass
  rcases hpass with ⟨hplain, hall⟩ | ⟨hnone, hshort⟩
  · exact ⟨fun _ => hplain, fun _ => hall⟩
  · constructor
    · intro hone
      simp [OneLiteral, hnone] at hone
    · intro hplain
      exact absurd (hshort hplain) (lt_irrefl _)

end UserValue
end Arrays

end Palimpsest.Permissions
