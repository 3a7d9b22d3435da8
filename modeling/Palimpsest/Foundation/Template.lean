import Palimpsest.Foundation.Text

/-! Texts with references to named values. A template is a sequence of characters and references;
filling it puts a text in the place of each reference. References travel as text between a pair of
delimiters, and reading them back can go wrong. -/
namespace Template
open TextSearch List

variable {α : Type*}

inductive Item (α : Type*) where
  | raw (c : α)
  | ref (field : List α)
deriving DecidableEq

section Fill

def Item.fill (value : List α → List α) : Item α → List α
  | .raw c => [c]
  | .ref field => value field

def fill (value : List α → List α) (items : List (Item α)) : List α :=
  items.flatMap (Item.fill value)

/-- Filling from a partial assignment, which fails at the first reference without a value. -/
def fill? (value : List α → Option (List α)) : List (Item α) → Option (List α)
  | [] => some []
  | .raw c :: items => (fill? value items).map (c :: ·)
  | .ref field :: items => (value field).bind fun v => (fill? value items).map (v ++ ·)

def refs (items : List (Item α)) : List (List α) :=
  items.filterMap fun
    | .raw _ => none
    | .ref field => some field

variable {value value' : List α → List α} {items : List (Item α)}

@[simp]
theorem fill_nil : fill value [] = [] := rfl

@[simp]
theorem fill_raw (c : α) : fill value (.raw c :: items) = c :: fill value items := rfl

@[simp]
theorem fill_ref (field) : fill value (.ref field :: items) = value field ++ fill value items := rfl

@[simp]
theorem fill_append : fill value (items ++ items') = fill value items ++ fill value items' :=
  flatMap_append

@[simp]
theorem fill_map_raw (s) : fill value (s.map .raw) = s := by
  induction s with
  | nil => rfl
  | cons c s ih => rw [map_cons, fill_raw, ih]

@[simp]
theorem refs_raw (c : α) : refs (.raw c :: items) = refs items := rfl

@[simp]
theorem refs_ref (field) : refs (.ref field :: items) = field :: refs items := rfl

@[simp]
theorem refs_map_raw_append (s : List α) : refs (s.map .raw ++ items) = refs items := by
  induction s with
  | nil => rfl
  | cons c s ih => exact ih

theorem fill_congr (h : ∀ field ∈ refs items, value field = value' field) :
    fill value items = fill value' items := by
  induction items with
  | nil => rfl
  | cons item items ih =>
    cases item with
    | raw => rw [fill_raw, fill_raw, ih h]
    | ref =>
      rw [refs_ref, forall_mem_cons] at h
      rw [fill_ref, fill_ref, h.1, ih h.2]

theorem fill?_eq_some {value : List α → Option (List α)} :
    fill? value items = some out ↔ (∀ field ∈ refs items, (value field).isSome) ∧
      out = fill (fun field => (value field).getD []) items := by
  induction items generalizing out with
  | nil =>
    constructor
    · rintro ⟨⟩
      exact ⟨fun _ h => (by cases h), rfl⟩
    · rintro ⟨-, rfl⟩
      rfl
  | cons item items ih =>
    cases item with
    | raw =>
      rw [fill?, Option.map_eq_some_iff]
      constructor
      · rintro ⟨rest, hrest, rfl⟩
        obtain ⟨hbound, rfl⟩ := ih.mp hrest
        exact ⟨hbound, rfl⟩
      · rintro ⟨hbound, rfl⟩
        exact ⟨_, ih.mpr ⟨hbound, rfl⟩, rfl⟩
    | ref field =>
      rw [fill?, refs_ref, forall_mem_cons, fill_ref]
      cases hval : value field with
      | none => simp
      | some =>
        rw [Option.bind_some, Option.map_eq_some_iff]
        grind

@[simp]
theorem fill?_map_raw_append (value : List α → Option (List α)) (s items) :
    fill? value (s.map .raw ++ items) = (fill? value items).map (s ++ ·) := by
  induction s with
  | nil => simp
  | cons c s ih =>
    rw [map_cons, cons_append, fill?, ih, Option.map_map]
    rfl

@[simp]
theorem fill?_map_raw (value : List α → Option (List α)) (s) :
    fill? value (s.map .raw) = some s := by
  have h := fill?_map_raw_append value s []
  simpa [fill?] using h

variable (h : ∀ field ∈ refs items, (value field).length ≤ (value' field).length)
include h

theorem length_fill_le : (fill value items).length ≤ (fill value' items).length := by
  induction items with
  | nil => exact le_rfl
  | cons item items ih =>
    cases item with
    | raw => simpa using ih h
    | ref =>
      rw [refs_ref, forall_mem_cons] at h
      rw [fill_ref, fill_ref, length_append, length_append]
      exact Nat.add_le_add h.1 (ih h.2)

theorem length_fill_lt (hfield : field ∈ refs items)
    (hlt : (value field).length < (value' field).length) :
    (fill value items).length < (fill value' items).length := by
  induction items with
  | nil => cases hfield
  | cons item items ih =>
    cases item with
    | raw => simpa using ih h hfield
    | ref =>
      rw [refs_ref, forall_mem_cons] at h
      rw [fill_ref, fill_ref, length_append, length_append]
      rw [refs_ref, mem_cons] at hfield
      rcases hfield with rfl | hrest
      · exact Nat.add_lt_add_of_lt_of_le hlt (length_fill_le h.2)
      · exact Nat.add_lt_add_of_le_of_lt h.1 (ih h.2 hrest)

omit h

theorem map_raw_append_ref_inj {prev : List α}
    (h : prev.map Item.raw ++ .ref field :: rest = run.map Item.raw ++ .ref field' :: items) :
    prev = run ∧ field = field' ∧ rest = items := by
  induction prev generalizing run with
  | nil =>
    cases run with
    | nil => simpa using h
    | cons => simp at h
  | cons c prev ih =>
    cases run with
    | nil => simp at h
    | cons =>
      simp only [map_cons, cons_append, cons.injEq, Item.raw.injEq] at h
      obtain ⟨hwas, hfield, hrest⟩ := ih h.2
      exact ⟨by rw [h.1, hwas], hfield, hrest⟩

variable [DecidableEq α]

/-- An assignment that tells `marked` from every other name. -/
def telling (a b : α) (marked : List α) : List α → List α :=
  fun field => if field = marked then [a] else [b]

/-- A template is determined by what filling it gives. -/
theorem eq_of_fill_eq (hab : a ≠ b)
    (h : ∀ marked, fill (telling a b marked) items = fill (telling a b marked) items') :
    items = items' := by
  induction items generalizing items' with
  | nil =>
    cases items' with
    | nil => rfl
    | cons item' =>
      have hempty := congrArg length (h [])
      cases item' with
      | raw => simp at hempty
      | ref field => by_cases hfield : field = [] <;> simp [telling, hfield] at hempty
  | cons item items ih =>
    cases items' with
    | nil =>
      have hempty := congrArg length (h [])
      cases item with
      | raw => simp at hempty
      | ref field => by_cases hfield : field = [] <;> simp [telling, hfield] at hempty
    | cons item' =>
      cases item with
      | raw c =>
        cases item' with
        | raw c' =>
          have hhead : c = c' := by simpa using congrArg head? (h [])
          subst hhead
          rw [ih fun marked => by simpa using h marked]
        | ref field' =>
          have hmarked : c = a := by simpa [telling] using congrArg head? (h field')
          have hother : c = b := by simpa [telling] using congrArg head? (h (a :: field'))
          exact absurd (hmarked.symm.trans hother) hab
      | ref field =>
        cases item' with
        | raw c' =>
          have hmarked : a = c' := by simpa [telling] using congrArg head? (h field)
          have hother : b = c' := by simpa [telling] using congrArg head? (h (a :: field))
          exact absurd (hmarked.trans hother.symm) hab
        | ref field' =>
          have hfield : field' = field := by
            by_contra hne
            have hhead : a = b := by simpa [telling, hne] using congrArg head? (h field)
            exact hab hhead
          subst hfield
          rw [ih fun marked => by simpa using h marked]

end Fill

section Sentinels
variable [DecidableEq α] (pre suf : List α)

def encode (items : List (Item α)) : List α := fill (fun field => pre ++ field ++ suf) items

def parse : ℕ → List α → Option (List (Item α))
  | 0, s => some (s.map .raw)
  | fuel + 1, s =>
    match cut pre s with
    | none => some (s.map .raw)
    | some (before, after) =>
      match cut suf after with
      | none => none
      | some (field, rest) => (parse fuel rest).map (before.map .raw ++ .ref field :: ·)

variable {items : List (Item α)}

theorem encode_parse (h : parse pre suf fuel s = some items) : encode pre suf items = s := by
  unfold encode
  induction fuel generalizing s items with
  | zero =>
    cases h
    exact fill_map_raw s
  | succ fuel ih =>
    unfold parse at h
    split at h
    · cases h
      exact fill_map_raw s
    next prev after hpre =>
      split at h
      · cases h
      next field rest hsuf =>
        obtain ⟨tail, htail, rfl⟩ := Option.map_eq_some_iff.mp h
        rw [fill_append, fill_ref, ih htail, cut_spec hpre, cut_spec hsuf]
        simp

/-- The delimiters are read back where they were written: nothing before a reference looks like
its start, no name looks like its end, and nothing after the last reference looks like another. -/
def CleanFrom : List α → List (Item α) → Prop
  | run, [] => cut pre run = none
  | run, .raw c :: items => CleanFrom (run ++ [c]) items
  | run, .ref field :: items =>
    cut pre (run ++ pre) = some (run, []) ∧ cut suf (field ++ suf) = some (field, []) ∧
      CleanFrom [] items

def Clean (items : List (Item α)) : Prop := CleanFrom pre suf [] items

instance decidableCleanFrom : (run : List α) → (items : List (Item α)) →
    Decidable (CleanFrom pre suf run items)
  | run, [] => inferInstanceAs (Decidable (cut pre run = none))
  | run, .raw c :: items => decidableCleanFrom (run ++ [c]) items
  | _, .ref _ :: items =>
    have := decidableCleanFrom [] items
    inferInstanceAs (Decidable (_ ∧ _ ∧ _))

instance (items : List (Item α)) : Decidable (Clean pre suf items) :=
  decidableCleanFrom pre suf [] items

variable {pre suf}

theorem parse_encodeFrom_iff (hpre : pre ≠ []) (items run)
    (hfuel : (run ++ encode pre suf items).length ≤ fuel) :
    parse pre suf fuel (run ++ encode pre suf items) = some (run.map .raw ++ items) ↔
      CleanFrom pre suf run items := by
  induction items generalizing run fuel with
  | nil =>
    simp only [encode, fill_nil, append_nil, CleanFrom] at hfuel ⊢
    cases fuel with
    | zero =>
      have hrun : run = [] := eq_nil_of_length_eq_zero (Nat.le_zero.mp hfuel)
      simp [parse, hrun, cut, hpre]
    | succ =>
      unfold parse
      cases hcut : cut pre run with
      | none => simp
      | some split =>
        obtain ⟨prev, after⟩ := split
        simp only [reduceCtorEq, iff_false]
        cases hsuf : cut suf after with
        | none => simp
        | some split' =>
          obtain ⟨field, rest⟩ := split'
          intro h
          obtain ⟨tail, -, heq⟩ := Option.map_eq_some_iff.mp h
          have hmem : Item.ref field ∈ run.map Item.raw := by
            simp [← heq]
          simp at hmem
  | cons item items ih =>
    cases item with
    | raw c =>
      have hshift : run ++ encode pre suf (.raw c :: items) =
          (run ++ [c]) ++ encode pre suf items := by
        simp [encode]
      rw [hshift] at hfuel ⊢
      simp [CleanFrom, ← ih (run ++ [c]) hfuel]
    | ref field =>
      have hshape : run ++ encode pre suf (.ref field :: items) =
          run ++ pre ++ (field ++ suf ++ encode pre suf items) := by
        simp [encode]
      have hpos : 0 < pre.length := length_pos_of_ne_nil hpre
      rw [hshape] at hfuel ⊢
      obtain ⟨fuel, rfl⟩ : ∃ n, fuel = n + 1 := by
        refine Nat.exists_eq_succ_of_ne_zero ?_
        simp only [length_append] at hfuel
        omega
      have hrest : ([] ++ encode pre suf items).length ≤ fuel := by
        simp only [length_append, length_nil] at hfuel ⊢
        omega
      rw [CleanFrom, ← ih [] hrest, ← cut_append_iff (field ++ suf ++ encode pre suf items),
        ← cut_append_iff (encode pre suf items), nil_append]
      constructor
      · intro h
        unfold parse at h
        split at h
        next hnone =>
          have hmem : Item.ref field ∈ run.map Item.raw ++ Item.ref field :: items := by simp
          rw [← Option.some.inj h] at hmem
          simp at hmem
        next prev after hcut =>
          split at h
          · cases h
          next name rest hsuf =>
            obtain ⟨tail, htail, heq⟩ := Option.map_eq_some_iff.mp h
            obtain ⟨rfl, rfl, rfl⟩ := map_raw_append_ref_inj heq
            have hnow : after = name ++ suf ++ encode pre suf tail := by
              have hspec := cut_spec hcut
              exact (append_cancel_left hspec).symm
            subst hnow
            have hrest' : rest = encode pre suf tail := by
              have hspec := cut_spec hsuf
              exact (append_cancel_left hspec).symm
            subst hrest'
            exact ⟨hcut, hsuf, htail⟩
      · rintro ⟨hcut, hsuf, htail⟩
        rw [parse, hcut]
        dsimp only
        rw [hsuf]
        dsimp only
        simp [htail]

/-- Reading back what was written gives the template exactly when it is clean. -/
theorem parse_encode_iff (hpre : pre ≠ []) (hfuel : (encode pre suf items).length ≤ fuel) :
    parse pre suf fuel (encode pre suf items) = some items ↔ Clean pre suf items := by
  exact parse_encodeFrom_iff hpre items [] hfuel

theorem CleanFrom.extend (hskip : ∀ s, cut pre (lead ++ (run ++ s)) =
      (cut pre (run ++ s)).map fun p => (lead ++ p.1, p.2)) (h : CleanFrom pre suf run items) :
    CleanFrom pre suf (lead ++ run) items := by
  induction items generalizing run with
  | nil =>
    have hend : cut pre run = none := h
    have hall := hskip []
    rwa [append_nil, hend] at hall
  | cons item items ih =>
    cases item with
    | raw c =>
      have hrest : CleanFrom pre suf (run ++ [c]) items := h
      show CleanFrom pre suf (lead ++ run ++ [c]) items
      rw [append_assoc]
      refine ih (fun s => ?_) hrest
      rw [append_assoc]
      exact hskip ([c] ++ s)
    | ref =>
      obtain ⟨hpre, hsuf, hrest⟩ := h
      refine ⟨?_, hsuf, hrest⟩
      simp [hskip, hpre]

/-- A character that no delimiter contains separates what stands before it from what follows. -/
theorem CleanFrom.append (hc : c ∉ pre) (h : CleanFrom pre suf run items)
    (h' : CleanFrom pre suf [] (.raw c :: rest)) :
    CleanFrom pre suf run (items ++ .raw c :: rest) := by
  induction items generalizing run with
  | nil =>
    have hrun : cut pre run = none := h
    have hrest : CleanFrom pre suf [c] rest := h'
    exact CleanFrom.extend (fun s => cut_append_separated hrun hc s) hrest
  | cons item items ih =>
    cases item with
    | raw => exact ih h
    | ref => exact ⟨h.1, h.2.1, ih h.2.2⟩

theorem Clean.cons_raw (hpre : pre ≠ []) (hc : c ∉ pre) (h : Clean pre suf items) :
    Clean pre suf (.raw c :: items) := by
  show CleanFrom pre suf ([c] ++ []) items
  refine CleanFrom.extend (fun s => ?_) h
  refine cut_cons_skip fun hp => hc ?_
  obtain ⟨d, ds, rfl⟩ := exists_cons_of_ne_nil hpre
  rw [(cons_prefix_cons.mp hp).1]
  exact mem_cons_self

end Sentinels

section Scan

/-- What a scanner knows of the text it has passed, and whether it would see a reference here. -/
structure Lexer (α σ : Type*) where
  next : σ → α → List α → σ
  isOpen : σ → Bool
  afterRef : σ

variable {σ : Type*} (lexer : Lexer α σ) (mark : List α) (word : α → Bool)

def fieldAt (s : List α) : List α := (s.drop mark.length).takeWhile word

theorem drop_fieldAt (s : List α) : s.drop (mark.length + (fieldAt mark word s).length) =
    (s.drop mark.length).dropWhile word := by
  rw [← drop_drop, fieldAt]
  induction s.drop mark.length with
  | nil => rfl
  | cons c rest ih =>
    by_cases hc : word c = true
    · rw [takeWhile_cons_of_pos hc, dropWhile_cons_of_pos hc]
      exact ih
    · simp [takeWhile_cons_of_neg hc, dropWhile_cons_of_neg hc]

variable {s : List α}

theorem exists_passed (h : fieldAt mark word s ≠ []) :
    ∃ n, mark.length + (fieldAt mark word s).length = n + 1 := by
  have hpos := length_pos_of_ne_nil h
  exact ⟨mark.length + (fieldAt mark word s).length - 1, by omega⟩

theorem takeWhile_maximal {field : List α} (hword : ∀ c ∈ field, word c = true)
    (hrest : ∀ c, rest.head? = some c → word c = false) :
    (field ++ rest).takeWhile word = field := by
  rw [takeWhile_append_of_pos hword]
  cases rest with
  | nil => simp
  | cons c => simp [hrest c rfl]

theorem fieldAt_append (h : mark <+: s) :
    mark ++ (fieldAt mark word s ++ s.drop (mark.length + (fieldAt mark word s).length)) = s := by
  rw [drop_fieldAt, fieldAt, takeWhile_append_dropWhile]
  exact (prefix_iff_eq_append.mp h)

/-- Names are as long as they can be. -/
def Maximal : List (Item α) → Prop
  | [] => True
  | .raw _ :: items => Maximal items
  | .ref field :: items => field ≠ [] ∧ (∀ c ∈ field, word c = true) ∧
      (∀ c, (fill (mark ++ ·) items).head? = some c → word c = false) ∧ Maximal items

/-- Two ways of reading one text agree if they are also written alike. -/
theorem eq_of_encode_eq {mark : List α} (hmark : m ≠ p) (h : Maximal (m :: mark) word items)
    (h' : Maximal (m :: mark) word items')
    (htext : fill (m :: mark ++ ·) items = fill (m :: mark ++ ·) items')
    (hcode : encode (p :: pre) suf items = encode (p :: pre) suf items') : items = items' := by
  induction items generalizing items' with
  | nil =>
    cases items' with
    | nil => rfl
    | cons item => cases item <;> simp at htext
  | cons item items ih =>
    cases items' with
    | nil => cases item <;> simp at htext
    | cons item' items' =>
      cases item with
      | raw =>
        cases item' with
        | raw =>
          simp only [fill_raw, cons.injEq] at htext
          simp only [encode, fill_raw, cons.injEq] at hcode
          have hrest : Maximal (m :: mark) word items := h
          have hrest' : Maximal (m :: mark) word items' := h'
          rw [htext.1, ih hrest hrest' htext.2 hcode.2]
        | ref =>
          simp only [fill_raw, fill_ref, cons_append, cons.injEq] at htext
          simp only [encode, fill_raw, fill_ref, cons_append, cons.injEq] at hcode
          exact absurd (htext.1.symm.trans hcode.1) hmark
      | ref field =>
        cases item' with
        | raw =>
          simp only [fill_raw, fill_ref, cons_append, cons.injEq] at htext
          simp only [encode, fill_raw, fill_ref, cons_append, cons.injEq] at hcode
          exact absurd (htext.1.trans hcode.1.symm) hmark
        | ref field' =>
          obtain ⟨-, hword, hnext, hrest⟩ := h
          obtain ⟨-, hword', hnext', hrest'⟩ := h'
          rw [fill_ref, fill_ref, append_assoc, append_assoc, append_cancel_left_eq] at htext
          have hfield : field = field' := by
            rw [← takeWhile_maximal word hword hnext, htext, takeWhile_maximal word hword' hnext']
          subst hfield
          rw [append_cancel_left_eq] at htext
          simp only [encode, fill_ref, append_cancel_left_eq] at hcode
          rw [ih hrest hrest' htext hcode]

variable [DecidableEq α]

/-- Splits a text into characters and marked names; the first argument counts the characters that
belong to the last reference and are still to be passed. -/
def scan : ℕ → σ → List α → List (Item α)
  | _, _, [] => []
  | k + 1, state, _ :: s => scan k state s
  | 0, state, c :: s =>
    if lexer.isOpen state ∧ mark <+: c :: s ∧ fieldAt mark word (c :: s) ≠ [] then
      .ref (fieldAt mark word (c :: s)) ::
        scan (mark.length + (fieldAt mark word (c :: s)).length - 1) lexer.afterRef s
    else .raw c :: scan 0 (lexer.next state c s) s

variable {lexer mark word} in
theorem scan_raw {state : σ} {c : α}
    (h : ¬ (lexer.isOpen state ∧ mark <+: c :: s ∧ fieldAt mark word (c :: s) ≠ [])) :
    scan lexer mark word 0 state (c :: s) =
      .raw c :: scan lexer mark word 0 (lexer.next state c s) s := by
  conv_lhs => unfold scan
  exact if_neg h

theorem scan_skip (k : ℕ) (state : σ) (s) :
    scan lexer mark word k state s = scan lexer mark word 0 state (s.drop k) := by
  induction s generalizing k with
  | nil => simp [scan]
  | cons c s ih =>
    cases k with
    | zero => rfl
    | succ => rw [scan, ih, drop_succ_cons]

variable {lexer mark word} in
theorem scan_ref {state : σ} {c : α} (hopen : lexer.isOpen state)
    (hmark : mark <+: c :: s) (hfield : fieldAt mark word (c :: s) ≠ []) :
    scan lexer mark word 0 state (c :: s) = .ref (fieldAt mark word (c :: s)) ::
      scan lexer mark word 0 lexer.afterRef
        ((c :: s).drop (mark.length + (fieldAt mark word (c :: s)).length)) := by
  obtain ⟨n, hn⟩ := exists_passed mark word hfield
  conv_lhs => unfold scan
  rw [hn, drop_succ_cons, ← scan_skip]
  exact if_pos ⟨hopen, hmark, hfield⟩

theorem fill_scan (k : ℕ) (state : σ) (s) :
    fill (mark ++ ·) (scan lexer mark word k state s) = s.drop k := by
  induction s generalizing k state with
  | nil => simp [scan]
  | cons c s ih =>
    cases k with
    | succ => rw [scan, ih, drop_succ_cons]
    | zero =>
      unfold scan
      split
      next h =>
        obtain ⟨n, hn⟩ := exists_passed mark word h.2.2
        have hwh := fieldAt_append mark word h.2.1
        rw [hn, drop_succ_cons] at hwh
        rw [fill_ref, ih, hn, Nat.add_sub_cancel, append_assoc, hwh, drop_zero]
      next => rw [fill_raw, ih, drop_zero, drop_zero]

theorem scan_maximal (k : ℕ) (state : σ) (s) :
    Maximal mark word (scan lexer mark word k state s) := by
  induction s generalizing k state with
  | nil => trivial
  | cons c s ih =>
    cases k with
    | succ k => exact ih k state
    | zero =>
      unfold scan
      split
      next h =>
        refine ⟨h.2.2, fun c hc => mem_takeWhile_imp hc, ?_, ih _ _⟩
        intro next hnext
        obtain ⟨n, hn⟩ := exists_passed mark word h.2.2
        have hrest := drop_fieldAt mark word (c :: s)
        rw [hn, drop_succ_cons] at hrest
        rw [fill_scan, hn, Nat.add_sub_cancel, hrest] at hnext
        have hhead := head?_dropWhile_not word ((c :: s).drop mark.length)
        rw [hnext] at hhead
        simpa using hhead
      next => exact ih _ _

end Scan

end Template
