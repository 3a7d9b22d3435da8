import Palimpsest.Foundation.Template
import Palimpsest.Permissions.Rule

/-! `$user` references travel through SQL as sentinel identifiers and are replaced by literals. -/
namespace Palimpsest.Permissions
open TextSearch

def userPlaceholderPrefix : List Char := "__palimpsest_user_".toList

def userPlaceholderSuffix : List Char := "__".toList

/-- The replacement loop; `fuel` bounds the number of sentinels. -/
def materializeFrom (literal : List Char → Option (List Char)) :
    ℕ → List Char → Except PermissionError (List Char)
  | 0, remaining => .ok remaining
  | fuel + 1, remaining =>
    match cut userPlaceholderPrefix remaining with
    | none => .ok remaining
    | some (before, afterPrefix) =>
      match cut userPlaceholderSuffix afterPrefix with
      | none => .error (.malformedUserReference ""
          (String.ofList (userPlaceholderPrefix ++ afterPrefix)))
      | some (field, rest) =>
        match literal field with
        | none => .error (.missingUserValue (String.ofList field))
        | some value => (materializeFrom literal fuel rest).map (before ++ value ++ ·)

/-- The loop reads the sentinels back and fills the references it finds. -/
theorem materializeFrom_ok_iff : materializeFrom literal fuel remaining = .ok out ↔
      ∃ items, Template.parse userPlaceholderPrefix userPlaceholderSuffix fuel remaining =
        some items ∧ Template.fill? literal items = some out := by
  induction fuel generalizing remaining out with
  | zero => simp [materializeFrom, Template.parse]
  | succ fuel ih =>
    unfold materializeFrom Template.parse
    cases cut userPlaceholderPrefix remaining with
    | none => simp
    | some split =>
      obtain ⟨prev, afterPrefix⟩ := split
      dsimp only
      cases cut userPlaceholderSuffix afterPrefix with
      | none => simp
      | some split' =>
        obtain ⟨field, rest⟩ := split'
        simp only [Option.map_eq_some_iff, exists_exists_and_eq_and,
          Template.fill?_map_raw_append, Template.fill?]
        cases literal field with
        | none => simp
        | some =>
          dsimp only
          constructor
          · intro h
            cases hrest : materializeFrom literal fuel rest with
            | error =>
              rw [hrest] at h
              cases h
            | ok =>
              rw [hrest] at h
              cases h
              obtain ⟨items, hits, hfill⟩ := ih.mp hrest
              exact ⟨items, hits, _, by rw [hfill]; rfl, by simp⟩
          · rintro ⟨items, hits, _, hfill, rfl⟩
            rw [Option.bind_some, Option.map_eq_some_iff] at hfill
            obtain ⟨tail, htail, rfl⟩ := hfill
            rw [ih.mpr ⟨items, hits, htail⟩, Except.map, List.append_assoc]

def UserContext.literal (c : UserContext) (field : List Char) : Option (List Char) :=
  (c.get (String.ofList field)).map fun v => v.toSqlLiteral.toList

namespace CompiledPredicate

def isTautology (p : CompiledPredicate) : Bool :=
  Text.eqIgnoreAsciiCase (Text.trim p.canonical.toList) "true".toList

/-- Every sentinel consumes characters, so the text's length is enough fuel. -/
def materialize (p : CompiledPredicate) (context : UserContext) : Except PermissionError String :=
  (materializeFrom context.literal p.canonical.toList.length p.canonical.toList).map
    String.ofList

/-- The template that `materialize` fills, unless a sentinel is left open. -/
def template (p : CompiledPredicate) : Option (List (Template.Item Char)) :=
  Template.parse userPlaceholderPrefix userPlaceholderSuffix p.canonical.toList.length
    p.canonical.toList

def references (p : CompiledPredicate) : List (List Char) :=
  (p.template.map Template.refs).getD []

variable {p : CompiledPredicate}

theorem materialize_ok_iff : p.materialize ctx = .ok text ↔ ∃ items, p.template = some items ∧
      Template.fill? ctx.literal items = some text.toList := by
  rw [materialize, template, ← materializeFrom_ok_iff]
  cases materializeFrom ctx.literal p.canonical.toList.length p.canonical.toList with
  | error => simp [Except.map]
  | ok =>
    simp only [Except.map, Except.ok.injEq]
    constructor
    · rintro rfl
      exact (String.toList_ofList ..).symm
    · rintro rfl
      exact String.ofList_toList

theorem materialize_congr (h : ∀ field ∈ p.references, ctx.literal field = context'.literal field)
    (htext : p.materialize ctx = .ok text) : p.materialize context' = .ok text := by
  obtain ⟨items, hits, hfill⟩ := materialize_ok_iff.mp htext
  have hrefs : p.references = Template.refs items := by simp [references, hits]
  rw [hrefs] at h
  refine materialize_ok_iff.mpr ⟨items, hits, ?_⟩
  rw [Template.fill?_eq_some] at hfill ⊢
  obtain ⟨hbound, hout⟩ := hfill
  constructor
  · intro field hfield
    rw [← h field hfield]
    exact hbound field hfield
  · rw [hout]
    apply Template.fill_congr
    intro field hfield
    rw [h field hfield]

theorem underscore_not_mem_of_isTautology (h : p.isTautology) : '_' ∉ p.canonical.toList := by
  intro hmem
  rcases Text.mem_trim_or hmem with htrim | hspace
  · have hmap := eq_of_beq h
    have hlower : Char.toLower '_' ∈ "true".toList.map Char.toLower := by
      rw [← hmap]
      exact List.mem_map_of_mem htrim
    revert hlower
    decide
  · revert hspace
    decide

theorem materialize_of_isTautology (h : p.isTautology) (ctx) :
    p.materialize ctx = .ok p.canonical := by
  have hcut : cut userPlaceholderPrefix p.canonical.toList = none :=
    cut_eq_none_of_not_mem (underscore_not_mem_of_isTautology h)
  unfold materialize
  cases p.canonical.toList.length <;> simp [materializeFrom, hcut, Except.map]

end CompiledPredicate

end Palimpsest.Permissions
