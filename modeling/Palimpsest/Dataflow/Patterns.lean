import Palimpsest.Dataflow.Evaluator

/-! `LIKE` and `ILIKE` as the evaluator decides them. -/
namespace Palimpsest.Dataflow
open Wildcard List

/-- The matcher's loop comes to an end, and its answer is whether the pattern as written matches the
whole text. -/
theorem likeMatch_decides (subject pattern : String) (escape : Option Char) :
    (∃ passes, run (pushTokens escape [] pattern.toList) subject.toList passes .start =
      some (likeMatch subject pattern escape)) ∧ (likeMatch subject pattern escape = true ↔
      Matches (likePattern escape pattern.toList) subject.toList) := by
  refine ⟨?_, likeMatch_iff subject pattern escape⟩
  obtain ⟨answer, hrun, -⟩ := inv_start.run _
    (Nat.lt_succ_self (budget (pushTokens escape [] pattern.toList) subject.toList .start))
  refine ⟨_, hrun.trans ?_⟩
  simp [likeMatch, search, hrun]

section
variable (P : Primitives)

def folded (c : Char) : String := P.toLowercase (String.singleton c)

/-- `ILIKE` as SQL has it: the pattern is split as for `LIKE`, and literals are compared up to
letter case. -/
def IlikeMatches (escape : Option Char) (pattern subject : String) : Prop :=
  Matches ((likePattern escape pattern.toList).map (Token.map (folded P)))
    (subject.toList.map (folded P))

def lowered (c : Char) : Char := (folded P c).toList.headD c

/-- Lower case of the text goes character by character, and every character stays one. -/
structure LowersPlainly (text : String) : Prop where
  characters : (P.toLowercase text).toList = text.toList.map (lowered P)
  single : ∀ c ∈ text.toList, folded P c = String.singleton (lowered P c)

/-- No character of the pattern becomes a wildcard or the escape by its lower case, and none that is
one ceases to be. -/
def KeepsSpecial (escape : Option Char) (pattern : String) : Prop :=
  ∀ c ∈ pattern.toList, (some (lowered P c) = escape ↔ some c = escape) ∧
    (lowered P c = '%' ↔ c = '%') ∧ (lowered P c = '_' ↔ c = '_')

variable {P}

theorem likePattern_lowered (hsingle : ∀ c ∈ pattern, folded P c = String.singleton (lowered P c))
    (hkeep : ∀ c ∈ pattern, (some (lowered P c) = escape ↔ some c = escape) ∧
      (lowered P c = '%' ↔ c = '%') ∧ (lowered P c = '_' ↔ c = '_')) :
    (likePattern escape (pattern.map (lowered P))).map (Token.map String.singleton) =
      (likePattern escape pattern).map (Token.map (folded P)) := by
  fun_induction likePattern escape pattern with
  | case1 => rfl
  | case2 c hc escaped rest ih =>
    rw [forall_mem_cons, forall_mem_cons] at hsingle hkeep
    simp [likePattern, hkeep.1.1.mpr hc, Token.map, hsingle.2.1, ih hsingle.2.2 hkeep.2.2]
  | case3 c hc =>
    rw [forall_mem_cons] at hsingle hkeep
    simp [likePattern, hkeep.1.1.mpr hc, Token.map, hsingle.1]
  | case4 rest hc ih =>
    rw [forall_mem_cons] at hsingle hkeep
    simp [likePattern_unescaped hc, hkeep.1.2.1.mpr rfl, Token.map, ih hsingle.2 hkeep.2]
  | case5 rest hc hrun ih =>
    rw [forall_mem_cons] at hsingle hkeep
    simp [likePattern_unescaped hc, hkeep.1.2.2.mpr rfl, Token.map, ih hsingle.2 hkeep.2]
  | case6 c rest hc hrun hone ih =>
    rw [forall_mem_cons] at hsingle hkeep
    have hc' := (not_congr hkeep.1.1).mpr hc
    have hrun' := (not_congr hkeep.1.2.1).mpr hrun
    have hone' := (not_congr hkeep.1.2.2).mpr hone
    simp [likePattern_unescaped hc', hrun', hone', Token.map, hsingle.1, ih hsingle.2 hkeep.2]

/-- `ILIKE` is decided as SQL has it for texts and patterns whose lower case is plain, with an
escape character that letter case does not touch. -/
theorem ilike_decides {escape : Option Char} {pattern subject : String} (negated : Bool)
    (hsubject : LowersPlainly P subject) (hpattern : LowersPlainly P pattern)
    (hkeeps : KeepsSpecial P escape pattern) :
    likeDatum P negated true escape (.text subject) (.text pattern) = .bool (!negated) ↔
      IlikeMatches P escape pattern subject := by
  have hsubject' : subject.toList.map (folded P) =
      (subject.toList.map (lowered P)).map String.singleton := by
    rw [map_map]
    exact map_congr_left hsubject.single
  have hinjective : Function.Injective String.singleton := by
    intro c d h
    simpa using congrArg String.toList h
  have hmatch : likeMatch (P.toLowercase subject) (P.toLowercase pattern) escape = true ↔
      IlikeMatches P escape pattern subject := by
    rw [likeMatch_iff, hsubject.characters, hpattern.characters, IlikeMatches, hsubject',
      ← likePattern_lowered hpattern.single hkeeps, matches_map hinjective]
  rw [← hmatch, likeDatum]
  cases negated <;> simp

end

def asciiCase : Primitives :=
  { plainPrimitives with toLowercase := fun s => String.ofList (s.toList.map Char.toLower) }

theorem ilike_letters :
    likeDatum asciiCase false true (some '\\') (.text "Ab") (.text "a_") = .bool true :=
  (ilike_decides false ⟨by decide +kernel, by simp [folded, lowered, asciiCase]⟩
    ⟨by decide +kernel, by simp [folded, lowered, asciiCase]⟩
    (by simp [KeepsSpecial, folded, lowered, asciiCase])).mpr
      ((search_iff ..).mp (by decide +kernel))

/-- `'a_' ILIKE 'aX_' ESCAPE 'X'`: no character of the lowered pattern is the escape. -/
theorem upper_escape_lost :
    (likeDatum asciiCase false true (some 'X') (.text "a_") (.text "aX_")).isTrue = false ∧
      IlikeMatches asciiCase (some 'X') "aX_" "a_" :=
  ⟨by decide +kernel, (search_iff ..).mp (by decide +kernel)⟩

end Palimpsest.Dataflow
