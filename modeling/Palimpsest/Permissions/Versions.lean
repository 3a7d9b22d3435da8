import Mathlib.Data.List.Dedup
import Palimpsest.Permissions.Rule

/-! Rule versions over a history of installs. -/
namespace Palimpsest.Permissions
open List Function

/-! The `Debug` text of a compiled rule. -/
section Rendering
open DebugText
variable (printable : Char → Bool)

def Mode.debug : Mode → List Char
  | .rowVisibility => "RowVisibility".toList
  | .subscribe => "Subscribe".toList
  | .both => "Both".toList

def debugLatest : Option LatestBy → List Char
  | none => "None".toList
  | some latest =>
    field "Some(LatestBy \x7b key: " (DebugText.list (string printable) '[' ']' latest.key) <|
    field ", version: " (string printable latest.version) " \x7d)".toList

def CompiledRule.debug (rule : CompiledRule) : String :=
  String.ofList <|
    field "CompiledRule \x7b name: " (string printable rule.name) <|
    field ", table: " (string printable rule.table) <|
    field ", mode: " rule.mode.debug <|
    field ", predicate: CompiledPredicate \x7b canonical: "
      (string printable rule.predicate.canonical) <|
    field ", user_fields: "
      (DebugText.list (string printable) '\x7b' '\x7d' rule.predicate.userFields) <|
    field " \x7d, latest: " (debugLatest printable rule.latest) " \x7d".toList

variable {printable}

theorem mode_selfDelimiting : SelfDelimiting Mode.debug := by
  intro a b rest rest' h
  have hletter : ∀ {c d : Char} {text text'}, c ≠ d → ¬ c :: text = d :: text' := by
    intro c d text text' hne heq
    exact hne (cons.inj heq).1
  cases a <;> cases b <;>
    first | exact ⟨rfl, append_cancel_left h⟩ | exact absurd h (hletter (by decide))

theorem latest_selfDelimiting : SelfDelimiting (debugLatest printable) := by
  have hkey : SelfDelimiting (DebugText.list (string printable) '[' ']') :=
    string_selfDelimiting.list (by decide) fun _ => rfl
  intro a b rest rest' h
  cases a with
  | none =>
    cases b with
    | none => exact ⟨rfl, append_cancel_left h⟩
    | some => simp [debugLatest, field] at h
  | some latest =>
    cases b with
    | none => simp [debugLatest, field] at h
    | some latest' =>
      simp only [debugLatest, field, append_assoc] at h
      obtain ⟨hkeys, htail⟩ := hkey.field h
      obtain ⟨hversion, hend⟩ := string_selfDelimiting.field htail
      obtain ⟨key, version⟩ := latest
      obtain ⟨key', version'⟩ := latest'
      cases hkeys
      cases hversion
      exact ⟨rfl, append_cancel_left hend⟩

theorem debug_injective : Injective (CompiledRule.debug printable) := by
  have hset : SelfDelimiting (DebugText.list (string printable) '\x7b' '\x7d') :=
    string_selfDelimiting.list (by decide) fun _ => rfl
  rintro ⟨name, table, mode, ⟨canonical, fields⟩, latest⟩
    ⟨name', table', mode', ⟨canonical', fields'⟩, latest'⟩ h
  have h := String.ofList_injective h
  obtain ⟨rfl, h⟩ := string_selfDelimiting.field h
  obtain ⟨rfl, h⟩ := string_selfDelimiting.field h
  obtain ⟨rfl, h⟩ := mode_selfDelimiting.field h
  obtain ⟨rfl, h⟩ := string_selfDelimiting.field h
  obtain ⟨rfl, h⟩ := hset.field h
  obtain ⟨rfl, -⟩ := latest_selfDelimiting.field h
  rfl

end Rendering

/-- `RuleVersion::next`, which saturates. -/
def nextVersion (version : ℕ) : ℕ := min (version + 1) (2 ^ 64 - 1)

structure RuleEntry where
  version : ℕ
  canonical : String

structure RuleVersionDelta where
  changed : List String
  removed : List String
  epoch : ℕ

structure RuleVersionTracker where
  epoch : ℕ := 0
  versions : List (String × RuleEntry) := []

namespace RuleVersionTracker
variable (printable : Char → Bool)

def version (tracker : RuleVersionTracker) (name : String) : Option ℕ :=
  (tracker.versions.lookup name).map RuleEntry.version

def unchanged (tracker : RuleVersionTracker) (rule : CompiledRule) : Option RuleEntry :=
  (tracker.versions.lookup rule.name).filter (·.canonical = rule.debug printable)

/-- A name inserted again hides the entry before. -/
def install (tracker : RuleVersionTracker) (rules : List CompiledRule) :
    RuleVersionDelta × RuleVersionTracker :=
  let newEpoch := nextVersion tracker.epoch
  let next := rules.map fun rule =>
    (rule.name, (tracker.unchanged printable rule).getD ⟨newEpoch, rule.debug printable⟩)
  let changed := (rules.filter (tracker.unchanged printable · |>.isNone)).map CompiledRule.name
  let removed := (tracker.versions.map Prod.fst).dedup.filter (· ∉ rules.map CompiledRule.name)
  (⟨changed, removed, newEpoch⟩,
    ⟨if changed = [] ∧ removed = [] then tracker.epoch else newEpoch, next.reverse⟩)

def run (sets : List (List CompiledRule)) : RuleVersionTracker :=
  sets.foldl (fun tracker rules => (tracker.install printable rules).2) {}

variable {printable}

theorem run_concat (sets rules) : run printable (sets ++ [rules]) =
    ((run printable sets).install printable rules).2 :=
  foldl_concat ..

/-- A rule that has an entry is in the set installed last, and the entry is the one it had before or
carries the new epoch. -/
theorem lookup_install {tracker : RuleVersionTracker}
    (h : (tracker.install printable rules).2.versions.lookup name = some entry) :
    (∃ rule ∈ rules, rule.name = name ∧ rule.debug printable = entry.canonical) ∧
      (tracker.versions.lookup name = some entry ∨ entry.version = nextVersion tracker.epoch ∧
        (tracker.install printable rules).2.epoch = nextVersion tracker.epoch) := by
  obtain ⟨prev, after, hsplit, -⟩ := lookup_eq_some_iff.mp h
  have hmem : (name, entry) ∈ (tracker.install printable rules).2.versions := by simp [hsplit]
  obtain ⟨rule, hrule, ⟨⟩⟩ := mem_map.mp (mem_reverse.mp hmem)
  cases hsame : tracker.unchanged printable rule with
  | some existing =>
    obtain ⟨hlookup, htext⟩ := Option.filter_eq_some_iff.mp hsame
    exact ⟨⟨rule, hrule, rfl, (of_decide_eq_true htext).symm⟩, .inl hlookup⟩
  | none =>
    refine ⟨⟨rule, hrule, rfl, rfl⟩, .inr ⟨rfl, if_neg fun hquiet => ?_⟩⟩
    have hnone := filter_eq_nil_iff.mp (map_eq_nil_iff.mp hquiet.1) rule hrule
    simp [hsame] at hnone

variable (printable)

theorem epoch_install (tracker : RuleVersionTracker) (rules) (h : tracker.epoch + 1 < 2 ^ 64) :
    nextVersion tracker.epoch = tracker.epoch + 1 ∧
      tracker.epoch ≤ (tracker.install printable rules).2.epoch ∧
      (tracker.install printable rules).2.epoch ≤ tracker.epoch + 1 := by
  unfold install nextVersion
  grind

theorem run_bounded (sets) (hfew : sets.length < 2 ^ 64) :
    (run printable sets).epoch ≤ sets.length ∧
    ∀ name entry, (run printable sets).versions.lookup name = some entry →
      entry.version ≤ (run printable sets).epoch := by
  induction sets using reverseRecOn with
  | nil => exact ⟨le_rfl, nofun⟩
  | append_singleton sets rules ih =>
    rw [length_append, length_singleton] at hfew ⊢
    obtain ⟨hepoch, hversions⟩ := ih (by lia)
    obtain ⟨hnext, hle, hge⟩ := epoch_install printable (run printable sets) rules (by lia)
    rw [run_concat]
    refine ⟨by lia, fun name entry hentry => ?_⟩
    rcases (lookup_install hentry).2 with hold | ⟨hversion, hnew⟩
    · exact (hversions name entry hold).trans hle
    · exact (hversion.trans hnew.symm).le

/-- The epoch never decreases, and an entry whose version is not above the epoch of the first
observation was there all the while. -/
theorem kept_since (sets later) (hfew : (sets ++ later).length < 2 ^ 64) :
    (run printable sets).epoch ≤ (run printable (sets ++ later)).epoch ∧
      ∀ name entry, (run printable (sets ++ later)).versions.lookup name = some entry →
        entry.version ≤ (run printable sets).epoch →
        (run printable sets).versions.lookup name = some entry ∧
          ∀ rules ∈ later, ∃ rule ∈ rules, rule.name = name ∧
            rule.debug printable = entry.canonical := by
  induction later using reverseRecOn with
  | nil => simp +contextual
  | append_singleton later rules ih =>
    rw [← append_assoc, length_append, length_singleton] at hfew
    rw [← append_assoc, run_concat]
    obtain ⟨hmono, hkept⟩ := ih (by lia)
    have hepoch := (run_bounded printable _ (Nat.lt_of_succ_lt hfew)).1
    obtain ⟨hnext, hle, -⟩ := epoch_install printable (run printable (sets ++ later)) rules (by lia)
    refine ⟨hmono.trans hle, fun name entry hentry hversion => ?_⟩
    obtain ⟨hrule, hold | ⟨hnew, -⟩⟩ := lookup_install hentry
    · obtain ⟨hfirst, hbetween⟩ := hkept name entry hold hversion
      exact ⟨hfirst, forall_mem_append.mpr ⟨hbetween, forall_mem_singleton.mpr hrule⟩⟩
    · lia

/-- A version seen twice is the version of one rule, which was installed all the while. -/
theorem same_version_same_rule (sets later : List (List CompiledRule))
    (hfew : (sets ++ later).length < 2 ^ 64) :
    (run printable sets).epoch ≤ (run printable (sets ++ later)).epoch ∧
      (∀ name version, (run printable sets).version name = some version →
        version ≤ (run printable sets).epoch) ∧
      ∀ name version, (run printable sets).version name = some version →
        (run printable (sets ++ later)).version name = some version →
        ∃ rule, rule.name = name ∧ ∀ rules ∈ sets.getLast?.toList ++ later, rule ∈ rules := by
  have hbounded := (run_bounded printable sets (by grind)).2
  obtain ⟨hmono, hkept⟩ := kept_since printable sets later hfew
  refine ⟨hmono, fun name version hversion => ?_, fun name version hfirst hlast => ?_⟩
  · obtain ⟨entry, hentry, rfl⟩ := Option.map_eq_some_iff.mp hversion
    exact hbounded name entry hentry
  · obtain ⟨entry, hentry, rfl⟩ := Option.map_eq_some_iff.mp hfirst
    obtain ⟨last, hlast, hsame⟩ := Option.map_eq_some_iff.mp hlast
    obtain ⟨hfound, hbetween⟩ := hkept name last hlast (hsame ▸ hbounded name entry hentry)
    rcases eq_nil_or_concat' sets with rfl | ⟨prev, rules, rfl⟩
    · cases hfound
    rw [run_concat] at hfound
    obtain ⟨rule, hrule, hname, htext⟩ := (lookup_install hfound).1
    rw [← htext] at hbetween
    refine ⟨rule, hname, fun rules hrules => ?_⟩
    rw [getLast?_concat] at hrules
    rcases mem_cons.mp hrules with rfl | hlater
    · exact hrule
    · obtain ⟨same, hmem, -, hsame⟩ := hbetween rules hlater
      exact debug_injective hsame ▸ hmem

def openPosts : CompiledRule := ⟨"open", "posts", .both, ⟨"open", []⟩, none⟩

theorem same_version_same_rule_twice :
    ∃ rule, rule.name = "open" ∧ ∀ rules ∈ [[openPosts], [openPosts]], rule ∈ rules :=
  (same_version_same_rule (fun _ => true) [[openPosts]] [[openPosts]] (by decide)).2.2 "open" 1
    (by decide +kernel) (by decide +kernel)

end RuleVersionTracker

end Palimpsest.Permissions
