import Palimpsest.Server.CurrentRules

/-! One subscribe call and the two times it reads the rules. An accepted call is served its query
rewritten under one rule set, if the rules do not change between the two reads and no plan of
another rule set is joined. -/
namespace Palimpsest.Server
open Sql Dataflow Permissions Option

variable {δ : Type}

/-- The builder compiled the same query for the same user from the rules the call read. -/
structure SameRules (call builder : Call δ) : Prop where
  graph : builder.request.graph = call.request.graph
  userCtx : builder.request.userCtx = call.request.userCtx
  generation : builder.generation = call.generation

theorem SameRules.keeps {call : Call δ} (h : SameRules call builder) (hcall : Keeps call call')
    (hbuilt : Keeps builder builder') : SameRules call' builder' where
  graph := by rw [hcall.request, hbuilt.request, h.graph]
  userCtx := by rw [hcall.request, hbuilt.request, h.userCtx]
  generation := by rw [hcall.generation, hbuilt.generation, h.generation]

/-- What the source serves is the query as the outcome has it. -/
def ServesOutcome (s : State δ) (call : Call δ) (outcome : RewriteOutcome) : Source → Prop
  | .planOf b => ∃ builder plan, s.calls b = some builder ∧ builder.compiledPlan = some plan ∧
      plan.graph = outcome.graph
  | .passThrough => outcome.graph = call.request.graph

/-- An accepted call was compiled and checked under one rule set, in force when it read it, and
everything that serves it is its query rewritten under that set. -/
def AcceptsUnderOneRuleSet (s : State δ) : Prop :=
  ∀ id call, s.calls id = some call → call.registeredAt.isSome →
    call.checkedAt = some call.generation ∧
    ∃ rules outcome, s.rulesAt call.generation = some rules ∧
      rewrite call.request.graph rules call.request.userCtx = .ok outcome ∧
      ∀ source ∈ call.servedBy, ServesOutcome s call outcome source

/-- The steps that keep a call under one rule set: it joins only plans built for the same query
and user from the rules it read itself; and when it passes its check the rules are still those it
compiled from, and a call that does not run on the host has nothing spliced into its query. -/
def KeepsOneRuleSet (s : State δ) : Action δ → Prop
  | .advance id _ => ∀ call, s.calls id = some call →
    (call.joins → ∀ key state, call.canonicalKey = some key → s.host.plans key = some state →
      ∃ builder, s.calls state.builder = some builder ∧ SameRules call builder) ∧
    (∀ prerunInitial stats, call.stage = .looked prerunInitial →
      checkPermissions call.request.graph s.router.rules call.request.userCtx
        call.compiledPlan = .ok stats →
      s.generation = call.generation ∧ (call.canonicalKey = none → ∀ outcome,
        rewrite call.request.graph s.router.rules call.request.userCtx = .ok outcome →
        outcome.graph = call.request.graph))
  | _ => True

structure Uniform (s : State δ) : Prop where
  checked : ∀ id call, s.calls id = some call → call.checkedAt.isSome →
    call.checkedAt = some call.generation ∧
    ∃ rules outcome, s.rulesAt call.generation = some rules ∧
      rewrite call.request.graph rules call.request.userCtx = .ok outcome ∧
      (call.canonicalKey = none → outcome.graph = call.request.graph)
  sources : ∀ id call, s.calls id = some call → ∀ source ∈ call.servedBy,
    source = .passThrough ∧ call.canonicalKey = none ∨
    ∃ b builder, source = .planOf b ∧ s.calls b = some builder ∧ SameRules call builder ∧
      builder.compiledPlan.isSome

section
variable {s : State δ}

theorem checkPermissions_ok (h : checkPermissions graph rules userCtx compiledPlan = .ok stats) :
    ∃ outcome, rewrite graph rules userCtx = .ok outcome := by
  cases hrw : rewrite graph rules userCtx with
  | ok outcome => exact ⟨outcome, rfl⟩
  | error =>
    simp only [checkPermissions, installPermissionFilters, hrw] at h
    cases h

theorem Uniform.accepts (htraced : Traced engine s) (h : Uniform s) : AcceptsUnderOneRuleSet s := by
  intro id call hcall hreg
  have hcheck := htraced.entered id call hcall hreg
  obtain ⟨hat, rules, outcome, hrules, hrw, hraw⟩ := h.checked id call hcall hcheck
  refine ⟨hat, rules, outcome, hrules, hrw, fun src hsrc => ?_⟩
  rcases h.sources id call hcall src hsrc with ⟨rfl, hkey⟩ |
    ⟨b, builder, rfl, hbuilt, hsame, hsome⟩
  · exact hraw hkey
  · obtain ⟨plan, hplan⟩ := isSome_iff_exists.mp hsome
    refine ⟨builder, plan, hbuilt, hplan, ?_⟩
    obtain ⟨rules', hrules', hcomp⟩ := htraced.compiled b builder hbuilt
    rw [hsame.generation, hrules] at hrules'
    obtain rfl : rules = rules' := some.inj hrules'
    rw [hplan, compileRequest, hsame.graph, hsame.userCtx, hrw] at hcomp
    obtain ⟨inputs, -, hins⟩ := map_eq_some_iff.mp hcomp.symm
    rw [← hins]

theorem start_uniform : Uniform (State.start : State δ) where
  checked _ _ h := by cases h
  sources _ _ h := by cases h

variable [DecidableEq δ]

theorem step_uniform (hprov : Provenance d.engine s) (h : Uniform s)
    (hmeets : KeepsOneRuleSet s a) : Uniform (step d s a) where
  checked id call' hcall' hchk := by
    rcases step_call hcall' with ⟨call, hcall, hmove, hkind⟩ | ⟨req, schema, -, -, rfl⟩
    · have hkeep := hmove.keeps
      have hwas : call'.checkedAt = some call.generation ∧
          ∃ rules outcome, s.rulesAt call.generation = some rules ∧
            rewrite call.request.graph rules call.request.userCtx = .ok outcome ∧
            (call.canonicalKey = none → outcome.graph = call.request.graph) := by
        rcases hkind with ⟨fetched, rfl⟩ | hrests
        · cases hmove with
          | pass hstage hcheck =>
            obtain ⟨hgen, hraw⟩ := (hmeets call hcall).2 _ _ hstage hcheck
            obtain ⟨outcome, hrw⟩ := checkPermissions_ok hcheck
            refine ⟨congrArg some hgen, s.router.rules, outcome, ?_, hrw, ?_⟩
            · rw [← hgen]
              exact s.rulesAt_generation
            · intro hkey
              exact hraw hkey outcome hrw
          | stay => exact h.checked id _ hcall hchk
          | _ => exact h.checked id call hcall hchk
        · rw [hrests.checkedAt] at hchk ⊢
          exact h.checked id call hcall hchk
      obtain ⟨hat, rules, outcome, hrules, hrw, hraw⟩ := hwas
      rw [hkeep.generation, hkeep.request, hkeep.canonicalKey]
      exact ⟨hat, rules, outcome, step_rulesAt a hrules, hrw, hraw⟩
    · cases hchk
  sources id call' hcall' src hsrc := by
    obtain ⟨call, hcall, hkeep, horig⟩ := step_sources hcall' hsrc
    have hwas : src = .passThrough ∧ call.canonicalKey = none ∨
        ∃ b builder, src = .planOf b ∧ s.calls b = some builder ∧ SameRules call builder ∧
          builder.compiledPlan.isSome := by
      rcases horig with hold | ⟨fetched, key, state, rfl, hjoins, hkey, hst, rfl⟩ |
        ⟨-, ⟨rfl, hplan⟩ | hraw⟩
      · exact h.sources id call hcall src hold
      · obtain ⟨builder, hbuilt, hsame⟩ := (hmeets call hcall).1 hjoins key state hkey hst
        obtain ⟨builder', hbuilt', hplan⟩ := (hprov.plans key state hst).built
        cases mem_unique hbuilt hbuilt'
        exact .inr ⟨state.builder, builder, rfl, hbuilt, hsame, by simp [hplan]⟩
      · exact .inr ⟨id, call, rfl, hcall, ⟨rfl, rfl, rfl⟩, hplan⟩
      · exact .inl hraw
    rw [hkeep.canonicalKey]
    refine hwas.imp_right ?_
    rintro ⟨b, builder, rfl, hbuilt, hsame, hplan⟩
    obtain ⟨builder', hbuilt', hkeep'⟩ := step_grows hprov a b builder hbuilt
    exact ⟨b, builder', rfl, hbuilt', hsame.keeps hkeep hkeep', hkeep'.compiledPlan ▸ hplan⟩

/-- In every run in which the rules do not change between the two reads of an accepted call, and
no call joins a plan built under other rules, every accepted call is served its query rewritten
under one rule set that was in force during the call. -/
theorem reached_acceptsUnderOneRuleSet (d : Deployment δ)
    (h : Runs.Reached (step d) KeepsOneRuleSet State.start s) : AcceptsUnderOneRuleSet s := by
  obtain ⟨-, htraced, huniform⟩ := reached_traced d start_uniform
    (fun _ _ hprov _ huniform hmeets => step_uniform hprov huniform hmeets) h
  exact huniform.accepts htraced

end

section

theorem keepsOneRuleSet_of_no_plan {s : State ℕ} {id : SubscriptionId}
    (hcall : s.calls id = some call) (hplans : ∀ key, s.host.plans key = none)
    (hgen : s.generation = call.generation) (hkey : call.canonicalKey.isSome) :
    KeepsOneRuleSet s (.advance id fetched) := by
  intro call' hcall'
  cases mem_unique hcall hcall'
  constructor
  · intro _ key state _ hst
    simp [hplans key] at hst
  · intro prerunInitial stats _ _
    refine ⟨hgen, fun hnone => ?_⟩
    simp [hnone] at hkey

theorem subscribe_under_one_rule_set :
    AcceptsUnderOneRuleSet (postsRun (.setRules ownPosts :: subscribePosts "a" 1)) ∧
      ((postsRun (.setRules ownPosts :: subscribePosts "a" 1)).calls 1).map
        (fun call => (call.registeredAt, call.servedBy)) =
          some (some 1, [.planOf 1, .planOf 1]) := by
  refine ⟨reached_acceptsUnderOneRuleSet postsDeployment (Runs.Schedule.reached ?_ .start), rfl⟩
  refine .cons trivial (.cons trivial ?_)
  refine .cons ?_ (.cons ?_ (.cons ?_ (.cons ?_ (.cons ?_ (.cons ?_ (.nil _))))))
  all_goals exact keepsOneRuleSet_of_no_plan rfl (fun _ => rfl) rfl rfl

def postsOfSeven : List CompiledRule :=
  [⟨"seven", "posts", .rowVisibility, ⟨"author_id = 7", []⟩, none⟩]

/-- A user without the field the first rules need. -/
def readPostsUnknown : SubscribeRequest :=
  ⟨1, "a", "SELECT * FROM posts", readAll "posts", .empty, none⟩

/-- The rules are replaced after the call has compiled its plan and before it is checked. Under the
first rules the rewrite fails, so the plan is compiled from the query as it is; the second rules
splice a filter, which the check takes to be in the plan. -/
def mixedRun : State ℕ :=
  postsRun ([.setRules ownPosts, .begin readPostsUnknown (.ok ()), .advance 1 (.ok twoPosts),
    .setRules postsOfSeven] ++ List.replicate 5 (.advance 1 (.ok twoPosts)))

theorem postsOfSeven_nodes :
    (rewrite (readAll "posts") postsOfSeven .empty).toOption.map (fun o => o.graph.graph.nodes) =
      some [.baseTable "posts" [], .filter "author_id = 7"] := by
  decide +kernel

theorem unrewritten_graph_accepted :
    Runs.Reached (step postsDeployment) (fun _ _ => True) State.start mixedRun ∧
      ∃ call, mixedRun.calls 1 = some call ∧ call.registeredAt.isSome ∧
        ∀ n rules outcome, call.generation ≤ n → mixedRun.rulesAt n = some rules →
          rewrite call.request.graph rules call.request.userCtx = .ok outcome →
          ¬ ∀ source ∈ call.servedBy, ServesOutcome mixedRun call outcome source := by
  refine ⟨(Runs.Schedule.free _ _ _).reached .start, _, rfl, rfl, ?_⟩
  intro n rules outcome hn hrules hrw hserves
  obtain ⟨builder, plan, hbuilt, hplan, hgraph⟩ := hserves (.planOf 1) (by decide)
  have hhist : mixedRun.past ++ [mixedRun.router.rules] = [[], ownPosts, postsOfSeven] := rfl
  unfold State.rulesAt at hrules
  rw [hhist] at hrules
  have hraw : plan.graph.graph.nodes = [.baseTable "posts" []] := by
    have hnodes : (mixedRun.calls 1).bind (fun call =>
        call.compiledPlan.map fun plan => plan.graph.graph.nodes) =
        some [.baseTable "posts" []] := rfl
    rwa [hbuilt, bind_some, hplan, map_some, some.injEq] at hnodes
  rw [hgraph] at hraw
  have hn' : 1 ≤ n := hn
  obtain ⟨hlt, -⟩ := getElem?_eq_some_iff.mp hrules
  have hcases : n = 1 ∨ n = 2 := by
    simp at hlt
    omega
  rcases hcases with rfl | rfl
  · obtain rfl : ownPosts = rules := some.inj hrules
    cases hrw
  · obtain rfl : postsOfSeven = rules := some.inj hrules
    have hnodes := postsOfSeven_nodes
    change rewrite (readAll "posts") postsOfSeven .empty = _ at hrw
    simp [hrw, Except.toOption, hraw] at hnodes

end

end Palimpsest.Server
