import CodeCompletion.Proofs.Window

/-!
# Depth and consent

A call is given up where it would open too many calls, and a guard is closed where the host
does not consent. A higher limit and more consents take no move and no finding away: whether a
call is reported, cut, passed or made is decided by the configuration alone once it is not too
deep. So a walk that is allowed more gets wherever one that is allowed less gets. If the limit
never told, a higher one changes nothing.

## Main definitions

* `Query.allowing`: the same query with another depth limit and other consents

## Main results

* `Query.Moves.allowing`, `Query.Reports.allowing`: no move and no finding is lost
* `Query.Reaches.length_stack_le`: how many calls are open anywhere on a walk
* `Query.step_allowing`: a step that gives up no call for its depth
* `Query.answer_allowing`: the answers of both queries
-/

set_option autoImplicit false

namespace CodeCompletion

namespace Query

variable {query : Query} {limit caret : ℕ} {consents : PredicateId → Bool}
  {first config config' : Config} {request : Request} {outcome : Outcome}

/-- The query with another limit to the number of open calls and other consents. -/
def allowing (query : Query) (limit : ℕ) (consents : PredicateId → Bool) : Query :=
  { query with options := { query.options with depthLimit := limit }, consents }

/-! ## More is allowed -/

section More

variable (hlimit : query.options.depthLimit ≤ limit)
  (hconsents : ∀ predicate, query.consents predicate → consents predicate)

include hconsents in
theorem Passes.allowing {label : Label} (h : query.Passes label) :
    (query.allowing limit consents).Passes label := by
  cases label with
  | epsilon => trivial
  | guard predicate => exact hconsents predicate h
  | token _ | oneOf _ | noneOf _ | any | call _ => exact h

include hlimit in
theorem Calls.allowing {rule : RuleId} {entry target : StateId}
    (h : query.Calls caret config rule entry target) :
    (query.allowing limit consents).Calls caret config rule entry target where
  edge := h.edge
  entry := h.entry
  plain := h.plain
  depth := Nat.le_trans h.depth hlimit

include hlimit hconsents in
theorem Moves.allowing {move : Move} (h : query.Moves caret config move) :
    (query.allowing limit consents).Moves caret config move := by
  cases h with
  | pass hedge hpasses => exact .pass hedge (hpasses.allowing hconsents)
  | advance hedge htoken haccepts hmay => exact .advance hedge htoken haccepts hmay
  | enter hcalls hopen => exact .enter (hcalls.allowing hlimit) hopen
  | skip hcalls hcut hnullable => exact .skip (hcalls.allowing hlimit) hcut hnullable
  | leave hstop hstack => exact .leave hstop hstack

end More

/-- Neither the limit nor the consents matter for what is found at a configuration. -/
theorem Reports.allowing {finding : Finding} (h : query.Reports caret config finding) :
    (query.allowing limit consents).Reports caret config finding := by
  cases h with
  | terminals hedge hconsumes hcaret hstays => exact .terminals hedge hconsumes hcaret hstays
  | rule hedge hentry hcaret hpreferred => exact .rule hedge hentry hcaret hpreferred

/-! ## The number of open calls -/

theorem Leads.length_stack_le {bound : ℕ} (hbound : query.options.depthLimit ≤ bound)
    (hlength : config.stack.length ≤ bound) (hleads : query.Leads caret config config') :
    config'.stack.length ≤ bound := by
  obtain ⟨move, hmove, rfl⟩ := hleads
  cases Moves.of_mem_step hmove with
  | pass | advance | skip => exact hlength
  | enter hcalls => exact Nat.le_trans hcalls.depth hbound
  | leave =>
    rw [Config.after, List.length_tail]
    exact Nat.le_trans (Nat.sub_le _ _) hlength

/-- Only calls that were open from the first may exceed the limit. -/
theorem Reaches.length_stack_le (hreach : query.Reaches caret first config) :
    config.stack.length ≤ max query.options.depthLimit first.stack.length := by
  induction hreach with
  | refl => exact Nat.le_max_right _ _
  | tail _ hleads ih => exact hleads.length_stack_le (Nat.le_max_left _ _) ih

theorem Finds.length_path_le {finding : Finding} {terminal : TerminalId} {path : Path}
    (h : query.Finds caret first finding) (hbrings : finding.BringsToken terminal path) :
    path.length ≤ max query.options.depthLimit first.stack.length := by
  obtain ⟨config, hreach, hreport⟩ := h
  have hpath : config.stack.path = path := by
    cases Reports.of_mem_step hreport with
    | terminals | rule => exact (bringsToken_finding_iff.mp hbrings).2.1
  rw [← hpath, CallStack.path, List.length_reverse, List.length_map]
  exact hreach.length_stack_le

/-! ## Limits that do not tell -/

section Enough

variable (hlimit : query.options.depthLimit ≤ limit)
include hlimit

theorem call_allowing {rule : RuleId} {target : StateId}
    (hdeep : ∀ depth, .event (.depthLimitReached rule depth) ∉
      query.call caret config rule target) :
    (query.allowing limit query.consents).call caret config rule target =
      query.call caret config rule target := by
  have hnetwork : (query.allowing limit query.consents).network = query.network := rfl
  unfold call at hdeep ⊢
  rw [hnetwork]
  cases hentry : query.network.entry? rule with
  | none => rfl
  | some entry =>
    rw [hentry] at hdeep
    dsimp only at hdeep ⊢
    -- The limit is asked only for a call that is not preferred, and it was kept.
    by_cases hpreferred : caret ≤ config.index ∧ rule ∈ query.options.preferred
    · rw [if_pos hpreferred]
      exact if_pos hpreferred
    · rw [if_neg hpreferred] at hdeep ⊢
      have hdepth : ¬ query.options.depthLimit < config.stack.length + 1 := by
        intro hdepth
        rw [if_pos hdepth] at hdeep
        exact hdeep _ (List.mem_singleton.mpr rfl)
      have hdepth' : ¬ limit < config.stack.length + 1 := by
        omega
      rw [if_neg hdepth]
      exact (if_neg hpreferred).trans (if_neg hdepth')

/-- A step that gives up no call for its depth is the same with a higher limit. -/
theorem step_allowing
    (hdeep : ∀ rule depth, .event (.depthLimitReached rule depth) ∉ query.step caret config) :
    (query.allowing limit query.consents).step caret config = query.step caret config := by
  have hnetwork : (query.allowing limit query.consents).network = query.network := rfl
  unfold step at hdeep ⊢
  rw [hnetwork]
  cases hstate : query.network.state? config.state with
  | none => rfl
  | some state =>
    rw [hstate] at hdeep
    dsimp only at hdeep ⊢
    split
    · rfl
    · next hstop =>
      rw [if_neg hstop] at hdeep
      refine List.flatMap_congr fun edge hedge => ?_
      obtain ⟨label, target⟩ := edge
      cases label with
      | epsilon | guard _ | token _ | oneOf _ | noneOf _ | any => rfl
      | call rule =>
        refine call_allowing hlimit fun depth hevent => ?_
        exact hdeep rule depth (List.mem_flatMap.mpr ⟨_, hedge, hevent⟩)

end Enough

/-! ## Answers -/

/-- With a higher limit and more consents an accepted request is answered with every terminal,
every rule and every path that it had before, and no rule starts earlier. Paths to terminals are
no longer than the limit, or than the stack that was given. If no call was too deep, a higher
limit alone changes no part of the answer. -/
theorem answer_allowing (limit : ℕ) (consents : PredicateId → Bool) {draft : Draft}
    (hbuild : draft.build = .ok query.network) (hlimit : query.options.depthLimit ≤ limit)
    (hconsents : ∀ predicate, query.consents predicate → consents predicate)
    (hanswer : query.answer request = .ok outcome) :
    ∃ first outcome', query.first? request = some first ∧
      (query.allowing limit consents).answer request = .ok outcome' ∧
      (∀ terminal path, outcome.candidates.hasToken terminal path →
        outcome'.candidates.hasToken terminal path) ∧
      (∀ rule path, outcome.candidates.hasRule rule path →
        outcome'.candidates.hasRule rule path) ∧
      (∀ (rule : RuleId) (known : RuleCandidate), outcome.candidates.rules[rule]? = some known →
        ∃ known' : RuleCandidate, outcome'.candidates.rules[rule]? = some known' ∧
          known.start ≤ known'.start) ∧
      (∀ terminal path, outcome.candidates.hasToken terminal path →
        path.length ≤ max query.options.depthLimit first.stack.length) ∧
      (consents = query.consents → outcome.depthPruned = 0 → outcome' = outcome) := by
  have hplaces : query.network.SharesPlaces (query.allowing limit consents).network :=
    .refl query.network
  obtain ⟨first, hindex, hindex', hfirst, -, hstack, rfl, hanswer'⟩ :=
    exists_walk_of_answer_of_checkPreferred hplaces rfl id hanswer
  have hfinal : (query.allowing limit consents).network.StopsFinal :=
    Draft.stopsFinal_of_build hbuild
  have hfinds : ∀ finding, query.Finds request.caret first finding →
      (query.allowing limit consents).Finds request.caret first finding := fun _ =>
    Finds.mono hfinal (fun _ _ => Moves.allowing hlimit hconsents) fun _ _ => Reports.allowing
  obtain ⟨htokens, hrules, hstarts⟩ := candidates_mono_of_finds hindex hindex' hstack hfinds
  refine ⟨first, _, hfirst, hanswer', htokens, hrules, ?_, ?_, ?_⟩
  · intro rule known hknown
    exact hstarts rule known.start ⟨known, hknown, Nat.le_refl _⟩
  · intro terminal path hpath
    obtain ⟨finding, hfound, hbrings⟩ := (hasToken_walk_iff hindex hstack).mp hpath
    exact hfound.length_path_le hbrings
  · rintro rfl hpruned
    have hvocabulary : (query.allowing limit query.consents).network.vocabulary =
        query.network.vocabulary := rfl
    refine walk_congr hindex hstack (fun config hreach => ?_) hvocabulary hindex'
    exact step_allowing hlimit (neverTooDeep_of_depthPruned hindex hstack hpruned config hreach)

/-- A parser in an inner list of items after the first one has two calls open. With a limit of
one call, an item can follow the inner list only. With a limit of four calls it can also stand
in that list or in a further one, and no higher limit changes this. -/
theorem answer_allowing_items :
    let request : Request := .parser ⟨0⟩ [⟨⟨0⟩, 0, none⟩, ⟨⟨0⟩, 0, some ⟨2⟩⟩] 1
    let narrow := itemQuery (({} : Options).limitingDepth 1)
    let wide := itemQuery (({} : Options).limitingDepth 4)
    ∃ less more, narrow.answer request = .ok less ∧ wide.answer request = .ok more ∧
      0 < less.depthPruned ∧ less.candidates.hasToken ⟨0⟩ [⟨0⟩] ∧
      more.candidates.hasToken ⟨0⟩ [⟨0⟩] ∧ more.depthPruned = 0 ∧
      (wide.allowing 9 wide.consents).answer request = .ok more := by
  intro request narrow wide
  let first : Config := ⟨⟨0⟩, 1, [⟨⟨0⟩, 0, some ⟨2⟩⟩, ⟨⟨0⟩, 0, none⟩]⟩
  have hstate : itemList.state? ⟨0⟩ = some
      ⟨⟨⟨0⟩, .entry⟩, [⟨.call ⟨0⟩, ⟨2⟩⟩, ⟨.epsilon, ⟨1⟩⟩]⟩ := by
    decide +kernel
  have hnarrow : narrow.answer request = .ok (narrow.outcomeAfter 1 first 4) :=
    collect_eq_ok_iff.mpr ⟨by decide, _, _, rfl, hstate, by decide +kernel,
      walk_eq_outcome _ (by decide +kernel)⟩
  have hwide : wide.answer request = .ok (wide.outcomeAfter 1 first 8) :=
    collect_eq_ok_iff.mpr ⟨by decide, _, _, rfl, hstate, by decide +kernel,
      walk_eq_outcome _ (by decide +kernel)⟩
  obtain ⟨-, more, -, hmore, htokens, -⟩ :=
    answer_allowing 4 narrow.consents build_listDraft_epsilon (by decide) (fun _ => id) hnarrow
  obtain ⟨-, same, -, hsame, -, -, -, -, heq⟩ :=
    answer_allowing 9 wide.consents build_listDraft_epsilon (by decide) (fun _ => id) hwide
  obtain rfl := Except.ok.inj (hwide.symm.trans hmore)
  have hless : (narrow.outcomeAfter 1 first 4).candidates.hasToken ⟨0⟩ [⟨0⟩] := by
    decide +kernel
  have hpruned : (wide.outcomeAfter 1 first 8).depthPruned = 0 := by
    decide +kernel
  refine ⟨_, _, hnarrow, hwide, by decide +kernel, hless, htokens _ _ hless, hpruned, ?_⟩
  rw [← heq rfl hpruned]
  exact hsame

end Query

end CodeCompletion
