import CodeCompletion.Proofs.Completeness

/-!
# Silent runs from the state of a parser

A parser names its state and its open calls, and the walk begins there, at the caret. A call
that is open from the caret on counts against further calls of its rule, although the walk
has not been through the entry of the rule. What such a further call would offer is found if
the walk comes to that entry in another way, and may be missed otherwise.

## Main definitions

* `Query.Enters`: a walk comes to the entry of a rule at a token

## Main results

* `Query.Reaches.enters`: a walk has been through the entry of every call that it opened
* `Query.exists_reaches_of_silent_freeRun`: a walk gets to all states that silent runs lead to,
  if it enters the rules whose calls it gives up
* `Query.collect_terminals_of_freeRun`: what silent runs from the state of a parser offer
-/

set_option autoImplicit false

namespace CodeCompletion

namespace Query

variable {query : Query} {caret : ℕ} {first config : Config} {rule : RuleId} {site state : StateId}
  {stack : CallStack} {index : ℕ}

/-! ## Rules that are entered -/

/-- A walk from `first` comes to the entry of the rule at the token `start`. -/
def Enters (query : Query) (caret : ℕ) (first : Config) (rule : RuleId) (start : ℕ) : Prop :=
  ∃ entry stack, query.network.entry? rule = some entry ∧
    query.Reaches caret first ⟨entry, start, stack⟩

theorem Reaches.stack_ne_nil (hfirst : first.stack ≠ []) (h : query.Reaches caret first config) :
    config.stack ≠ [] := by
  induction h with
  | refl => exact hfirst
  | tail _ hleads ih =>
    obtain ⟨move, hmove, rfl⟩ := hleads
    cases Moves.of_mem_step hmove with
    | leave _ hstack => simp [Config.after, hstack]
    | enter => exact List.cons_ne_nil _ _
    | pass | advance | skip => exact ih

/-- Of an open call, either it was open at the beginning, or the walk has entered its rule. -/
theorem Reaches.enters (h : query.Reaches caret first config) {frame : Frame}
    (hframe : frame ∈ config.stack) :
    frame ∈ first.stack ∨ query.Enters caret first frame.rule frame.start := by
  induction h with
  | refl => exact Or.inl hframe
  | @tail before after hreach hleads ih =>
    have hafter := hreach.tail hleads
    obtain ⟨move, hmove, rfl⟩ := hleads
    cases Moves.of_mem_step hmove with
    | enter hcalls _ =>
      rcases List.mem_cons.mp hframe with rfl | hframe
      · exact Or.inr ⟨_, _, hcalls.entry, hafter⟩
      · exact ih hframe
    | leave _ _ => exact ih (List.mem_of_mem_tail hframe)
    | pass | advance | skip => exact ih hframe

/-- Of a rule whose calls are given up, the walk has come to the entry, unless the call that
stands in the way was open at the beginning. -/
theorem Reaches.enters_of_cut (h : query.Reaches caret first config)
    (hcut : .event (.recursionCut rule index) ∈ query.step caret config)
    (hseeds : ∀ frame ∈ first.stack, frame.rule = rule → frame.start = index →
      query.Enters caret first rule index) : query.Enters caret first rule index := by
  obtain ⟨rfl, hopen, -⟩ := of_recursionCut_mem_step hcut
  -- A call of the same rule is open from the same token on.
  obtain ⟨frame, hframe, hsame⟩ :=
    List.countP_pos_iff.mp (Nat.lt_of_le_of_lt (Nat.zero_le _) hopen)
  obtain ⟨rfl, hstart⟩ := of_decide_eq_true hsame
  rcases h.enters hframe with hseed | hentered
  · exact hseeds frame hseed rfl hstart
  · exact hstart ▸ hentered

/-! ## Walks along silent trips -/

section

variable {draft : Draft} (hbuild : draft.build = .ok query.network)
  (hpreferred : query.options.preferred = ∅) (hdepth : query.NeverTooDeep caret first)
  (hstack : first.stack ≠ [])
  (hentered : ∀ config rule, query.Reaches caret first config →
    .event (.recursionCut rule caret) ∈ query.step caret config →
    query.Enters caret first rule caret)
include hbuild hpreferred hdepth

/-- A call is made, or it is given up for left recursion. -/
theorem Reaches.enter_or_cut (hreach : query.Reaches caret first ⟨state, index, stack⟩)
    {entry target : StateId} (hedge : query.network.HasEdge state (.call rule) target)
    (hentry : query.network.entry? rule = some entry) :
    query.Reaches caret first ⟨entry, index, ⟨rule, index, some target⟩ :: stack⟩ ∨
      query.Calls caret ⟨state, index, stack⟩ rule entry target ∧
        caret - index < stack.openCount rule index := by
  have hfinal := Draft.stopsFinal_of_build hbuild
  have hcalls := (calls_or_depthLimitReached_mem_step hfinal hpreferred hedge
    hentry).resolve_right (hdepth _ hreach rule _)
  by_cases hopen : stack.openCount rule index ≤ caret - index
  · exact Or.inl (hreach.move hfinal (.enter hcalls hopen))
  · exact Or.inr ⟨hcalls, Nat.not_le.mp hopen⟩

include hstack hentered

/-- A walk at the caret gets to where a trip from there ends, provided that it enters the
rules whose calls it gives up. -/
theorem attains_of_silent_trip {size : ℕ} {goal : Goal}
    (htrip : query.Trip caret site size state index goal) (hindex : index = caret)
    (hreach : query.Reaches caret first ⟨state, index, stack⟩) :
    query.Attains caret first site stack goal := by
  have hfinal := Draft.stopsFinal_of_build hbuild
  induction htrip generalizing stack with
  | finish hstop _ => exact ⟨_, hstop, hreach⟩
  | arrive => exact ⟨stack, hreach⟩
  | pass hedge hpasses _ ih => exact ih hindex (hreach.move hfinal (.pass hedge hpasses))
  | read _ _ _ hrest _ =>
    have hlate := hrest.index_le_caret
    omega
  | @call inner size state entry target index mid goal rule hedge hentry hcalled hrest ihcalled
      ih =>
    -- Nothing is read on the way, neither inside the callee nor after it.
    obtain rfl : index = mid := by
      have hlate := hrest.index_le_caret
      have hearly : index ≤ mid := hcalled.index_le_deadline
      omega
    have hreturned : query.Reaches caret first ⟨target, index, stack⟩ := by
      rcases hreach.enter_or_cut hbuild hpreferred hdepth hedge hentry with hinside | ⟨hcalls, hcut⟩
      · obtain ⟨stop, hstop, hfinished⟩ := ihcalled hindex hinside
        obtain ⟨caller, outer, rfl⟩ :=
          List.exists_cons_of_ne_nil (hreach.stack_ne_nil hstack)
        exact hfinished.move hfinal (.leave hstop rfl)
      · have hnullable : query.network.isNullable rule :=
          (Network.isNullable_iff hbuild).mpr ⟨entry, hentry, hcalled.silentFinish⟩
        exact hreach.move hfinal (.skip hcalls hcut hnullable)
    exact ih hindex hreturned
  | @stay inner state entry target index rule hedge hentry hcalled ih =>
    -- It does not matter under which calls the callee is entered, since the trip ends in it.
    have hinside : ∃ stack', query.Reaches caret first ⟨entry, index, stack'⟩ := by
      rcases hreach.enter_or_cut hbuild hpreferred hdepth hedge hentry with
        hinside | ⟨hcalls, hcut⟩
      · exact ⟨_, hinside⟩
      · subst hindex
        obtain ⟨entry', stack', hentry', hreach'⟩ :=
          hentered _ rule hreach (recursionCut_mem_step hfinal hcalls hcut)
        obtain rfl := Option.some.inj (hentry.symm.trans hentry')
        exact ⟨stack', hreach'⟩
    obtain ⟨stack', hinside⟩ := hinside
    have harrived := ih hindex hinside
    exact harrived

/-- Calls that are finished at the caret are left one after the other. -/
theorem exists_reaches_of_unwinds (h : query.Unwinds caret site state index stack)
    (hindex : index = caret) (hreach : query.Reaches caret first ⟨state, index, stack⟩) :
    ∃ inner, query.Reaches caret first ⟨site, caret, inner⟩ := by
  induction h with
  | here htrip =>
    exact attains_of_silent_trip hbuild hpreferred hdepth hstack hentered htrip hindex hreach
  | @above size state resume index last start rule caller outer htrip houter ih =>
    obtain ⟨stop, hstop, hfinished⟩ :=
      attains_of_silent_trip hbuild hpreferred hdepth hstack hentered htrip hindex hreach
    have hlast : last = caret := by
      have hlate := houter.index_le_caret
      have hearly : index ≤ last := htrip.index_le_deadline
      omega
    exact ih hlast (hfinished.move (Draft.stopsFinal_of_build hbuild) (.leave hstop rfl))

/-- A walk that begins at the caret gets to every state that a silent run leads to, provided
that it enters the rules whose calls it gives up. -/
theorem exists_reaches_of_silent_freeRun (hfirst : first.index = caret)
    (hrun : query.FreeRun first ⟨site, caret, stack⟩) :
    ∃ inner, query.Reaches caret first ⟨site, caret, inner⟩ :=
  exists_reaches_of_unwinds hbuild hpreferred hdepth hstack hentered hrun.unwinds hfirst .refl

end

/-! ## Requests from the state of a parser -/

/-- Of a parser's request, no rule preferred and no terminal preloaded, whose walk gave up no
call for its depth: every terminal, unless ignored, that an edge offers where a silent run has
led is among the candidates, provided that the walk came to the entry of each rule that is
open from the caret on at the beginning and of which it gave up a call. A free run that ends
at the caret has read no token, so it is silent. -/
theorem collect_terminals_of_freeRun {draft : Draft} {start : StateId} {calls : List Frame}
    {outcome : Outcome} (hbuild : draft.build = .ok query.network)
    (hpreferred : query.options.preferred = ∅) (hpreloaded : query.options.preloaded = ∅)
    (hcollect : query.collect start calls index = .ok outcome) (hpruned : outcome.depthPruned = 0) :
    ∃ first, query.first? (.parser start calls index) = some first ∧
      ((∀ frame ∈ first.stack, frame.start = index →
          .recursionCut frame.rule index ∈ outcome.trace →
          query.Enters index first frame.rule index) →
        ∀ config label target terminal, query.FreeRun first config → config.index = index →
          query.network.HasEdge config.state label target →
          label.Offers query.network.vocabulary terminal → terminal ∉ query.options.ignored →
          terminal ∈ outcome.candidates.terminals) := by
  have hanswer : query.answer (.parser start calls index) = .ok outcome := hcollect
  obtain ⟨first, hsize, hfirst, hstack, -, rfl⟩ := exists_walk_of_answer hanswer
  refine ⟨first, hfirst, ?_⟩
  have hcaret : first.index = index := by
    obtain ⟨known, -, rfl⟩ := Option.map_eq_some_iff.mp hfirst
    rfl
  rintro hseeds ⟨site, last, stack⟩ label target terminal hrun hlast hedge hoffers hignored
  obtain rfl : index = last := hlast.symm
  have hentered : ∀ config rule, query.Reaches index first config →
      .event (.recursionCut rule index) ∈ query.step index config →
      query.Enters index first rule index := by
    intro config rule hreach hcut
    have htrace := (mem_trace_walk_iff hsize hstack).mpr ⟨config, hreach, hcut⟩
    refine hreach.enters_of_cut hcut fun frame hframe hrule hstart => ?_
    subst hrule
    exact hseeds frame hframe hstart htrace
  have hdepth := neverTooDeep_of_depthPruned hsize hstack hpruned
  obtain ⟨inner, hreach⟩ :=
    exists_reaches_of_silent_freeRun hbuild hpreferred hdepth hstack hentered hcaret hrun
  have hstays : ¬ query.StepsOver index label := by
    rintro ⟨token, -, -, htoken⟩
    simp [hpreloaded] at htoken
  obtain ⟨finding, hreport, hbrings⟩ := exists_report_of_offers ⟨site, index, inner⟩
    (Draft.stopsFinal_of_build hbuild) hpreferred hedge hoffers (Nat.le_refl _) hstays hignored
  have htoken := (hasToken_walk_iff hsize hstack).mpr ⟨finding, ⟨_, hreach, hreport⟩, hbrings⟩
  exact Candidates.mem_terminals_of_hasToken htoken

/-- The draft of a list with an item in it. The call of the list stands behind a state of its
own, so that a parser may be before the call and past the entry. -/
def splitDraft : Draft where
  places := #[⟨⟨0⟩, .entry⟩, ⟨⟨0⟩, .stop⟩, ⟨⟨0⟩, .interior⟩, ⟨⟨0⟩, .interior⟩]
  rules := #[⟨⟨0⟩, [⟨1⟩]⟩]
  vocabulary := { terminals := #["item"], rules := #["items"] }
  edges := #[(⟨0⟩, ⟨.epsilon, ⟨2⟩⟩), (⟨2⟩, ⟨.call ⟨0⟩, ⟨3⟩⟩), (⟨3⟩, ⟨.token ⟨0⟩, ⟨1⟩⟩),
    (⟨0⟩, ⟨.token ⟨0⟩, ⟨1⟩⟩)]

/-- The list of `splitDraft`, with nothing read. -/
def splitQuery : Query :=
  { network := { toBlueprint := splitDraft.toBlueprint, nullable := #[false] }, tokens := #[] }

theorem build_splitDraft : splitDraft.build = .ok splitQuery.network := by
  decide +kernel

/-- From before the call, a run into the callee is offered an item. -/
theorem freeRun_splitQuery : splitQuery.FreeRun ⟨⟨2⟩, 0, [⟨⟨0⟩, 0, none⟩]⟩
    ⟨⟨0⟩, 0, [⟨⟨0⟩, 0, some ⟨3⟩⟩, ⟨⟨0⟩, 0, none⟩]⟩ :=
  .single (.call (by decide +kernel) rfl)

theorem offers_splitQuery : splitQuery.network.HasEdge ⟨0⟩ (.token ⟨0⟩) ⟨1⟩ ∧
    (Label.token ⟨0⟩).Offers splitQuery.network.vocabulary ⟨0⟩ :=
  ⟨by decide +kernel, rfl⟩

/-- A parser that is past the entry of the list at the caret is offered nothing: the call that
it is in counts against the one that would be offered an item. -/
theorem collect_misses_freeRun :
    ∃ outcome, splitDraft.build = .ok splitQuery.network ∧
      splitQuery.options.preferred = ∅ ∧ splitQuery.options.preloaded = ∅ ∧
      splitQuery.collect ⟨2⟩ [⟨⟨0⟩, 0, none⟩] 0 = .ok outcome ∧ outcome.depthPruned = 0 ∧
      splitQuery.first? (.parser ⟨2⟩ [⟨⟨0⟩, 0, none⟩] 0) =
        some ⟨⟨2⟩, 0, [⟨⟨0⟩, 0, none⟩]⟩ ∧
      ¬ ∀ config label target terminal,
        splitQuery.FreeRun ⟨⟨2⟩, 0, [⟨⟨0⟩, 0, none⟩]⟩ config → config.index = 0 →
        splitQuery.network.HasEdge config.state label target →
        label.Offers splitQuery.network.vocabulary terminal →
        terminal ∉ splitQuery.options.ignored → terminal ∈ outcome.candidates.terminals := by
  have hstate : splitQuery.network.state? ⟨2⟩ =
      some ⟨⟨⟨0⟩, .interior⟩, [⟨.call ⟨0⟩, ⟨3⟩⟩]⟩ := by
    decide +kernel
  have hdone : (splitQuery.rounds 0 ⟨⟨2⟩, 0, [⟨⟨0⟩, 0, none⟩]⟩ 1).pending = [] := by
    decide +kernel
  refine ⟨splitQuery.outcomeAfter 0 ⟨⟨2⟩, 0, [⟨⟨0⟩, 0, none⟩]⟩ 1, build_splitDraft, rfl, rfl,
    collect_eq_ok_iff.mpr ⟨Nat.le_refl _, _, _, rfl, hstate, by decide +kernel,
      walk_eq_outcome _ hdone⟩, by decide +kernel, by rw [first?, hstate]; rfl, ?_⟩
  intro hall
  have hmem := hall _ _ _ _ freeRun_splitQuery rfl offers_splitQuery.1 offers_splitQuery.2
    (by simp [splitQuery])
  exact absurd hmem (by decide +kernel)

/-- A parser that is at the entry is offered an item, although the call of the list is given
up. -/
theorem collect_terminals_of_freeRun_splitDraft :
    splitQuery.FreeRun ⟨⟨0⟩, 0, [⟨⟨0⟩, 0, none⟩]⟩
        ⟨⟨0⟩, 0, [⟨⟨0⟩, 0, some ⟨3⟩⟩, ⟨⟨0⟩, 0, none⟩]⟩ ∧
      ∃ outcome, splitQuery.collect ⟨0⟩ [⟨⟨0⟩, 0, none⟩] 0 = .ok outcome ∧
        outcome.depthPruned = 0 ∧ 0 < outcome.recursionCut ∧
        ⟨0⟩ ∈ outcome.candidates.terminals := by
  have hempty : splitQuery.network.HasEdge ⟨0⟩ .epsilon ⟨2⟩ := by decide +kernel
  have hrun : splitQuery.FreeRun ⟨⟨0⟩, 0, [⟨⟨0⟩, 0, none⟩]⟩
      ⟨⟨0⟩, 0, [⟨⟨0⟩, 0, some ⟨3⟩⟩, ⟨⟨0⟩, 0, none⟩]⟩ :=
    .head (.pass hempty trivial) freeRun_splitQuery
  have hstate : splitQuery.network.state? ⟨0⟩ =
      some ⟨⟨⟨0⟩, .entry⟩, [⟨.epsilon, ⟨2⟩⟩, ⟨.token ⟨0⟩, ⟨1⟩⟩]⟩ := by
    decide +kernel
  have hdone : (splitQuery.rounds 0 ⟨⟨0⟩, 0, [⟨⟨0⟩, 0, none⟩]⟩ 2).pending = [] := by
    decide +kernel
  have hok : splitQuery.collect ⟨0⟩ [⟨⟨0⟩, 0, none⟩] 0 =
      .ok (splitQuery.outcomeAfter 0 ⟨⟨0⟩, 0, [⟨⟨0⟩, 0, none⟩]⟩ 2) :=
    collect_eq_ok_iff.mpr ⟨Nat.le_refl _, _, _, rfl, hstate, by decide +kernel,
      walk_eq_outcome _ hdone⟩
  have hpruned : (splitQuery.outcomeAfter 0 ⟨⟨0⟩, 0, [⟨⟨0⟩, 0, none⟩]⟩ 2).depthPruned = 0 := by
    decide +kernel
  obtain ⟨first, hfirst, hterminals⟩ :=
    collect_terminals_of_freeRun build_splitDraft rfl rfl hok hpruned
  rw [first?, hstate] at hfirst
  obtain rfl := Option.some.inj hfirst
  -- The walk begins at the entry of the only rule.
  have hseeds : ∀ frame ∈ seedStack ⟨0⟩ [⟨⟨0⟩, 0, none⟩], frame.start = 0 →
      .recursionCut frame.rule 0 ∈
        (splitQuery.outcomeAfter 0 ⟨⟨0⟩, 0, [⟨⟨0⟩, 0, none⟩]⟩ 2).trace →
      splitQuery.Enters 0 ⟨⟨0⟩, 0, [⟨⟨0⟩, 0, none⟩]⟩ frame.rule 0 := by
    intro frame hframe _ _
    obtain rfl := List.mem_singleton.mp hframe
    exact ⟨⟨0⟩, _, rfl, .refl⟩
  exact ⟨hrun, _, hok, hpruned, by decide +kernel,
    hterminals hseeds _ _ _ _ hrun rfl offers_splitQuery.1 offers_splitQuery.2
      (by simp [splitQuery])⟩

end Query

end CodeCompletion
