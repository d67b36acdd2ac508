import CodeCompletion.Proofs.Pruning
import CodeCompletion.Proofs.Requests
import CodeCompletion.Proofs.Steps

/-!
# Lack of consent and missing edges

A walk that lacks consent to some predicates is compared with a walk that has all consent
in the network without the guards of these predicates. The two go together step by step,
apart from the events that report a closed guard, except in one place. Where left
recursion is cut, a nullable rule is passed as if it had matched nothing, and which rules
are nullable was decided when the network was built, with every guard open.

So the walk finds what is found without the guards if the nullable rules stay as they were.
If they are decided anew, less may be found: the difference begins at a cut call of a rule
that is nullable by closed guards only.

## Main definitions

* `Query.askedOf`: a query with all consent, asked of another network

## Main results

* `Query.filterMap_step_askedOf`: the moves and findings of a configuration in both networks
* `Query.step_askedOf_subset`: no effect is gained if no rule becomes nullable
* `Query.answer_askedOf_prune`: the candidates of every accepted request in both networks
-/

set_option autoImplicit false

namespace CodeCompletion

namespace Query

variable {query : Query} {network : Network} {caret : ℕ} {config first : Config}

/-- The query with all consent, asked of another network. -/
def askedOf (query : Query) (network : Network) : Query :=
  { query with network, consents := fun _ => true }

/-! ## Accepted requests -/

section Requests

variable (hsheds : query.network.Sheds query.consents network)
include hsheds

theorem sharesPlaces_askedOf : query.network.SharesPlaces (query.askedOf network).network where
  rules_eq := hsheds.rules_eq
  place_eq state := by
    have hstate : (query.askedOf network).network.state? state =
        (query.network.state? state).map (State.prune query.consents) := hsheds.state?_eq state
    rw [hstate, Option.map_map]
    rfl

/-- A request that is accepted is accepted without the guards too, and its walk begins in the
same configuration. -/
theorem exists_walk_of_answer_askedOf {request : Request} {outcome : Outcome}
    (h : query.answer request = .ok outcome) :
    ∃ (first : Config) (hindex : first.index ≤ query.tokens.size)
      (hindex' : first.index ≤ (query.askedOf network).tokens.size), first.stack ≠ [] ∧
      query.walk request.caret first hindex = outcome ∧
      (query.askedOf network).answer request =
        .ok ((query.askedOf network).walk request.caret first hindex') := by
  obtain ⟨first, hindex, hindex', -, -, hstack, hwalk, hanswer⟩ :=
    exists_walk_of_answer_congr (sharesPlaces_askedOf hsheds) rfl rfl h
  exact ⟨first, hindex, hindex', hstack, hwalk, hanswer⟩

end Requests

/-! ## Steps in both networks -/

section Steps

variable (hsheds : query.network.Sheds query.consents network)
include hsheds

/-- A call does the same in both networks, unless it is cut and its rule is nullable in one of
them only. -/
theorem call_askedOf {rule : RuleId} {target : StateId}
    (hcut : .event (.recursionCut rule config.index) ∈ query.call caret config rule target →
      network.isNullable rule = query.network.isNullable rule) :
    (query.askedOf network).call caret config rule target =
      query.call caret config rule target := by
  have hentry : (query.askedOf network).network.entry? rule = query.network.entry? rule :=
    hsheds.entry?_eq rule
  unfold call at hcut ⊢
  rw [hentry]
  generalize query.network.entry? rule = entry? at hcut ⊢
  cases entry? with
  | none => rfl
  | some entry =>
    dsimp only at hcut ⊢
    -- Nullability is asked for last, and only of a call that is cut.
    by_cases hpreferred : caret ≤ config.index ∧ rule ∈ query.options.preferred
    · exact (if_pos hpreferred).trans (if_pos hpreferred).symm
    · rw [if_neg hpreferred] at hcut
      refine (if_neg hpreferred).trans (Eq.trans ?_ (if_neg hpreferred).symm)
      by_cases hdepth : query.options.depthLimit < config.stack.length + 1
      · exact (if_pos hdepth).trans (if_pos hdepth).symm
      · rw [if_neg hdepth] at hcut
        refine (if_neg hdepth).trans (Eq.trans ?_ (if_neg hdepth).symm)
        by_cases hopen : caret - config.index < config.stack.openCount rule config.index
        · rw [if_pos hopen] at hcut ⊢
          have hnullable : (query.askedOf network).network.isNullable rule =
              query.network.isNullable rule := hcut List.mem_cons_self
          rw [if_pos hopen, hnullable]
        · rw [if_neg hopen, if_neg hopen]

theorem follow_askedOf_of_ne_call {label : Label} {target : StateId}
    (hopen : label.isOpen query.consents) (hcall : ∀ rule, label ≠ .call rule) :
    (query.askedOf network).follow caret config ⟨label, target⟩ =
      query.follow caret config ⟨label, target⟩ := by
  cases label with
  | epsilon => rfl
  | guard predicate =>
    have hconsents : query.consents predicate := hopen
    simp [follow, askedOf, hconsents]
  | call rule => exact absurd rfl (hcall rule)
  | token _ | oneOf _ | noneOf _ | any =>
    have hvocabulary : (query.askedOf network).network.vocabulary = query.network.vocabulary :=
      hsheds.vocabulary_eq
    simp only [follow, consume, offer, hvocabulary]
    rfl

/-- Whatever is picked from the effects of edges apart from closed guards is the same without
the edges of closed guards. -/
theorem filterMap_follow_askedOf {α : Type} {pick : Effect → Option α}
    (hpick : ∀ predicate, pick (.event (.predicateRejected predicate)) = none)
    {edges : List Edge} (hcut : ∀ rule, .event (.recursionCut rule config.index) ∈
      edges.flatMap (query.follow caret config) →
      network.isNullable rule = query.network.isNullable rule) :
    ((edges.filter fun edge => edge.label.isOpen query.consents).flatMap
      ((query.askedOf network).follow caret config)).filterMap pick =
      (edges.flatMap (query.follow caret config)).filterMap pick := by
  induction edges with
  | nil => rfl
  | cons edge rest ih =>
    obtain ⟨label, target⟩ := edge
    rw [List.flatMap_cons] at hcut
    have hrest := ih fun rule hevent => hcut rule (List.mem_append_right _ hevent)
    by_cases hopen : label.isOpen query.consents
    · have hedge : (query.askedOf network).follow caret config ⟨label, target⟩ =
          query.follow caret config ⟨label, target⟩ := by
        by_cases hcall : ∃ rule, label = .call rule
        · obtain ⟨rule, rfl⟩ := hcall
          exact call_askedOf hsheds fun hevent => hcut rule (List.mem_append_left _ hevent)
        · exact follow_askedOf_of_ne_call hsheds hopen (not_exists.mp hcall)
      rw [List.filter_cons, if_pos hopen, List.flatMap_cons, List.flatMap_cons,
        List.filterMap_append, List.filterMap_append, hrest, hedge]
    · have hedge : (query.follow caret config ⟨label, target⟩).filterMap pick = [] := by
        cases label with
        | guard predicate =>
          have hclosed : ¬ query.consents predicate := hopen
          simp [follow, hclosed, hpick]
        | epsilon | token _ | oneOf _ | noneOf _ | any | call _ => exact absurd rfl hopen
      rw [List.filter_cons, if_neg hopen, List.flatMap_cons, List.filterMap_append, hrest, hedge,
        List.nil_append]

/-- Whatever is picked from the effects of a configuration apart from closed guards is the same
in both networks, unless a rule whose call is cut there is nullable in one of them only. -/
theorem filterMap_step_askedOf {α : Type} {pick : Effect → Option α}
    (hpick : ∀ predicate, pick (.event (.predicateRejected predicate)) = none)
    (hcut : ∀ rule, .event (.recursionCut rule config.index) ∈ query.step caret config →
      network.isNullable rule = query.network.isNullable rule) :
    ((query.askedOf network).step caret config).filterMap pick =
      (query.step caret config).filterMap pick := by
  have hstate : (query.askedOf network).network.state? config.state =
      (query.network.state? config.state).map (State.prune query.consents) :=
    hsheds.state?_eq config.state
  unfold step at hcut ⊢
  rw [hstate]
  generalize query.network.state? config.state = state? at hcut ⊢
  cases state? with
  | none => rfl
  | some state =>
    -- What kind of state it is does not depend on its edges.
    simp only [Option.map_some] at hcut ⊢
    have hstop : (state.prune query.consents).isStop = state.isStop := rfl
    rw [hstop]
    split
    · rfl
    · next hgoes =>
      rw [if_neg hgoes] at hcut
      rw [State.prune, ← List.filter_reverse]
      exact filterMap_follow_askedOf hsheds hpick hcut

/-- No effect is gained if no rule becomes nullable. -/
theorem step_askedOf_subset (hfinal : query.network.StopsFinal)
    (hnullable : ∀ rule, network.isNullable rule → query.network.isNullable rule) :
    (query.askedOf network).step caret config ⊆ query.step caret config := by
  intro effect heffect
  rcases mem_step_cases heffect with ⟨hstop, heffect⟩ | ⟨label, target, hedge, heffect⟩
  · exact mem_step_of_isStop (hsheds.isStop_iff.mp hstop) heffect
  · obtain ⟨hedge, hopen⟩ := hsheds.hasEdge_iff.mp hedge
    refine mem_step_of_hasEdge hfinal hedge ?_
    by_cases hcall : ∃ rule, label = .call rule
    · obtain ⟨rule, rfl⟩ := hcall
      obtain ⟨entry, hentry, heffect⟩ := mem_call_iff.mp heffect
      refine mem_call_iff.mpr ⟨entry, (hsheds.entry?_eq rule).symm.trans hentry, ?_⟩
      -- The conditions of a call are the same but for the last: that a cut rule is nullable.
      refine heffect.imp_right (And.imp_right (Or.imp_right (And.imp_right (Or.imp_left ?_))))
      exact And.imp_right (Or.imp_right (And.imp_left (hnullable rule)))
    · rwa [follow_askedOf_of_ne_call hsheds hopen (not_exists.mp hcall)] at heffect

end Steps

/-! ## Walks in both networks -/

section Walks

variable (hsheds : query.network.Sheds query.consents network)
include hsheds

/-- Walks in both networks yield the same, if every rule of which a call was cut is nullable in
both or in neither. -/
theorem candidates_walk_askedOf (hindex : first.index ≤ query.tokens.size)
    (hindex' : first.index ≤ (query.askedOf network).tokens.size) (hstack : first.stack ≠ [])
    (hcut : ∀ rule index, .recursionCut rule index ∈ (query.walk caret first hindex).trace →
      network.isNullable rule = query.network.isNullable rule) :
    ((query.askedOf network).walk caret first hindex').candidates =
      (query.walk caret first hindex).candidates := by
  have hsame : ∀ config, query.Reaches caret first config → ∀ rule,
      .event (.recursionCut rule config.index) ∈ query.step caret config →
      network.isNullable rule = query.network.isNullable rule := by
    intro config hreach rule hevent
    exact hcut rule config.index ((mem_trace_walk_iff hindex hstack).mpr ⟨config, hreach, hevent⟩)
  refine (candidates_walk_congr hindex hindex' hstack ?_ ?_).symm
  · intro config hreach
    exact (filterMap_step_askedOf hsheds (fun _ => rfl) (hsame config hreach)).symm
  · intro config hreach
    exact (filterMap_step_askedOf hsheds (fun _ => rfl) (hsame config hreach)).symm

/-- A walk finds nothing new without the guards if no rule becomes nullable. -/
theorem Finds.of_askedOf (hfinal : query.network.StopsFinal)
    (hnullable : ∀ rule, network.isNullable rule → query.network.isNullable rule)
    {finding : Finding} (h : (query.askedOf network).Finds caret first finding) :
    query.Finds caret first finding := by
  obtain ⟨config, hreach, hreport⟩ := h
  refine ⟨config, ?_, step_askedOf_subset hsheds hfinal hnullable hreport⟩
  have hleads : ∀ before after, (query.askedOf network).Leads caret before after →
      query.Leads caret before after := by
    rintro before after ⟨move, hmove, hafter⟩
    exact ⟨move, step_askedOf_subset hsheds hfinal hnullable hmove, hafter⟩
  exact Relation.ReflTransGen.mono hleads _ _ hreach

end Walks

/-! ## Candidates of accepted requests -/

/-- Lack of consent has the effect of missing edges while the nullable rules stay as they were.
If they are decided anew, nothing is gained, and nothing is lost unless a call was cut of a
rule that is no longer nullable. -/
theorem answer_askedOf_prune {draft : Draft} {request : Request} {outcome : Outcome}
    (hbuild : draft.build = .ok query.network) (hanswer : query.answer request = .ok outcome) :
    (draft.prune query.consents).build = .ok (query.network.prune query.consents) ∧
      (∃ stripped, (query.askedOf (query.network.strip query.consents)).answer request =
          .ok stripped ∧ stripped.candidates = outcome.candidates) ∧
      ∃ pruned, (query.askedOf (query.network.prune query.consents)).answer request =
          .ok pruned ∧
        (∀ terminal path, pruned.candidates.hasToken terminal path →
          outcome.candidates.hasToken terminal path) ∧
        (∀ rule path, pruned.candidates.hasRule rule path →
          outcome.candidates.hasRule rule path) ∧
        ((∀ rule index, .recursionCut rule index ∈ outcome.trace →
            query.network.isNullable rule →
            (query.network.prune query.consents).isNullable rule) →
          pruned.candidates = outcome.candidates) := by
  have hfinal := Draft.stopsFinal_of_build hbuild
  have hnullable : ∀ rule, (query.network.prune query.consents).isNullable rule →
      query.network.isNullable rule := fun _ => Network.isNullable_of_prune hbuild
  have hstrip := query.network.sheds_strip query.consents
  have hprune := query.network.sheds_prune query.consents
  refine ⟨Draft.build_prune hbuild query.consents, ?_, ?_⟩
  · obtain ⟨first, hindex, hindex', hstack, rfl, hanswer'⟩ :=
      exists_walk_of_answer_askedOf hstrip hanswer
    exact ⟨_, hanswer', candidates_walk_askedOf hstrip hindex hindex' hstack fun _ _ _ => rfl⟩
  · obtain ⟨first, hindex, hindex', hstack, rfl, hanswer'⟩ :=
      exists_walk_of_answer_askedOf hprune hanswer
    refine ⟨_, hanswer', ?_, ?_, ?_⟩
    · intro terminal path
      rw [hasToken_walk_iff hindex' hstack, hasToken_walk_iff hindex hstack]
      rintro ⟨finding, hfinds, hbrings⟩
      exact ⟨finding, hfinds.of_askedOf hprune hfinal hnullable, hbrings⟩
    · intro rule path
      rw [hasRule_walk_iff hindex' hstack, hasRule_walk_iff hindex hstack]
      rintro ⟨finding, hfinds, hbrings⟩
      exact ⟨finding, hfinds.of_askedOf hprune hfinal hnullable, hbrings⟩
    · intro hcut
      apply candidates_walk_askedOf hprune hindex hindex' hstack
      intro rule index hevent
      exact Bool.eq_iff_iff.mpr ⟨hnullable rule, hcut rule index hevent⟩

/-- Two items asked without any consent of the network of a draft with one rule, which is
nullable. -/
def refusing (draft : Draft) : Query where
  network := { toBlueprint := draft.toBlueprint, nullable := #[true] }
  tokens := #[⟨0⟩, ⟨0⟩]
  consents := fun _ => false

/-- Beside an epsilon edge, a closed guard may as well be missing, although calls are cut. -/
theorem answer_askedOf_prune_epsilon :
    let draft := (listDraft .epsilon).addEdge ⟨0⟩ ⟨.guard ⟨0⟩, ⟨1⟩⟩
    let query := refusing draft
    draft.build = .ok query.network ∧
      ∃ outcome, query.answer (.replay ⟨0⟩ 0 1) = .ok outcome ∧ 0 < outcome.recursionCut ∧
        0 < outcome.predicatesRejected ∧
        ∃ pruned, (query.askedOf (query.network.prune query.consents)).answer (.replay ⟨0⟩ 0 1) =
          .ok pruned ∧ pruned.candidates = outcome.candidates := by
  intro draft query
  have hbuild : draft.build = .ok query.network := by decide +kernel
  have hreplay : query.collectFromRule ⟨0⟩ 0 1 =
      .ok (query.outcomeAfter 1 ⟨⟨0⟩, 0, [⟨⟨0⟩, 0, none⟩]⟩ 9) :=
    collectFromRule_eq_outcome (by decide) (by decide) rfl rfl (by decide +kernel)
  have hok : query.answer (.replay ⟨0⟩ 0 1) = .ok _ := hreplay
  obtain ⟨-, -, pruned, hpruned, -, -, hsame⟩ := answer_askedOf_prune hbuild hok
  refine ⟨hbuild, _, hok, by decide +kernel, by decide +kernel, pruned, hpruned, hsame ?_⟩
  -- The rule of every cut call is nullable by the epsilon edge.
  have htrace : (query.outcomeAfter 1 ⟨⟨0⟩, 0, [⟨⟨0⟩, 0, none⟩]⟩ 9).trace.toList ⊆
      [.predicateRejected ⟨0⟩, .recursionCut ⟨0⟩ 0, .outermostFinished ⟨0⟩] := by
    decide +kernel
  intro rule index hevent _
  obtain ⟨rfl, -⟩ : rule = ⟨0⟩ ∧ index = 0 := by
    simpa using htrace (Array.mem_toList_iff.mpr hevent)
  decide +kernel

/-- Where a closed guard is the only way to match nothing, the item after a cut call is offered
all the same, and with the edge taken out and the network built anew it is not. -/
theorem answer_askedOf_prune_ne :
    let query := refusing (listDraft (.guard ⟨0⟩))
    (listDraft (.guard ⟨0⟩)).build = .ok query.network ∧
      ∃ outcome pruned, query.answer (.replay ⟨0⟩ 0 0) = .ok outcome ∧
        (query.askedOf (query.network.prune query.consents)).answer (.replay ⟨0⟩ 0 0) =
          .ok pruned ∧
        outcome.candidates.terminals = [⟨0⟩] ∧ pruned.candidates.terminals = [] := by
  intro query
  have hreplay : query.collectFromRule ⟨0⟩ 0 0 =
      .ok (query.outcomeAfter 0 ⟨⟨0⟩, 0, [⟨⟨0⟩, 0, none⟩]⟩ 2) :=
    collectFromRule_eq_outcome (by decide) (by decide) rfl rfl (by decide +kernel)
  have hreplay' : (query.askedOf (query.network.prune query.consents)).collectFromRule ⟨0⟩ 0 0 =
      .ok ((query.askedOf (query.network.prune query.consents)).outcomeAfter 0
        ⟨⟨0⟩, 0, [⟨⟨0⟩, 0, none⟩]⟩ 1) :=
    collectFromRule_eq_outcome (by decide) (by decide) rfl rfl (by decide +kernel)
  exact ⟨by decide +kernel, _, _, hreplay, hreplay', by decide +kernel, by decide +kernel⟩

end Query

end CodeCompletion
