import CodeCompletion.Proofs.Nullable
import CodeCompletion.Proofs.Tally

/-!
# Networks with their edges in another order

A walk takes the edges of a state in their order, so the order decides which way is gone
first, which stack gets which number, and how often a configuration has come up before it
is taken up. None of this shows in the answer: a configuration leads to the same
configurations, findings and events in whatever order its edges stand, so that the walks
explore the same, offer the same, and count the same.

## Main definitions

* `State.Rearranges`, `Network.Rearranges`: the same but for the order of edges
* `Outcome.Agrees`: the same but for the order of events
* `Query.Exhausts`: a walk has explored all that can be reached, each configuration once

## Main results

* `Network.Rearranges.isNullable_eq`: the same rules are nullable
* `Query.step_withNetwork_perm`: a configuration has the same effects in another order
* `Query.agrees_walk_of_step_perm`: walks whose steps have the same effects agree
* `Query.answer_rearranged`: answers do not depend on the order of edges
-/

set_option autoImplicit false

namespace CodeCompletion

/-- The same state with its edges in another order. -/
structure State.Rearranges (state state' : State) : Prop where
  place_eq : state'.toPlace = state.toPlace
  edges : state'.edges.Perm state.edges

theorem State.Rearranges.isStop_eq {state state' : State} (h : state.Rearranges state') :
    state'.isStop = state.isStop := by
  rw [isStop, isStop, h.place_eq]

/-- The same tables but for the order in which edges leave their states. Which rules are
nullable is not said. -/
structure Network.Rearranges (network network' : Network) : Prop where
  states : List.Forall₂ State.Rearranges network.states.toList network'.states.toList
  rules_eq : network'.rules = network.rules
  vocabulary_eq : network'.vocabulary = network.vocabulary

/-! ## Networks -/

namespace Network.Rearranges

variable {network network' : Network} {source target : StateId} {label : Label}

theorem symm (h : network.Rearranges network') : network'.Rearranges network where
  states := List.Forall₂.flip (h.states.imp fun _ _ hstate =>
    ⟨hstate.place_eq.symm, hstate.edges.symm⟩)
  rules_eq := h.rules_eq.symm
  vocabulary_eq := h.vocabulary_eq.symm

theorem state?_cases (h : network.Rearranges network') (id : StateId) :
    network.state? id = none ∧ network'.state? id = none ∨
      ∃ state state', network.state? id = some state ∧ network'.state? id = some state' ∧
        state.Rearranges state' := by
  simp only [state?, ← Array.getElem?_toList]
  have hlength := h.states.length_eq
  by_cases hlt : id.index < network.states.toList.length
  · have hlt' : id.index < network'.states.toList.length := hlength ▸ hlt
    exact Or.inr ⟨_, _, List.getElem?_eq_getElem hlt, List.getElem?_eq_getElem hlt',
      h.states.get hlt hlt'⟩
  · have hle := Nat.not_lt.mp hlt
    exact Or.inl ⟨List.getElem?_eq_none hle, List.getElem?_eq_none (hlength ▸ hle)⟩

theorem sharesPlaces (h : network.Rearranges network') : network.SharesPlaces network' where
  rules_eq := h.rules_eq
  place_eq id := by
    rcases h.state?_cases id with ⟨hnone, hnone'⟩ | ⟨state, state', hstate, hstate', hsame⟩
    · rw [hnone, hnone']
    · rw [hstate, hstate', Option.map_some, Option.map_some, hsame.place_eq]

theorem exists_state? (h : network.Rearranges network') {id : StateId} {state : State}
    (hstate : network.state? id = some state) :
    ∃ state', network'.state? id = some state' ∧ state.Rearranges state' := by
  rcases h.state?_cases id with ⟨hnone, -⟩ | ⟨known, state', hknown, hstate', hsame⟩
  · rw [hstate] at hnone
    cases hnone
  · obtain rfl := Option.some.inj (hstate.symm.trans hknown)
    exact ⟨state', hstate', hsame⟩

theorem hasEdge (h : network.Rearranges network') (hedge : network.HasEdge source label target) :
    network'.HasEdge source label target := by
  obtain ⟨state, hstate, hmem⟩ := hedge
  obtain ⟨state', hstate', hsame⟩ := h.exists_state? hstate
  exact ⟨state', hstate', hsame.edges.mem_iff.mpr hmem⟩

theorem isStop (h : network.Rearranges network') {state : StateId}
    (hstop : network.IsStop state) : network'.IsStop state := by
  obtain ⟨known, hknown, hkind⟩ := hstop
  obtain ⟨known', hknown', hsame⟩ := h.exists_state? hknown
  exact ⟨known', hknown', hsame.isStop_eq.trans hkind⟩

theorem silentFinish (h : network.Rearranges network') {state : StateId}
    (hfinish : network.SilentFinish state) : network'.SilentFinish state := by
  induction hfinish with
  | stop hstop => exact .stop (h.isStop hstop)
  | pass hedge hsilent _ ih => exact .pass (h.hasEdge hedge) hsilent ih
  | call hedge hentry _ _ ihcalled ih =>
    rw [← h.sharesPlaces.entry?_eq] at hentry
    exact .call (h.hasEdge hedge) hentry ihcalled ih

/-- The same rules are nullable. -/
theorem isNullable_eq {draft draft' : Draft} (h : network.Rearranges network')
    (hbuild : draft.build = .ok network) (hbuild' : draft'.build = .ok network') (rule : RuleId) :
    network'.isNullable rule = network.isNullable rule := by
  rw [Bool.eq_iff_iff, isNullable_iff hbuild', isNullable_iff hbuild, h.sharesPlaces.entry?_eq]
  constructor
  · rintro ⟨entry, hentry, hfinish⟩
    exact ⟨entry, hentry, h.symm.silentFinish hfinish⟩
  · rintro ⟨entry, hentry, hfinish⟩
    exact ⟨entry, hentry, h.silentFinish hfinish⟩

end Network.Rearranges

namespace Query

variable {query query' : Query} {network : Network} {caret : ℕ} {first config : Config}

/-- The query, asked of another network. -/
def withNetwork (query : Query) (network : Network) : Query := { query with network }

/-! ## Steps -/

section Steps

variable (hrearranges : query.network.Rearranges network)
  (hnullable : ∀ rule, network.isNullable rule = query.network.isNullable rule)
include hrearranges

theorem offer_withNetwork (label : Label) :
    (query.withNetwork network).offer label = query.offer label := by
  have hvocabulary : (query.withNetwork network).network.vocabulary = query.network.vocabulary :=
    hrearranges.vocabulary_eq
  rw [offer, hvocabulary]
  rfl

include hnullable

theorem call_withNetwork (rule : RuleId) (target : StateId) :
    (query.withNetwork network).call caret config rule target =
      query.call caret config rule target := by
  have hentry : (query.withNetwork network).network.entry? rule = query.network.entry? rule :=
    hrearranges.sharesPlaces.entry?_eq rule
  have hsame : (query.withNetwork network).network.isNullable rule =
      query.network.isNullable rule :=
    hnullable rule
  unfold call
  rw [hentry, hsame]
  rfl

theorem follow_withNetwork (edge : Edge) :
    (query.withNetwork network).follow caret config edge = query.follow caret config edge := by
  obtain ⟨label, target⟩ := edge
  cases label with
  | epsilon => rfl
  | guard predicate => rfl
  | call rule => exact call_withNetwork hrearranges hnullable rule target
  | token _ | oneOf _ | noneOf _ | any =>
    rw [follow_of_consumes rfl, follow_of_consumes rfl, consume, consume,
      offer_withNetwork hrearranges]
    rfl

/-- A configuration has the same effects in another order. -/
theorem step_withNetwork_perm (config : Config) :
    ((query.withNetwork network).step caret config).Perm (query.step caret config) := by
  unfold step
  have hcases := hrearranges.state?_cases config.state
  have hnetwork : (query.withNetwork network).network = network := rfl
  rw [hnetwork]
  rcases hcases with ⟨hnone, hnone'⟩ | ⟨state, state', hstate, hstate', hsame⟩
  · rw [hnone, hnone']
  · rw [hstate, hstate']
    dsimp only
    rw [hsame.isStop_eq]
    split
    · exact .refl _
    · have hedges : state'.edges.reverse.Perm state.edges.reverse :=
        (List.reverse_perm _).trans (hsame.edges.trans (List.reverse_perm _).symm)
      rw [funext (follow_withNetwork hrearranges hnullable)]
      exact hedges.flatMap_right _

end Steps

/-! ## Walks -/

section Walks

variable (hperm : ∀ config, (query'.step caret config).Perm (query.step caret config))
include hperm

theorem next_perm (config : Config) : (query'.next caret config).Perm (query.next caret config) :=
  (List.reverse_perm _).trans
    ((((hperm config).filterMap _).map _).trans (List.reverse_perm _).symm)

theorem reaches_iff_of_step_perm :
    query'.Reaches caret first config ↔ query.Reaches caret first config := by
  have hleads : query'.Leads caret = query.Leads caret := by
    funext before after
    simp only [Leads, (hperm before).mem_iff]
  rw [Reaches, Reaches, hleads]

theorem finds_iff_of_step_perm {finding : Finding} :
    query'.Finds caret first finding ↔ query.Finds caret first finding := by
  simp only [Finds, reaches_iff_of_step_perm hperm, (hperm _).mem_iff]

end Walks

end Query

/-- The same candidates and the same counts. Events may come in another order, and the starts
that were noted on the way are not compared. -/
structure Outcome.Agrees (outcome outcome' : Outcome) : Prop where
  tokens : outcome'.candidates.tokens = outcome.candidates.tokens
  rules : outcome'.candidates.rules = outcome.candidates.rules
  explored : outcome'.explored = outcome.explored
  revisited : outcome'.revisited = outcome.revisited
  depthPruned : outcome'.depthPruned = outcome.depthPruned
  recursionCut : outcome'.recursionCut = outcome.recursionCut
  predicatesRejected : outcome'.predicatesRejected = outcome.predicatesRejected
  stackCount : outcome'.stackCount = outcome.stackCount

namespace Query

variable {query query' : Query} {caret : ℕ} {first : Config}

/-- Walks whose steps have the same effects agree. -/
theorem agrees_walk_of_step_perm (hindex : first.index ≤ query.tokens.size)
    (hindex' : first.index ≤ query'.tokens.size) (hstack : first.stack ≠ [])
    (hperm : ∀ config, (query'.step caret config).Perm (query.step caret config)) :
    (query.walk caret first hindex).Agrees (query'.walk caret first hindex') := by
  obtain ⟨explored, built, hnodup, hexplored, hdistinct, hbuilt, htrace, hcount, hrevisited,
    hstacks⟩ := exists_tally hindex hstack
  obtain ⟨explored', built', hnodup', hexplored', hdistinct', hbuilt', htrace', hcount',
    hrevisited', hstacks'⟩ := exists_tally hindex' hstack
  -- The same configurations are within reach, so the same stacks are built.
  have hsame : explored'.Perm explored := by
    rw [List.perm_ext_iff_of_nodup hnodup' hnodup]
    intro config
    rw [hexplored, hexplored', reaches_iff_of_step_perm hperm]
  have hsame' : built'.Perm built := by
    rw [List.perm_ext_iff_of_nodup hdistinct' hdistinct]
    intro stack
    simp only [hbuilt, hbuilt', hsame.mem_iff]
  have hevents : (query'.walk caret first hindex').trace.toList.Perm
      (query.walk caret first hindex).trace.toList := by
    rw [htrace, htrace', events, events]
    exact (hsame.flatMap fun config _ => hperm config).filterMap _
  have hforward : (explored'.flatMap (query'.next caret)).length =
      (explored.flatMap (query.next caret)).length :=
    (hsame.flatMap fun config _ => next_perm hperm config).length_eq
  have hcounts : ∀ kind : Event → Bool, (query'.walk caret first hindex').trace.countP kind =
      (query.walk caret first hindex).trace.countP kind := by
    intro kind
    rw [← Array.countP_toList, ← Array.countP_toList, hevents.countP_eq]
  obtain ⟨htokens, hrules⟩ := candidates_eq_of_finds_iff hindex' hindex hstack fun finding =>
    finds_iff_of_step_perm hperm
  refine ⟨htokens, hrules, ?_, ?_, hcounts _, hcounts _, hcounts _, ?_⟩
  · rw [hcount, hcount', hsame.length_eq]
  · have hlength := hsame.length_eq
    omega
  · rw [hstacks, hstacks', hsame'.length_eq]

/-- A walk from `first` to `caret` with the given outcome has explored all that can be reached
and nothing else, each configuration in one round. -/
structure Exhausts (query : Query) (caret : ℕ) (first : Config) (outcome : Outcome) : Prop where
  ended : ∃ n, (query.rounds caret first n).pending = [] ∧
    query.outcomeAfter caret first n = outcome ∧
    (∀ visit ∈ (query.rounds caret first n).visited,
      ∃ config, (query.rounds caret first n).table.Denotes visit config) ∧
    ∀ config, (query.rounds caret first n).Explored config ↔ query.Reaches caret first config
  once : ∀ config, query.Reaches caret first config →
    ∃! n, (query.rounds caret first n).taking? = some config
  only : ∀ n config, (query.rounds caret first n).taking? = some config →
    query.Reaches caret first config

theorem exhausts_walk (hindex : first.index ≤ query.tokens.size) (hstack : first.stack ≠ []) :
    query.Exhausts caret first (query.walk caret first hindex) := by
  obtain ⟨n, hdone, hwalk⟩ := exists_walk_eq caret hindex
  refine ⟨⟨n, hdone, hwalk.symm, ?_, fun config => explored_iff_of_done hindex hstack hdone⟩,
    ?_, ?_⟩
  · intro visit hvisit
    obtain ⟨config, -, hdenotes⟩ := (mirrors_rounds caret hindex hstack n).taken_of_visited _ hvisit
    exact ⟨config, hdenotes⟩
  · intro config hreach
    exact existsUnique_taking hindex hstack ((explores_iff hindex hstack).mpr hreach)
  · intro n config htaking
    exact (explores_iff hindex hstack).mp (explores_of_taking hindex hstack htaking)

/-! ## Answers -/

/-- A request that is accepted is accepted in every network with the same edges in another
order, with the same candidates and counts. Both walks explore what can be reached, each
configuration once. -/
theorem answer_rearranged {draft draft' : Draft} {network : Network} {request : Request}
    {outcome : Outcome} (hbuild : draft.build = .ok query.network)
    (hbuild' : draft'.build = .ok network) (hrearranges : query.network.Rearranges network)
    (hanswer : query.answer request = .ok outcome) :
    ∃ first outcome', query.first? request = some first ∧
      (query.withNetwork network).first? request = some first ∧
      (query.withNetwork network).answer request = .ok outcome' ∧ outcome.Agrees outcome' ∧
      query.Exhausts request.caret first outcome ∧
      (query.withNetwork network).Exhausts request.caret first outcome' := by
  have hplaces : query.network.SharesPlaces (query.withNetwork network).network :=
    hrearranges.sharesPlaces
  obtain ⟨first, hindex, hindex', hfirst, hfirst', hstack, rfl, hanswer'⟩ :=
    exists_walk_of_answer_congr hplaces rfl rfl hanswer
  refine ⟨first, _, hfirst, hfirst', hanswer', ?_, exhausts_walk hindex hstack,
    exhausts_walk hindex' hstack⟩
  exact agrees_walk_of_step_perm hindex hindex' hstack
    (step_withNetwork_perm hrearranges (hrearranges.isNullable_eq hbuild hbuild'))

/-- The sample of a list with the edge that ends it before the call of the list. -/
def endFirstDraft : Draft :=
  { listDraft .epsilon with
    edges := #[(⟨0⟩, ⟨.epsilon, ⟨1⟩⟩), (⟨2⟩, ⟨.token ⟨0⟩, ⟨1⟩⟩), (⟨0⟩, ⟨.call ⟨0⟩, ⟨2⟩⟩)] }

/-- A list that is ended before it is called, or called before it is ended: the events come in
another order. -/
theorem answer_rearranged_itemList :
    let network : Network := { toBlueprint := endFirstDraft.toBlueprint, nullable := #[true] }
    itemList.Rearranges network ∧
      ∃ outcome outcome', (itemQuery {}).answer (.replay ⟨0⟩ 0 1) = .ok outcome ∧
        ((itemQuery {}).withNetwork network).answer (.replay ⟨0⟩ 0 1) = .ok outcome' ∧
        outcome.trace ≠ outcome'.trace ∧ outcome.Agrees outcome' := by
  intro network
  have hrearranges : itemList.Rearranges network := by
    refine ⟨?_, rfl, rfl⟩
    have hstates : itemList.states.toList = [⟨⟨⟨0⟩, .entry⟩, [⟨.call ⟨0⟩, ⟨2⟩⟩, ⟨.epsilon, ⟨1⟩⟩]⟩,
        ⟨⟨⟨0⟩, .stop⟩, []⟩, ⟨⟨⟨0⟩, .interior⟩, [⟨.token ⟨0⟩, ⟨1⟩⟩]⟩] := by
      decide +kernel
    have hstates' : network.states.toList = [⟨⟨⟨0⟩, .entry⟩, [⟨.epsilon, ⟨1⟩⟩, ⟨.call ⟨0⟩, ⟨2⟩⟩]⟩,
        ⟨⟨⟨0⟩, .stop⟩, []⟩, ⟨⟨⟨0⟩, .interior⟩, [⟨.token ⟨0⟩, ⟨1⟩⟩]⟩] := by
      decide +kernel
    rw [hstates, hstates']
    exact .cons ⟨rfl, .swap _ _ _⟩ (.cons ⟨rfl, .refl _⟩ (.cons ⟨rfl, .refl _⟩ .nil))
  have hreplay : (itemQuery {}).collectFromRule ⟨0⟩ 0 1 = .ok
      ((itemQuery {}).outcomeAfter 1 ⟨⟨0⟩, 0, [⟨⟨0⟩, 0, none⟩]⟩ 9) :=
    collectFromRule_eq_outcome (by decide) (by decide) rfl rfl (by decide +kernel)
  have hreplay' : ((itemQuery {}).withNetwork network).collectFromRule ⟨0⟩ 0 1 = .ok
      (((itemQuery {}).withNetwork network).outcomeAfter 1 ⟨⟨0⟩, 0, [⟨⟨0⟩, 0, none⟩]⟩ 9) :=
    collectFromRule_eq_outcome (by decide) (by decide) rfl rfl (by decide +kernel)
  have hok : (itemQuery {}).answer (.replay ⟨0⟩ 0 1) = .ok _ := hreplay
  have hbuild' : endFirstDraft.build = .ok network := by decide +kernel
  obtain ⟨first, outcome', -, -, hok', hagrees, -⟩ :=
    answer_rearranged build_listDraft_epsilon hbuild' hrearranges hok
  obtain rfl := Except.ok.inj (hreplay'.symm.trans hok')
  exact ⟨hrearranges, _, _, hok, hok', by decide +kernel, hagrees⟩

end Query

end CodeCompletion
