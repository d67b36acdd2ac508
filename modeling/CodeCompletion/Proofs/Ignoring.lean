import CodeCompletion.Proofs.Build
import CodeCompletion.Proofs.Requests

/-!
# Ignored terminals

A terminal that is ignored is left out where it would be offered, and nothing else changes.
Two walks of which one ignores more stay together round by round: they take up the same
configurations in the same order and report the same events. Only what they record differs, and
with it the last line of the log. The terminals are missing with all their paths, and since fewer
offers are new, fewer starts of active rules may have been noted.

## Main definitions

* `Offer.without`, `Finding.without`, `Effect.without`: what is left without some terminals
* `Query.ignoring`: the same query with more terminals ignored
* `Candidates.Leaves`: what is recorded without some terminals
* `Progress.Shadows`: a walk that ignores more, at the same point

## Main results

* `Query.step_ignoring`: a step of a walk that ignores more
* `Candidates.Leaves.record`, `Progress.Shadows.round`: what records and rounds keep
* `Query.answer_ignoring`: the answers of both queries
* `Query.log_ignoring_ne_items`: what is left is listed, so the logs need not be the same
-/

set_option autoImplicit false

namespace CodeCompletion

variable {terminals : List TerminalId}

/-- What is offered apart from some terminals. -/
def Offer.without (terminals : List TerminalId) : Offer → Offer
  | .terminals offered => .terminals (offered.filter fun terminal => terminal ∉ terminals)
  | .rule preferred start => .rule preferred start

/-- What is found apart from some terminals. -/
def Finding.without (terminals : List TerminalId) (finding : Finding) : Finding :=
  { finding with offer := finding.offer.without terminals }

/-- The effect, if it is a report, apart from some terminals. -/
def Effect.without (terminals : List TerminalId) : Effect → Effect
  | .move way => .move way
  | .report finding => .report (finding.without terminals)
  | .event news => .event news

theorem Finding.bringsToken_without_iff {finding : Finding} {terminal : TerminalId} {path : Path} :
    (finding.without terminals).BringsToken terminal path ↔
      finding.BringsToken terminal path ∧ terminal ∉ terminals := by
  unfold BringsToken without
  cases finding.offer with
  | terminals offered => simp [Offer.without, and_assoc]
  | rule rule start => simp [Offer.without]

theorem Finding.bringsRule_without_iff {finding : Finding} {rule : RuleId} {path : Path} :
    (finding.without terminals).BringsRule rule path ↔ finding.BringsRule rule path := by
  unfold BringsRule without
  cases finding.offer with
  | terminals offered => simp [Offer.without]
  | rule rule start => simp [Offer.without]

/-! ## Steps -/

namespace Query

variable {query : Query} {caret : ℕ} {config : Config}

/-- The query with more terminals ignored. -/
def ignoring (query : Query) (terminals : List TerminalId) : Query :=
  { query with options := query.options.ignoring terminals }

theorem offer_ignoring (label : Label) :
    (query.ignoring terminals).offer label = (query.offer label).without terminals := by
  have hignored : ∀ terminal, terminal ∉ (query.ignoring terminals).options.ignored ↔
      terminal ∉ terminals ∧ terminal ∉ query.options.ignored := by
    intro terminal
    simp [ignoring, Options.ignoring, Std.ExtTreeSet.mem_insertMany_list, not_or, and_comm]
  simp only [offer, Offer.without, List.filter_filter, hignored, Bool.decide_and]
  rfl

/-- The rule that stands for what lies beneath it is offered as before. -/
theorem finding_ignoring (stack : CallStack) (offer : Offer) :
    (query.ignoring terminals).finding stack (offer.without terminals) =
      (query.finding stack offer).without terminals := by
  have henclosing : (query.ignoring terminals).enclosing? stack = query.enclosing? stack := rfl
  unfold finding
  rw [henclosing]
  unfold enclosing?
  split <;> rfl

theorem call_ignoring (rule : RuleId) (target : StateId) :
    (query.ignoring terminals).call caret config rule target =
      (query.call caret config rule target).map (Effect.without terminals) := by
  have hfinding : (query.ignoring terminals).finding config.stack (.rule rule config.index) =
      (query.finding config.stack (.rule rule config.index)).without terminals :=
    finding_ignoring config.stack (.rule rule config.index)
  have hnetwork : (query.ignoring terminals).network = query.network := rfl
  unfold call
  rw [hfinding, hnetwork]
  cases query.network.entry? rule with
  | none => rfl
  | some entry =>
    simp only [apply_ite (List.map (Effect.without terminals)), List.map_cons, List.map_nil,
      Effect.without]
    rfl

theorem consume_ignoring (label : Label) (target : StateId) :
    (query.ignoring terminals).consume caret config label target =
      (query.consume caret config label target).map (Effect.without terminals) := by
  have htokens : (query.ignoring terminals).tokens = query.tokens := rfl
  unfold consume
  rw [offer_ignoring, finding_ignoring, htokens]
  cases query.tokens[config.index]?.filter fun token => label.accepts token with
  | none =>
    simp only [apply_ite (List.map (Effect.without terminals)), List.map_cons, List.map_nil,
      Effect.without]
  | some token =>
    simp only [apply_ite (List.map (Effect.without terminals)), List.map_cons, List.map_nil,
      Effect.without]
    rfl

theorem follow_ignoring (edge : Edge) :
    (query.ignoring terminals).follow caret config edge =
      (query.follow caret config edge).map (Effect.without terminals) := by
  obtain ⟨label, target⟩ := edge
  cases label with
  | epsilon => rfl
  | guard predicate =>
    by_cases hconsents : query.consents predicate
    · simp [follow, ignoring, hconsents, Effect.without]
    · simp [follow, ignoring, hconsents, Effect.without]
  | call rule => exact call_ignoring rule target
  | token _ | oneOf _ | noneOf _ | any =>
    rw [follow_of_consumes rfl, follow_of_consumes rfl]
    exact consume_ignoring _ _

/-- A step of a walk that ignores more has the same effects, apart from the terminals. -/
theorem step_ignoring (config : Config) :
    (query.ignoring terminals).step caret config =
      (query.step caret config).map (Effect.without terminals) := by
  have hnetwork : (query.ignoring terminals).network = query.network := rfl
  unfold step
  rw [hnetwork]
  cases query.network.state? config.state with
  | none => rfl
  | some state =>
    dsimp only
    split
    · unfold finish
      split <;> rfl
    · rw [List.map_flatMap]
      exact List.flatMap_congr fun edge _ => follow_ignoring edge

end Query

/-! ## Records -/

/-- The other candidates are what is left of these without some terminals: the pairs of all
other terminals, the same rules, and no later starts of active rules. -/
structure Candidates.Leaves (candidates : Candidates) (terminals : List TerminalId)
    (candidates' : Candidates) : Prop where
  hasToken_iff : ∀ terminal path, candidates'.hasToken terminal path ↔
    candidates.hasToken terminal path ∧ terminal ∉ terminals
  rules_eq : candidates'.rules = candidates.rules
  notedFrom : ∀ rule start, candidates'.NotedFrom rule start → candidates.NotedFrom rule start

namespace Candidates

variable {candidates candidates' : Candidates}

theorem leaves_empty (terminals : List TerminalId) : ({} : Candidates).Leaves terminals {} where
  hasToken_iff terminal path := by simp [not_hasToken_empty]
  rules_eq := rfl
  notedFrom _ _ h := h

theorem Leaves.hasRule_iff (h : candidates.Leaves terminals candidates') (rule : RuleId)
    (path : Path) : candidates'.hasRule rule path ↔ candidates.hasRule rule path := by
  rw [hasRule, h.rules_eq, hasRule]

/-- What is new without the terminals is new with them. -/
theorem Leaves.lacks (h : candidates.Leaves terminals candidates') {finding : Finding}
    (hnew : candidates'.Lacks (finding.without terminals)) : candidates.Lacks finding := by
  rcases hnew with ⟨terminal, path, hbrings, hnew⟩ | ⟨rule, path, hbrings, hnew⟩
  · obtain ⟨hbrings, hkept⟩ := Finding.bringsToken_without_iff.mp hbrings
    exact Or.inl ⟨terminal, path, hbrings,
      fun hold => hnew ((h.hasToken_iff terminal path).mpr ⟨hold, hkept⟩)⟩
  · exact Or.inr ⟨rule, path, Finding.bringsRule_without_iff.mp hbrings,
      mt (h.hasRule_iff rule path).mpr hnew⟩

theorem Leaves.record (h : candidates.Leaves terminals candidates') (finding : Finding) :
    (candidates.record finding).Leaves terminals
      (candidates'.record (finding.without terminals)) where
  hasToken_iff terminal path := by
    rw [hasToken_record, hasToken_record, h.hasToken_iff, Finding.bringsToken_without_iff,
      or_and_right]
  rules_eq := by
    rw [(record_eq _ _).2, (record_eq _ _).2, Finding.without]
    cases finding.offer with
    | terminals offered => simp only [Offer.without, addOffer, rules_addTokens, h.rules_eq]
    | rule preferred start => simp only [Offer.without, addOffer, addRule, h.rules_eq]
  notedFrom rule start hnoted := by
    rw [notedFrom_record] at hnoted ⊢
    rcases hnoted with hold | ⟨hnew, hopen⟩
    · exact Or.inl (h.notedFrom rule start hold)
    · exact Or.inr ⟨h.lacks hnew, hopen⟩

/-- As maps: the terminals are taken out with all their paths. -/
theorem Leaves.tokens_eq (h : candidates.Leaves terminals candidates')
    (hgrounded : candidates.Grounded) (hgrounded' : candidates'.Grounded) :
    candidates'.tokens = candidates.tokens.filter fun terminal _ => terminal ∉ terminals := by
  have hfilter : ∀ terminal : TerminalId,
      (candidates.tokens.filter fun terminal _ => terminal ∉ terminals)[terminal]? =
        if terminal ∈ terminals then none else candidates.tokens[terminal]? := by
    intro terminal
    rw [Std.ExtTreeMap.getElem?_filter']
    cases candidates.tokens[terminal]? with
    | none => simp
    | some paths => by_cases hterminal : terminal ∈ terminals <;> simp [hterminal]
  have hrest : Grounded { candidates with
      tokens := candidates.tokens.filter fun terminal _ => terminal ∉ terminals } := by
    intro terminal paths hpaths
    rw [hfilter] at hpaths
    split at hpaths
    · cases hpaths
    · exact hgrounded terminal paths hpaths
  refine hgrounded'.tokens_eq hrest fun terminal path => ?_
  rw [h.hasToken_iff, hasToken, hasToken, hfilter]
  by_cases hterminal : terminal ∈ terminals
  · simp [hterminal]
  · simp [hterminal]

end Candidates

/-! ## Walks -/

namespace Progress

variable {query : Query} {caret : ℕ} {progress progress' : Progress}

/-- The other walk is at the same point, and it has recorded what is left without some
terminals. -/
def Shadows (progress : Progress) (terminals : List TerminalId) (progress' : Progress) : Prop :=
  ∃ candidates, progress.candidates.Leaves terminals candidates ∧
    progress' = { progress with candidates }

/-- A move neither reads nor changes what has been recorded. -/
theorem move_withCandidates (progress : Progress) (candidates : Candidates) (origin : Pending)
    (way : Move) :
    Progress.move { progress with candidates } origin way =
        { progress.move origin way with candidates } ∧
      (progress.move origin way).candidates = progress.candidates := by
  cases way with
  | goto state | advance state | enter state frame => exact ⟨rfl, rfl⟩
  | leave state =>
    simp only [Progress.move]
    split <;> exact ⟨rfl, rfl⟩

theorem Shadows.apply (h : progress.Shadows terminals progress') (origin : Pending)
    (effect : Effect) :
    (progress.apply origin effect).Shadows terminals
      (progress'.apply origin (effect.without terminals)) := by
  obtain ⟨candidates, hleaves, rfl⟩ := h
  cases effect with
  | move way =>
    obtain ⟨hmove, hcandidates⟩ := move_withCandidates progress candidates origin way
    exact ⟨candidates, hcandidates.symm ▸ hleaves, hmove⟩
  | report finding => exact ⟨_, hleaves.record finding, rfl⟩
  | event news => exact ⟨_, hleaves, rfl⟩

theorem Shadows.foldl_apply (h : progress.Shadows terminals progress') (origin : Pending)
    (effects : List Effect) :
    (effects.foldl (Progress.apply origin) progress).Shadows terminals
      ((effects.map (Effect.without terminals)).foldl (Progress.apply origin) progress') := by
  induction effects generalizing progress progress' with
  | nil => exact h
  | cons effect effects ih => exact ih (h.apply origin effect)

/-- One round leaves both walks at the same point. -/
theorem Shadows.round (h : progress.Shadows terminals progress') :
    (progress.round query caret).Shadows terminals
      (progress'.round (query.ignoring terminals) caret) := by
  obtain ⟨candidates, hleaves, rfl⟩ := h
  obtain ⟨table, pending, visited, revisited, recorded, trace⟩ := progress
  cases pending with
  | nil => exact ⟨candidates, hleaves, rfl⟩
  | cons origin rest =>
    -- Both walks ask the same marks whether `origin` has been visited.
    simp only [Progress.round]
    split
    · exact ⟨candidates, hleaves, rfl⟩
    · rw [explore, explore, Query.step_ignoring]
      refine Shadows.foldl_apply ?_ origin _
      exact ⟨candidates, hleaves, rfl⟩

end Progress

namespace Query

variable {query : Query} {caret : ℕ} {first : Config} {request : Request} {outcome : Outcome}

theorem shadows_rounds (terminals : List TerminalId) (n : ℕ) :
    (query.rounds caret first n).Shadows terminals
      ((query.ignoring terminals).rounds caret first n) := by
  induction n with
  | zero => exact ⟨_, Candidates.leaves_empty terminals, rfl⟩
  | succ n ih =>
    rw [rounds_succ, rounds_succ]
    exact ih.round

/-- A walk that ignores more terminals yields the same apart from what it has recorded and lists at
its end, and of this it has recorded what is left without the terminals. -/
theorem walk_ignoring (terminals : List TerminalId) (hindex : first.index ≤ query.tokens.size)
    (hindex' : first.index ≤ (query.ignoring terminals).tokens.size) :
    ∃ candidates, (query.walk caret first hindex).candidates.Leaves terminals candidates ∧
      (query.ignoring terminals).walk caret first hindex' =
        { query.walk caret first hindex with
          candidates, listing := candidates.text query.network.vocabulary } := by
  obtain ⟨n, hdone, hwalk⟩ := exists_walk_eq caret hindex
  have hshadows : (query.rounds caret first n).Shadows terminals
      ((query.ignoring terminals).rounds caret first n) := shadows_rounds terminals n
  obtain ⟨candidates, hleaves, hrounds⟩ := hshadows
  have hdone' : ((query.ignoring terminals).rounds caret first n).pending = [] := by
    rw [hrounds]
    exact hdone
  refine ⟨candidates, ?_, ?_⟩
  · rw [hwalk]
    exact hleaves
  · rw [walk_eq_outcome hindex' hdone', outcomeAfter, hrounds, hwalk]
    rfl

/-! ## Answers -/

/-- If more terminals are ignored, an accepted request is answered with the same counts, events
and rules. The terminals are taken out with all their paths, and starts are given for no other
active rules and none is later. The log differs in its last line at most, in which the candidates
are listed that are left. -/
theorem answer_ignoring (terminals : List TerminalId)
    (hanswer : query.answer request = .ok outcome) :
    ∃ outcome', (query.ignoring terminals).answer request = .ok outcome' ∧
      outcome' = { outcome with
        candidates := outcome'.candidates, listing := outcome'.listing } ∧
      outcome'.log.pop = outcome.log.pop ∧
      outcome'.log.back? =
        some (.collected (outcome'.candidates.text query.network.vocabulary)) ∧
      outcome'.candidates.tokens =
        (outcome.candidates.tokens.filter fun terminal _ => terminal ∉ terminals) ∧
      outcome'.candidates.rules = outcome.candidates.rules ∧
      ∀ rule start, outcome'.candidates.start? rule = some start →
        ∃ late, outcome.candidates.start? rule = some late ∧ start ≤ late := by
  have hplaces : query.network.SharesPlaces (query.ignoring terminals).network :=
    .refl query.network
  obtain ⟨first, hindex, hindex', -, -, hstack, rfl, hanswer'⟩ :=
    exists_walk_of_answer_of_checkPreferred hplaces rfl id hanswer
  obtain ⟨candidates, hleaves, hwalk⟩ := walk_ignoring terminals hindex hindex'
  have hgrounded :
      ((query.ignoring terminals).walk request.caret first hindex').candidates.Grounded :=
    grounded_walk hindex' hstack
  rw [hwalk] at hgrounded
  have hlast := back?_log_of_answer hanswer'
  refine ⟨_, hanswer', by rw [hwalk], ?_, hlast, ?_, ?_, ?_⟩
  · rw [hwalk, Outcome.pop_log, Outcome.pop_log]
  · rw [hwalk]
    exact hleaves.tokens_eq (grounded_walk hindex hstack) hgrounded
  · rw [hwalk, hleaves.rules_eq]
  · intro rule start hstart
    rw [hwalk] at hstart
    exact hleaves.notedFrom rule start ⟨start, hstart, Nat.le_refl _⟩

/-- After the first of two items another item is offered. If items are ignored it is not, in a
walk that cuts the same calls. -/
theorem answer_ignoring_items :
    let query := itemQuery {}
    ∃ outcome outcome', query.answer (.replay ⟨0⟩ 0 1) = .ok outcome ∧
      (query.ignoring [⟨0⟩]).answer (.replay ⟨0⟩ 0 1) = .ok outcome' ∧
      outcome.candidates.hasToken ⟨0⟩ [⟨0⟩] ∧ ¬ outcome'.candidates.hasToken ⟨0⟩ [⟨0⟩] ∧
      0 < outcome.recursionCut ∧ outcome'.trace = outcome.trace := by
  intro query
  have hok : query.answer (.replay ⟨0⟩ 0 1) =
      .ok (query.outcomeAfter 1 ⟨⟨0⟩, 0, [⟨⟨0⟩, 0, none⟩]⟩ 9) :=
    answer_replay_eq_outcome (by decide) (by decide) rfl rfl (by decide +kernel)
  obtain ⟨outcome', hok', hsame, -, -, htokens, -, -⟩ := answer_ignoring [⟨0⟩] hok
  refine ⟨_, outcome', hok, hok', by decide +kernel, ?_, by decide +kernel, by rw [hsame]⟩
  rw [Candidates.hasToken, htokens, Std.ExtTreeMap.getElem?_filter']
  simp

/-- The log shows that an item is offered, and if items are ignored it does not, so its last line
differs. -/
theorem log_ignoring_ne_items :
    let query := itemQuery {}
    (listDraft .epsilon).build = .ok query.network ∧
      ∃ outcome outcome', query.answer (.replay ⟨0⟩ 0 1) = .ok outcome ∧
        (query.ignoring [⟨0⟩]).answer (.replay ⟨0⟩ 0 1) = .ok outcome' ∧
        outcome.log.back? = some (.collected "item: [items]\n") ∧
        outcome'.log.back? = some (.collected "") ∧ outcome'.log ≠ outcome.log := by
  intro query
  have hok : query.answer (.replay ⟨0⟩ 0 1) =
      .ok (query.outcomeAfter 1 ⟨⟨0⟩, 0, [⟨⟨0⟩, 0, none⟩]⟩ 9) :=
    answer_replay_eq_outcome (by decide) (by decide) rfl rfl (by decide +kernel)
  have hok' : (query.ignoring [⟨0⟩]).answer (.replay ⟨0⟩ 0 1) =
      .ok ((query.ignoring [⟨0⟩]).outcomeAfter 1 ⟨⟨0⟩, 0, [⟨⟨0⟩, 0, none⟩]⟩ 9) :=
    answer_replay_eq_outcome (by decide) (by decide) rfl rfl (by decide +kernel)
  have hlast : (query.outcomeAfter 1 ⟨⟨0⟩, 0, [⟨⟨0⟩, 0, none⟩]⟩ 9).log.back? =
      some (.collected "item: [items]\n") := by
    rw [Outcome.back?_log]
    decide +kernel
  have hlast' : ((query.ignoring [⟨0⟩]).outcomeAfter 1
      ⟨⟨0⟩, 0, [⟨⟨0⟩, 0, none⟩]⟩ 9).log.back? = some (.collected "") := by
    rw [Outcome.back?_log]
    decide +kernel
  refine ⟨build_listDraft_epsilon, _, _, hok, hok', hlast, hlast', fun hsame => ?_⟩
  rw [← hsame, hlast'] at hlast
  simp at hlast

end Query

end CodeCompletion
