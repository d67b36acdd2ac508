import CodeCompletion.Proofs.Rearrangement
import Mathlib.Order.Bounds.Basic

/-!
# Where active rules start

A rule is active if a call of it is open where a terminal is offered. Which rules are active
does not depend on the course of a walk, but the start that is given for one does. Starts are
noted with a terminal and a path that are new together. Of two configurations that offer the
same terminals along the same path, only the one that is taken up first has its starts noted,
even if a call begins later in the other one.

## Main definitions

* `Query.Active`: a walk explores a configuration in which something is offered
* `Query.Debuts`: the configuration is the first under its path to offer some terminal
* `startsWhere`: where the calls of a rule begin in configurations of some kind

## Main results

* `Query.hasToken_rounds_iff`: what has been recorded in every round
* `Query.notedFrom_rounds_iff`: which starts have been noted in every round
* `Query.answer_start?_iff`: active rules and the starts that are given for them
-/

set_option autoImplicit false

namespace CodeCompletion

/-- The tokens at which the calls of a rule begin that are open in configurations of some
kind. -/
def startsWhere (kind : Config → Prop) (rule : RuleId) : Set ℕ :=
  {start | ∃ config, kind config ∧ ∃ frame ∈ config.stack, frame.rule = rule ∧ frame.start = start}

namespace Query

variable {query : Query} {caret : ℕ} {first config : Config} {terminal : TerminalId} {path : Path}
  {rule : RuleId} {start : ℕ}

/-- A walk from `first` explores the configuration, and some terminal is offered there. -/
def Active (query : Query) (caret : ℕ) (first config : Config) : Prop :=
  query.Explores caret first config ∧ ∃ terminal, query.Proposes caret config terminal

/-- A walk from `first` takes up the configuration in the round `n`, the terminal is offered
there, and in no earlier round the walk takes up one with the same path where it is. -/
structure Introduces (query : Query) (caret : ℕ) (first : Config) (n : ℕ) (config : Config)
    (terminal : TerminalId) : Prop where
  taken : (query.rounds caret first n).taking? = some config
  proposes : query.Proposes caret config terminal
  none_before : ∀ k < n, ∀ earlier, (query.rounds caret first k).taking? = some earlier →
    earlier.stack.path = config.stack.path → ¬ query.Proposes caret earlier terminal

/-- A walk from `first` explores the configuration, and some terminal that is offered there
has not been offered before along the same path. -/
def Debuts (query : Query) (caret : ℕ) (first config : Config) : Prop :=
  ∃ n terminal, query.Introduces caret first n config terminal

/-! ## Findings -/

section

variable (hfinal : query.network.StopsFinal) (hpreferred : query.options.preferred = ∅)
include hpreferred

/-- Where no rule is preferred, a finding lists terminals under the calls that are open. -/
theorem finding_eq (stack : CallStack) (offer : Offer) :
    query.finding stack offer = ⟨offer, stack.path, stack⟩ := by
  rw [finding, enclosing?_eq_none hpreferred, Option.getD_none]

theorem of_report_mem_step {finding : Finding} (h : .report finding ∈ query.step caret config) :
    finding.active = config.stack ∧ finding.path = config.stack.path ∧
      ∀ rule start, finding.offer ≠ .rule rule start := by
  cases Reports.of_mem_step h with
  | terminals => simp [finding_eq hpreferred, offer]
  | rule _ _ _ hmem => simp [hpreferred] at hmem

include hfinal

theorem exists_report_iff_of_preferred :
    (∃ finding, .report finding ∈ query.step caret config ∧ finding.BringsToken terminal path) ↔
      config.stack.path = path ∧ query.Proposes caret config terminal := by
  rw [exists_report_iff_proposes hfinal, and_iff_right (enclosing?_eq_none hpreferred _)]

/-- A configuration brings something new exactly if a terminal that is offered there is not
known along its path. -/
theorem exists_lacks_iff {candidates : Candidates} :
    (∃ finding ∈ query.findings caret [config], candidates.Lacks finding) ↔
      ∃ terminal, query.Proposes caret config terminal ∧
        ¬ candidates.hasToken terminal config.stack.path := by
  simp only [mem_findings_iff, List.mem_singleton, exists_eq_left]
  constructor
  · rintro ⟨finding, hreport, ⟨terminal, path, hbrings, hnew⟩ | ⟨rule, path, hbrings, -⟩⟩
    · obtain ⟨rfl, hproposes⟩ :=
        (exists_report_iff_of_preferred hfinal hpreferred).mp ⟨finding, hreport, hbrings⟩
      exact ⟨terminal, hproposes, hnew⟩
    · obtain ⟨-, start, hoffer⟩ := hbrings
      exact absurd hoffer ((of_report_mem_step hpreferred hreport).2.2 rule start)
  · rintro ⟨terminal, hproposes, hnew⟩
    obtain ⟨finding, hreport, hbrings⟩ :=
      (exists_report_iff_of_preferred hfinal hpreferred).mpr ⟨rfl, hproposes⟩
    exact ⟨finding, hreport, Or.inl ⟨terminal, _, hbrings, hnew⟩⟩

end

/-! ## Rounds -/

section

variable (hindex : first.index ≤ query.tokens.size) (hstack : first.stack ≠ [])
include hindex hstack

/-- A round records what is found where it takes up a configuration. -/
theorem candidates_rounds_succ (n : ℕ) :
    (query.rounds caret first (n + 1)).candidates =
      (query.findings caret (query.rounds caret first n).taking?.toList).foldl Candidates.record
        (query.rounds caret first n).candidates := by
  rw [(mirrors_rounds caret hindex hstack (n + 1)).candidates,
    (mirrors_rounds caret hindex hstack n).candidates, taking?_rounds hindex hstack,
    ← List.foldl_append, searched, Function.iterate_succ_apply', Search.taken_round]
  simp only [findings, List.flatMap_append, List.filterMap_append, searched]

variable (hfinal : query.network.StopsFinal) (hpreferred : query.options.preferred = ∅)
include hfinal hpreferred

theorem hasToken_rounds_iff (n : ℕ) :
    (query.rounds caret first n).candidates.hasToken terminal path ↔
      ∃ k < n, ∃ config, (query.rounds caret first k).taking? = some config ∧
        config.stack.path = path ∧ query.Proposes caret config terminal := by
  induction n with
  | zero => simp [rounds, Progress.start, Candidates.hasToken]
  | succ n ih =>
    rw [candidates_rounds_succ hindex hstack, Candidates.hasToken_foldl_record, ih]
    simp only [mem_findings_iff, Option.mem_toList]
    constructor
    · rintro (⟨k, hk, hbefore⟩ | ⟨finding, ⟨config, htaking, hreport⟩, hbrings⟩)
      · exact ⟨k, Nat.lt_succ_of_lt hk, hbefore⟩
      · exact ⟨n, Nat.lt_succ_self n, config, htaking,
          (exists_report_iff_of_preferred hfinal hpreferred).mp ⟨finding, hreport, hbrings⟩⟩
    · rintro ⟨k, hk, config, htaking, hproposes⟩
      rcases Nat.lt_succ_iff_lt_or_eq.mp hk with hk | rfl
      · exact Or.inl ⟨k, hk, config, htaking, hproposes⟩
      · obtain ⟨finding, hreport, hbrings⟩ :=
          (exists_report_iff_of_preferred hfinal hpreferred).mpr hproposes
        exact Or.inr ⟨finding, ⟨config, htaking, hreport⟩, hbrings⟩

/-- The starts that have been noted are those of configurations that were the first to offer
something along their path. -/
theorem notedFrom_rounds_iff (n : ℕ) :
    (query.rounds caret first n).candidates.NotedFrom rule start ↔
      ∃ k < n, ∃ config terminal, query.Introduces caret first k config terminal ∧
        config.stack.OpenFrom rule start := by
  induction n with
  | zero => simp [rounds, Progress.start, Candidates.NotedFrom, Candidates.start?]
  | succ n ih =>
    rw [candidates_rounds_succ hindex hstack]
    simp only [Nat.lt_succ_iff_lt_or_eq, or_and_right, exists_or, exists_eq_left, ← ih]
    cases htaking : (query.rounds caret first n).taking? with
    | none =>
      have hnone : ∀ config terminal, ¬ query.Introduces caret first n config terminal := by
        intro config terminal hintroduces
        rw [hintroduces.taken] at htaking
        cases htaking
      simp [findings, hnone]
    | some config =>
      have hactive : ∀ finding ∈ query.findings caret [config], finding.active = config.stack := by
        simp only [mem_findings_iff, List.mem_singleton, exists_eq_left]
        exact fun finding hreport => (of_report_mem_step hpreferred hreport).1
      rw [Option.toList_some, Candidates.notedFrom_foldl_record _ hactive,
        exists_lacks_iff hfinal hpreferred]
      refine or_congr_right ?_
      simp only [hasToken_rounds_iff hindex hstack hfinal hpreferred]
      -- The round takes up `config` and nothing else.
      constructor
      · rintro ⟨⟨terminal, hproposes, hnew⟩, hopen⟩
        refine ⟨config, terminal, ⟨htaking, hproposes, ?_⟩, hopen⟩
        exact fun k hk earlier htaken hpath hbefore => hnew ⟨k, hk, earlier, htaken, hpath, hbefore⟩
      · rintro ⟨other, terminal, hintroduces, hopen⟩
        obtain rfl := Option.some.inj (htaking.symm.trans hintroduces.taken)
        refine ⟨⟨terminal, hintroduces.proposes, ?_⟩, hopen⟩
        rintro ⟨k, hk, earlier, htaken, hpath, hbefore⟩
        exact hintroduces.none_before k hk earlier htaken hpath hbefore

/-- In the end the starts of all configurations have been noted that were the first to offer
something along their path. -/
theorem notedFrom_walk_iff :
    (query.walk caret first hindex).candidates.NotedFrom rule start ↔
      ∃ config, query.Debuts caret first config ∧ config.stack.OpenFrom rule start := by
  obtain ⟨n, hdone, hwalk⟩ := exists_walk_eq caret hindex
  have hcandidates : (query.walk caret first hindex).candidates =
      (query.rounds caret first n).candidates := congrArg Outcome.candidates hwalk
  rw [hcandidates, notedFrom_rounds_iff hindex hstack hfinal hpreferred]
  constructor
  · rintro ⟨k, -, config, terminal, hintroduces, hopen⟩
    exact ⟨config, ⟨k, terminal, hintroduces⟩, hopen⟩
  · rintro ⟨config, ⟨k, terminal, hintroduces⟩, hopen⟩
    refine ⟨k, ?_, config, terminal, hintroduces, hopen⟩
    -- Where nothing waits, nothing is taken up.
    by_contra hlate
    obtain ⟨j, rfl⟩ := Nat.exists_eq_add_of_le (Nat.not_lt.mp hlate)
    have htaken := hintroduces.taken
    rw [rounds_add_eq hdone, Progress.taking?, hdone] at htaken
    cases htaken

end

section

variable (hindex : first.index ≤ query.tokens.size) (hstack : first.stack ≠ [])
include hindex hstack

theorem Debuts.active (h : query.Debuts caret first config) : query.Active caret first config := by
  obtain ⟨n, terminal, hintroduces⟩ := h
  exact ⟨explores_of_taking hindex hstack hintroduces.taken, terminal, hintroduces.proposes⟩

/-- Along the path of an active configuration, some configuration was the first. -/
theorem Active.exists_debuts (h : query.Active caret first config) :
    ∃ other, query.Debuts caret first other ∧ other.stack.path = config.stack.path := by
  classical
  obtain ⟨hexplores, terminal, hproposes⟩ := h
  obtain ⟨n, htaking, -⟩ := existsUnique_taking hindex hstack hexplores
  have hsome : ∃ k other, (query.rounds caret first k).taking? = some other ∧
      other.stack.path = config.stack.path ∧ query.Proposes caret other terminal :=
    ⟨n, config, htaking, rfl, hproposes⟩
  obtain ⟨other, htaken, hpath, hother⟩ := Nat.find_spec hsome
  refine ⟨other, ⟨Nat.find hsome, terminal, htaken, hother, ?_⟩, hpath⟩
  intro k hk earlier hearlier hsame hbefore
  exact Nat.find_min hsome hk ⟨earlier, hearlier, hsame.trans hpath, hbefore⟩

end

/-! ## Answers -/

/-- Where no rule is preferred, a start is given for a rule exactly if the rule is open in an
active configuration. It is the latest start in the configurations that were the first to offer
some terminal along their path. The latest start in all active configurations is given exactly
if it is found in one of these. -/
theorem answer_start?_iff {draft : Draft} {request : Request} {outcome : Outcome}
    (hbuild : draft.build = .ok query.network) (hpreferred : query.options.preferred = ∅)
    (hanswer : query.answer request = .ok outcome) :
    ∃ first, query.first? request = some first ∧ ∀ rule,
      ((∃ start, outcome.candidates.start? rule = some start) ↔
        ∃ config, query.Active request.caret first config ∧ rule ∈ config.stack.path) ∧
      (∀ start, outcome.candidates.start? rule = some start ↔
        IsGreatest (startsWhere (query.Debuts request.caret first) rule) start) ∧
      ∀ start, IsGreatest (startsWhere (query.Active request.caret first) rule) start →
        (outcome.candidates.start? rule = some start ↔
          start ∈ startsWhere (query.Debuts request.caret first) rule) := by
  obtain ⟨first, hindex, hfirst, hstack, -, rfl⟩ := exists_walk_of_answer hanswer
  have hfinal := Draft.stopsFinal_of_build hbuild
  refine ⟨first, hfirst, fun rule => ?_⟩
  have hnoted : ∀ {lower}, (query.walk request.caret first hindex).candidates.NotedFrom rule lower ↔
      ∃ config, query.Debuts request.caret first config ∧ config.stack.OpenFrom rule lower :=
    notedFrom_walk_iff hindex hstack hfinal hpreferred
  have hgreatest : ∀ {start},
      (query.walk request.caret first hindex).candidates.start? rule = some start ↔
        IsGreatest (startsWhere (query.Debuts request.caret first) rule) start := by
    refine Candidates.start?_eq_some_iff_isGreatest fun lower => ?_
    rw [hnoted]
    constructor
    · rintro ⟨config, hdebuts, frame, hframe, hrule, hlower⟩
      exact ⟨frame.start, ⟨config, hdebuts, frame, hframe, hrule, rfl⟩, hlower⟩
    · rintro ⟨late, ⟨config, hdebuts, frame, hframe, hrule, rfl⟩, hlower⟩
      exact ⟨config, hdebuts, frame, hframe, hrule, hlower⟩
  refine ⟨?_, fun start => hgreatest, fun start hlatest => ?_⟩
  · constructor
    · rintro ⟨start, hstart⟩
      obtain ⟨config, hdebuts, frame, hframe, hrule, -⟩ := hnoted.mp ⟨start, hstart, Nat.zero_le _⟩
      exact ⟨config, hdebuts.active hindex hstack,
        CallStack.mem_path_iff.mpr ⟨frame, hframe, hrule⟩⟩
    · rintro ⟨config, hactive, hrule⟩
      obtain ⟨other, hdebuts, hpath⟩ := hactive.exists_debuts hindex hstack
      obtain ⟨frame, hframe, hrule⟩ := CallStack.mem_path_iff.mp (hpath ▸ hrule)
      obtain ⟨start, hstart, -⟩ := hnoted.mpr ⟨other, hdebuts, frame, hframe, hrule, Nat.zero_le _⟩
      exact ⟨start, hstart⟩
  · rw [hgreatest]
    refine ⟨And.left, fun hmem => ⟨hmem, ?_⟩⟩
    -- Configurations that were the first are active, so none of them begins a call later.
    rintro late ⟨config, hdebuts, hframe⟩
    exact hlatest.2 ⟨config, hdebuts.active hindex hstack, hframe⟩

/-- After one item of a phrase the second item of a pair may follow, or the first one of a pair
that begins here. If the pair from the first token on is entered first, its start is given. -/
theorem answer_start?_ne_latest :
    let pair : Edge := ⟨.call ⟨1⟩, ⟨1⟩⟩
    let item : Edge := ⟨.token ⟨0⟩, ⟨4⟩⟩
    let query := phraseQuery pair item
    let query' := phraseQuery item pair
    ∃ outcome outcome', (phraseDraft pair item).build = .ok query.network ∧
      (phraseDraft item pair).build = .ok query'.network ∧
      query.network.Rearranges query'.network ∧ query.options.preferred = ∅ ∧
      query.answer (.replay ⟨0⟩ 0 1) = .ok outcome ∧
      query'.answer (.replay ⟨0⟩ 0 1) = .ok outcome' ∧
      outcome.candidates.start? ⟨1⟩ = some 0 ∧ outcome'.candidates.start? ⟨1⟩ = some 1 ∧
      ¬ IsGreatest (startsWhere (query.Active 1 ⟨⟨0⟩, 0, [⟨⟨0⟩, 0, none⟩]⟩) ⟨1⟩) 0 := by
  intro pair item query query'
  have hrearranges : query.network.Rearranges query'.network := by
    refine ⟨?_, rfl, rfl⟩
    have hstates : query.network.states.toList = ⟨⟨⟨0⟩, .entry⟩, [pair, item]⟩ ::
        query.network.states.toList.tail := by
      decide +kernel
    have hstates' : query'.network.states.toList = ⟨⟨⟨0⟩, .entry⟩, [item, pair]⟩ ::
        query.network.states.toList.tail := by
      decide +kernel
    rw [hstates, hstates']
    exact .cons ⟨rfl, .swap _ _ _⟩ (List.forall₂_same.mpr fun _ _ => ⟨rfl, .refl _⟩)
  have hactive : query.Active 1 ⟨⟨0⟩, 0, [⟨⟨0⟩, 0, none⟩]⟩
      ⟨⟨2⟩, 1, [⟨⟨1⟩, 1, some ⟨1⟩⟩, ⟨⟨0⟩, 0, none⟩]⟩ := by
    refine ⟨explores_of_taking (by decide) (by decide) (n := 4) (by decide +kernel), ⟨0⟩,
      .token ⟨0⟩, ⟨5⟩, by decide +kernel, Nat.le_refl 1, ?_, List.mem_singleton.mpr rfl, ?_⟩
    · rintro ⟨token, htoken, -⟩
      cases htoken
    · decide +kernel
  refine ⟨query.outcomeAfter 1 ⟨⟨0⟩, 0, [⟨⟨0⟩, 0, none⟩]⟩ 5,
    query'.outcomeAfter 1 ⟨⟨0⟩, 0, [⟨⟨0⟩, 0, none⟩]⟩ 5, by decide +kernel, by decide +kernel,
    hrearranges, rfl,
    answer_replay_eq_outcome (by decide) (by decide) rfl rfl (by decide +kernel),
    answer_replay_eq_outcome (by decide) (by decide) rfl rfl (by decide +kernel),
    by decide +kernel, by decide +kernel, fun hgreatest => ?_⟩
  have hlate : 1 ≤ 0 := hgreatest.2 ⟨_, hactive, _, List.mem_cons_self, rfl, rfl⟩
  omega

/-- If the item is read first, the later start of the pair is given. -/
theorem answer_start?_iff_phrase :
    let query := phraseQuery ⟨.token ⟨0⟩, ⟨4⟩⟩ ⟨.call ⟨1⟩, ⟨1⟩⟩
    let first : Config := ⟨⟨0⟩, 0, [⟨⟨0⟩, 0, none⟩]⟩
    ∃ outcome, query.answer (.replay ⟨0⟩ 0 1) = .ok outcome ∧
      outcome.candidates.start? ⟨1⟩ = some 1 ∧
      IsGreatest (startsWhere (query.Debuts 1 first) ⟨1⟩) 1 ∧
      ∃ config, query.Active 1 first config ∧ ⟨1⟩ ∈ config.stack.path := by
  intro query first
  have hok : query.answer (.replay ⟨0⟩ 0 1) = .ok (query.outcomeAfter 1 first 5) :=
    answer_replay_eq_outcome (by decide) (by decide) rfl rfl (by decide +kernel)
  have hbuild : (phraseDraft ⟨.token ⟨0⟩, ⟨4⟩⟩ ⟨.call ⟨1⟩, ⟨1⟩⟩).build = .ok query.network := by
    decide +kernel
  have hstart : (query.outcomeAfter 1 first 5).candidates.start? ⟨1⟩ = some 1 := by
    decide +kernel
  obtain ⟨first', hfirst, hrules⟩ := answer_start?_iff hbuild rfl hok
  obtain rfl : first = first' := Option.some.inj hfirst
  obtain ⟨hactive, hgreatest, -⟩ := hrules ⟨1⟩
  exact ⟨_, hok, hstart, (hgreatest 1).mp hstart, hactive.mp ⟨1, hstart⟩⟩

end Query

end CodeCompletion
