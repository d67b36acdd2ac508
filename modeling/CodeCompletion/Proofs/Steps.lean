import CodeCompletion.Proofs.Candidates
import CodeCompletion.Proofs.FreeRun

/-!
# What one step does

The effects of a configuration, said once: which moves it makes, what it reports, and when
a call is given up. What is shown of walks goes through these rules; `Query.step` is opened
again only where the order of the effects counts.

## Main definitions

* `Query.Calls`: a call that is neither preferred at the caret nor too deep
* `Query.Moves`, `Query.Reports`: the moves and the findings of a configuration
* `Query.Proposes`: a terminal is offered in a configuration

## Main results

* `Query.Moves.of_mem_step`, `Query.Moves.mem_step`: these are the moves that a step lists
* `Query.Reports.of_mem_step`, `Query.Reports.mem_step`: these are the findings that it lists
* `Query.calls_or_depthLimitReached_mem_step`, `Query.recursionCut_mem_step`: a call that is
  given up is an event
* `Query.of_recursionCut_mem_step`: what the event of a cut tells
* `Query.exists_report_iff_proposes`: which terminals a configuration reports
-/

set_option autoImplicit false

namespace CodeCompletion

theorem CallStack.outermost?_eq_none_iff {chosen : RuleId → Bool} {stack : CallStack} :
    stack.outermost? chosen = none ↔ ∀ frame ∈ stack, ¬ chosen frame.rule := by
  induction stack with
  | nil => simp [outermost?]
  | cons frame outer ih =>
    rw [outermost?, List.forall_mem_cons, ← ih]
    cases outermost? chosen outer with
    | none => simp
    | some found => simp

namespace Query

variable {query : Query} {caret : ℕ} {config : Config} {move : Move} {finding : Finding}

/-- An edge calls a rule that is not preferred at the caret, and not too many calls are
open. -/
structure Calls (query : Query) (caret : ℕ) (config : Config) (rule : RuleId)
    (entry target : StateId) : Prop where
  edge : query.network.HasEdge config.state (.call rule) target
  entry : query.network.entry? rule = some entry
  plain : ¬ (caret ≤ config.index ∧ rule ∈ query.options.preferred)
  depth : config.stack.length + 1 ≤ query.options.depthLimit

/-- The moves that a configuration makes. -/
inductive Moves (query : Query) (caret : ℕ) (config : Config) : Move → Prop
  | pass {label : Label} {target : StateId}
      (hedge : query.network.HasEdge config.state label target) (hpasses : query.Passes label) :
      Moves query caret config (.goto target)
  | advance {label : Label} {target : StateId} {token : TerminalId}
      (hedge : query.network.HasEdge config.state label target)
      (htoken : query.tokens[config.index]? = some token) (haccepts : label.accepts token)
      (hmay : config.index < caret ∨ token ∈ query.options.preloaded) :
      Moves query caret config (.advance target)
  | enter {rule : RuleId} {entry target : StateId}
      (hcalls : query.Calls caret config rule entry target)
      (hopen : config.stack.openCount rule config.index ≤ caret - config.index) :
      Moves query caret config (.enter entry ⟨rule, config.index, some target⟩)
  | skip {rule : RuleId} {entry target : StateId}
      (hcalls : query.Calls caret config rule entry target)
      (hcut : caret - config.index < config.stack.openCount rule config.index)
      (hnullable : query.network.isNullable rule) :
      Moves query caret config (.goto target)
  | leave {rule : RuleId} {start : ℕ} {resume : StateId} {caller : Frame} {outer : CallStack}
      (hstop : query.network.IsStop config.state)
      (hstack : config.stack = ⟨rule, start, some resume⟩ :: caller :: outer) :
      Moves query caret config (.leave resume)

/-- The next token fits the label and may be stepped over. -/
def StepsOver (query : Query) (index : ℕ) (label : Label) : Prop :=
  ∃ token, query.tokens[index]? = some token ∧ label.accepts token ∧
    token ∈ query.options.preloaded

/-- At the caret or after it, an edge that is not stepped over offers the terminal, and the
terminal is not ignored. -/
def Proposes (query : Query) (caret : ℕ) (config : Config) (terminal : TerminalId) : Prop :=
  ∃ label target, query.network.HasEdge config.state label target ∧ caret ≤ config.index ∧
    ¬ query.StepsOver config.index label ∧
    terminal ∈ label.offered query.network.vocabulary ∧ terminal ∉ query.options.ignored

/-- The findings that a configuration reports. -/
inductive Reports (query : Query) (caret : ℕ) (config : Config) : Finding → Prop
  | terminals {label : Label} {target : StateId}
      (hedge : query.network.HasEdge config.state label target) (hconsumes : label.consumes)
      (hcaret : caret ≤ config.index) (hstays : ¬ query.StepsOver config.index label) :
      Reports query caret config (query.finding config.stack (query.offer label))
  | rule {rule : RuleId} {entry target : StateId}
      (hedge : query.network.HasEdge config.state (.call rule) target)
      (hentry : query.network.entry? rule = some entry) (hcaret : caret ≤ config.index)
      (hpreferred : rule ∈ query.options.preferred) :
      Reports query caret config (query.finding config.stack (.rule rule config.index))

/-! ## Findings -/

/-- An offer brings a terminal unless a preferred rule is open around it. -/
theorem bringsToken_finding_iff {stack : CallStack} {offer : Offer} {terminal : TerminalId}
    {path : Path} : (query.finding stack offer).BringsToken terminal path ↔
      query.enclosing? stack = none ∧ stack.path = path ∧
        ∃ terminals, offer = .terminals terminals ∧ terminal ∈ terminals := by
  unfold finding
  cases henclosing : query.enclosing? stack with
  | none => simp [Finding.BringsToken]
  | some outer =>
    -- What stands for everything beneath a preferred rule is never an offer of terminals.
    have hrule : ∃ rule start, outer.offer = .rule rule start := by
      unfold enclosing? at henclosing
      split at henclosing
      · exact ⟨_, _, by rw [← Option.some.inj henclosing]⟩
      · cases henclosing
    obtain ⟨rule, start, hoffer⟩ := hrule
    simp [Finding.BringsToken, hoffer]

theorem enclosing?_eq_none (hpreferred : query.options.preferred = ∅) (stack : CallStack) :
    query.enclosing? stack = none := by
  rw [enclosing?, CallStack.outermost?_eq_none_iff.mpr (by simp [hpreferred])]

/-! ## Edges -/

theorem follow_of_consumes {label : Label} (h : label.consumes) (target : StateId) :
    query.follow caret config ⟨label, target⟩ = query.consume caret config label target := by
  cases label with
  | token _ | oneOf _ | noneOf _ | any => rfl
  | epsilon | call _ | guard _ => exact absurd h (by simp [Label.consumes])

theorem follow_of_passes {label : Label} (h : query.Passes label) (target : StateId) :
    query.follow caret config ⟨label, target⟩ = [.move (.goto target)] := by
  cases label with
  | epsilon => rfl
  | guard predicate => exact if_pos h
  | token _ | oneOf _ | noneOf _ | any | call _ => exact h.elim

/-- Every edge is a passage, a rejected guard, a call, or asks for a token. -/
theorem follow_cases (query : Query) (caret : ℕ) (config : Config) (label : Label)
    (target : StateId) :
    query.Passes label ∨
      (∃ predicate, query.follow caret config ⟨label, target⟩ =
        [.event (.predicateRejected predicate)]) ∨
      (∃ rule, label = .call rule) ∨ label.consumes := by
  cases label with
  | epsilon => exact Or.inl trivial
  | guard predicate =>
    by_cases hconsents : query.consents predicate
    · exact Or.inl hconsents
    · exact Or.inr (Or.inl ⟨predicate, if_neg hconsents⟩)
  | call rule => exact Or.inr (Or.inr (Or.inl ⟨rule, rfl⟩))
  | token _ | oneOf _ | noneOf _ | any => exact Or.inr (Or.inr (Or.inr rfl))

theorem mem_consume_iff {effect : Effect} {label : Label} {target : StateId} :
    effect ∈ query.consume caret config label target ↔
      (∃ token, query.tokens[config.index]? = some token ∧ label.accepts token ∧
        (config.index < caret ∧ effect = .move (.advance target) ∨
          caret ≤ config.index ∧ token ∈ query.options.preloaded ∧
            (effect = .event (.steppedOver token config.index) ∨
              effect = .move (.advance target)))) ∨
      caret ≤ config.index ∧ ¬ query.StepsOver config.index label ∧
        effect = .report (query.finding config.stack (query.offer label)) := by
  unfold consume StepsOver
  simp only [← Nat.not_lt]
  -- Three questions decide: does the next token fit, is it before the caret, may it be
  -- stepped over.
  cases query.tokens[config.index]? with
  | none => by_cases hcaret : config.index < caret <;> simp [hcaret]
  | some token =>
    by_cases haccepts : label.accepts token <;> by_cases hcaret : config.index < caret <;>
      by_cases hpreloaded : token ∈ query.options.preloaded <;>
      simp [Option.filter_some, haccepts, hcaret, hpreloaded]

/-- The ways in which a call goes on or is given up. -/
theorem mem_call_iff {effect : Effect} {rule : RuleId} {target : StateId} :
    effect ∈ query.call caret config rule target ↔
      ∃ entry, query.network.entry? rule = some entry ∧
        ((caret ≤ config.index ∧ rule ∈ query.options.preferred) ∧
            effect = .report (query.finding config.stack (.rule rule config.index)) ∨
          ¬ (caret ≤ config.index ∧ rule ∈ query.options.preferred) ∧
            (query.options.depthLimit < config.stack.length + 1 ∧
                effect = .event (.depthLimitReached rule (config.stack.length + 1)) ∨
              config.stack.length + 1 ≤ query.options.depthLimit ∧
                (caret - config.index < config.stack.openCount rule config.index ∧
                    (effect = .event (.recursionCut rule config.index) ∨
                      query.network.isNullable rule ∧ effect = .move (.goto target)) ∨
                  config.stack.openCount rule config.index ≤ caret - config.index ∧
                    effect = .move (.enter entry ⟨rule, config.index, some target⟩)))) := by
  unfold call
  cases query.network.entry? rule with
  | none => simp
  | some entry =>
    dsimp only
    -- The conditions are asked in this order: preferred, too deep, cut.
    by_cases hpreferred : caret ≤ config.index ∧ rule ∈ query.options.preferred
    · simp [hpreferred]
    · rw [if_neg hpreferred]
      by_cases hdepth : query.options.depthLimit < config.stack.length + 1
      · simp [hpreferred, hdepth, Nat.not_le.mpr hdepth]
      · rw [if_neg hdepth]
        by_cases hcut : caret - config.index < config.stack.openCount rule config.index
        · by_cases hnullable : query.network.isNullable rule <;>
            simp [hpreferred, hdepth, Nat.not_lt.mp hdepth, hcut, Nat.not_le.mpr hcut, hnullable]
        · simp [hpreferred, hdepth, Nat.not_lt.mp hdepth, hcut, Nat.not_lt.mp hcut]

/-! ## Steps -/

theorem mem_step_of_hasEdge (hfinal : query.network.StopsFinal) {label : Label}
    {target : StateId} (hedge : query.network.HasEdge config.state label target)
    {effect : Effect} (heffect : effect ∈ query.follow caret config ⟨label, target⟩) :
    effect ∈ query.step caret config := by
  obtain ⟨state, hstate, hmem⟩ := id hedge
  have hstop : ¬ state.isStop := fun hstop => hfinal _ _ _ hedge ⟨state, hstate, hstop⟩
  rw [step, hstate]
  dsimp only
  rw [if_neg hstop]
  exact List.mem_flatMap.mpr ⟨_, List.mem_reverse.mpr hmem, heffect⟩

theorem mem_step_of_isStop (hstop : query.network.IsStop config.state) {effect : Effect}
    (heffect : effect ∈ finish config.stack) : effect ∈ query.step caret config := by
  obtain ⟨state, hstate, hstop⟩ := hstop
  rw [step, hstate]
  dsimp only
  rwa [if_pos hstop]

/-- An effect comes from the end of a rule, or from an edge. -/
theorem mem_step_cases {effect : Effect} (h : effect ∈ query.step caret config) :
    query.network.IsStop config.state ∧ effect ∈ finish config.stack ∨
      ∃ label target, query.network.HasEdge config.state label target ∧
        effect ∈ query.follow caret config ⟨label, target⟩ := by
  unfold step at h
  split at h
  · exact absurd h List.not_mem_nil
  · next state hstate =>
    split at h
    · next hstop => exact Or.inl ⟨⟨state, hstate, hstop⟩, h⟩
    · obtain ⟨⟨label, target⟩, hmem, heffect⟩ := List.mem_flatMap.mp h
      exact Or.inr ⟨label, target, ⟨state, hstate, List.mem_reverse.mp hmem⟩, heffect⟩

theorem move_mem_finish_iff {stack : CallStack} : .move move ∈ finish stack ↔
    ∃ rule start resume caller outer,
      stack = ⟨rule, start, some resume⟩ :: caller :: outer ∧ move = .leave resume := by
  unfold finish
  split
  · simp
  · next frame rest hnot =>
    simp only [List.mem_singleton, reduceCtorEq, false_iff]
    rintro ⟨rule, start, resume, caller, outer, hstack, -⟩
    obtain ⟨rfl, rfl⟩ := List.cons.inj hstack
    exact hnot _ _ _ _ _ rfl rfl
  · simp

theorem Moves.of_mem_follow {label : Label} {target : StateId}
    (hedge : query.network.HasEdge config.state label target)
    (h : .move move ∈ query.follow caret config ⟨label, target⟩) :
    query.Moves caret config move := by
  rcases query.follow_cases caret config label target with
    hpasses | ⟨predicate, hrejected⟩ | ⟨rule, rfl⟩ | hconsumes
  · rw [follow_of_passes hpasses, List.mem_singleton] at h
    obtain rfl := Effect.move.inj h
    exact .pass hedge hpasses
  · simp [hrejected] at h
  · obtain ⟨entry, hentry, h⟩ := mem_call_iff.mp h
    rcases h with ⟨-, h⟩ | ⟨hplain, ⟨-, h⟩ | ⟨hdepth, ⟨hcut, h | ⟨hnullable, h⟩⟩ | ⟨hopen, h⟩⟩⟩
    · cases h
    · cases h
    · cases h
    · obtain rfl := Effect.move.inj h
      exact .skip ⟨hedge, hentry, hplain, hdepth⟩ hcut hnullable
    · obtain rfl := Effect.move.inj h
      exact .enter ⟨hedge, hentry, hplain, hdepth⟩ hopen
  · rw [follow_of_consumes hconsumes, mem_consume_iff] at h
    rcases h with ⟨token, htoken, haccepts, ⟨hcaret, h⟩ | ⟨-, hpreloaded, h | h⟩⟩ | ⟨-, -, h⟩
    · obtain rfl := Effect.move.inj h
      exact .advance hedge htoken haccepts (Or.inl hcaret)
    · cases h
    · obtain rfl := Effect.move.inj h
      exact .advance hedge htoken haccepts (Or.inr hpreloaded)
    · cases h

theorem Moves.of_mem_step (h : .move move ∈ query.step caret config) :
    query.Moves caret config move := by
  rcases mem_step_cases h with ⟨hstop, h⟩ | ⟨label, target, hedge, h⟩
  · obtain ⟨rule, start, resume, caller, outer, hstack, rfl⟩ := move_mem_finish_iff.mp h
    exact .leave hstop hstack
  · exact .of_mem_follow hedge h

theorem Moves.mem_step (hfinal : query.network.StopsFinal) (h : query.Moves caret config move) :
    .move move ∈ query.step caret config := by
  cases h with
  | pass hedge hpasses =>
    refine mem_step_of_hasEdge hfinal hedge ?_
    rw [follow_of_passes hpasses]
    exact List.mem_singleton.mpr rfl
  | @advance label target token hedge htoken haccepts hmay =>
    refine mem_step_of_hasEdge hfinal hedge ?_
    -- Only labels that ask for a token accept one.
    have hconsumes : label.consumes := by
      cases label <;> simp_all [Label.accepts, Label.consumes]
    rw [follow_of_consumes hconsumes, mem_consume_iff]
    refine Or.inl ⟨token, htoken, haccepts, ?_⟩
    by_cases hcaret : config.index < caret
    · exact Or.inl ⟨hcaret, rfl⟩
    · exact Or.inr ⟨Nat.not_lt.mp hcaret, hmay.resolve_left hcaret, Or.inr rfl⟩
  | enter hcalls hopen =>
    refine mem_step_of_hasEdge hfinal hcalls.edge (mem_call_iff.mpr ?_)
    exact ⟨_, hcalls.entry, Or.inr ⟨hcalls.plain, Or.inr ⟨hcalls.depth, Or.inr ⟨hopen, rfl⟩⟩⟩⟩
  | skip hcalls hcut hnullable =>
    refine mem_step_of_hasEdge hfinal hcalls.edge (mem_call_iff.mpr ?_)
    exact ⟨_, hcalls.entry, Or.inr ⟨hcalls.plain, Or.inr ⟨hcalls.depth,
      Or.inl ⟨hcut, Or.inr ⟨hnullable, rfl⟩⟩⟩⟩⟩
  | leave hstop hstack =>
    exact mem_step_of_isStop hstop (move_mem_finish_iff.mpr ⟨_, _, _, _, _, hstack, rfl⟩)

theorem Reports.of_mem_step (h : .report finding ∈ query.step caret config) :
    query.Reports caret config finding := by
  rcases mem_step_cases h with ⟨-, h⟩ | ⟨label, target, hedge, h⟩
  · unfold finish at h
    split at h <;> simp at h
  · rcases query.follow_cases caret config label target with
      hpasses | ⟨predicate, hrejected⟩ | ⟨rule, rfl⟩ | hconsumes
    · rw [follow_of_passes hpasses, List.mem_singleton] at h
      cases h
    · simp [hrejected] at h
    · obtain ⟨entry, hentry, h⟩ := mem_call_iff.mp h
      rcases h with ⟨⟨hcaret, hpreferred⟩, h⟩ | ⟨-, ⟨-, h⟩ | ⟨-, ⟨-, h | ⟨-, h⟩⟩ | ⟨-, h⟩⟩⟩
      · obtain rfl := Effect.report.inj h
        exact .rule hedge hentry hcaret hpreferred
      all_goals cases h
    · rw [follow_of_consumes hconsumes, mem_consume_iff] at h
      rcases h with ⟨token, -, -, ⟨-, h⟩ | ⟨-, -, h | h⟩⟩ | ⟨hcaret, hstays, h⟩
      · cases h
      · cases h
      · cases h
      · obtain rfl := Effect.report.inj h
        exact .terminals hedge hconsumes hcaret hstays

theorem Reports.mem_step (hfinal : query.network.StopsFinal)
    (h : query.Reports caret config finding) : .report finding ∈ query.step caret config := by
  cases h with
  | terminals hedge hconsumes hcaret hstays =>
    refine mem_step_of_hasEdge hfinal hedge ?_
    rw [follow_of_consumes hconsumes, mem_consume_iff]
    exact Or.inr ⟨hcaret, hstays, rfl⟩
  | rule hedge hentry hcaret hpreferred =>
    refine mem_step_of_hasEdge hfinal hedge (mem_call_iff.mpr ?_)
    exact ⟨_, hentry, Or.inl ⟨⟨hcaret, hpreferred⟩, rfl⟩⟩

/-- A call that is neither preferred nor too deep is made, unless it is an event that the
depth was too great. -/
theorem calls_or_depthLimitReached_mem_step (hfinal : query.network.StopsFinal)
    (hpreferred : query.options.preferred = ∅) {rule : RuleId} {entry target : StateId}
    (hedge : query.network.HasEdge config.state (.call rule) target)
    (hentry : query.network.entry? rule = some entry) :
    query.Calls caret config rule entry target ∨
      .event (.depthLimitReached rule (config.stack.length + 1)) ∈ query.step caret config := by
  have hplain : ¬ (caret ≤ config.index ∧ rule ∈ query.options.preferred) := by
    simp [hpreferred]
  by_cases hdepth : config.stack.length + 1 ≤ query.options.depthLimit
  · exact Or.inl ⟨hedge, hentry, hplain, hdepth⟩
  · refine Or.inr (mem_step_of_hasEdge hfinal hedge (mem_call_iff.mpr ?_))
    exact ⟨entry, hentry, Or.inr ⟨hplain, Or.inl ⟨Nat.not_le.mp hdepth, rfl⟩⟩⟩

/-- A call that is given up for left recursion is an event. -/
theorem recursionCut_mem_step (hfinal : query.network.StopsFinal) {rule : RuleId}
    {entry target : StateId} (hcalls : query.Calls caret config rule entry target)
    (hcut : caret - config.index < config.stack.openCount rule config.index) :
    .event (.recursionCut rule config.index) ∈ query.step caret config := by
  refine mem_step_of_hasEdge hfinal hcalls.edge (mem_call_iff.mpr ?_)
  exact ⟨entry, hcalls.entry, Or.inr ⟨hcalls.plain, Or.inr ⟨hcalls.depth,
    Or.inl ⟨hcut, Or.inl rfl⟩⟩⟩⟩

/-- The event tells of a call that is given up since the rule is open too often. -/
theorem of_recursionCut_mem_step {rule : RuleId} {index : ℕ}
    (h : .event (.recursionCut rule index) ∈ query.step caret config) :
    index = config.index ∧
      caret - config.index < config.stack.openCount rule config.index ∧
      ∃ entry target, query.Calls caret config rule entry target := by
  rcases mem_step_cases h with ⟨-, h⟩ | ⟨label, target, hedge, h⟩
  · unfold finish at h
    split at h <;> simp at h
  · rcases query.follow_cases caret config label target with
      hpasses | ⟨predicate, hrejected⟩ | ⟨called, rfl⟩ | hconsumes
    · simp [follow_of_passes hpasses] at h
    · simp [hrejected] at h
    · obtain ⟨entry, hentry, h⟩ := mem_call_iff.mp h
      rcases h with ⟨-, h⟩ | ⟨hplain, ⟨-, h⟩ | ⟨hdepth, ⟨hcut, h | ⟨-, h⟩⟩ | ⟨-, h⟩⟩⟩
      · cases h
      · cases h
      · obtain ⟨rfl, rfl⟩ := Event.recursionCut.inj (Effect.event.inj h)
        exact ⟨rfl, hcut, entry, target, hedge, hentry, hplain, hdepth⟩
      · cases h
      · cases h
    · rw [follow_of_consumes hconsumes, mem_consume_iff] at h
      rcases h with ⟨token, -, -, ⟨-, h⟩ | ⟨-, -, h | h⟩⟩ | ⟨-, -, h⟩ <;> cases h

/-- Where no rule is preferred, an edge at the caret that is not stepped over brings every
terminal that it offers, unless ignored. -/
theorem exists_report_of_offers (config : Config) (hfinal : query.network.StopsFinal)
    (hpreferred : query.options.preferred = ∅) {label : Label} {target : StateId}
    (hedge : query.network.HasEdge config.state label target)
    {terminal : TerminalId} (hoffers : label.Offers query.network.vocabulary terminal)
    (hcaret : caret ≤ config.index) (hstays : ¬ query.StepsOver config.index label)
    (hignored : terminal ∉ query.options.ignored) :
    ∃ finding, .report finding ∈ query.step caret config ∧
      finding.BringsToken terminal config.stack.path := by
  refine ⟨_, (Reports.terminals hedge hoffers.consumes hcaret hstays).mem_step hfinal,
    bringsToken_finding_iff.mpr ⟨enclosing?_eq_none hpreferred _, rfl, _, rfl, ?_⟩⟩
  exact List.mem_filter.mpr ⟨hoffers.mem_offered, decide_eq_true hignored⟩

/-- A configuration reports the terminals that are offered there, unless a preferred rule is
open. -/
theorem exists_report_iff_proposes (hfinal : query.network.StopsFinal) {terminal : TerminalId}
    {path : Path} :
    (∃ finding, .report finding ∈ query.step caret config ∧ finding.BringsToken terminal path) ↔
      query.enclosing? config.stack = none ∧ config.stack.path = path ∧
        query.Proposes caret config terminal := by
  constructor
  · rintro ⟨finding, hreport, hbrings⟩
    cases Reports.of_mem_step hreport with
    | rule =>
      obtain ⟨-, -, terminals, hoffer, -⟩ := bringsToken_finding_iff.mp hbrings
      cases hoffer
    | @terminals label target hedge _ hcaret hstays =>
      obtain ⟨hnone, hpath, terminals, hoffer, hmem⟩ := bringsToken_finding_iff.mp hbrings
      obtain rfl := Offer.terminals.inj hoffer
      obtain ⟨hoffered, hignored⟩ := List.mem_filter.mp hmem
      exact ⟨hnone, hpath, label, target, hedge, hcaret, hstays, hoffered,
        of_decide_eq_true hignored⟩
  · rintro ⟨hnone, hpath, label, target, hedge, hcaret, hstays, hoffered, hignored⟩
    refine ⟨_, (Reports.terminals hedge (Label.consumes_of_mem_offered hoffered) hcaret
      hstays).mem_step hfinal, bringsToken_finding_iff.mpr ⟨hnone, hpath, _, rfl, ?_⟩⟩
    exact List.mem_filter.mpr ⟨hoffered, decide_eq_true hignored⟩

end Query

end CodeCompletion
