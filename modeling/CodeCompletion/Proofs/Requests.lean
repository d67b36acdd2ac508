import CodeCompletion.Proofs.Candidates
import CodeCompletion.Proofs.Exploration
import CodeCompletion.Request

/-!
# Requests and the walks they start

The two kinds of request as one type, so that a statement can speak of every request. A
request that is accepted starts a walk; where the walk starts is read off the request and
the network.

## Main definitions

* `Request`, `Query.answer`: a request of either kind, and its answer
* `seedStack`: the stack that a parser's calls stand for
* `Query.first?`: the configuration in which the walk of a request begins
* `Network.SharesPlaces`: two networks differ in no more than edges and names
* `Query.Finds`: what a walk reports somewhere
* `Query.NeverTooDeep`, `Query.NeverCut`: walks that give up no call

## Main results

* `Query.collect_eq_ok_iff`, `Query.collectFromRule_eq_ok_iff`: when a request is accepted
* `Query.exists_walk_of_answer`: the answer to an accepted request is the outcome of a walk
  from its first configuration
* `Query.back?_log_of_answer`: its log ends with the candidates
* `Query.exists_walk_of_answer_of_checkPreferred`, `Query.exists_walk_of_answer_congr`: whether
  a request is accepted depends on no edge, and of the options on the preferred rules alone
* `Query.Reaches.mono`, `Query.Finds.mono`: a walk with more moves and reports
* `Query.hasToken_walk_iff`, `Query.hasRule_walk_iff`, `Query.ruleFrom_walk_iff`: what a walk
  has recorded, in terms of the configurations that can be reached
* `Query.candidates_mono_of_finds`, `Query.candidates_eq_of_finds_iff`: walks that find more
  offer more, and those that find the same offer the same
-/

set_option autoImplicit false

namespace CodeCompletion

/-- A completion request: from the state of a parser, or by replay through a rule. -/
inductive Request where
  | parser (start : StateId) (calls : List Frame) (index : ℕ)
  | replay (rule : RuleId) (start caret : ℕ)
deriving DecidableEq

/-- The token at which something is to be offered. -/
def Request.caret : Request → ℕ
  | parser _ _ index => index
  | replay _ _ caret => caret

/-- The stack that a parser's calls stand for, given from the outermost inwards. The
outermost call returns nowhere; without any call, `rule` has been entered at the first
token. -/
def seedStack (rule : RuleId) : List Frame → CallStack
  | [] => [⟨rule, 0, none⟩]
  | outermost :: inner => inner.reverse ++ [{ outermost with resume? := none }]

theorem seedStack_ne_nil (rule : RuleId) (calls : List Frame) : seedStack rule calls ≠ [] := by
  cases calls <;> simp [seedStack]

/-- The other network has the same rules, and its states have the same places. -/
structure Network.SharesPlaces (network network' : Network) : Prop where
  rules_eq : network'.rules = network.rules
  place_eq : ∀ state, (network'.state? state).map State.toPlace =
    (network.state? state).map State.toPlace

namespace Network.SharesPlaces

variable {network network' : Network}

theorem refl (network : Network) : network.SharesPlaces network := ⟨rfl, fun _ => rfl⟩

theorem entry?_eq (h : network.SharesPlaces network') (rule : RuleId) :
    network'.entry? rule = network.entry? rule := by
  unfold entry? rule?
  rw [h.rules_eq]

theorem hasRule_eq (h : network.SharesPlaces network') (rule : RuleId) :
    network'.hasRule rule = network.hasRule rule := by
  rw [hasRule, h.rules_eq, hasRule]

theorem exists_state? (h : network.SharesPlaces network') {id : StateId} {state : State}
    (hstate : network.state? id = some state) :
    ∃ state', network'.state? id = some state' ∧ state'.toPlace = state.toPlace := by
  have hplace := h.place_eq id
  rwa [hstate, Option.map_some, Option.map_eq_some_iff] at hplace

theorem state?_cases (h : network.SharesPlaces network') (id : StateId) :
    network.state? id = none ∧ network'.state? id = none ∨
      ∃ state state', network.state? id = some state ∧ network'.state? id = some state' ∧
        state'.toPlace = state.toPlace := by
  cases hstate : network.state? id with
  | none => simpa [hstate] using h.place_eq id
  | some state =>
    obtain ⟨state', hstate', hplace⟩ := h.exists_state? hstate
    exact Or.inr ⟨state, state', rfl, hstate', hplace⟩

end Network.SharesPlaces

namespace Query

variable {query : Query} {request : Request} {outcome : Outcome}

/-- The answer to a request. -/
def answer (query : Query) : Request → Except RequestError Outcome
  | .parser start calls index => query.collect start calls index
  | .replay rule start caret => query.collectFromRule rule start caret

/-- The configuration in which the walk of a request begins. -/
def first? (query : Query) : Request → Option Config
  | .parser start calls index => (query.network.state? start).map fun state =>
      ⟨start, index, seedStack state.rule calls⟩
  | .replay rule start _ => (query.network.entry? rule).map fun entry =>
      ⟨entry, start, [⟨rule, start, none⟩]⟩

/-! ## Accepted requests -/

theorem collect_eq_ok_iff {start : StateId} {calls : List Frame} {index : ℕ} :
    query.collect start calls index = .ok outcome ↔
      ∃ (hindex : index ≤ query.tokens.size) (state : State) (stack : CallStack),
        query.checkPreferred = .ok () ∧ query.network.state? start = some state ∧
        query.parserStack start state.rule calls = .ok stack ∧
        query.walk index ⟨start, index, stack⟩ hindex = outcome := by
  unfold collect
  -- Each check that fails ends the request: the index, the preferred rules, the state, the
  -- calls.
  by_cases hindex : index ≤ query.tokens.size
  · rw [dif_pos hindex]
    cases query.checkPreferred with
    | error error => simp [bind, Except.bind]
    | ok _ =>
      cases query.network.state? start with
      | none => simp [bind, Except.bind, throw, throwThe, MonadExceptOf.throw]
      | some state =>
        cases hstack : query.parserStack start state.rule calls with
        | error error => simp [bind, Except.bind, hstack]
        | ok stack => simp [bind, Except.bind, pure, Except.pure, hstack, hindex]
  · rw [dif_neg hindex]
    simp [hindex, throw, throwThe, MonadExceptOf.throw]

theorem collectFromRule_eq_ok_iff {rule : RuleId} {start caret : ℕ} :
    query.collectFromRule rule start caret = .ok outcome ↔
      ∃ (hcaret : caret ≤ query.tokens.size) (hstart : start ≤ caret) (entry : StateId),
        query.checkPreferred = .ok () ∧ query.network.entry? rule = some entry ∧
        query.walk caret ⟨entry, start, [⟨rule, start, none⟩]⟩ (Nat.le_trans hstart hcaret) =
          outcome := by
  unfold collectFromRule
  by_cases hcaret : caret ≤ query.tokens.size
  · rw [dif_pos hcaret]
    by_cases hstart : start ≤ caret
    · rw [dif_pos hstart]
      cases query.checkPreferred with
      | error error => simp [bind, Except.bind]
      | ok _ =>
        cases query.network.entry? rule with
        | none => simp [bind, Except.bind, throw, throwThe, MonadExceptOf.throw]
        | some entry => simp [bind, Except.bind, pure, Except.pure, hstart, hcaret]
    · rw [dif_neg hstart]
      simp [hstart, throw, throwThe, MonadExceptOf.throw]
  · rw [dif_neg hcaret]
    simp [hcaret, throw, throwThe, MonadExceptOf.throw]

theorem checkPreferred_eq_ok (hpreferred : query.options.preferred = ∅) :
    query.checkPreferred = .ok () := by
  rw [checkPreferred, hpreferred]
  rfl

/-- The answer to a replay is read off the round after which nothing waits. -/
theorem collectFromRule_eq_outcome {rule : RuleId} {start caret n : ℕ} {entry : StateId}
    (hcaret : caret ≤ query.tokens.size) (hstart : start ≤ caret)
    (hcheck : query.checkPreferred = .ok ()) (hentry : query.network.entry? rule = some entry)
    (hdone : (query.rounds caret ⟨entry, start, [⟨rule, start, none⟩]⟩ n).pending = []) :
    query.collectFromRule rule start caret =
      .ok (query.outcomeAfter caret ⟨entry, start, [⟨rule, start, none⟩]⟩ n) :=
  collectFromRule_eq_ok_iff.mpr ⟨hcaret, hstart, entry, hcheck, hentry,
    walk_eq_outcome (Nat.le_trans hstart hcaret) hdone⟩

theorem answer_replay_eq_outcome {rule : RuleId} {start caret n : ℕ} {entry : StateId}
    (hcaret : caret ≤ query.tokens.size) (hstart : start ≤ caret)
    (hcheck : query.checkPreferred = .ok ()) (hentry : query.network.entry? rule = some entry)
    (hdone : (query.rounds caret ⟨entry, start, [⟨rule, start, none⟩]⟩ n).pending = []) :
    query.answer (.replay rule start caret) =
      .ok (query.outcomeAfter caret ⟨entry, start, [⟨rule, start, none⟩]⟩ n) :=
  collectFromRule_eq_outcome hcaret hstart hcheck hentry hdone

/-- Calls put on a stack that has some stand on it in their order. -/
theorem openCalls_eq_of_ne_nil {calls : List Frame} {caller : Frame} {outer stack : CallStack}
    (h : query.openCalls (caller :: outer) calls = .ok stack) :
    stack = calls.reverse ++ caller :: outer := by
  induction calls generalizing caller outer with
  | nil => simpa [openCalls, eq_comm] using h
  | cons frame rest ih =>
    unfold openCalls at h
    split at h
    · dsimp only at h
      split at h
      · cases h
      · rw [ih h]
        simp
    · cases h

theorem parserStack_eq_seedStack {start : StateId} {rule : RuleId} {calls : List Frame}
    {stack : CallStack} (h : query.parserStack start rule calls = .ok stack) :
    stack = seedStack rule calls := by
  cases calls with
  | nil => simpa [parserStack, openCalls, seedStack, eq_comm] using h
  | cons frame rest =>
    unfold parserStack at h
    split at h
    · cases h
    · next hcalls =>
      unfold openCalls at hcalls
      split at hcalls
      · have := openCalls_eq_of_ne_nil hcalls
        simp at this
      · cases hcalls
    · next innermost outer hcalls =>
      have hstack : innermost :: outer = stack := by
        split at h
        · exact Except.ok.inj h
        · cases h
      -- The outermost call has been put on the empty stack, the others on top of it.
      unfold openCalls at hcalls
      split at hcalls
      · rw [← hstack, openCalls_eq_of_ne_nil hcalls]
        rfl
      · cases hcalls

/-- The answer to an accepted request is the outcome of a walk from its first
configuration. -/
theorem exists_walk_of_answer (h : query.answer request = .ok outcome) :
    ∃ (first : Config) (hindex : first.index ≤ query.tokens.size),
      query.first? request = some first ∧ first.stack ≠ [] ∧ first.index ≤ request.caret ∧
        query.walk request.caret first hindex = outcome := by
  cases request with
  | parser start calls index =>
    obtain ⟨hindex, state, stack, -, hstate, hstack, hwalk⟩ := collect_eq_ok_iff.mp h
    obtain rfl := parserStack_eq_seedStack hstack
    exact ⟨_, hindex, by rw [first?, hstate]; rfl, seedStack_ne_nil _ _, Nat.le_refl _, hwalk⟩
  | replay rule start caret =>
    obtain ⟨hcaret, hstart, entry, -, hentry, hwalk⟩ := collectFromRule_eq_ok_iff.mp h
    exact ⟨_, Nat.le_trans hstart hcaret, by rw [first?, hentry]; rfl, List.cons_ne_nil _ _,
      hstart, hwalk⟩

/-- The log of an answer ends with its candidates. -/
theorem back?_log_of_answer (h : query.answer request = .ok outcome) :
    outcome.log.back? =
      some (.collected (outcome.candidates.text query.network.vocabulary)) := by
  obtain ⟨first, hindex, -, -, -, rfl⟩ := exists_walk_of_answer h
  exact Outcome.back?_log _

/-! ## Requests in networks with other edges -/

section Places

variable {query' : Query} (hplaces : query.network.SharesPlaces query'.network)
include hplaces

theorem checkPreferred_congr (hoptions : query'.options = query.options) :
    query'.checkPreferred = query.checkPreferred := by
  simp only [checkPreferred, hoptions, hplaces.hasRule_eq]

theorem checkReturn_congr (caller : RuleId) (frame : Frame) :
    query'.checkReturn caller frame = query.checkReturn caller frame := by
  unfold checkReturn
  cases frame.resume? with
  | none => rfl
  | some resume =>
    dsimp only
    rcases hplaces.state?_cases resume with
      ⟨hnone, hnone'⟩ | ⟨state, state', hstate, hstate', hplace⟩
    · rw [hnone, hnone']
    · rw [hstate, hstate']
      simp only [hplace]

theorem openCalls_congr (stack : CallStack) (calls : List Frame) :
    query'.openCalls stack calls = query.openCalls stack calls := by
  induction calls generalizing stack with
  | nil => rfl
  | cons frame rest ih =>
    unfold openCalls
    rw [hplaces.hasRule_eq]
    cases stack with
    | nil => simp only [ih]
    | cons caller outer => simp only [checkReturn_congr hplaces, ih]

/-- A request that is accepted is accepted in every network that differs in edges only, if the
preferred rules pass their check there, and its walk begins in the same configuration. -/
theorem exists_walk_of_answer_of_checkPreferred (htokens : query'.tokens = query.tokens)
    (hpreferred : query.checkPreferred = .ok () → query'.checkPreferred = .ok ())
    (h : query.answer request = .ok outcome) :
    ∃ (first : Config) (hindex : first.index ≤ query.tokens.size)
      (hindex' : first.index ≤ query'.tokens.size), query.first? request = some first ∧
      query'.first? request = some first ∧ first.stack ≠ [] ∧
      query.walk request.caret first hindex = outcome ∧
      query'.answer request = .ok (query'.walk request.caret first hindex') := by
  cases request with
  | parser start calls index =>
    obtain ⟨hindex, state, stack, hcheck, hstate, hstack, hwalk⟩ := collect_eq_ok_iff.mp h
    obtain ⟨state', hstate', hplace⟩ := hplaces.exists_state? hstate
    have hrule : state'.rule = state.rule := congrArg Place.rule hplace
    obtain rfl := parserStack_eq_seedStack hstack
    refine ⟨⟨start, index, seedStack state.rule calls⟩, hindex, htokens ▸ hindex, ?_, ?_,
      seedStack_ne_nil _ _, hwalk, collect_eq_ok_iff.mpr ⟨htokens ▸ hindex, state',
        seedStack state.rule calls, hpreferred hcheck, hstate', ?_, rfl⟩⟩
    · rw [first?, hstate, Option.map_some]
    · rw [first?, hstate', Option.map_some, hrule]
    · rw [parserStack, openCalls_congr hplaces, hrule]
      exact hstack
  | replay rule start caret =>
    obtain ⟨hcaret, hstart, entry, hcheck, hentry, hwalk⟩ := collectFromRule_eq_ok_iff.mp h
    have hentry' : query'.network.entry? rule = some entry := (hplaces.entry?_eq rule).trans hentry
    refine ⟨⟨entry, start, [⟨rule, start, none⟩]⟩, Nat.le_trans hstart hcaret,
      Nat.le_trans hstart (htokens ▸ hcaret), ?_, ?_, List.cons_ne_nil _ _, hwalk,
      collectFromRule_eq_ok_iff.mpr ⟨htokens ▸ hcaret, hstart, entry, hpreferred hcheck,
        hentry', rfl⟩⟩
    · rw [first?, hentry, Option.map_some]
    · rw [first?, hentry', Option.map_some]

theorem exists_walk_of_answer_congr (htokens : query'.tokens = query.tokens)
    (hoptions : query'.options = query.options) (h : query.answer request = .ok outcome) :
    ∃ (first : Config) (hindex : first.index ≤ query.tokens.size)
      (hindex' : first.index ≤ query'.tokens.size), query.first? request = some first ∧
      query'.first? request = some first ∧ first.stack ≠ [] ∧
      query.walk request.caret first hindex = outcome ∧
      query'.answer request = .ok (query'.walk request.caret first hindex') :=
  exists_walk_of_answer_of_checkPreferred hplaces htokens
    (fun hcheck => (checkPreferred_congr hplaces hoptions).trans hcheck) h

end Places

/-! ## What an answer contains -/

/-- A walk from `first` to `caret` reports a finding somewhere. -/
def Finds (query : Query) (caret : ℕ) (first : Config) (finding : Finding) : Prop :=
  ∃ config, query.Reaches caret first config ∧ .report finding ∈ query.step caret config

variable {caret : ℕ} {first config : Config}

section Inclusion

variable {query' : Query} (hfinal : query'.network.StopsFinal)
  (hmoves : ∀ config move, query.Moves caret config move → query'.Moves caret config move)
include hfinal hmoves

/-- A walk that makes all moves of another one gets wherever that gets. -/
theorem Reaches.mono (h : query.Reaches caret first config) :
    query'.Reaches caret first config := by
  refine Relation.ReflTransGen.mono ?_ _ _ h
  rintro before after ⟨move, hmove, hafter⟩
  exact ⟨move, (hmoves before move (.of_mem_step hmove)).mem_step hfinal, hafter⟩

/-- If it also reports all that the other one reports, it finds what that finds. -/
theorem Finds.mono
    (hreports : ∀ config finding, query.Reports caret config finding →
      query'.Reports caret config finding) {finding : Finding}
    (h : query.Finds caret first finding) : query'.Finds caret first finding := by
  obtain ⟨config, hreach, hreport⟩ := h
  exact ⟨config, hreach.mono hfinal hmoves,
    (hreports config finding (.of_mem_step hreport)).mem_step hfinal⟩

end Inclusion

theorem hasToken_walk_iff (hindex : first.index ≤ query.tokens.size) (hstack : first.stack ≠ [])
    {terminal : TerminalId} {path : Path} :
    (query.walk caret first hindex).candidates.hasToken terminal path ↔
      ∃ finding, query.Finds caret first finding ∧ finding.BringsToken terminal path := by
  obtain ⟨explored, -, hreach, hcandidates, -⟩ := exists_explored caret hindex hstack
  rw [hcandidates, Candidates.hasToken_foldl_record,
    or_iff_right Candidates.not_hasToken_empty]
  simp only [mem_findings_iff, hreach, Finds]

theorem hasRule_walk_iff (hindex : first.index ≤ query.tokens.size) (hstack : first.stack ≠ [])
    {rule : RuleId} {path : Path} :
    (query.walk caret first hindex).candidates.hasRule rule path ↔
      ∃ finding, query.Finds caret first finding ∧ finding.BringsRule rule path := by
  obtain ⟨explored, -, hreach, hcandidates, -⟩ := exists_explored caret hindex hstack
  rw [hcandidates, Candidates.hasRule_foldl_record, or_iff_right Candidates.not_hasRule_empty]
  simp only [mem_findings_iff, hreach, Finds]

theorem ruleFrom_walk_iff (hindex : first.index ≤ query.tokens.size) (hstack : first.stack ≠ [])
    {rule : RuleId} {start : ℕ} :
    (query.walk caret first hindex).candidates.RuleFrom rule start ↔
      ∃ finding, query.Finds caret first finding ∧ finding.BringsRuleFrom rule start := by
  obtain ⟨explored, -, hreach, hcandidates, -⟩ := exists_explored caret hindex hstack
  rw [hcandidates, Candidates.ruleFrom_foldl_record, or_iff_right Candidates.not_ruleFrom_empty]
  simp only [mem_findings_iff, hreach, Finds]

theorem grounded_walk (hindex : first.index ≤ query.tokens.size) (hstack : first.stack ≠ []) :
    (query.walk caret first hindex).candidates.Grounded := by
  obtain ⟨explored, -, -, hcandidates, -⟩ := exists_explored caret hindex hstack
  rw [hcandidates]
  exact Candidates.grounded_empty.foldl_record _

/-- A walk that finds more offers more, and the rules that it offers start no earlier. -/
theorem candidates_mono_of_finds {query' : Query} (hindex : first.index ≤ query.tokens.size)
    (hindex' : first.index ≤ query'.tokens.size) (hstack : first.stack ≠ [])
    (hfinds : ∀ finding, query.Finds caret first finding → query'.Finds caret first finding) :
    (∀ terminal path, (query.walk caret first hindex).candidates.hasToken terminal path →
        (query'.walk caret first hindex').candidates.hasToken terminal path) ∧
      (∀ rule path, (query.walk caret first hindex).candidates.hasRule rule path →
        (query'.walk caret first hindex').candidates.hasRule rule path) ∧
      ∀ rule start, (query.walk caret first hindex).candidates.RuleFrom rule start →
        (query'.walk caret first hindex').candidates.RuleFrom rule start := by
  refine ⟨fun terminal path => ?_, fun rule path => ?_, fun rule start => ?_⟩
  · rw [hasToken_walk_iff hindex hstack, hasToken_walk_iff hindex' hstack]
    exact Exists.imp fun finding => And.imp_left (hfinds finding)
  · rw [hasRule_walk_iff hindex hstack, hasRule_walk_iff hindex' hstack]
    exact Exists.imp fun finding => And.imp_left (hfinds finding)
  · rw [ruleFrom_walk_iff hindex hstack, ruleFrom_walk_iff hindex' hstack]
    exact Exists.imp fun finding => And.imp_left (hfinds finding)

/-- Walks that find the same offer the same terminals and rules. -/
theorem candidates_eq_of_finds_iff {query' : Query} (hindex : first.index ≤ query.tokens.size)
    (hindex' : first.index ≤ query'.tokens.size) (hstack : first.stack ≠ [])
    (hfinds : ∀ finding, query.Finds caret first finding ↔ query'.Finds caret first finding) :
    (query.walk caret first hindex).candidates.tokens =
        (query'.walk caret first hindex').candidates.tokens ∧
      (query.walk caret first hindex).candidates.rules =
        (query'.walk caret first hindex').candidates.rules := by
  constructor
  · apply (grounded_walk hindex hstack).tokens_eq (grounded_walk hindex' hstack)
    intro terminal path
    simp only [hasToken_walk_iff hindex hstack, hasToken_walk_iff hindex' hstack, hfinds]
  · apply Candidates.rules_eq_of_hasRule_iff
    · intro rule path
      simp only [hasRule_walk_iff hindex hstack, hasRule_walk_iff hindex' hstack, hfinds]
    · intro rule start
      simp only [ruleFrom_walk_iff hindex hstack, ruleFrom_walk_iff hindex' hstack, hfinds]

/-- A walk from `first` to `caret` gives up no call for its depth. -/
def NeverTooDeep (query : Query) (caret : ℕ) (first : Config) : Prop :=
  ∀ config, query.Reaches caret first config →
    ∀ rule depth, .event (.depthLimitReached rule depth) ∉ query.step caret config

/-- A walk from `first` to `caret` gives up no call for left recursion. -/
def NeverCut (query : Query) (caret : ℕ) (first : Config) : Prop :=
  ∀ config, query.Reaches caret first config →
    ∀ rule index, .event (.recursionCut rule index) ∉ query.step caret config

/-- A walk that counts no event of some kind comes to no configuration that has one. -/
theorem not_mem_step_of_countP (hindex : first.index ≤ query.tokens.size)
    (hstack : first.stack ≠ []) {kind : Event → Bool}
    (h : (query.walk caret first hindex).trace.countP kind = 0)
    (hreach : query.Reaches caret first config) {event : Event} (hkind : kind event) :
    .event event ∉ query.step caret config := by
  intro hevent
  have htrace := (mem_trace_walk_iff hindex hstack).mpr ⟨config, hreach, hevent⟩
  exact Array.countP_eq_zero.mp h event htrace hkind

theorem neverTooDeep_of_depthPruned (hindex : first.index ≤ query.tokens.size)
    (hstack : first.stack ≠ []) (h : (query.walk caret first hindex).depthPruned = 0) :
    query.NeverTooDeep caret first :=
  fun _ hreach _ _ => not_mem_step_of_countP hindex hstack h hreach rfl

theorem neverCut_of_recursionCut (hindex : first.index ≤ query.tokens.size)
    (hstack : first.stack ≠ []) (h : (query.walk caret first hindex).recursionCut = 0) :
    query.NeverCut caret first :=
  fun _ hreach _ _ => not_mem_step_of_countP hindex hstack h hreach rfl

end Query

end CodeCompletion
