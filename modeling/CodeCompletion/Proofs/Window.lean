import CodeCompletion.Proofs.Discipline

/-!
# What a request reads of the tokens

A request reads the tokens from its start up to the caret, and after the caret those that
are stepped over. It looks at the token after these as well, but whatever stands there, the
edge is offered all the same. Tokens before the start, and those from the first one that is
not stepped over, show in no part of the answer.

## Main definitions

* `Request.start`: the token at which a request begins to read
* `Config.Within`: configurations inside a window of tokens
* `Query.withTokens`: the same query with other tokens
* `Query.SharesWindow`: tokens that are the same as far as a request reads them

## Main results

* `Query.consume_eq_report`: an edge is offered in the same way whatever the next token is,
  unless it is stepped over
* `Query.step_withTokens`, `Query.Leads.within`: steps inside the window are the same and stay
  inside it
* `Query.walk_congr`: walks whose steps are the same, wherever the first one gets, are the
  same in every part of their outcome
* `Query.answer_withTokens`: answers do not depend on tokens outside the window
-/

set_option autoImplicit false

namespace CodeCompletion

/-- The token at which a request begins to read. -/
def Request.start : Request → ℕ
  | parser _ _ index => index
  | replay _ start _ => start

/-- The next token of the configuration lies between `start` and `last`. -/
structure Config.Within (config : Config) (start last : ℕ) : Prop where
  le_index : start ≤ config.index
  index_le : config.index ≤ last

namespace Query

variable {query query' : Query} {tokens : Array TerminalId} {caret start last : ℕ}
  {first config config' : Config} {request : Request}

/-- The query, asked of other tokens. -/
def withTokens (query : Query) (tokens : Array TerminalId) : Query := { query with tokens }

/-- The other tokens are the same from `start` up to `last`, and at `last` neither has a token
that may be stepped over. -/
structure SharesWindow (query : Query) (tokens : Array TerminalId) (start last : ℕ) : Prop where
  last_le : last ≤ query.tokens.size
  last_le' : last ≤ tokens.size
  token_eq : ∀ index, start ≤ index → index < last → tokens[index]? = query.tokens[index]?
  closed : ∀ token, query.tokens[last]? = some token → token ∉ query.options.preloaded
  closed' : ∀ token, tokens[last]? = some token → token ∉ query.options.preloaded

/-- Where nothing is stepped over, tokens that are the same up to the caret will do. -/
theorem sharesWindow_of_preloaded (hpreloaded : query.options.preloaded = ∅)
    (hlast : last ≤ query.tokens.size) (hlast' : last ≤ tokens.size)
    (htokens : ∀ index, start ≤ index → index < last → tokens[index]? = query.tokens[index]?) :
    query.SharesWindow tokens start last where
  last_le := hlast
  last_le' := hlast'
  token_eq := htokens
  closed := by simp [hpreloaded]
  closed' := by simp [hpreloaded]

/-! ## Steps -/

/-- From the caret on, an edge that asks for a token is offered whatever the next token is,
unless this is stepped over. -/
theorem consume_eq_report (hcaret : caret ≤ config.index)
    (hclosed : ∀ token, query.tokens[config.index]? = some token →
      token ∉ query.options.preloaded) (label : Label) (target : StateId) :
    query.consume caret config label target =
      [.report (query.finding config.stack (query.offer label))] := by
  unfold consume
  split
  · next token htoken =>
    have hnext : query.tokens[config.index]? = some token :=
      (Option.filter_eq_some_iff.mp htoken).1
    rw [if_neg (Nat.not_lt.mpr hcaret), if_neg (hclosed token hnext)]
  · rw [if_neg (Nat.not_lt.mpr hcaret)]

section Window

variable (hwindow : query.SharesWindow tokens start last) (hcaret : caret ≤ last)
include hwindow hcaret

theorem consume_withTokens (hwithin : config.Within start last) (label : Label)
    (target : StateId) :
    (query.withTokens tokens).consume caret config label target =
      query.consume caret config label target := by
  rcases Nat.lt_or_eq_of_le hwithin.index_le with hbefore | hat
  · -- Both read the same token.
    have htoken : (query.withTokens tokens).tokens[config.index]? =
        query.tokens[config.index]? :=
      hwindow.token_eq config.index hwithin.le_index hbefore
    unfold consume
    rw [htoken]
    rfl
  · -- Neither steps over its token, so both offer the edge.
    have hpast : caret ≤ config.index := hat ▸ hcaret
    have hclosed : ∀ token, (query.withTokens tokens).tokens[config.index]? = some token →
        token ∉ (query.withTokens tokens).options.preloaded :=
      hat ▸ hwindow.closed'
    rw [consume_eq_report hpast hclosed, consume_eq_report hpast (hat ▸ hwindow.closed)]
    rfl

theorem follow_withTokens (hwithin : config.Within start last) (edge : Edge) :
    (query.withTokens tokens).follow caret config edge = query.follow caret config edge := by
  obtain ⟨label, target⟩ := edge
  cases label with
  | epsilon => rfl
  | guard predicate => rfl
  | call rule => rfl
  | token _ | oneOf _ | noneOf _ | any =>
    rw [follow_of_consumes rfl, follow_of_consumes rfl]
    exact consume_withTokens hwindow hcaret hwithin _ _

/-- Inside the window a configuration has the same effects. -/
theorem step_withTokens (hwithin : config.Within start last) :
    (query.withTokens tokens).step caret config = query.step caret config := by
  unfold step
  rw [funext (follow_withTokens hwindow hcaret hwithin)]
  rfl

/-- A step does not leave the window: the token at its end is not read. -/
theorem Leads.within (hwithin : config.Within start last)
    (hleads : query.Leads caret config config') : config'.Within start last := by
  obtain ⟨move, hmove, rfl⟩ := hleads
  cases Moves.of_mem_step hmove with
  | pass | enter | skip | leave => exact ⟨hwithin.le_index, hwithin.index_le⟩
  | advance _ htoken _ hmay =>
    refine ⟨Nat.le_succ_of_le hwithin.le_index, Nat.lt_of_le_of_ne hwithin.index_le ?_⟩
    intro hat
    rcases hmay with hbefore | hpreloaded
    · exact Nat.not_lt.mpr hcaret (hat ▸ hbefore)
    · exact hwindow.closed _ (hat ▸ htoken) hpreloaded

theorem Reaches.within (hwithin : first.Within start last)
    (hreach : query.Reaches caret first config) : config.Within start last := by
  induction hreach with
  | refl => exact hwithin
  | tail _ hleads ih => exact Leads.within hwindow hcaret ih hleads

end Window

/-! ## Walks -/

section Walks

variable (hindex : first.index ≤ query.tokens.size) (hstack : first.stack ≠ [])
  (hstep : ∀ config, query.Reaches caret first config →
    query'.step caret config = query.step caret config)
include hindex hstack hstep

/-- Walks whose steps are the same wherever the first one gets stay together round by round. -/
theorem rounds_congr (n : ℕ) : query'.rounds caret first n = query.rounds caret first n := by
  induction n with
  | zero => rfl
  | succ n ih =>
    rw [rounds_succ, rounds_succ, ih]
    unfold Progress.round
    split
    · rfl
    · next origin rest hpending =>
      -- The round asks for the effects of `origin` only, which is within reach.
      have horigin : query.Reaches caret first origin.config :=
        reaches_of_mem_pending hindex hstack (hpending ▸ List.mem_cons_self)
      rw [Progress.explore, Progress.explore, hstep _ horigin]

theorem walk_congr (hvocabulary : query'.network.vocabulary = query.network.vocabulary)
    (hindex' : first.index ≤ query'.tokens.size) :
    query'.walk caret first hindex' = query.walk caret first hindex := by
  obtain ⟨n, hdone, hwalk⟩ := exists_walk_eq caret hindex
  have hrounds := rounds_congr hindex hstack hstep n
  rw [hwalk, walk_eq_outcome hindex' (hrounds ▸ hdone), outcomeAfter, outcomeAfter, hrounds,
    outcome, outcome, hvocabulary]

end Walks

/-- A walk that begins inside the window is the same for the other tokens. -/
theorem walk_withTokens (hwindow : query.SharesWindow tokens start last) (hcaret : caret ≤ last)
    (hwithin : first.Within start last) (hstack : first.stack ≠ [])
    (hindex : first.index ≤ query.tokens.size) (hindex' : first.index ≤ tokens.size) :
    (query.withTokens tokens).walk caret first hindex' = query.walk caret first hindex :=
  walk_congr hindex hstack (fun _ hreach => step_withTokens hwindow hcaret
    (Reaches.within hwindow hcaret hwithin hreach)) rfl hindex'

/-! ## Answers -/

theorem sharesPlaces_withTokens (query : Query) (tokens : Array TerminalId) :
    query.network.SharesPlaces (query.withTokens tokens).network :=
  ⟨rfl, fun _ => rfl⟩

theorem parserStack_withTokens (site : StateId) (rule : RuleId) (calls : List Frame) :
    (query.withTokens tokens).parserStack site rule calls = query.parserStack site rule calls := by
  unfold parserStack
  rw [openCalls_congr (sharesPlaces_withTokens query tokens)]

theorem collect_withTokens {site : StateId} {calls : List Frame} {index : ℕ}
    (hwindow : query.SharesWindow tokens index last) (hcaret : index ≤ last) :
    (query.withTokens tokens).collect site calls index = query.collect site calls index := by
  have hindex : index ≤ query.tokens.size := Nat.le_trans hcaret hwindow.last_le
  have hindex' : index ≤ (query.withTokens tokens).tokens.size :=
    Nat.le_trans hcaret hwindow.last_le'
  unfold collect
  rw [dif_pos hindex, dif_pos hindex',
    checkPreferred_congr (sharesPlaces_withTokens query tokens) rfl]
  cases query.checkPreferred with
  | error error => rfl
  | ok _ =>
    have hnetwork : (query.withTokens tokens).network = query.network := rfl
    rw [hnetwork]
    cases query.network.state? site with
    | none => rfl
    | some state =>
      dsimp only
      rw [parserStack_withTokens]
      cases hstack : query.parserStack site state.rule calls with
      | error error => rfl
      | ok stack =>
        have hne : stack ≠ [] := parserStack_eq_seedStack hstack ▸ seedStack_ne_nil _ _
        have hwalk : (query.withTokens tokens).walk index ⟨site, index, stack⟩ hindex' =
            query.walk index ⟨site, index, stack⟩ hindex :=
          walk_withTokens hwindow hcaret ⟨Nat.le_refl _, hcaret⟩ hne hindex hindex'
        simp only [bind, Except.bind, hwalk]

theorem collectFromRule_withTokens {rule : RuleId}
    (hwindow : query.SharesWindow tokens start last) (hcaret : caret ≤ last) :
    (query.withTokens tokens).collectFromRule rule start caret =
      query.collectFromRule rule start caret := by
  have hindex : caret ≤ query.tokens.size := Nat.le_trans hcaret hwindow.last_le
  have hindex' : caret ≤ (query.withTokens tokens).tokens.size :=
    Nat.le_trans hcaret hwindow.last_le'
  unfold collectFromRule
  rw [dif_pos hindex, dif_pos hindex',
    checkPreferred_congr (sharesPlaces_withTokens query tokens) rfl]
  by_cases hstart : start ≤ caret
  · rw [dif_pos hstart, dif_pos hstart]
    cases query.checkPreferred with
    | error error => rfl
    | ok _ =>
      have hnetwork : (query.withTokens tokens).network = query.network := rfl
      rw [hnetwork]
      cases query.network.entry? rule with
      | none => rfl
      | some entry =>
        have hfirst := Nat.le_trans hstart hindex
        have hfirst' := Nat.le_trans hstart hindex'
        have hwalk : (query.withTokens tokens).walk caret
              ⟨entry, start, [⟨rule, start, none⟩]⟩ hfirst' =
            query.walk caret ⟨entry, start, [⟨rule, start, none⟩]⟩ hfirst :=
          walk_withTokens hwindow hcaret ⟨Nat.le_refl _, Nat.le_trans hstart hcaret⟩
            (List.cons_ne_nil _ _) hfirst hfirst'
        simp only [bind, Except.bind, hwalk]
  · rw [dif_neg hstart, dif_neg hstart]

/-- The answer to a request, with all that it counts and reports, is the same for any other tokens
that agree with the given ones from its start up to a token at or after the caret that is not
stepped over. Where nothing is stepped over, tokens that agree up to the caret will do. -/
theorem answer_withTokens (query : Query) (tokens : Array TerminalId) (request : Request) :
    (∀ last, request.caret ≤ last → query.SharesWindow tokens request.start last →
      (query.withTokens tokens).answer request = query.answer request) ∧
    (query.options.preloaded = ∅ → request.caret ≤ query.tokens.size →
      request.caret ≤ tokens.size →
      (∀ index, request.start ≤ index → index < request.caret →
        tokens[index]? = query.tokens[index]?) →
      (query.withTokens tokens).answer request = query.answer request) := by
  have hanswer : ∀ last, request.caret ≤ last → query.SharesWindow tokens request.start last →
      (query.withTokens tokens).answer request = query.answer request := by
    intro last hcaret hwindow
    cases request with
    | parser site calls index => exact collect_withTokens hwindow hcaret
    | replay rule start caret => exact collectFromRule_withTokens hwindow hcaret
  refine ⟨hanswer, fun hpreloaded hsize hsize' htokens => ?_⟩
  exact hanswer request.caret (Nat.le_refl _)
    (sharesWindow_of_preloaded hpreloaded hsize hsize' htokens)

/-- The item after the caret is stepped over and the replay begins after another one. Neither what
comes first nor what comes last shows. -/
theorem answer_withTokens_itemList :
    let query := itemQuery (({} : Options).preloading [⟨0⟩])
    let tokens : Array TerminalId := #[⟨7⟩, ⟨0⟩, ⟨7⟩]
    query.SharesWindow tokens 1 2 ∧ tokens ≠ query.tokens ∧
      (query.withTokens tokens).answer (.replay ⟨0⟩ 1 1) = query.answer (.replay ⟨0⟩ 1 1) ∧
      ∃ outcome, query.answer (.replay ⟨0⟩ 1 1) = .ok outcome ∧
        .steppedOver ⟨0⟩ 1 ∈ outcome.trace := by
  intro query tokens
  have hwindow : query.SharesWindow tokens 1 2 := by
    refine ⟨by decide, by decide, ?_, ?_, ?_⟩
    · intro index hstart hlast
      obtain rfl : index = 1 := by omega
      rfl
    · intro token htoken
      cases htoken
    · intro token htoken
      obtain rfl := Option.some.inj htoken
      decide +kernel
  have hreplay : query.collectFromRule ⟨0⟩ 1 1 =
      .ok (query.outcomeAfter 1 ⟨⟨0⟩, 1, [⟨⟨0⟩, 1, none⟩]⟩ 9) :=
    collectFromRule_eq_outcome (by decide) (by decide) rfl rfl (by decide +kernel)
  exact ⟨hwindow, by decide, (answer_withTokens query tokens (.replay ⟨0⟩ 1 1)).1 2 (by decide)
    hwindow, _, hreplay, by decide +kernel⟩

end Query

end CodeCompletion
