import CodeCompletion.Proofs.Nullable
import CodeCompletion.Proofs.Requests
import CodeCompletion.Proofs.Steps

/-!
# Every candidate can be reached

A terminal is offered along a path only if a free run leads there: a run that knows no
left-recursion cut, no depth limit and no visited set. Where the walk passes a cut call as
if it had matched nothing, the run goes through the callee in silence. If the walk gave up
no call, it follows every free run, and nothing that a free run can reach is missing.

## Main definitions

* `Query.Offering`, `Query.Offered`: a terminal is offered where a free run has led

## Main results

* `Query.exists_freeRun_of_silentFinish`: a silent pass as a free run
* `Query.Reaches.freeRun`: a walk goes only where free runs go
* `Query.reaches_of_freeRun`: a walk that gives up no call goes wherever free runs go
* `Query.answer_tokens_offered`: the candidates of every accepted request
-/

set_option autoImplicit false

namespace CodeCompletion

namespace Query

variable {query : Query} {caret : ℕ} {first config config' : Config} {terminal : TerminalId}
  {path : Path}

/-- Every token from `caret` to before `index` is one that may be stepped over. -/
def PreloadedTo (query : Query) (caret index : ℕ) : Prop :=
  ∀ i, caret ≤ i → i < index →
    ∃ token, query.tokens[i]? = some token ∧ token ∈ query.options.preloaded

/-- Where nothing may be stepped over, no token from the caret on is passed. -/
theorem PreloadedTo.index_le (hpreloaded : query.options.preloaded = ∅) {index : ℕ}
    (h : query.PreloadedTo caret index) : index ≤ caret := by
  by_contra hbeyond
  obtain ⟨token, -, htoken⟩ := h caret (Nat.le_refl _) (Nat.not_le.mp hbeyond)
  simp [hpreloaded] at htoken

/-- A free run from `first` leads to `config`, past tokens that may be stepped over from the
caret on, and there an edge that is not stepped over itself offers `terminal`. -/
structure Offering (query : Query) (caret : ℕ) (first : Config) (terminal : TerminalId)
    (config : Config) (label : Label) (target : StateId) : Prop where
  run : query.FreeRun first config
  caret_le : caret ≤ config.index
  preloaded : query.PreloadedTo caret config.index
  edge : query.network.HasEdge config.state label target
  offers : label.Offers query.network.vocabulary terminal
  stays : ¬ ∃ token, query.tokens[config.index]? = some token ∧ label.Matches token ∧
    token ∈ query.options.preloaded
  not_ignored : terminal ∉ query.options.ignored

/-- A free run from `first` leads to where `terminal` is offered, with `path` the rules that
are open there. -/
def Offered (query : Query) (caret : ℕ) (first : Config) (terminal : TerminalId) (path : Path) :
    Prop :=
  ∃ config label target, query.Offering caret first terminal config label target ∧
    config.stack.path = path

theorem stepsOver_iff {index : ℕ} {label : Label} (h : label.Ascending) :
    query.StepsOver index label ↔ ∃ token, query.tokens[index]? = some token ∧
      label.Matches token ∧ token ∈ query.options.preloaded := by
  simp only [StepsOver, Label.accepts_iff h]

/-! ## From walks to free runs -/

/-- A silent pass is a free run that ends at a stop state of the same rule under the same
stack. -/
theorem exists_freeRun_of_silentFinish {draft : Draft} (hbuild : draft.build = .ok query.network)
    (hconsents : ∀ predicate, query.consents predicate) {state : StateId} {rule : RuleId}
    (h : query.network.SilentFinish state) (howns : query.network.Owns rule state) (index : ℕ)
    (caller : Frame) (outer : CallStack) :
    ∃ stop, query.network.Owns rule stop ∧ query.network.IsStop stop ∧
      query.FreeRun ⟨state, index, caller :: outer⟩ ⟨stop, index, caller :: outer⟩ := by
  induction h generalizing rule caller outer with
  | stop hstop => exact ⟨_, howns, hstop, .refl⟩
  | @pass state target label hedge hsilent _ ih =>
    have hpasses : query.Passes label := by
      cases label with
      | epsilon => trivial
      | guard predicate => exact hconsents predicate
      | token _ | oneOf _ | noneOf _ | any | call _ => exact hsilent.elim
    obtain ⟨stop, hown, hstop, hrun⟩ :=
      ih (Draft.owns_target_of_build hbuild hedge howns) caller outer
    exact ⟨stop, hown, hstop, .head (.pass hedge hpasses) hrun⟩
  | @call state target entry called hedge hentry _ _ ihcalled ih =>
    -- Into the callee, through it in silence, back, and on from where the call returns to.
    obtain ⟨inner, -, hinner, hcalled⟩ := ihcalled (Draft.owns_entry_of_build hbuild hentry)
      ⟨called, index, some target⟩ (caller :: outer)
    obtain ⟨stop, hown, hstop, hrun⟩ :=
      ih (Draft.owns_target_of_build hbuild hedge howns) caller outer
    have hreturn : query.FreeRun ⟨entry, index, ⟨called, index, some target⟩ :: caller :: outer⟩
        ⟨target, index, caller :: outer⟩ := hcalled.tail (.finish hinner)
    exact ⟨stop, hown, hstop, .head (.call hedge hentry) (hreturn.trans hrun)⟩

/-- A call that is passed as if it had matched nothing is a call that can match nothing. -/
theorem freeRun_of_skip {draft : Draft} (hbuild : draft.build = .ok query.network)
    (hconsents : ∀ predicate, query.consents predicate) {state target : StateId} {rule : RuleId}
    (hedge : query.network.HasEdge state (.call rule) target)
    (hnullable : query.network.isNullable rule) (index : ℕ) {stack : CallStack}
    (hstack : stack ≠ []) : query.FreeRun ⟨state, index, stack⟩ ⟨target, index, stack⟩ := by
  obtain ⟨entry, hentry, hsilent⟩ := (Network.isNullable_iff hbuild).mp hnullable
  obtain ⟨caller, outer, rfl⟩ := List.exists_cons_of_ne_nil hstack
  obtain ⟨stop, -, hstop, hrun⟩ := exists_freeRun_of_silentFinish hbuild hconsents hsilent
    (Draft.owns_entry_of_build hbuild hentry) index ⟨rule, index, some target⟩ (caller :: outer)
  exact .head (.call hedge hentry) (hrun.tail (.finish hstop))

theorem Leads.freeRun {draft : Draft} (hbuild : draft.build = .ok query.network)
    (hsets : query.network.Ascending) (hconsents : ∀ predicate, query.consents predicate)
    (h : query.Leads caret config config') : query.FreeRun config config' := by
  obtain ⟨move, hmove, rfl⟩ := h
  obtain ⟨state, index, stack⟩ := config
  cases Moves.of_mem_step hmove with
  | pass hedge hpasses => exact .single (.pass hedge hpasses)
  | advance hedge htoken haccepts _ =>
    exact .single (.read hedge htoken ((Label.accepts_iff (hsets.of_hasEdge hedge)).mp haccepts))
  | enter hcalls _ => exact .single (.call hcalls.edge hcalls.entry)
  | skip hcalls hcut hnullable =>
    -- A rule that is cut is open, so some call is.
    have hstack : stack ≠ [] := by
      rintro rfl
      exact absurd hcut (Nat.not_lt_zero _)
    exact freeRun_of_skip hbuild hconsents hcalls.edge hnullable index hstack
  | leave hstop hstack =>
    obtain rfl : stack = _ := hstack
    exact .single (.finish hstop)

/-- From the caret on, a walk advances only past tokens that may be stepped over. -/
theorem Leads.preloadedTo (h : query.Leads caret config config')
    (hconfig : query.PreloadedTo caret config.index) :
    query.PreloadedTo caret config'.index := by
  obtain ⟨move, hmove, rfl⟩ := h
  cases Moves.of_mem_step hmove with
  | @advance label target token hedge htoken haccepts hmay =>
    intro i hcaret hi
    rcases Nat.lt_succ_iff_lt_or_eq.mp hi with hi | rfl
    · exact hconfig i hcaret hi
    · exact ⟨token, htoken, hmay.resolve_left (Nat.not_lt.mpr hcaret)⟩
  | pass | enter | skip | leave => exact hconfig

theorem Reaches.freeRun {draft : Draft} (hbuild : draft.build = .ok query.network)
    (hsets : query.network.Ascending) (hconsents : ∀ predicate, query.consents predicate)
    (h : query.Reaches caret first config) : query.FreeRun first config := by
  induction h with
  | refl => exact .refl
  | tail _ hleads ih => exact ih.trans (hleads.freeRun hbuild hsets hconsents)

theorem Reaches.preloadedTo (hfirst : first.index ≤ caret)
    (h : query.Reaches caret first config) : query.PreloadedTo caret config.index := by
  induction h with
  | refl => exact fun i hcaret hi => absurd (Nat.lt_of_lt_of_le hi hfirst) (Nat.not_lt.mpr hcaret)
  | tail _ hleads ih => exact hleads.preloadedTo ih

theorem offered_of_finds {draft : Draft} (hbuild : draft.build = .ok query.network)
    (hsets : query.network.Ascending) (hconsents : ∀ predicate, query.consents predicate)
    (hfirst : first.index ≤ caret) {finding : Finding} (hfinds : query.Finds caret first finding)
    (hbrings : finding.BringsToken terminal path) : query.Offered caret first terminal path := by
  obtain ⟨config, hreach, hreport⟩ := hfinds
  cases Reports.of_mem_step hreport with
  | rule =>
    -- An offered rule brings no terminal.
    obtain ⟨-, -, terminals, hoffer, -⟩ := bringsToken_finding_iff.mp hbrings
    cases hoffer
  | @terminals label target hedge hconsumes hcaret hstays =>
    obtain ⟨-, hpath, terminals, hoffer, hmem⟩ := bringsToken_finding_iff.mp hbrings
    obtain rfl := Offer.terminals.inj hoffer
    obtain ⟨hoffered, hignored⟩ := List.mem_filter.mp hmem
    have hlabel := hsets.of_hasEdge hedge
    rw [stepsOver_iff hlabel] at hstays
    exact ⟨config, label, target,
      ⟨hreach.freeRun hbuild hsets hconsents, hcaret, hreach.preloadedTo hfirst, hedge,
        (Label.mem_offered_iff hlabel).mp hoffered, hstays, of_decide_eq_true hignored⟩, hpath⟩

/-! ## From free runs to walks -/

theorem leads_of_freeStep (hfinal : query.network.StopsFinal) (hsets : query.network.Ascending)
    (hpreferred : query.options.preferred = ∅)
    (hdepth : ∀ rule depth, .event (.depthLimitReached rule depth) ∉ query.step caret config)
    (hcut : ∀ rule index, .event (.recursionCut rule index) ∉ query.step caret config)
    (hpreloaded : query.PreloadedTo caret config'.index) (h : query.FreeStep config config') :
    query.Leads caret config config' := by
  cases h with
  | pass hedge hpasses => exact ⟨_, (Moves.pass hedge hpasses).mem_step hfinal, rfl⟩
  | @read state index stack label target token hedge htoken hmatches =>
    -- A token that the run has passed lies before the caret, or may be stepped over.
    have hmay : index < caret ∨ token ∈ query.options.preloaded := by
      by_cases hcaret : index < caret
      · exact Or.inl hcaret
      · obtain ⟨other, hother, hmem⟩ := hpreloaded index (Nat.not_lt.mp hcaret) (Nat.lt_succ_self _)
        rw [htoken] at hother
        exact Or.inr (Option.some.inj hother ▸ hmem)
    have haccepts := (Label.accepts_iff (hsets.of_hasEdge hedge)).mpr hmatches
    exact ⟨_, (Moves.advance hedge htoken haccepts hmay).mem_step hfinal, rfl⟩
  | @call state index stack rule entry target hedge hentry =>
    have hcalls := (calls_or_depthLimitReached_mem_step hfinal hpreferred hedge
      hentry).resolve_right (hdepth rule _)
    -- A call that is not made shows as an event of one kind or the other.
    have hopen : stack.openCount rule index ≤ caret - index := by
      by_contra hless
      exact hcut rule index (recursionCut_mem_step hfinal hcalls (Nat.not_le.mp hless))
    exact ⟨_, (Moves.enter hcalls hopen).mem_step hfinal, rfl⟩
  | finish hstop => exact ⟨_, (Moves.leave hstop rfl).mem_step hfinal, rfl⟩

/-- A walk that gives up no call goes wherever free runs go. -/
theorem reaches_of_freeRun (hfinal : query.network.StopsFinal) (hsets : query.network.Ascending)
    (hpreferred : query.options.preferred = ∅) (hdepth : query.NeverTooDeep caret first)
    (hcut : query.NeverCut caret first)
    (hpreloaded : query.PreloadedTo caret config.index) (h : query.FreeRun first config) :
    query.Reaches caret first config := by
  induction h with
  | refl => exact .refl
  | tail _ hstep ih =>
    -- What has to be preloaded for the whole run has to be for its beginning.
    have hreach := ih fun i hcaret hi =>
      hpreloaded i hcaret (Nat.lt_of_lt_of_le hi hstep.index_le)
    exact hreach.tail (leads_of_freeStep hfinal hsets hpreferred (hdepth _ hreach)
      (hcut _ hreach) hpreloaded hstep)

theorem exists_finds_of_offered (hfinal : query.network.StopsFinal)
    (hsets : query.network.Ascending) (hpreferred : query.options.preferred = ∅)
    (hdepth : query.NeverTooDeep caret first) (hcut : query.NeverCut caret first)
    (h : query.Offered caret first terminal path) :
    ∃ finding, query.Finds caret first finding ∧ finding.BringsToken terminal path := by
  obtain ⟨config, label, target, hoffering, hpath⟩ := h
  have hreach := reaches_of_freeRun hfinal hsets hpreferred hdepth hcut hoffering.preloaded
    hoffering.run
  have hstays : ¬ query.StepsOver config.index label := by
    rw [stepsOver_iff (hsets.of_hasEdge hoffering.edge)]
    exact hoffering.stays
  obtain ⟨finding, hreport, hbrings⟩ := exists_report_of_offers config hfinal hpreferred
    hoffering.edge hoffering.offers hoffering.caret_le hstays hoffering.not_ignored
  exact ⟨finding, ⟨config, hreach, hreport⟩, hpath ▸ hbrings⟩

/-! ## Candidates of accepted requests -/

/-- Every terminal of an answer with its path is offered where a free run leads. If no rule
is preferred and the walk gave up no call, the answer has all that is offered so. -/
theorem answer_tokens_offered {draft : Draft} {request : Request} {outcome : Outcome}
    (hbuild : draft.build = .ok query.network) (hsets : query.network.Ascending)
    (hconsents : ∀ predicate, query.consents predicate)
    (hanswer : query.answer request = .ok outcome) :
    ∃ first, query.first? request = some first ∧
      (∀ terminal path, outcome.candidates.hasToken terminal path →
        query.Offered request.caret first terminal path) ∧
      (query.options.preferred = ∅ → outcome.depthPruned = 0 → outcome.recursionCut = 0 →
        ∀ terminal path, query.Offered request.caret first terminal path →
          outcome.candidates.hasToken terminal path) := by
  obtain ⟨first, hindex, hfirst, hstack, hcaret, rfl⟩ := exists_walk_of_answer hanswer
  refine ⟨first, hfirst, ?_, ?_⟩
  · intro terminal path htoken
    obtain ⟨finding, hfinds, hbrings⟩ := (hasToken_walk_iff hindex hstack).mp htoken
    exact offered_of_finds hbuild hsets hconsents hcaret hfinds hbrings
  · intro hpreferred hpruned hcut terminal path hoffered
    have hfinal := Draft.stopsFinal_of_build hbuild
    have hfinds := exists_finds_of_offered hfinal hsets hpreferred
      (neverTooDeep_of_depthPruned hindex hstack hpruned)
      (neverCut_of_recursionCut hindex hstack hcut) hoffered
    exact (hasToken_walk_iff hindex hstack).mpr hfinds

/-- After one item of a list another one is offered, also where the walk had to cut a call.
A parser that is before the second item steps over it without any cut. -/
theorem answer_tokens_offered_itemList :
    (∃ outcome, (itemQuery {}).answer (.replay ⟨0⟩ 0 1) = .ok outcome ∧
      0 < outcome.recursionCut ∧ outcome.candidates.hasToken ⟨0⟩ [⟨0⟩] ∧
      (itemQuery {}).Offered 1 ⟨⟨0⟩, 0, [⟨⟨0⟩, 0, none⟩]⟩ ⟨0⟩ [⟨0⟩]) ∧
    let query := itemQuery (({} : Options).preloading [⟨0⟩])
    ∃ outcome, query.answer (.parser ⟨2⟩ [⟨⟨0⟩, 0, none⟩, ⟨⟨0⟩, 1, some ⟨2⟩⟩] 1) =
        .ok outcome ∧
      ∀ terminal path, outcome.candidates.hasToken terminal path ↔
        query.Offered 1 ⟨⟨2⟩, 1, [⟨⟨0⟩, 1, some ⟨2⟩⟩, ⟨⟨0⟩, 0, none⟩]⟩ terminal path := by
  have hsets : itemList.Ascending := by decide +kernel
  constructor
  · have hreplay : (itemQuery {}).collectFromRule ⟨0⟩ 0 1 = .ok
        ((itemQuery {}).outcomeAfter 1 ⟨⟨0⟩, 0, [⟨⟨0⟩, 0, none⟩]⟩ 9) :=
      collectFromRule_eq_outcome (by decide) (by decide) rfl rfl (by decide +kernel)
    have hok : (itemQuery {}).answer (.replay ⟨0⟩ 0 1) = .ok _ := hreplay
    obtain ⟨first, hfirst, hoffered, -⟩ :=
      answer_tokens_offered build_listDraft_epsilon hsets (fun _ => rfl) hok
    obtain rfl := Option.some.inj hfirst
    have htoken : ((itemQuery {}).outcomeAfter 1 ⟨⟨0⟩, 0, [⟨⟨0⟩, 0, none⟩]⟩
        9).candidates.hasToken ⟨0⟩ [⟨0⟩] := by
      decide +kernel
    exact ⟨_, hok, by decide +kernel, htoken, hoffered _ _ htoken⟩
  · intro query
    have hstate : query.network.state? ⟨2⟩ = some ⟨⟨⟨0⟩, .interior⟩, [⟨.token ⟨0⟩, ⟨1⟩⟩]⟩ := by
      decide +kernel
    have hstack : query.parserStack ⟨2⟩ ⟨0⟩ [⟨⟨0⟩, 0, none⟩, ⟨⟨0⟩, 1, some ⟨2⟩⟩] =
        .ok [⟨⟨0⟩, 1, some ⟨2⟩⟩, ⟨⟨0⟩, 0, none⟩] := by
      decide +kernel
    have hdone : (query.rounds 1 ⟨⟨2⟩, 1, [⟨⟨0⟩, 1, some ⟨2⟩⟩, ⟨⟨0⟩, 0, none⟩]⟩ 3).pending =
        [] := by
      decide +kernel
    have hok : query.answer (.parser ⟨2⟩ [⟨⟨0⟩, 0, none⟩, ⟨⟨0⟩, 1, some ⟨2⟩⟩] 1) =
        .ok (query.outcomeAfter 1 ⟨⟨2⟩, 1, [⟨⟨0⟩, 1, some ⟨2⟩⟩, ⟨⟨0⟩, 0, none⟩]⟩ 3) :=
      collect_eq_ok_iff.mpr ⟨by decide, _, _, rfl, hstate, hstack, walk_eq_outcome _ hdone⟩
    obtain ⟨first, hfirst, hoffered, hall⟩ :=
      answer_tokens_offered build_listDraft_epsilon hsets (fun _ => rfl) hok
    rw [first?, hstate] at hfirst
    obtain rfl := Option.some.inj hfirst
    exact ⟨_, hok, fun terminal path => ⟨hoffered terminal path,
      hall rfl (by decide +kernel) (by decide +kernel) terminal path⟩⟩

end Query

end CodeCompletion
