import CodeCompletion.Proofs.Soundness

/-!
# Stepping over preloaded tokens

Tokens after the caret that may be stepped over are read as if they stood before it. So a
walk to the caret goes wherever a walk to a later token goes, if all tokens between may be
stepped over, with one exception: how often a rule may be open from one token on is measured
by the tokens before the caret alone, and a walk to the later token may open more calls.

## Main definitions

* `CallStack.FedBy`: no rule is open more often than the tokens before the caret can feed
* `Query.ReachesFed`, `Query.FindsFed`: where a walk to a later token gets without opening more
  calls than that, and what it finds there

## Main results

* `Query.ReachesFed.reaches`: the walk to the caret gets there as well
* `Query.Reaches.fed_of_trace`: the walk to the later token opens no more calls if the walk to
  the caret gives up none before that token
* `Query.collectFromRule_preloaded`: what a replay to the later token offers
-/

set_option autoImplicit false

namespace CodeCompletion

namespace CallStack

variable {stack : CallStack} {caret : ℕ}

/-- From each token on, every rule is open at most once more than tokens are left before the
caret. -/
def FedBy (stack : CallStack) (caret : ℕ) : Prop :=
  ∀ rule start, stack.openCount rule start ≤ caret - start + 1

theorem fedBy_singleton (frame : Frame) (caret : ℕ) : FedBy [frame] caret := by
  intro rule start
  have hcount : openCount [frame] rule start ≤ 1 := List.countP_le_length
  omega

theorem FedBy.push (h : stack.FedBy caret) {rule : RuleId} {start : ℕ} (resume? : Option StateId)
    (hopen : stack.openCount rule start ≤ caret - start) :
    FedBy (⟨rule, start, resume?⟩ :: stack) caret := by
  intro other index
  have hother := h other index
  rw [openCount_cons]
  split
  · next hsame =>
    obtain ⟨rfl, rfl⟩ := hsame
    exact Nat.succ_le_succ hopen
  · exact hother

theorem FedBy.tail (h : stack.FedBy caret) : FedBy stack.tail caret := fun rule start =>
  Nat.le_trans ((List.tail_sublist stack).countP_le) (h rule start)

end CallStack

namespace Query

variable {query : Query} {caret last : ℕ} {first config config' : Config}

/-- A walk to `last` comes from one configuration to the other, and all calls that are open on
the way can be fed by the tokens before `caret`. -/
def ReachesFed (query : Query) (caret last : ℕ) : Config → Config → Prop :=
  Relation.ReflTransGen fun before after =>
    query.Leads last before after ∧ after.stack.FedBy caret

/-- A walk to `last` reports a finding where it comes with such calls. -/
def FindsFed (query : Query) (caret last : ℕ) (first : Config) (finding : Finding) : Prop :=
  ∃ config, query.ReachesFed caret last first config ∧
    .report finding ∈ query.step last config

/-! ## Walks to two carets -/

section

variable (hfinal : query.network.StopsFinal) (hpreferred : query.options.preferred = ∅)
  (hcaret : caret ≤ last)
include hpreferred

theorem Calls.of_later {rule : RuleId} {entry target : StateId}
    (h : query.Calls last config rule entry target) :
    query.Calls caret config rule entry target :=
  ⟨h.edge, h.entry, by simp [hpreferred], h.depth⟩

include hfinal hcaret

/-- A move towards the later token is a move towards the caret, if the calls that are open
after it can be fed by the tokens before the caret. -/
theorem Leads.of_later (hpreloaded : query.PreloadedTo caret last)
    (h : query.Leads last config config') (hfed : config'.stack.FedBy caret) :
    query.Leads caret config config' := by
  obtain ⟨move, hmove, rfl⟩ := h
  refine ⟨move, Moves.mem_step hfinal ?_, rfl⟩
  cases Moves.of_mem_step hmove with
  | pass hedge hpasses => exact .pass hedge hpasses
  | @advance label target token hedge htoken haccepts hmay =>
    refine .advance hedge htoken haccepts ?_
    by_cases hbefore : config.index < caret
    · exact Or.inl hbefore
    -- What the later walk reads after the caret may be stepped over.
    · right
      rcases hmay with hbetween | hmem
      · obtain ⟨other, hother, hmem⟩ := hpreloaded _ (Nat.not_lt.mp hbefore) hbetween
        exact Option.some.inj (htoken.symm.trans hother) ▸ hmem
      · exact hmem
  | @enter rule entry target hcalls _ =>
    have hopen := hfed rule config.index
    simp only [Config.after, CallStack.openCount_cons, and_self, if_true] at hopen
    exact .enter (hcalls.of_later hpreferred) (Nat.le_of_succ_le_succ hopen)
  -- What the later walk cannot feed, this one cannot either.
  | skip hcalls hcut hnullable => exact .skip (hcalls.of_later hpreferred) (by omega) hnullable
  | leave hstop hstack => exact .leave hstop hstack

theorem ReachesFed.reaches (hpreloaded : query.PreloadedTo caret last)
    (h : query.ReachesFed caret last first config) : query.Reaches caret first config := by
  induction h with
  | refl => exact .refl
  | tail _ hstep ih =>
    exact ih.tail (hstep.1.of_later hfinal hpreferred hcaret hpreloaded hstep.2)

/-- What is found at the later token is found from the caret on. -/
theorem FindsFed.finds (hpreloaded : query.PreloadedTo caret last) {finding : Finding}
    (h : query.FindsFed caret last first finding) : query.Finds caret first finding := by
  obtain ⟨config, hreach, hreport⟩ := h
  refine ⟨config, hreach.reaches hfinal hpreferred hcaret hpreloaded, Reports.mem_step hfinal ?_⟩
  cases Reports.of_mem_step hreport with
  | terminals hedge hconsumes hlast hstays =>
    exact .terminals hedge hconsumes (Nat.le_trans hcaret hlast) hstays
  | rule hedge hentry hlast hmem =>
    exact .rule hedge hentry (Nat.le_trans hcaret hlast) hmem

/-- Where the walk to the caret gives up no call before the later token, the walk to that token
opens no more calls than the tokens before the caret can feed. -/
theorem Leads.fedBy (hcuts : caret < last → ∀ rule index,
      .event (.recursionCut rule index) ∈ query.step caret config → last ≤ index)
    (h : query.Leads last config config') (hfed : config.stack.FedBy caret) :
    config'.stack.FedBy caret := by
  obtain ⟨move, hmove, rfl⟩ := h
  cases Moves.of_mem_step hmove with
  | @enter rule entry target hcalls hopen =>
    refine hfed.push _ ?_
    by_contra hcut
    have hevent := recursionCut_mem_step hfinal (hcalls.of_later hpreferred) (Nat.not_le.mp hcut)
    by_cases hlater : caret < last
    · have hlate := hcuts hlater rule config.index hevent
      omega
    · omega
  | leave _ _ => exact hfed.tail
  | pass | advance | skip => exact hfed

theorem Reaches.fed_of_trace (hpreloaded : query.PreloadedTo caret last)
    (hindex : first.index ≤ query.tokens.size) (hstack : first.stack ≠ [])
    (hfed : first.stack.FedBy caret)
    (htrace : caret < last → ∀ rule index,
      .recursionCut rule index ∈ (query.walk caret first hindex).trace → last ≤ index)
    (h : query.Reaches last first config) :
    query.ReachesFed caret last first config ∧ config.stack.FedBy caret := by
  induction h with
  | refl => exact ⟨.refl, hfed⟩
  | @tail before after _ hleads ih =>
    -- The walk to the caret has come to the same place, so its events there are in its trace.
    have hbefore := ih.1.reaches hfinal hpreferred hcaret hpreloaded
    have hafter := hleads.fedBy hfinal hpreferred hcaret (fun hlater rule index hcut =>
      htrace hlater rule index ((mem_trace_walk_iff hindex hstack).mpr ⟨before, hbefore, hcut⟩))
      ih.2
    exact ⟨ih.1.tail ⟨hleads, hafter⟩, hafter⟩

end

/-! ## Replays -/

/-- Let no rule be preferred, and let all tokens from the caret to a later one be such that may
be stepped over. What a replay to the later token finds with no more calls open than the tokens
before the caret can feed, a replay to the caret offers too. This is all that it finds, if the
replay to the caret gives up no call for left recursion before the later token. -/
theorem collectFromRule_preloaded {draft : Draft} {rule : RuleId} {entry : StateId} {start : ℕ}
    (hbuild : draft.build = .ok query.network) (hpreferred : query.options.preferred = ∅)
    (hentry : query.network.entry? rule = some entry) (hstart : start ≤ caret)
    (hcaret : caret ≤ last) (hlast : last ≤ query.tokens.size)
    (hpreloaded : query.PreloadedTo caret last) :
    ∃ near far, query.collectFromRule rule start caret = .ok near ∧
      query.collectFromRule rule start last = .ok far ∧
      (∀ finding terminal path,
        query.FindsFed caret last ⟨entry, start, [⟨rule, start, none⟩]⟩ finding →
        finding.BringsToken terminal path → near.candidates.hasToken terminal path) ∧
      ((caret < last → ∀ called index, .recursionCut called index ∈ near.trace → last ≤ index) →
        (∀ terminal path, far.candidates.hasToken terminal path →
          near.candidates.hasToken terminal path) ∧
        ∀ terminal ∈ far.candidates.terminals, terminal ∈ near.candidates.terminals) := by
  have hfinal := Draft.stopsFinal_of_build hbuild
  have hcheck := checkPreferred_eq_ok hpreferred
  have hsize := Nat.le_trans hcaret hlast
  have hindex := Nat.le_trans hstart hsize
  have hstack : [(⟨rule, start, none⟩ : Frame)] ≠ [] := List.cons_ne_nil _ _
  have hfound : ∀ finding terminal path,
      query.FindsFed caret last ⟨entry, start, [⟨rule, start, none⟩]⟩ finding →
      finding.BringsToken terminal path →
      (query.walk caret ⟨entry, start, [⟨rule, start, none⟩]⟩ hindex).candidates.hasToken
        terminal path := by
    intro finding terminal path hfinds hbrings
    exact (hasToken_walk_iff hindex hstack).mpr
      ⟨finding, hfinds.finds hfinal hpreferred hcaret hpreloaded, hbrings⟩
  refine ⟨_, _, collectFromRule_eq_ok_iff.mpr ⟨hsize, hstart, entry, hcheck, hentry, rfl⟩,
    collectFromRule_eq_ok_iff.mpr ⟨hlast, Nat.le_trans hstart hcaret, entry, hcheck, hentry, rfl⟩,
    hfound, fun htrace => ?_⟩
  have htokens : ∀ terminal path,
      (query.walk last ⟨entry, start, [⟨rule, start, none⟩]⟩ hindex).candidates.hasToken
        terminal path →
      (query.walk caret ⟨entry, start, [⟨rule, start, none⟩]⟩ hindex).candidates.hasToken
        terminal path := by
    intro terminal path htoken
    obtain ⟨finding, ⟨config, hreach, hreport⟩, hbrings⟩ :=
      (hasToken_walk_iff hindex hstack).mp htoken
    have hfed := (hreach.fed_of_trace hfinal hpreferred hcaret hpreloaded hindex hstack
      (CallStack.fedBy_singleton _ _) htrace).1
    exact hfound finding terminal path ⟨config, hfed, hreport⟩ hbrings
  refine ⟨htokens, fun terminal hterminal => ?_⟩
  obtain ⟨path, htoken⟩ := ((grounded_walk hindex hstack).mem_terminals_iff).mp hterminal
  exact Candidates.mem_terminals_of_hasToken (htokens terminal path htoken)

/-- The draft of two rules: a list of at least one item, and an item followed by such a list. -/
def headedDraft : Draft where
  places := #[⟨⟨0⟩, .entry⟩, ⟨⟨0⟩, .stop⟩, ⟨⟨0⟩, .interior⟩, ⟨⟨1⟩, .entry⟩, ⟨⟨1⟩, .stop⟩,
    ⟨⟨1⟩, .interior⟩]
  rules := #[⟨⟨0⟩, [⟨1⟩]⟩, ⟨⟨3⟩, [⟨4⟩]⟩]
  vocabulary := { terminals := #["item"], rules := #["headed", "items"] }
  edges := #[(⟨0⟩, ⟨.token ⟨0⟩, ⟨2⟩⟩), (⟨2⟩, ⟨.call ⟨1⟩, ⟨1⟩⟩), (⟨3⟩, ⟨.call ⟨1⟩, ⟨5⟩⟩),
    (⟨5⟩, ⟨.token ⟨0⟩, ⟨4⟩⟩), (⟨3⟩, ⟨.token ⟨0⟩, ⟨4⟩⟩)]

/-- One item, which may be stepped over. -/
def headedQuery : Query where
  network := { toBlueprint := headedDraft.toBlueprint, nullable := #[false, false] }
  tokens := #[⟨0⟩]
  options := ({} : Options).preloading [⟨0⟩]

theorem build_headedDraft : headedDraft.build = .ok headedQuery.network := by
  decide +kernel

theorem preloadedTo_headedQuery : headedQuery.PreloadedTo 0 1 := by
  intro i _ hi
  obtain rfl : i = 0 := by omega
  exact ⟨⟨0⟩, rfl, by decide +kernel⟩

/-- After one item of a list another one may follow. This is missed from before the item: one
list inside the other would have to begin there, and the item is not before the caret. -/
theorem collectFromRule_preloaded_misses :
    ∃ near far, headedDraft.build = .ok headedQuery.network ∧
      headedQuery.options.preferred = ∅ ∧ headedQuery.PreloadedTo 0 1 ∧
      headedQuery.collectFromRule ⟨1⟩ 0 0 = .ok near ∧
      headedQuery.collectFromRule ⟨1⟩ 0 1 = .ok far ∧
      ¬ ∀ terminal ∈ far.candidates.terminals, terminal ∈ near.candidates.terminals := by
  refine ⟨headedQuery.outcomeAfter 0 ⟨⟨3⟩, 0, [⟨⟨1⟩, 0, none⟩]⟩ 2,
    headedQuery.outcomeAfter 1 ⟨⟨3⟩, 0, [⟨⟨1⟩, 0, none⟩]⟩ 6, build_headedDraft, rfl,
    preloadedTo_headedQuery,
    collectFromRule_eq_outcome (by decide) (by decide) rfl rfl (by decide +kernel),
    collectFromRule_eq_outcome (by decide) (by decide) rfl rfl (by decide +kernel), ?_⟩
  decide +kernel

/-- The walk past the item opens the list once from the token after it, and there an item may
follow. -/
theorem findsFed_headedQuery :
    ∃ finding, headedQuery.FindsFed 0 1 ⟨⟨0⟩, 0, [⟨⟨0⟩, 0, none⟩]⟩ finding ∧
      finding.BringsToken ⟨0⟩ [⟨0⟩, ⟨1⟩] := by
  have hread : headedQuery.Leads 1 ⟨⟨0⟩, 0, [⟨⟨0⟩, 0, none⟩]⟩ ⟨⟨2⟩, 1, [⟨⟨0⟩, 0, none⟩]⟩ :=
    ⟨.advance ⟨2⟩, by decide +kernel, rfl⟩
  have hcall : headedQuery.Leads 1 ⟨⟨2⟩, 1, [⟨⟨0⟩, 0, none⟩]⟩
      ⟨⟨3⟩, 1, [⟨⟨1⟩, 1, some ⟨1⟩⟩, ⟨⟨0⟩, 0, none⟩]⟩ :=
    ⟨.enter ⟨3⟩ ⟨⟨1⟩, 1, some ⟨1⟩⟩, by decide +kernel, rfl⟩
  have hfed := CallStack.fedBy_singleton ⟨⟨0⟩, 0, none⟩ 0
  have hreach : headedQuery.ReachesFed 0 1 ⟨⟨0⟩, 0, [⟨⟨0⟩, 0, none⟩]⟩
      ⟨⟨3⟩, 1, [⟨⟨1⟩, 1, some ⟨1⟩⟩, ⟨⟨0⟩, 0, none⟩]⟩ :=
    .tail (.single ⟨hread, hfed⟩) ⟨hcall, hfed.push _ (by decide)⟩
  obtain ⟨finding, hreport, hbrings⟩ := exists_report_of_offers
    ⟨⟨3⟩, 1, [⟨⟨1⟩, 1, some ⟨1⟩⟩, ⟨⟨0⟩, 0, none⟩]⟩ (Draft.stopsFinal_of_build build_headedDraft)
    rfl (show headedQuery.network.HasEdge ⟨3⟩ (.token ⟨0⟩) ⟨4⟩ by decide +kernel) rfl
    (Nat.le_refl 1) (by simp [StepsOver, headedQuery]) (by decide +kernel)
  exact ⟨finding, ⟨_, hreach, hreport⟩, hbrings⟩

/-- An item at the head of a list is stepped over, and what may begin the list is offered. The
calls that are given up on the way lie after the item. -/
theorem collectFromRule_preloaded_headedDraft :
    ∃ near far, headedQuery.collectFromRule ⟨0⟩ 0 0 = .ok near ∧
      headedQuery.collectFromRule ⟨0⟩ 0 1 = .ok far ∧ 0 < near.recursionCut ∧
      near.candidates.hasToken ⟨0⟩ [⟨0⟩, ⟨1⟩] ∧ ⟨0⟩ ∈ far.candidates.terminals ∧
      ∀ terminal ∈ far.candidates.terminals, terminal ∈ near.candidates.terminals := by
  have hentry : headedQuery.network.entry? ⟨0⟩ = some ⟨0⟩ := rfl
  obtain ⟨near, far, hnear, hfar, hfed, hcovers⟩ := collectFromRule_preloaded build_headedDraft rfl
    hentry (Nat.le_refl 0) (Nat.zero_le 1) (by decide) preloadedTo_headedQuery
  have hnear' : headedQuery.collectFromRule ⟨0⟩ 0 0 =
      .ok (headedQuery.outcomeAfter 0 ⟨⟨0⟩, 0, [⟨⟨0⟩, 0, none⟩]⟩ 3) :=
    collectFromRule_eq_outcome (by decide) (by decide) rfl rfl (by decide +kernel)
  have hfar' : headedQuery.collectFromRule ⟨0⟩ 0 1 =
      .ok (headedQuery.outcomeAfter 1 ⟨⟨0⟩, 0, [⟨⟨0⟩, 0, none⟩]⟩ 3) :=
    collectFromRule_eq_outcome (by decide) (by decide) rfl rfl (by decide +kernel)
  obtain rfl := Except.ok.inj (hnear'.symm.trans hnear)
  obtain rfl := Except.ok.inj (hfar'.symm.trans hfar)
  have htrace : (headedQuery.outcomeAfter 0 ⟨⟨0⟩, 0, [⟨⟨0⟩, 0, none⟩]⟩ 3).trace =
      #[.steppedOver ⟨0⟩ 0, .recursionCut ⟨1⟩ 1] := by
    decide +kernel
  obtain ⟨finding, hfinds, hbrings⟩ := findsFed_headedQuery
  refine ⟨_, _, hnear, hfar, by decide +kernel, hfed finding _ _ hfinds hbrings,
    by decide +kernel, (hcovers ?_).2⟩
  intro _ called index hcut
  rw [htrace] at hcut
  obtain ⟨-, rfl⟩ : called = ⟨1⟩ ∧ index = 1 := by simpa using hcut
  exact Nat.le_refl 1

end Query

end CodeCompletion
