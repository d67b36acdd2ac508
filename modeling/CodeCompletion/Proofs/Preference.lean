import CodeCompletion.Proofs.Nullable
import CodeCompletion.Proofs.Requests

/-!
# Preferred rules

A preferred rule is offered in place of what lies beneath it. This happens where it would be
called at the caret, and wherever something is found inside a call of it; of several preferred
rules one inside the other, the outermost is offered. The walk of the plain query, in which no
rule is preferred, goes further: it enters the calls that are only offered here.

If nothing is stepped over and no preferred rule is nullable, it does not come out of them
again. So what it finds there lies beneath the rule that is offered, and elsewhere both walks
find the same.

## Main definitions

* `Path.Avoids`: paths without rules of some set
* `Query.plain`: the same query without preferred rules
* `Query.Withholds`: a call that is offered and not made
* `Query.Inside`: configurations inside a call that is made at the caret

## Main results

* `CallStack.outermost?_append_cons`, `CallStack.exists_of_outermost?_eq_some`: the outermost
  call of some kind
* `Query.finding_cases`: a finding is what is offered, or the outermost preferred rule
* `Query.Inside.after`: a call at the caret returns only if its rule can be finished in silence
* `Query.Reaches.of_plain`: where the walk of the plain query gets
* `Query.answer_plain`: the answers of both queries
-/

set_option autoImplicit false

namespace CodeCompletion

/-- No rule of the path is in the set. -/
def Path.Avoids (path : Path) (rules : Std.ExtTreeSet RuleId) : Prop :=
  ∀ rule ∈ path, rule ∉ rules

/-- If two places of one path are marked and the second mark is not before the first, the path up
to the second one goes through the first. -/
theorem Path.exists_eq_append_cons {outer inner outer' inner' : Path} {rule rule' : RuleId}
    (h : outer' ++ rule' :: inner' = outer ++ rule :: inner) (hrule : rule' ∉ outer) :
    ∃ rest, outer' ++ [rule'] = outer ++ rule :: rest := by
  have hfirst : outer ++ [rule] <+: outer ++ rule :: inner := ⟨inner, by simp⟩
  have hsecond : outer' ++ [rule'] <+: outer ++ rule :: inner := ⟨inner', by simp [h]⟩
  rcases Nat.lt_or_ge outer'.length outer.length with hlt | hle
  · have hbefore : outer' ++ [rule'] <+: outer :=
      List.prefix_of_prefix_length_le hsecond (List.prefix_append _ _)
        (by simpa [Nat.succ_le_iff] using hlt)
    exact absurd (hbefore.subset (by simp)) hrule
  · obtain ⟨rest, hrest⟩ := List.prefix_of_prefix_length_le hfirst hsecond (by simpa using hle)
    exact ⟨rest, by rw [← hrest, List.append_assoc, List.singleton_append]⟩

namespace CallStack

variable {chosen : RuleId → Bool} {stack outer : CallStack} {frame : Frame}

theorem path_append_cons (inner outer : CallStack) (frame : Frame) :
    path (inner ++ frame :: outer) = path outer ++ frame.rule :: path inner := by
  simp [path]

/-- A rule of a path belongs to a call of the stack, and the path before it is that of the calls
around. -/
theorem exists_of_path_eq {before after : Path} {rule : RuleId}
    (h : stack.path = before ++ rule :: after) :
    ∃ inner frame outer, stack = inner ++ frame :: outer ∧ frame.rule = rule ∧
      path outer = before := by
  have hrules : List.map Frame.rule stack = after.reverse ++ rule :: before.reverse := by
    rw [← List.reverse_inj, ← path, h]
    simp
  obtain ⟨inner, rest, rfl, -, hrest⟩ := List.map_eq_append_iff.mp hrules
  obtain ⟨frame, outer, rfl, hframe, houter⟩ := List.map_eq_cons_iff.mp hrest
  exact ⟨inner, frame, outer, rfl, hframe, by rw [path, houter, List.reverse_reverse]⟩

/-! ## The outermost call -/

theorem outermost?_append_cons (hchosen : chosen frame.rule)
    (houter : ∀ other ∈ outer, ¬ chosen other.rule) (inner : CallStack) :
    outermost? chosen (inner ++ frame :: outer) = some (frame :: outer) := by
  induction inner with
  | nil =>
    rw [List.nil_append, outermost?, outermost?_eq_none_iff.mpr houter]
    exact if_pos hchosen
  | cons other inner ih => rw [List.cons_append, outermost?, ih]

theorem exists_of_outermost?_eq_some {found : CallStack}
    (h : stack.outermost? chosen = some found) :
    ∃ frame outer, found = frame :: outer ∧ chosen frame.rule ∧
      ∀ other ∈ outer, ¬ chosen other.rule := by
  induction stack with
  | nil => cases h
  | cons frame outer ih =>
    rw [outermost?] at h
    cases houter : outermost? chosen outer with
    | some found' =>
      rw [houter] at h
      exact ih (houter.trans h)
    | none =>
      rw [houter] at h
      obtain ⟨hchosen, hfound⟩ := Option.ite_none_right_eq_some.mp h
      exact ⟨frame, outer, (Option.some.inj hfound).symm, hchosen, outermost?_eq_none_iff.mp houter⟩

end CallStack

/-- The rules of a state and of the calls around it can all be finished without a token. -/
def Network.SilentReturn (network : Network) (state : StateId) (stack : CallStack) : Prop :=
  network.SilentFinish state ∧
    ∀ frame ∈ stack, ∃ resume, frame.resume? = some resume ∧ network.SilentFinish resume

namespace Query

variable {query : Query} {caret : ℕ} {first config : Config} {move : Move} {finding : Finding}
  {stack : CallStack} {rule : RuleId} {terminal : TerminalId} {path : Path}

/-! ## Findings -/

theorem avoids_path_iff {rules : Std.ExtTreeSet RuleId} :
    stack.path.Avoids rules ↔ ∀ frame ∈ stack, frame.rule ∉ rules := by
  simp [Path.Avoids, CallStack.path]

theorem outermost?_eq_none_iff_avoids {rules : Std.ExtTreeSet RuleId} :
    (stack.outermost? fun rule => rule ∈ rules) = none ↔ stack.path.Avoids rules := by
  rw [CallStack.outermost?_eq_none_iff, avoids_path_iff]
  simp only [decide_eq_true_eq]

theorem enclosing?_eq_none_iff :
    query.enclosing? stack = none ↔ stack.path.Avoids query.options.preferred := by
  rw [← outermost?_eq_none_iff_avoids, enclosing?]
  cases houtermost : stack.outermost? fun rule => rule ∈ query.options.preferred with
  | none => simp
  | some found =>
    obtain ⟨frame, outer, rfl, -⟩ := CallStack.exists_of_outermost?_eq_some houtermost
    simp

/-- A finding is what is offered, if no preferred rule is open. Otherwise it is the outermost one
of these. -/
theorem finding_cases (query : Query) (stack : CallStack) (offer : Offer) :
    (query.finding stack offer = ⟨offer, stack.path, stack⟩ ∧
        stack.path.Avoids query.options.preferred) ∨
      ∃ frame outer, frame.rule ∈ query.options.preferred ∧
        (CallStack.path outer).Avoids query.options.preferred ∧
        query.finding stack offer =
          ⟨.rule frame.rule frame.start, CallStack.path outer, frame :: outer⟩ := by
  unfold finding enclosing?
  cases houtermost : stack.outermost? fun rule => rule ∈ query.options.preferred with
  | none => exact Or.inl ⟨rfl, outermost?_eq_none_iff_avoids.mp houtermost⟩
  | some found =>
    obtain ⟨frame, outer, rfl, hchosen, houter⟩ :=
      CallStack.exists_of_outermost?_eq_some houtermost
    refine Or.inr ⟨frame, outer, of_decide_eq_true hchosen, avoids_path_iff.mpr ?_, rfl⟩
    exact fun other hother hmem => houter other hother (decide_eq_true hmem)

/-- Whatever is offered inside a preferred rule, this is found instead. -/
theorem bringsRule_finding {outer inner : Path} (hpath : stack.path = outer ++ rule :: inner)
    (hrule : rule ∈ query.options.preferred) (houter : outer.Avoids query.options.preferred)
    (offer : Offer) : (query.finding stack offer).BringsRule rule outer := by
  obtain ⟨inner, frame, outer, rfl, rfl, rfl⟩ := CallStack.exists_of_path_eq hpath
  have houtermost : CallStack.outermost? (fun rule => rule ∈ query.options.preferred)
      (inner ++ frame :: outer) = some (frame :: outer) := by
    refine CallStack.outermost?_append_cons (decide_eq_true hrule) ?_ inner
    intro other hother hchosen
    exact avoids_path_iff.mp houter other hother (of_decide_eq_true hchosen)
  rw [finding, enclosing?, houtermost]
  exact ⟨rfl, frame.start, rfl⟩

/-- A call that is offered is found itself, if no rule around it is preferred. -/
theorem bringsRule_finding_rule {outer inner : Path} {called : RuleId}
    (hpath : stack.path ++ [called] = outer ++ rule :: inner)
    (hrule : rule ∈ query.options.preferred) (houter : outer.Avoids query.options.preferred)
    (start : ℕ) : (query.finding stack (.rule called start)).BringsRule rule outer := by
  rcases List.eq_nil_or_concat inner with rfl | ⟨inner, last, rfl⟩
  · obtain ⟨rfl, hcalled⟩ := List.append_inj' hpath rfl
    obtain rfl := List.singleton_inj.mp hcalled
    rw [finding, enclosing?_eq_none_iff.mpr houter, Option.getD_none]
    exact ⟨rfl, start, rfl⟩
  · have hsplit : stack.path ++ [called] = (outer ++ rule :: inner) ++ [last] := by
      rw [hpath]
      simp
    exact bringsRule_finding (List.append_inj' hsplit rfl).1 hrule houter _

theorem Reports.avoids (h : query.Reports caret config finding) :
    finding.path.Avoids query.options.preferred := by
  have hfinding : ∀ offer,
      (query.finding config.stack offer).path.Avoids query.options.preferred := by
    intro offer
    rcases query.finding_cases config.stack offer with ⟨heq, havoids⟩ | ⟨_, _, -, havoids, heq⟩
    · rwa [heq]
    · rwa [heq]
  cases h with
  | terminals | rule => exact hfinding _

/-- Only preferred rules are offered. -/
theorem Reports.mem_preferred {start : ℕ} (h : query.Reports caret config finding)
    (hoffer : finding.offer = .rule rule start) : rule ∈ query.options.preferred := by
  have hfinding : ∀ offer, (query.finding config.stack offer).offer = .rule rule start →
      offer = .rule rule start ∨ rule ∈ query.options.preferred := by
    intro offer hoffer
    rcases query.finding_cases config.stack offer with ⟨heq, -⟩ | ⟨frame, _, hframe, -, heq⟩
    · rw [heq] at hoffer
      exact Or.inl hoffer
    · rw [heq] at hoffer
      exact Or.inr ((Offer.rule.inj hoffer).1 ▸ hframe)
  cases h with
  | terminals =>
    refine (hfinding _ hoffer).resolve_left fun hterminals => ?_
    cases hterminals
  | rule _ _ _ hpreferred =>
    rcases hfinding _ hoffer with hrule | hmem
    · exact (Offer.rule.inj hrule).1 ▸ hpreferred
    · exact hmem

/-! ## The plain query -/

/-- The query without preferred rules. -/
def plain (query : Query) : Query :=
  { query with options := { query.options with preferred := ∅ } }

/-- An edge from the caret on calls a preferred rule. It is offered, and the call is not made. -/
structure Withholds (query : Query) (caret : ℕ) (config : Config) (rule : RuleId)
    (entry target : StateId) : Prop where
  edge : query.network.HasEdge config.state (.call rule) target
  entry : query.network.entry? rule = some entry
  past : caret ≤ config.index
  preferred : rule ∈ query.options.preferred

theorem Calls.to_plain {entry target : StateId}
    (h : query.Calls caret config rule entry target) :
    query.plain.Calls caret config rule entry target where
  edge := h.edge
  entry := h.entry
  plain := fun hpreferred => Std.ExtTreeSet.not_mem_empty hpreferred.2
  depth := h.depth

theorem Moves.to_plain (h : query.Moves caret config move) :
    query.plain.Moves caret config move := by
  cases h with
  | pass hedge hpasses => exact .pass hedge hpasses
  | advance hedge htoken haccepts hmay => exact .advance hedge htoken haccepts hmay
  | enter hcalls hopen => exact .enter hcalls.to_plain hopen
  | skip hcalls hcut hnullable => exact .skip hcalls.to_plain hcut hnullable
  | leave hstop hstack => exact .leave hstop hstack

theorem Calls.of_plain {entry target : StateId}
    (h : query.plain.Calls caret config rule entry target) :
    query.Calls caret config rule entry target ∨
      query.Withholds caret config rule entry target := by
  by_cases hpreferred : caret ≤ config.index ∧ rule ∈ query.options.preferred
  · exact Or.inr ⟨h.edge, h.entry, hpreferred.1, hpreferred.2⟩
  · exact Or.inl ⟨h.edge, h.entry, hpreferred, h.depth⟩

/-- The plain query makes no other moves than those of a call that is withheld. -/
theorem Moves.of_plain (h : query.plain.Moves caret config move) :
    query.Moves caret config move ∨
      ∃ rule entry target, query.Withholds caret config rule entry target ∧
        (move = .enter entry ⟨rule, config.index, some target⟩ ∨
          query.network.isNullable rule) := by
  cases h with
  | pass hedge hpasses => exact Or.inl (.pass hedge hpasses)
  | advance hedge htoken haccepts hmay => exact Or.inl (.advance hedge htoken haccepts hmay)
  | enter hcalls hopen =>
    rcases hcalls.of_plain with hcalls | hwithholds
    · exact Or.inl (.enter hcalls hopen)
    · exact Or.inr ⟨_, _, _, hwithholds, Or.inl rfl⟩
  | skip hcalls hcut hnullable =>
    rcases hcalls.of_plain with hcalls | hwithholds
    · exact Or.inl (.skip hcalls hcut hnullable)
    · exact Or.inr ⟨_, _, _, hwithholds, Or.inr hnullable⟩
  | leave hstop hstack => exact Or.inl (.leave hstop hstack)

/-! ## Calls at the caret -/

/-- From the caret on, the configuration lies inside a call of a rule with the given entry. The
call is the first of `outer`, and `inner` are the calls that have been opened in it. If all of
these can be finished in silence, so can the rule. -/
structure Inside (query : Query) (caret : ℕ) (entry : StateId) (outer inner : CallStack)
    (config : Config) : Prop where
  past : caret ≤ config.index
  stack_eq : config.stack = inner ++ outer
  silent : query.network.SilentReturn config.state inner → query.network.SilentFinish entry

/-- Where nothing is stepped over, a move from inside a call leads out of it only if the rule can
be finished in silence. -/
theorem Inside.after {draft : Draft} (hbuild : draft.build = .ok query.network)
    (hpreloaded : query.options.preloaded = ∅) {entry : StateId} {outer inner : CallStack}
    (hinside : query.Inside caret entry outer inner config)
    (hmove : query.Moves caret config move) :
    query.network.SilentFinish entry ∨
      ∃ inner', query.Inside caret entry outer inner' (config.after move) := by
  cases hmove with
  | pass hedge hpasses =>
    refine Or.inr ⟨inner, hinside.past, hinside.stack_eq, fun hreturn => ?_⟩
    exact hinside.silent ⟨.pass hedge hpasses.isSilent hreturn.1, hreturn.2⟩
  | advance _ _ _ hmay =>
    rcases hmay with hbefore | hmem
    · exact absurd hinside.past (Nat.not_le.mpr hbefore)
    · simp [hpreloaded] at hmem
  | @enter rule entered target hcalls _ =>
    refine Or.inr ⟨⟨rule, config.index, some target⟩ :: inner, hinside.past, ?_, fun hreturn => ?_⟩
    · rw [Config.after, hinside.stack_eq, List.cons_append]
    · obtain ⟨hentered, hcallers⟩ := hreturn
      obtain ⟨⟨resume, hresume, htarget⟩, hcallers⟩ := List.forall_mem_cons.mp hcallers
      obtain rfl := Option.some.inj hresume
      exact hinside.silent ⟨.call hcalls.edge hcalls.entry hentered htarget, hcallers⟩
  | skip hcalls _ hnullable =>
    obtain ⟨entered, hentry, hentered⟩ := (Network.isNullable_iff hbuild).mp hnullable
    refine Or.inr ⟨inner, hinside.past, hinside.stack_eq, fun hreturn => ?_⟩
    exact hinside.silent ⟨.call hcalls.edge hentry hentered hreturn.1, hreturn.2⟩
  | leave hstop hstack =>
    -- Where no inner call is open, the call itself returns, and its rule has been finished.
    cases inner with
    | nil => exact Or.inl (hinside.silent ⟨.stop hstop, by simp⟩)
    | cons frame inner =>
      obtain ⟨rfl, -⟩ := List.cons.inj (hinside.stack_eq.symm.trans hstack)
      refine Or.inr ⟨inner, hinside.past, ?_, fun hreturn => ?_⟩
      · rw [Config.after, hinside.stack_eq, List.cons_append, List.tail_cons]
      · exact hinside.silent ⟨.stop hstop,
          List.forall_mem_cons.mpr ⟨⟨_, rfl, hreturn.1⟩, hreturn.2⟩⟩

/-! ## Walks -/

section Walks

variable {draft : Draft} (hbuild : draft.build = .ok query.network)
  (hnullable : ∀ rule ∈ query.options.preferred, ¬ query.network.isNullable rule)
  (hpreloaded : query.options.preloaded = ∅)
include hbuild hnullable hpreloaded

/-- The walk of the plain query gets nowhere else than into calls that are withheld. -/
theorem Reaches.of_plain (h : query.plain.Reaches caret first config) :
    query.Reaches caret first config ∨
      ∃ base rule entry target inner, query.Reaches caret first base ∧
        query.Withholds caret base rule entry target ∧
        query.plain.Inside caret entry (⟨rule, base.index, some target⟩ :: base.stack) inner
          config := by
  have hfinal := Draft.stopsFinal_of_build hbuild
  have hplain : draft.build = .ok query.plain.network := hbuild
  have hclosed : query.plain.options.preloaded = ∅ := hpreloaded
  -- On the steps of the plain walk: outside it enters a withheld call or goes along, inside it
  -- stays inside.
  induction h with
  | refl => exact Or.inl .refl
  | @tail before after _ hleads ih =>
    obtain ⟨move, hmove, rfl⟩ := hleads
    have hmove := Moves.of_mem_step hmove
    rcases ih with hreach | ⟨base, rule, entry, target, inner, hreach, hwithholds, hinside⟩
    · rcases hmove.of_plain with hmove | ⟨rule, entry, target, hwithholds, rfl | hnull⟩
      · exact Or.inl (hreach.tail ⟨move, hmove.mem_step hfinal, rfl⟩)
      · exact Or.inr ⟨before, rule, entry, target, [], hreach, hwithholds, hwithholds.past, rfl,
          And.left⟩
      · exact absurd hnull (hnullable rule hwithholds.preferred)
    · rcases hinside.after hplain hclosed hmove with hsilent | ⟨inner', hinside'⟩
      · refine absurd ?_ (hnullable rule hwithholds.preferred)
        exact (Network.isNullable_iff hbuild).mpr ⟨entry, hwithholds.entry, hsilent⟩
      · exact Or.inr ⟨base, rule, entry, target, inner', hreach, hwithholds, hinside'⟩

/-- Where no preferred rule is open, it gets nowhere else. -/
theorem Reaches.of_plain_of_avoids (h : query.plain.Reaches caret first config)
    (havoids : config.stack.path.Avoids query.options.preferred) :
    query.Reaches caret first config := by
  rcases h.of_plain hbuild hnullable hpreloaded with
    hreach | ⟨base, rule, entry, target, inner, -, hwithholds, hinside⟩
  · exact hreach
  · refine absurd hwithholds.preferred (havoids rule ?_)
    rw [hinside.stack_eq, CallStack.path_append_cons]
    exact List.mem_append_right _ List.mem_cons_self

/-- What the plain query offers beneath a preferred rule is found as the outermost such rule. -/
theorem Reaches.exists_finds_rule {outer inner : Path}
    (hreach : query.plain.Reaches caret first config)
    (hproposes : query.Proposes caret config terminal)
    (hpath : config.stack.path = outer ++ rule :: inner) (hrule : rule ∈ query.options.preferred)
    (houter : outer.Avoids query.options.preferred) :
    ∃ finding, query.Finds caret first finding ∧ finding.BringsRule rule outer := by
  have hfinal := Draft.stopsFinal_of_build hbuild
  rcases hreach.of_plain hbuild hnullable hpreloaded with
    hreach | ⟨base, called, entry, target, above, hreach, hwithholds, hinside⟩
  · obtain ⟨label, target, hedge, hcaret, hstays, hoffered, -⟩ := hproposes
    refine ⟨_, ⟨config, hreach, (Reports.terminals hedge (Label.consumes_of_mem_offered hoffered)
      hcaret hstays).mem_step hfinal⟩, bringsRule_finding hpath hrule houter _⟩
  · -- The call that was withheld is preferred itself, so the outermost preferred rule is this one
    -- or around it.
    rw [hinside.stack_eq, CallStack.path_append_cons] at hpath
    obtain ⟨rest, hrest⟩ := Path.exists_eq_append_cons hpath
      fun hmem => houter called hmem hwithholds.preferred
    exact ⟨_, ⟨base, hreach, (Reports.rule hwithholds.edge hwithholds.entry hwithholds.past
      hwithholds.preferred).mem_step hfinal⟩, bringsRule_finding_rule hrest hrule houter _⟩

end Walks

/-! ## Answers -/

section Answers

variable {draft : Draft} {request : Request} {outcome : Outcome}

/-- A walk offers the terminals of the configurations that it gets to, unless a preferred rule is
open there. -/
theorem hasToken_walk_iff_proposes (hfinal : query.network.StopsFinal)
    (hindex : first.index ≤ query.tokens.size) (hstack : first.stack ≠ []) :
    (query.walk caret first hindex).candidates.hasToken terminal path ↔
      path.Avoids query.options.preferred ∧
        ∃ config, query.Reaches caret first config ∧ config.stack.path = path ∧
          query.Proposes caret config terminal := by
  rw [hasToken_walk_iff hindex hstack]
  constructor
  · rintro ⟨finding, ⟨config, hreach, hreport⟩, hbrings⟩
    obtain ⟨hnone, rfl, hproposes⟩ :=
      (exists_report_iff_proposes hfinal).mp ⟨finding, hreport, hbrings⟩
    exact ⟨enclosing?_eq_none_iff.mp hnone, config, hreach, rfl, hproposes⟩
  · rintro ⟨havoids, config, hreach, rfl, hproposes⟩
    obtain ⟨finding, hreport, hbrings⟩ :=
      (exists_report_iff_proposes hfinal).mpr ⟨enclosing?_eq_none_iff.mpr havoids, rfl, hproposes⟩
    exact ⟨finding, ⟨config, hreach, hreport⟩, hbrings⟩

theorem hasToken_plain_walk_iff (hfinal : query.network.StopsFinal)
    (hindex : first.index ≤ query.plain.tokens.size) (hstack : first.stack ≠ []) :
    (query.plain.walk caret first hindex).candidates.hasToken terminal path ↔
      ∃ config, query.plain.Reaches caret first config ∧ config.stack.path = path ∧
        query.Proposes caret config terminal := by
  have hplain : query.plain.network.StopsFinal := hfinal
  rw [hasToken_walk_iff_proposes hplain hindex hstack]
  exact and_iff_right fun _ _ => Std.ExtTreeSet.not_mem_empty

/-- Only preferred rules are offered as such, and no path to a terminal or to a rule goes through a
preferred rule. The terminals and their paths are among those of the plain query. If no preferred
rule is nullable and nothing is stepped over, they are exactly those that avoid the preferred rules,
and for all others the outermost preferred rule of the path is offered. -/
theorem answer_plain (hbuild : draft.build = .ok query.network)
    (hanswer : query.answer request = .ok outcome) :
    ∃ full, query.plain.answer request = .ok full ∧
      (∀ rule, rule ∈ outcome.candidates.rules → rule ∈ query.options.preferred) ∧
      (∀ terminal path, outcome.candidates.hasToken terminal path →
        path.Avoids query.options.preferred) ∧
      (∀ rule path, outcome.candidates.hasRule rule path →
        path.Avoids query.options.preferred) ∧
      (∀ terminal path, outcome.candidates.hasToken terminal path →
        full.candidates.hasToken terminal path) ∧
      ((∀ rule ∈ query.options.preferred, ¬ query.network.isNullable rule) →
        query.options.preloaded = ∅ →
        (∀ terminal path, outcome.candidates.hasToken terminal path ↔
          full.candidates.hasToken terminal path ∧ path.Avoids query.options.preferred) ∧
        ∀ terminal outer rule inner,
          full.candidates.hasToken terminal (outer ++ rule :: inner) →
          rule ∈ query.options.preferred → Path.Avoids outer query.options.preferred →
          outcome.candidates.hasRule rule outer) := by
  have hplaces : query.network.SharesPlaces query.plain.network := .refl query.network
  obtain ⟨first, hindex, hindex', -, -, hstack, rfl, hanswer'⟩ :=
    exists_walk_of_answer_of_checkPreferred hplaces rfl (fun _ => checkPreferred_eq_ok rfl) hanswer
  have hfinal := Draft.stopsFinal_of_build hbuild
  have hplain : query.plain.network.StopsFinal := hfinal
  have htokens : ∀ terminal path,
      (query.walk request.caret first hindex).candidates.hasToken terminal path →
        path.Avoids query.options.preferred ∧
          (query.plain.walk request.caret first hindex').candidates.hasToken terminal path := by
    intro terminal path htoken
    obtain ⟨havoids, config, hreach, hproposes⟩ :=
      (hasToken_walk_iff_proposes hfinal hindex hstack).mp htoken
    exact ⟨havoids, (hasToken_plain_walk_iff hfinal hindex' hstack).mpr
      ⟨config, hreach.mono hplain fun _ _ => Moves.to_plain, hproposes⟩⟩
  refine ⟨_, hanswer', ?_, fun _ _ htoken => (htokens _ _ htoken).1, ?_,
    fun _ _ htoken => (htokens _ _ htoken).2, fun hnullable hpreloaded => ⟨?_, ?_⟩⟩
  · intro rule hrule
    obtain ⟨known, hknown⟩ :=
      Option.isSome_iff_exists.mp (Std.ExtTreeMap.isSome_getElem?_iff_mem.mpr hrule)
    obtain ⟨finding, ⟨config, -, hreport⟩, late, hoffer, -⟩ :=
      (ruleFrom_walk_iff hindex hstack).mp ⟨known, hknown, Nat.le_refl _⟩
    exact (Reports.of_mem_step hreport).mem_preferred hoffer
  · intro rule path hrule
    obtain ⟨finding, ⟨config, -, hreport⟩, rfl, -⟩ := (hasRule_walk_iff hindex hstack).mp hrule
    exact (Reports.of_mem_step hreport).avoids
  · intro terminal path
    refine ⟨fun htoken => (htokens terminal path htoken).symm, ?_⟩
    rintro ⟨htoken, havoids⟩
    obtain ⟨config, hreach, rfl, hproposes⟩ :=
      (hasToken_plain_walk_iff hfinal hindex' hstack).mp htoken
    exact (hasToken_walk_iff_proposes hfinal hindex hstack).mpr ⟨havoids, config,
      hreach.of_plain_of_avoids hbuild hnullable hpreloaded havoids, rfl, hproposes⟩
  · intro terminal outer rule inner htoken hrule houter
    obtain ⟨config, hreach, hpath, hproposes⟩ :=
      (hasToken_plain_walk_iff hfinal hindex' hstack).mp htoken
    exact (hasRule_walk_iff hindex hstack).mpr
      (hreach.exists_finds_rule hbuild hnullable hpreloaded hproposes hpath hrule houter)

/-- A phrase begins with an item, or with a pair and this with an item. If pairs are preferred, the
item of the pair is not offered but the pair itself. -/
theorem answer_plain_phrase :
    let query := { phraseQuery ⟨.token ⟨0⟩, ⟨4⟩⟩ ⟨.call ⟨1⟩, ⟨1⟩⟩ with
      options := ({} : Options).preferring [⟨1⟩] }
    ∃ outcome full, query.answer (.replay ⟨0⟩ 0 0) = .ok outcome ∧
      query.plain.answer (.replay ⟨0⟩ 0 0) = .ok full ∧
      full.candidates.hasToken ⟨0⟩ [⟨0⟩] ∧ full.candidates.hasToken ⟨0⟩ [⟨0⟩, ⟨1⟩] ∧
      outcome.candidates.hasToken ⟨0⟩ [⟨0⟩] ∧ ¬ outcome.candidates.hasToken ⟨0⟩ [⟨0⟩, ⟨1⟩] ∧
      outcome.candidates.hasRule ⟨1⟩ [⟨0⟩] := by
  intro query
  let first : Config := ⟨⟨0⟩, 0, [⟨⟨0⟩, 0, none⟩]⟩
  have hok : query.answer (.replay ⟨0⟩ 0 0) = .ok (query.outcomeAfter 0 first 1) :=
    answer_replay_eq_outcome (by decide) (by decide) (by decide +kernel) rfl (by decide +kernel)
  have hfull : query.plain.answer (.replay ⟨0⟩ 0 0) = .ok (query.plain.outcomeAfter 0 first 2) :=
    answer_replay_eq_outcome (by decide) (by decide) rfl rfl (by decide +kernel)
  have hbuild : (phraseDraft ⟨.token ⟨0⟩, ⟨4⟩⟩ ⟨.call ⟨1⟩, ⟨1⟩⟩).build = .ok query.network := by
    decide +kernel
  have hpair : ∀ rule, rule ∈ query.options.preferred ↔ rule = ⟨1⟩ := by
    intro rule
    simp [query, Options.preferring, eq_comm (a := rule)]
  have hitem : (query.plain.outcomeAfter 0 first 2).candidates.hasToken ⟨0⟩ [⟨0⟩] := by
    decide +kernel
  have hbeneath : (query.plain.outcomeAfter 0 first 2).candidates.hasToken ⟨0⟩ [⟨0⟩, ⟨1⟩] := by
    decide +kernel
  obtain ⟨full, hfull', -, -, -, -, hexact⟩ := answer_plain hbuild hok
  obtain rfl := Except.ok.inj (hfull.symm.trans hfull')
  have hnullable : ∀ rule ∈ query.options.preferred, ¬ query.network.isNullable rule := by
    intro rule hrule
    obtain rfl := (hpair rule).mp hrule
    decide +kernel
  obtain ⟨htokens, hrules⟩ := hexact hnullable rfl
  have houter : Path.Avoids [⟨0⟩] query.options.preferred := by
    simp [Path.Avoids, hpair]
  refine ⟨_, _, hok, hfull, hitem, hbeneath, (htokens _ _).mpr ⟨hitem, houter⟩, ?_, ?_⟩
  · intro htoken
    exact ((htokens _ _).mp htoken).2 ⟨1⟩ (by simp) ((hpair _).mpr rfl)
  · exact hrules ⟨0⟩ [⟨0⟩] ⟨1⟩ [] hbeneath ((hpair _).mpr rfl) houter

end Answers

end Query

end CodeCompletion
