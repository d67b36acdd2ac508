import CodeCompletion.Proofs.Requests
import CodeCompletion.Proofs.Steps
import CodeCompletion.Proofs.Trips
import Mathlib.Data.Nat.Find

/-!
# Nothing is lost to the left-recursion cut

The walk gives up a call of a rule when it is open from the same token on more often than
tokens are left before the caret. Still, whatever a free run offers at the caret, the walk
offers too.

The walk is made to follow trips that are as short as can be. A call of such a trip never
opens a rule from the token where it is open already for the same goal, since otherwise the
outer trip could be shortened to the inner one. So the goals of the calls of one rule that
are open from one token on are all different, and they come earlier the further in the
calls are. When so many are open that the next call is cut, the goal that is left to it is
to match nothing; then the rule is nullable, and the walk passes the call instead.

## Main definitions

* `Query.Cheapest`: the least size of a trip through a rule
* `Query.Paced`: the open calls are on cheapest trips, each part of the one around it

## Main results

* `Query.Paced.openCount_add_le`: how many calls of a rule can be open on cheapest trips
* `Query.attains_of_trip`: a walk follows cheapest trips
* `Query.terminals_of_freeRun`: what a free run offers at the caret is found by replay
-/

set_option autoImplicit false

namespace CodeCompletion

namespace Query

variable {query : Query} {caret : ℕ} {site : StateId} {rule : RuleId} {start : ℕ}
  {goal goal' : Goal} {size size' : ℕ} {stack : CallStack}

/-! ## Cheapest trips -/

/-- `size` is the least size of a trip with the given goal through `rule` from `start` on. -/
structure Cheapest (query : Query) (caret : ℕ) (site : StateId) (rule : RuleId) (start : ℕ)
    (goal : Goal) (size : ℕ) : Prop where
  trip : ∃ entry, query.network.entry? rule = some entry ∧
    query.Trip caret site size entry start goal
  least : ∀ entry other, query.network.entry? rule = some entry →
    query.Trip caret site other entry start goal → size ≤ other

theorem exists_cheapest {entry : StateId} (hentry : query.network.entry? rule = some entry)
    (htrip : query.Trip caret site size entry start goal) :
    ∃ least ≤ size, query.Trip caret site least entry start goal ∧
      query.Cheapest caret site rule start goal least := by
  classical
  have hsome : ∃ n, query.Trip caret site n entry start goal := ⟨size, htrip⟩
  refine ⟨Nat.find hsome, Nat.find_min' hsome htrip, Nat.find_spec hsome,
    ⟨entry, hentry, Nat.find_spec hsome⟩, ?_⟩
  intro entry' other hentry' hother
  obtain rfl := Option.some.inj (hentry.symm.trans hentry')
  exact Nat.find_min' hsome hother

namespace Cheapest

theorem size_le (h : query.Cheapest caret site rule start goal size)
    (h' : query.Cheapest caret site rule start goal size') : size ≤ size' := by
  obtain ⟨entry, hentry, htrip⟩ := h'.trip
  exact h.least entry size' hentry htrip

/-- Two goals of one rule from one token on that cost different sizes have different
deadlines. -/
theorem deadline_ne (h : query.Cheapest caret site rule start goal size)
    (h' : query.Cheapest caret site rule start goal' size') (hlt : size < size') :
    goal.deadline caret ≠ goal'.deadline caret := by
  intro hsame
  obtain ⟨entry, -, htrip⟩ := h.trip
  obtain ⟨entry', -, htrip'⟩ := h'.trip
  -- Where a rule is finished, it is by the caret, so the deadline tells the goal.
  have hgoal : goal = goal' := by
    cases goal' with
    | finish last => exact Goal.eq_finish_of_deadline hsame htrip'.finish_le_caret
    | arrive =>
      cases goal with
      | finish last =>
        exact (Goal.eq_finish_of_deadline hsame.symm htrip.finish_le_caret).symm
      | arrive => rfl
  subst hgoal
  exact absurd (h'.size_le h) (Nat.not_le.mpr hlt)

end Cheapest

/-! ## Stacks of cheapest trips -/

/-- Every open call is on a cheapest trip, smaller than that of the call around it and with
a goal no later. The innermost call has the given goal and size. -/
inductive Paced (query : Query) (caret : ℕ) (site : StateId) : CallStack → Goal → ℕ → Prop
  | nil {size : ℕ} : Paced query caret site [] .arrive size
  | cons {rule : RuleId} {start : ℕ} {resume? : Option StateId} {outer : CallStack}
      {goal goal' : Goal} {size size' : ℕ}
      (hcheapest : query.Cheapest caret site rule start goal size)
      (houter : Paced query caret site outer goal' size') (hsize : size < size')
      (hdeadline : goal.deadline caret ≤ goal'.deadline caret) :
      Paced query caret site (⟨rule, start, resume?⟩ :: outer) goal size

/-- Inside calls on cheapest trips, a rule is open from a token on at most as often as there
are later goals than that of a trip which is part of the innermost. -/
theorem Paced.openCount_add_le (h : query.Paced caret site stack goal size)
    (hcheapest : query.Cheapest caret site rule start goal' size') (hsize : size' < size)
    (hdeadline : goal'.deadline caret ≤ goal.deadline caret) :
    stack.openCount rule start + goal'.deadline caret ≤ caret + 1 := by
  induction h generalizing goal' size' with
  | nil => simpa [CallStack.openCount, Goal.deadline] using hdeadline
  | @cons rule₀ start₀ resume? outer goal goal₁ size size₁ hhead _ hless hle ih =>
    by_cases hsame : rule₀ = rule ∧ start₀ = start
    · -- The frame counts, so its goal is later than that of the inner trip.
      obtain ⟨rfl, rfl⟩ := hsame
      have hlater : goal'.deadline caret < goal.deadline caret :=
        Nat.lt_of_le_of_ne hdeadline (hcheapest.deadline_ne hhead hsize)
      have houter := ih hhead hless hle
      have hcount : CallStack.openCount (⟨rule₀, start₀, resume?⟩ :: outer) rule₀ start₀ =
          CallStack.openCount outer rule₀ start₀ + 1 := by
        simp [CallStack.openCount]
      omega
    · have hcount : CallStack.openCount (⟨rule₀, start₀, resume?⟩ :: outer) rule start =
          CallStack.openCount outer rule start := by
        simp [CallStack.openCount, hsame]
      rw [hcount]
      exact ih hcheapest (Nat.lt_trans hsize hless) (Nat.le_trans hdeadline hle)

/-! ## Walks along cheapest trips -/

variable {first : Config} {state : StateId} {index : ℕ}

/-- The walk gets to where a trip with the given goal under `stack` ends. -/
def Attains (query : Query) (caret : ℕ) (first : Config) (site : StateId) (stack : CallStack) :
    Goal → Prop
  | .finish last => ∃ stop, query.network.IsStop stop ∧
      query.Reaches caret first ⟨stop, last, stack⟩
  | .arrive => ∃ inner, query.Reaches caret first ⟨site, caret, inner⟩

theorem Reaches.move (hfinal : query.network.StopsFinal) {config : Config} {move : Move}
    (h : query.Reaches caret first config) (hmove : query.Moves caret config move) :
    query.Reaches caret first (config.after move) :=
  h.tail ⟨move, hmove.mem_step hfinal, rfl⟩

/-- What the walk does about a call whose cheapest trip fits into the trips of the open
calls: it enters the callee, unless the callee has nothing to match and is passed. -/
theorem Reaches.enter_or_skip {draft : Draft} (hbuild : draft.build = .ok query.network)
    (hfinal : query.network.StopsFinal) {entry target : StateId}
    (hcalls : query.Calls caret ⟨state, index, stack⟩ rule entry target)
    (hreach : query.Reaches caret first ⟨state, index, stack⟩)
    (hpaced : query.Paced caret site stack goal size)
    (htrip : query.Trip caret site size' entry index goal')
    (hcheapest : query.Cheapest caret site rule index goal' size') (hsize : size' < size)
    (hdeadline : goal'.deadline caret ≤ goal.deadline caret) :
    query.Reaches caret first ⟨entry, index, ⟨rule, index, some target⟩ :: stack⟩ ∨
      goal' = .finish index ∧ query.Reaches caret first ⟨target, index, stack⟩ := by
  by_cases hopen : stack.openCount rule index ≤ caret - index
  · exact Or.inl (hreach.move hfinal (.enter hcalls hopen))
  · right
    have hcount := hpaced.openCount_add_le hcheapest hsize hdeadline
    have hcaret := htrip.index_le_caret
    have hindex := htrip.index_le_deadline
    -- More calls are open than tokens are left, so no token is left to this one.
    have hnothing : goal'.deadline caret = index := by omega
    obtain rfl := Goal.eq_finish_of_deadline hnothing hcaret
    have hnullable : query.network.isNullable rule :=
      (Network.isNullable_iff hbuild).mpr ⟨entry, hcalls.entry, htrip.silentFinish⟩
    exact ⟨rfl, hreach.move hfinal (.skip hcalls (Nat.not_le.mp hopen) hnullable)⟩

/-- A walk that has come to where a trip begins gets to where it ends, provided that the
open calls are on cheapest trips of which this one is what remains of the innermost. -/
theorem attains_of_trip {draft : Draft} (hbuild : draft.build = .ok query.network)
    (hsets : query.network.Ascending) (hpreferred : query.options.preferred = ∅)
    (hdepth : query.NeverTooDeep caret first) {rank : ℕ}
    (htrip : query.Trip caret site size state index goal)
    (hpaced : query.Paced caret site stack goal rank) (hrank : size ≤ rank)
    (hstack : stack ≠ []) (hreach : query.Reaches caret first ⟨state, index, stack⟩) :
    query.Attains caret first site stack goal := by
  have hfinal := Draft.stopsFinal_of_build hbuild
  -- A call is followed along a cheapest trip, which need not be the part of the given one
  -- that it stands for. It is no larger, so the induction is on sizes.
  induction size using Nat.strongRecOn generalizing state index goal stack rank with
  | _ size ih =>
  cases htrip with
  | finish hstop _ => exact ⟨state, hstop, hreach⟩
  | arrive => exact ⟨stack, hreach⟩
  | pass hedge hpasses hrest =>
    exact ih _ (Nat.lt_succ_self _) hrest hpaced (Nat.le_of_succ_le hrank) hstack
      (hreach.move hfinal (.pass hedge hpasses))
  | read hedge htoken hmatches hrest =>
    have haccepts := (Label.accepts_iff (hsets.of_hasEdge hedge)).mpr hmatches
    exact ih _ (Nat.lt_succ_self _) hrest hpaced (Nat.le_of_succ_le hrank) hstack
      (hreach.move hfinal (.advance hedge htoken haccepts (Or.inl hrest.index_le_caret)))
  | @call inner size _ entry target _ mid _ rule hedge hentry hcalled hrest =>
    -- Through the callee, by a walk of it or past it, and then on with the rest.
    obtain ⟨least, hleast, htrip, hcheapest⟩ := exists_cheapest hentry hcalled
    have hcalls := (calls_or_depthLimitReached_mem_step hfinal hpreferred hedge
      hentry).resolve_right (hdepth _ hreach rule _)
    have hreturned : query.Reaches caret first ⟨target, mid, stack⟩ := by
      rcases hreach.enter_or_skip hbuild hfinal hcalls hpaced htrip hcheapest (by omega)
        hrest.index_le_deadline with hentered | ⟨hmid, hskipped⟩
      · obtain ⟨stop, hstop, hfinished⟩ := ih least (by omega) htrip
          (.cons hcheapest hpaced (by omega) hrest.index_le_deadline) (Nat.le_refl _)
          (List.cons_ne_nil _ _) hentered
        obtain ⟨caller, outer, rfl⟩ := List.exists_cons_of_ne_nil hstack
        exact hfinished.move hfinal (.leave hstop rfl)
      · rw [Goal.finish.inj hmid]
        exact hskipped
    exact ih size (by omega) hrest hpaced (by omega) hstack hreturned
  | @stay inner _ entry target _ rule hedge hentry hcalled =>
    -- The trip ends inside the callee, so the call cannot be passed and is not cut.
    obtain ⟨least, hleast, htrip, hcheapest⟩ := exists_cheapest hentry hcalled
    have hcalls := (calls_or_depthLimitReached_mem_step hfinal hpreferred hedge
      hentry).resolve_right (hdepth _ hreach rule _)
    rcases hreach.enter_or_skip hbuild hfinal hcalls hpaced htrip hcheapest (by omega)
      (Nat.le_refl _) with hentered | ⟨hgoal, -⟩
    · have harrived : query.Attains caret first site (⟨rule, index, some target⟩ :: stack)
          .arrive :=
        ih least (by omega) htrip (.cons hcheapest hpaced (by omega) (Nat.le_refl _))
          (Nat.le_refl _) (List.cons_ne_nil _ _) hentered
      exact harrived
    · cases hgoal

/-! ## Replay -/

/-- A walk that begins in a called rule and gives up no call for its depth gets to every state
that a free run has come to at the caret, if under other calls. -/
theorem exists_reaches_of_freeRun {draft : Draft} (hbuild : draft.build = .ok query.network)
    (hsets : query.network.Ascending) (hpreferred : query.options.preferred = ∅)
    {entry : StateId} (hentry : query.network.entry? rule = some entry) {resume? : Option StateId}
    (hdepth : query.NeverTooDeep caret ⟨entry, start, [⟨rule, start, resume?⟩]⟩)
    (hrun : query.FreeRun ⟨entry, start, [⟨rule, start, resume?⟩]⟩ ⟨site, caret, stack⟩) :
    ∃ inner, query.Reaches caret ⟨entry, start, [⟨rule, start, resume?⟩]⟩
      ⟨site, caret, inner⟩ := by
  obtain ⟨size, hlong⟩ := exists_trip_of_freeRun hrun
  obtain ⟨least, -, htrip, hcheapest⟩ := exists_cheapest hentry hlong
  have hpaced : query.Paced caret site [⟨rule, start, resume?⟩] .arrive least :=
    .cons hcheapest .nil (Nat.lt_succ_self _) (Nat.le_refl _)
  exact attains_of_trip hbuild hsets hpreferred hdepth htrip hpaced (Nat.le_refl _)
    (List.cons_ne_nil _ _) .refl

/-- A replay whose walk gave up no call for its depth offers every terminal, unless ignored,
that an edge offers where a free run through the rule has come to the caret. -/
theorem terminals_of_freeRun {draft : Draft} {rule : RuleId} {entry : StateId} {start : ℕ}
    (hbuild : draft.build = .ok query.network) (hsets : query.network.Ascending)
    (hpreferred : query.options.preferred = ∅) (hpreloaded : query.options.preloaded = ∅)
    (hentry : query.network.entry? rule = some entry) (hstart : start ≤ caret)
    (hcaret : caret ≤ query.tokens.size) :
    ∃ outcome, query.collectFromRule rule start caret = .ok outcome ∧
      (outcome.depthPruned = 0 → ∀ config label target terminal,
        query.FreeRun ⟨entry, start, [⟨rule, start, none⟩]⟩ config → config.index = caret →
        query.network.HasEdge config.state label target →
        label.Offers query.network.vocabulary terminal → terminal ∉ query.options.ignored →
        terminal ∈ outcome.candidates.terminals) := by
  have hindex : start ≤ query.tokens.size := Nat.le_trans hstart hcaret
  have hcheck : query.checkPreferred = .ok () := by
    rw [checkPreferred, hpreferred]
    rfl
  refine ⟨query.walk caret ⟨entry, start, [⟨rule, start, none⟩]⟩ hindex,
    collectFromRule_eq_ok_iff.mpr ⟨hcaret, hstart, entry, hcheck, hentry, rfl⟩, ?_⟩
  rintro hpruned ⟨site, index, stack⟩ label target terminal hrun hindexed hedge hoffers hignored
  obtain rfl : caret = index := hindexed.symm
  have hdepth := neverTooDeep_of_depthPruned hindex (List.cons_ne_nil _ _) hpruned
  obtain ⟨inner, hreach⟩ := exists_reaches_of_freeRun hbuild hsets hpreferred hentry hdepth hrun
  have hstays : ¬ query.StepsOver caret label := by
    rintro ⟨token, -, -, htoken⟩
    simp [hpreloaded] at htoken
  have hfinal := Draft.stopsFinal_of_build hbuild
  obtain ⟨finding, hreport, hbrings⟩ := exists_report_of_offers ⟨site, caret, inner⟩ hfinal
    hpreferred hedge hoffers (Nat.le_refl _) hstays hignored
  have htoken := (hasToken_walk_iff hindex (List.cons_ne_nil _ _)).mpr
    ⟨finding, ⟨_, hreach, hreport⟩, hbrings⟩
  exact Candidates.mem_terminals_of_hasToken htoken

/-- After one item of a list another one is offered, although calls were cut. The free run
opens two calls, passes the inner one in silence, reads the item and returns. -/
theorem terminals_of_freeRun_itemList :
    (itemQuery {}).FreeRun ⟨⟨0⟩, 0, [⟨⟨0⟩, 0, none⟩]⟩ ⟨⟨2⟩, 1, [⟨⟨0⟩, 0, none⟩]⟩ ∧
      ∃ outcome, (itemQuery {}).collectFromRule ⟨0⟩ 0 1 = .ok outcome ∧
        outcome.depthPruned = 0 ∧ 0 < outcome.recursionCut ∧
        ⟨0⟩ ∈ outcome.candidates.terminals := by
  have hcall : itemList.HasEdge ⟨0⟩ (.call ⟨0⟩) ⟨2⟩ := by decide +kernel
  have hitem : itemList.HasEdge ⟨2⟩ (.token ⟨0⟩) ⟨1⟩ := by decide +kernel
  have hempty : itemList.HasEdge ⟨0⟩ .epsilon ⟨1⟩ := by decide +kernel
  have hstop : itemList.IsStop ⟨1⟩ := by decide +kernel
  have hrun : (itemQuery {}).FreeRun ⟨⟨0⟩, 0, [⟨⟨0⟩, 0, none⟩]⟩
      ⟨⟨2⟩, 1, [⟨⟨0⟩, 0, none⟩]⟩ :=
    .head (.call hcall rfl) <| .head (.call hcall rfl) <| .head (.pass hempty trivial) <|
      .head (.finish hstop) <| .head (.read hitem rfl rfl) <| .single (.finish hstop)
  have hok : (itemQuery {}).collectFromRule ⟨0⟩ 0 1 = .ok
      ((itemQuery {}).outcomeAfter 1 ⟨⟨0⟩, 0, [⟨⟨0⟩, 0, none⟩]⟩ 9) :=
    collectFromRule_eq_outcome (by decide) (by decide) rfl rfl (by decide +kernel)
  have hentry : (itemQuery {}).network.entry? ⟨0⟩ = some ⟨0⟩ := rfl
  obtain ⟨outcome, houtcome, hterminals⟩ := terminals_of_freeRun build_listDraft_epsilon
    (by decide +kernel) rfl rfl hentry (Nat.zero_le 1) (by decide)
  obtain rfl := Except.ok.inj (hok.symm.trans houtcome)
  have hpruned : ((itemQuery {}).outcomeAfter 1 ⟨⟨0⟩, 0, [⟨⟨0⟩, 0, none⟩]⟩ 9).depthPruned =
      0 := by
    decide +kernel
  exact ⟨hrun, _, hok, hpruned, by decide +kernel,
    hterminals hpruned _ _ _ _ hrun rfl hitem rfl (by simp [itemQuery])⟩

end Query

end CodeCompletion
