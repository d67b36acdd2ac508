import CodeCompletion.Proofs.Nullable

/-!
# Free runs, call by call

A free run to the caret is a flat list of steps. Here it is folded along its calls: a trip
through a rule either finishes the rule at some token, or arrives at the caret before the
rule is finished, and every call on the way is a trip of its own. Trips are counted by
their steps, so that among those with one goal a shortest can be chosen.

## Main definitions

* `Goal`, `Goal.deadline`: what a trip is for, and the token by which it ends
* `Query.Trip`: trips from a state, with their sizes
* `Query.Unwinds`: trips one inside the other, for all calls that are open

## Main results

* `Query.Trip.silentFinish`: a trip that reads nothing is a silent pass
* `Query.FreeRun.unwinds`, `Query.exists_trip_of_freeRun`: a free run to the caret is folded
  into trips
-/

set_option autoImplicit false

namespace CodeCompletion

/-- What a trip through a rule is for: to finish the rule at a token, or to arrive at the
caret inside the rule. -/
inductive Goal where
  | finish (index : ℕ)
  | arrive

/-- The token at which a trip ends. One that does not finish its rule goes beyond all that
do. -/
def Goal.deadline (caret : ℕ) : Goal → ℕ
  | finish index => index
  | arrive => caret + 1

/-- A goal with a deadline by the caret is to finish there. -/
theorem Goal.eq_finish_of_deadline {caret last : ℕ} {goal : Goal}
    (h : goal.deadline caret = last) (hlast : last ≤ caret) : goal = .finish last := by
  cases goal with
  | finish index => exact congrArg Goal.finish h
  | arrive =>
    have hlate : caret + 1 = last := h
    omega

namespace Query

variable {query : Query} {caret : ℕ} {site : StateId} {size : ℕ} {state : StateId} {index : ℕ}
  {goal : Goal} {stack : CallStack}

/-- A trip of some size from a state at a token: to a stop state of the rule, or to `site` at
the caret, perhaps inside calls. -/
inductive Trip (query : Query) (caret : ℕ) (site : StateId) : ℕ → StateId → ℕ → Goal → Prop
  | finish {state : StateId} {index : ℕ} (hstop : query.network.IsStop state)
      (hindex : index ≤ caret) : Trip query caret site 0 state index (.finish index)
  | arrive : Trip query caret site 0 site caret .arrive
  | pass {size : ℕ} {state target : StateId} {index : ℕ} {goal : Goal} {label : Label}
      (hedge : query.network.HasEdge state label target) (hpasses : query.Passes label)
      (hrest : Trip query caret site size target index goal) :
      Trip query caret site (size + 1) state index goal
  | read {size : ℕ} {state target : StateId} {index : ℕ} {goal : Goal} {label : Label}
      {token : TerminalId} (hedge : query.network.HasEdge state label target)
      (htoken : query.tokens[index]? = some token) (hmatches : label.Matches token)
      (hrest : Trip query caret site size target (index + 1) goal) :
      Trip query caret site (size + 1) state index goal
  | call {inner size : ℕ} {state entry target : StateId} {index mid : ℕ} {goal : Goal}
      {rule : RuleId} (hedge : query.network.HasEdge state (.call rule) target)
      (hentry : query.network.entry? rule = some entry)
      (hcalled : Trip query caret site inner entry index (.finish mid))
      (hrest : Trip query caret site size target mid goal) :
      Trip query caret site (inner + size + 1) state index goal
  | stay {inner : ℕ} {state entry target : StateId} {index : ℕ} {rule : RuleId}
      (hedge : query.network.HasEdge state (.call rule) target)
      (hentry : query.network.entry? rule = some entry)
      (hcalled : Trip query caret site inner entry index .arrive) :
      Trip query caret site (inner + 1) state index .arrive

namespace Trip

theorem index_le_deadline (h : query.Trip caret site size state index goal) :
    index ≤ goal.deadline caret := by
  induction h with
  | finish => exact Nat.le_refl _
  | arrive => exact Nat.le_succ _
  | pass _ _ _ ih => exact ih
  | read _ _ _ _ ih => exact Nat.le_of_succ_le ih
  | call _ _ _ _ ihcalled ih => exact Nat.le_trans ihcalled ih
  | stay _ _ _ ih => exact ih

theorem index_le_caret (h : query.Trip caret site size state index goal) : index ≤ caret := by
  induction h with
  | finish _ hindex => exact hindex
  | arrive => exact Nat.le_refl _
  | pass _ _ _ ih => exact ih
  | read _ _ _ _ ih => exact Nat.le_of_succ_le ih
  | call _ _ _ _ ihcalled _ => exact ihcalled
  | stay _ _ _ ih => exact ih

/-- A trip that finishes its rule does so by the caret. -/
theorem finish_le_caret {last : ℕ}
    (h : query.Trip caret site size state index (.finish last)) : last ≤ caret := by
  generalize hgoal : Goal.finish last = goal at h
  induction h with
  | finish _ hindex => exact Goal.finish.inj hgoal ▸ hindex
  | arrive => cases hgoal
  | pass _ _ _ ih => exact ih hgoal
  | read _ _ _ _ ih => exact ih hgoal
  | call _ _ _ _ _ ih => exact ih hgoal
  | stay => cases hgoal

/-- A trip that ends at the token where it begins passes its rule in silence. -/
theorem silentFinish (h : query.Trip caret site size state index (.finish index)) :
    query.network.SilentFinish state := by
  -- The index varies along the trip, and with it what the goal is compared to.
  generalize hgoal : Goal.finish index = goal at h
  induction h with
  | finish hstop _ => exact .stop hstop
  | arrive => cases hgoal
  | pass hedge hpasses _ ih => exact .pass hedge hpasses.isSilent (ih hgoal)
  | read _ _ _ hrest _ =>
    subst hgoal
    exact absurd hrest.index_le_deadline (Nat.not_succ_le_self _)
  | call hedge hentry hcalled hrest ihcalled ih =>
    subst hgoal
    obtain rfl := Nat.le_antisymm hcalled.index_le_deadline hrest.index_le_deadline
    exact .call hedge hentry (ihcalled rfl) (ih rfl)
  | stay => cases hgoal

end Trip

/-! ## Folding free runs -/

/-- From a state under a stack, `site` can be arrived at: by a trip inside the innermost
call, or after this call is finished and some of the calls around it. -/
inductive Unwinds (query : Query) (caret : ℕ) (site : StateId) :
    StateId → ℕ → CallStack → Prop
  | here {size : ℕ} {state : StateId} {index : ℕ} {stack : CallStack}
      (htrip : query.Trip caret site size state index .arrive) :
      Unwinds query caret site state index stack
  | above {size : ℕ} {state resume : StateId} {index last start : ℕ} {rule : RuleId}
      {caller : Frame} {outer : CallStack}
      (htrip : query.Trip caret site size state index (.finish last))
      (houter : Unwinds query caret site resume last (caller :: outer)) :
      Unwinds query caret site state index (⟨rule, start, some resume⟩ :: caller :: outer)

theorem Unwinds.index_le_caret (h : query.Unwinds caret site state index stack) :
    index ≤ caret := by
  cases h with
  | here htrip => exact htrip.index_le_caret
  | above htrip _ => exact htrip.index_le_caret

/-- A step that lengthens every trip from its end carries over to trips one inside the
other. -/
theorem Unwinds.map {state' : StateId} {index' : ℕ}
    (hmap : ∀ {size goal}, query.Trip caret site size state' index' goal →
      ∃ size', query.Trip caret site size' state index goal)
    (h : query.Unwinds caret site state' index' stack) :
    query.Unwinds caret site state index stack := by
  cases h with
  | here htrip =>
    obtain ⟨size', htrip'⟩ := hmap htrip
    exact .here htrip'
  | above htrip houter =>
    obtain ⟨size', htrip'⟩ := hmap htrip
    exact .above htrip' houter

theorem FreeStep.unwinds {config config' : Config} (h : query.FreeStep config config')
    (hrest : query.Unwinds caret site config'.state config'.index config'.stack) :
    query.Unwinds caret site config.state config.index config.stack := by
  cases h with
  | pass hedge hpasses => exact hrest.map fun htrip => ⟨_, .pass hedge hpasses htrip⟩
  | read hedge htoken hmatches =>
    exact hrest.map fun htrip => ⟨_, .read hedge htoken hmatches htrip⟩
  | call hedge hentry =>
    cases hrest with
    | here htrip => exact .here (.stay hedge hentry htrip)
    -- The trip that finishes the callee and the one after it make one trip of the caller.
    | above hcalled houter => exact houter.map fun htrip => ⟨_, .call hedge hentry hcalled htrip⟩
  -- Nothing is left of the innermost call but its end.
  | finish hstop => exact .above (.finish hstop hrest.index_le_caret) hrest

theorem FreeRun.unwinds {config : Config}
    (h : query.FreeRun config ⟨site, caret, stack⟩) :
    query.Unwinds caret site config.state config.index config.stack := by
  induction h using Relation.ReflTransGen.head_induction_on with
  | refl => exact .here .arrive
  | head hstep _ ih => exact hstep.unwinds ih

/-- A free run to the caret under one call is a trip inside this call. -/
theorem exists_trip_of_freeRun {frame : Frame}
    (h : query.FreeRun ⟨state, index, [frame]⟩ ⟨site, caret, stack⟩) :
    ∃ size, query.Trip caret site size state index .arrive := by
  -- Only a call inside another one could be finished on the way.
  cases h.unwinds with
  | here htrip => exact ⟨_, htrip⟩

end Query

end CodeCompletion
