import CodeCompletion.Proofs.Continuation
import CodeCompletion.Proofs.Soundness
import CodeCompletion.Proofs.Validation

/-!
# The stack discipline of a walk

Whatever waits in a walk is a place where a parser could be. Its state belongs to the
innermost of its calls, each call returns into the one around it, and a call that the request
did not bring along was made by an edge of the calling rule. A walk therefore never looks for
a state or a rule that is not there, and the end of a rule is the end of the way only for the
outermost call.

## Main definitions

* `Network.Makes`, `Network.Grown`: a call made by an edge, and stacks of such calls on what
  is left of a first stack
* `Config.Timely`: calls start in the order in which they were made, none after the token at
  hand
* `Query.Disciplined`: what holds of all that waits in the walk of a request
* `Query.Resolved`: a configuration from which a step finds all that it looks for
* `Query.Finishes`: what becomes of a configuration in which a rule ends

## Main results

* `Query.placed_of_answer`: the walk of an accepted request begins in a placed configuration
* `Query.Leads.grown`, `Query.Leads.timely`: what a step keeps
* `Query.disciplined_of_reaches`: what holds wherever a walk gets
* `Query.finishes_of_taking`: the round that takes up the end of a rule
* `Query.pending_disciplined`: the discipline in every round, and what follows from it
-/

set_option autoImplicit false

namespace CodeCompletion

/-- An edge of the rule `caller` makes the call, which returns to where the edge leads. -/
def Network.Makes (network : Network) (caller : RuleId) (frame : Frame) : Prop :=
  ∃ source target, network.Owns caller source ∧
    network.HasEdge source (.call frame.rule) target ∧ frame.resume? = some target

/-- The stacks that calls made by edges build on what is left of `seed` after returns. -/
inductive Network.Grown (network : Network) (seed : CallStack) : CallStack → Prop
  | left {stack : CallStack} (hsuffix : stack <:+ seed) : Grown network seed stack
  | made {frame caller : Frame} {outer : CallStack} (hmakes : network.Makes caller.rule frame)
      (houter : Grown network seed (caller :: outer)) :
      Grown network seed (frame :: caller :: outer)

theorem Network.Grown.tail {network : Network} {seed stack : CallStack} {frame : Frame}
    (h : network.Grown seed (frame :: stack)) : network.Grown seed stack := by
  cases h with
  | left hsuffix => exact .left ((List.suffix_cons _ _).trans hsuffix)
  | made _ houter => exact houter

/-- The calls start in the order in which they were made, none of them after the token at
hand. -/
structure Config.Timely (config : Config) : Prop where
  ordered : config.stack.Pairwise fun inner outer => outer.start ≤ inner.start
  start_le : ∀ frame ∈ config.stack, frame.start ≤ config.index

/-! ## The first configuration -/

namespace Query

variable {query : Query} {caret : ℕ} {first config config' : Config} {draft : Draft}
  {request : Request} {outcome : Outcome}

theorem checkReturn_eq_ok_iff {caller : RuleId} {frame : Frame} :
    query.checkReturn caller frame = .ok () ↔
      ∃ resume, frame.resume? = some resume ∧ query.network.Owns caller resume := by
  unfold checkReturn Network.Owns
  cases frame.resume? with
  | none => simp
  | some resume =>
    cases hstate : query.network.state? resume with
    | none => simp [hstate]
    | some state =>
      by_cases hrule : state.rule = caller
      · simp [hstate, hrule]
      · simp [hstate, hrule]

/-- Calls that are put on nested calls, or on none, without any misfit are nested. -/
theorem nested_of_openCalls {calls : List Frame} {stack stack' : CallStack}
    (hstack : stack = [] ∨ query.network.Nested stack)
    (h : query.openCalls stack calls = .ok stack') :
    stack' = [] ∨ query.network.Nested stack' := by
  induction calls generalizing stack with
  | nil =>
    obtain rfl : stack = stack' := Except.ok.inj h
    exact hstack
  | cons frame rest ih =>
    unfold openCalls at h
    split at h
    · next hrule =>
      split at h
      · exact ih (Or.inr (.outermost hrule)) h
      · next caller outer =>
        split at h
        · cases h
        · next hcheck =>
          obtain ⟨resume, hresume, howns⟩ := checkReturn_eq_ok_iff.mp hcheck
          obtain ⟨rule, start, resume?⟩ := frame
          obtain rfl : resume? = some resume := hresume
          have hnested := hstack.resolve_left (List.cons_ne_nil _ _)
          exact ih (Or.inr (.inside hrule howns hnested)) h
    · cases h

/-- The stack of a parser in a state of `rule` is nested and has `rule` innermost. -/
theorem nested_of_parserStack {start : StateId} {rule : RuleId} {calls : List Frame}
    {stack : CallStack} (hrule : query.network.hasRule rule)
    (h : query.parserStack start rule calls = .ok stack) :
    query.network.Nested stack ∧
      ∃ innermost outer, stack = innermost :: outer ∧ innermost.rule = rule := by
  unfold parserStack at h
  split at h
  · cases h
  · obtain rfl := Except.ok.inj h
    exact ⟨.outermost hrule, _, _, rfl, rfl⟩
  · next innermost outer hcalls =>
    split at h
    · next hsame =>
      obtain rfl := Except.ok.inj h
      have hnested := (nested_of_openCalls (Or.inl rfl) hcalls).resolve_left
        (List.cons_ne_nil _ _)
      exact ⟨hnested, innermost, outer, rfl, hsame⟩
    · cases h

end Query

/-- A rule that a state of a built network belongs to exists. -/
theorem Draft.hasRule_of_owns {draft : Draft} {network : Network}
    (hbuild : draft.build = .ok network) {rule : RuleId} {state : StateId}
    (howns : network.Owns rule state) : network.hasRule rule := by
  obtain ⟨place, hplace, rfl⟩ := (owns_iff_of_build hbuild).mp howns
  have hrule := (wellFormed_of_build hbuild).owned _ place hplace
  rw [← (freezes_of_build hbuild).rules] at hrule
  exact decide_eq_true hrule

/-- A rule that an edge of a built network calls has an entry. -/
theorem Draft.exists_entry_of_call {draft : Draft} {network : Network}
    (hbuild : draft.build = .ok network) {source target : StateId} {rule : RuleId}
    (hedge : network.HasEdge source (.call rule) target) :
    ∃ entry, network.entry? rule = some entry := by
  obtain ⟨-, -, -, -, -, -, hlabel⟩ :=
    edgeDefect?_eq_none_iff_soundEdge.mp (edgeDefect?_of_hasEdge hbuild hedge)
  have hrule : rule.index < network.rules.size := by
    rw [(freezes_of_build hbuild).rules]
    exact hlabel
  exact ⟨_, Option.map_eq_some_iff.mpr ⟨_, Array.getElem?_eq_getElem hrule, rfl⟩⟩

/-- What a round takes up is the first of what waits, and new. -/
theorem Progress.exists_pending_of_taking {progress : Progress} {config : Config}
    (h : progress.taking? = some config) :
    ∃ origin rest, progress.pending = origin :: rest ∧ origin.visit ∉ progress.visited ∧
      origin.config = config := by
  unfold taking? at h
  split at h
  · cases h
  · next origin rest hpending =>
    split at h
    · cases h
    · next hnew => exact ⟨origin, rest, hpending, hnew, Option.some.inj h⟩

namespace Query

variable {query : Query} {caret : ℕ} {first config config' : Config} {draft : Draft}
  {request : Request} {outcome : Outcome}

/-- The walk of an accepted request begins in a placed configuration. -/
theorem placed_of_answer (hbuild : draft.build = .ok query.network)
    (hanswer : query.answer request = .ok outcome) (hfirst : query.first? request = some first) :
    first.Placed query.network := by
  cases request with
  | parser start calls index =>
    obtain ⟨-, state, stack, -, hstate, hstack, -⟩ := collect_eq_ok_iff.mp hanswer
    have howns : query.network.Owns state.rule start := ⟨state, hstate, rfl⟩
    obtain ⟨hnested, innermost, outer, hcons, hrule⟩ :=
      nested_of_parserStack (Draft.hasRule_of_owns hbuild howns) hstack
    rw [first?, hstate, Option.map_some, ← parserStack_eq_seedStack hstack] at hfirst
    obtain rfl := Option.some.inj hfirst
    exact ⟨hnested, innermost, outer, hcons, hrule ▸ howns⟩
  | replay rule start caret =>
    obtain ⟨entry, hentry, rfl⟩ := Option.map_eq_some_iff.mp hfirst
    exact Config.placed_entry hbuild hentry start

/-! ## Steps -/

theorem Leads.grown (hplaced : config.Placed query.network) {seed : CallStack}
    (hgrown : query.network.Grown seed config.stack) (h : query.Leads caret config config') :
    query.network.Grown seed config'.stack := by
  obtain ⟨move, hmove, rfl⟩ := h
  cases Moves.of_mem_step hmove with
  | enter hcalls _ =>
    obtain ⟨innermost, outer, hstack, howned⟩ := hplaced.owned
    rw [hstack] at hgrown
    simp only [Config.after, hstack]
    exact .made ⟨config.state, _, howned, hcalls.edge, rfl⟩ hgrown
  | leave _ hstack =>
    rw [hstack] at hgrown
    simp only [Config.after, hstack]
    exact hgrown.tail
  | pass | advance | skip => exact hgrown

theorem Leads.timely (htimely : config.Timely) (h : query.Leads caret config config') :
    config'.Timely := by
  obtain ⟨move, hmove, rfl⟩ := h
  cases Moves.of_mem_step hmove with
  | advance =>
    exact ⟨htimely.ordered, fun frame hframe => Nat.le_succ_of_le (htimely.start_le frame hframe)⟩
  | enter =>
    -- The new call starts at the token at hand, so after all that are open.
    refine ⟨List.pairwise_cons.mpr ⟨htimely.start_le, htimely.ordered⟩, ?_⟩
    intro frame hframe
    rcases List.mem_cons.mp hframe with rfl | hframe
    · exact Nat.le_refl _
    · exact htimely.start_le frame hframe
  | leave =>
    exact ⟨htimely.ordered.tail, fun frame hframe =>
      htimely.start_le frame (List.mem_of_mem_tail hframe)⟩
  | pass | skip => exact ⟨htimely.ordered, htimely.start_le⟩

theorem Reaches.grown (hbuild : draft.build = .ok query.network)
    (hfirst : first.Placed query.network) (h : query.Reaches caret first config) :
    query.network.Grown first.stack config.stack := by
  induction h with
  | refl => exact .left (List.suffix_refl _)
  | tail hreach hleads ih => exact hleads.grown (Reaches.placed hbuild hfirst hreach) ih

theorem Reaches.timely (hfirst : first.Timely) (h : query.Reaches caret first config) :
    config.Timely := by
  induction h with
  | refl => exact hfirst
  | tail _ hleads ih => exact hleads.timely ih

/-! ## All that waits -/

/-- What holds of a configuration in the walk that a request starts from `first`. -/
structure Disciplined (query : Query) (request : Request) (first config : Config) : Prop where
  placed : config.Placed query.network
  grown : query.network.Grown first.stack config.stack
  index_le : config.index ≤ query.tokens.size
  index_le_caret : query.options.preloaded = ∅ → config.index ≤ request.caret
  timely : ∀ rule start caret, request = .replay rule start caret → config.Timely

theorem timely_of_replay {rule : RuleId} {start : ℕ}
    (hfirst : query.first? (.replay rule start caret) = some first) : first.Timely := by
  obtain ⟨entry, -, rfl⟩ := Option.map_eq_some_iff.mp hfirst
  exact ⟨List.pairwise_singleton _ _, by simp⟩

theorem disciplined_of_reaches (hbuild : draft.build = .ok query.network)
    (hanswer : query.answer request = .ok outcome) (hfirst : query.first? request = some first)
    (hcaret : first.index ≤ request.caret) (hsize : config.index ≤ query.tokens.size)
    (h : query.Reaches request.caret first config) : query.Disciplined request first config where
  placed := h.placed hbuild (placed_of_answer hbuild hanswer hfirst)
  grown := h.grown hbuild (placed_of_answer hbuild hanswer hfirst)
  index_le := hsize
  index_le_caret hpreloaded := (h.preloadedTo hcaret).index_le hpreloaded
  timely := by
    rintro rule start caret rfl
    exact h.timely (timely_of_replay hfirst)

/-- Whatever waits in some round is within reach. -/
theorem reaches_of_mem_pending (hindex : first.index ≤ query.tokens.size)
    (hstack : first.stack ≠ []) {n : ℕ} {pending : Pending}
    (h : pending ∈ (query.rounds caret first n).pending) :
    query.Reaches caret first pending.config := by
  have hwaiting : pending.config ∈ (query.searched caret first n).waiting := by
    rw [← (mirrors_rounds caret hindex hstack n).pending]
    exact List.mem_map_of_mem h
  rw [Reaches, leads_eq]
  exact (Search.covers_iterate (query.next caret) first n).reached _ (Or.inr hwaiting)

/-- A step from the configuration looks for nothing that is not there: the state is known, and
so is the entry of every rule that an edge calls. -/
structure Resolved (query : Query) (config : Config) : Prop where
  state : ∃ state, query.network.state? config.state = some state
  calls : ∀ rule target, query.network.HasEdge config.state (.call rule) target →
    ∃ entry, query.network.entry? rule = some entry

theorem resolved_of_placed (hbuild : draft.build = .ok query.network)
    (hplaced : config.Placed query.network) : query.Resolved config := by
  obtain ⟨innermost, outer, -, state, hstate, -⟩ := hplaced.owned
  exact ⟨⟨state, hstate⟩, fun _ _ => Draft.exists_entry_of_call hbuild⟩

/-! ## Ends of rules -/

/-- What a configuration leads to in which a rule ends, and what it tells: the outermost call
is the end of the way, and any other resumes in the call around it. -/
inductive Finishes (query : Query) (config : Config) : List Config → List Event → Prop
  | outermost {frame : Frame} (hstack : config.stack = [frame]) :
      Finishes query config [] [.outermostFinished frame.rule]
  | inner {frame caller : Frame} {outer : CallStack} {resume : StateId}
      (hstack : config.stack = frame :: caller :: outer)
      (hresume : frame.resume? = some resume)
      (howns : query.network.Owns caller.rule resume) :
      Finishes query config [⟨resume, config.index, caller :: outer⟩] []

theorem step_of_isStop (hstop : query.network.IsStop config.state) :
    query.step caret config = finish config.stack := by
  obtain ⟨state, hstate, hstop⟩ := hstop
  simp only [step, hstate, hstop, if_true]

theorem finishes_of_placed (hplaced : config.Placed query.network)
    (hstop : query.network.IsStop config.state) :
    query.Finishes config (query.next caret config)
      ((query.step caret config).filterMap Effect.event?) := by
  obtain ⟨state, index, stack⟩ := config
  rw [next, step_of_isStop hstop]
  cases hplaced.nested with
  | outermost => exact .outermost rfl
  | inside _ hresume _ => exact .inner rfl rfl hresume

/-- The round that takes up the end of a rule. -/
theorem finishes_of_taking (hindex : first.index ≤ query.tokens.size) {n : ℕ}
    (htaking : (query.rounds caret first n).taking? = some config)
    (hplaced : config.Placed query.network) (hstop : query.network.IsStop config.state) :
    ∃ successors events, query.Finishes config successors events ∧
      (query.rounds caret first (n + 1)).pending.map Pending.config =
        successors ++ (query.rounds caret first n).pending.tail.map Pending.config ∧
      (query.rounds caret first (n + 1)).trace.toList =
        (query.rounds caret first n).trace.toList ++ events := by
  obtain ⟨origin, rest, hpending, hnew, rfl⟩ := Progress.exists_pending_of_taking htaking
  have hfollows := (sound_rounds caret hindex n).follows_explore hpending
  have hround : query.rounds caret first (n + 1) =
      (query.rounds caret first n).explore query caret origin rest := by
    rw [rounds_succ, Progress.round, hpending]
    exact if_neg hnew
  rw [hround, hpending]
  exact ⟨_, _, finishes_of_placed hplaced hstop, hfollows.pending, hfollows.trace⟩

/-- In every round of the walk of an accepted request, all that waits is disciplined, is denoted
by the number of its stack, and resolves. Where a round takes up the end of a rule, the way ends
for the outermost call and resumes in the calling rule for any other. -/
theorem pending_disciplined (hbuild : draft.build = .ok query.network)
    (hanswer : query.answer request = .ok outcome) :
    ∃ first, query.first? request = some first ∧
      (∃ n, (query.rounds request.caret first n).pending = [] ∧
        outcome = query.outcomeAfter request.caret first n) ∧
      ∀ n,
        (∀ pending ∈ (query.rounds request.caret first n).pending,
          query.Disciplined request first pending.config ∧
          (query.rounds request.caret first n).table.Denotes pending.visit pending.config ∧
          query.Resolved pending.config) ∧
        ∀ config, (query.rounds request.caret first n).taking? = some config →
          query.network.IsStop config.state →
          ∃ successors events, query.Finishes config successors events ∧
            (query.rounds request.caret first (n + 1)).pending.map Pending.config =
              successors ++ (query.rounds request.caret first n).pending.tail.map Pending.config ∧
            (query.rounds request.caret first (n + 1)).trace.toList =
              (query.rounds request.caret first n).trace.toList ++ events := by
  obtain ⟨first, hindex, hfirst, hstack, hcaret, hwalk⟩ := exists_walk_of_answer hanswer
  obtain ⟨last, hdone, hlast⟩ := exists_walk_eq request.caret hindex
  refine ⟨first, hfirst, ⟨last, hdone, hwalk.symm.trans hlast⟩, fun n => ?_⟩
  have hwaits : ∀ pending ∈ (query.rounds request.caret first n).pending,
      query.Disciplined request first pending.config := by
    intro pending hpending
    have hknown := (sound_rounds request.caret hindex n).pending pending hpending
    exact disciplined_of_reaches hbuild hanswer hfirst hcaret hknown.index_le
      (reaches_of_mem_pending hindex hstack hpending)
  constructor
  · intro pending hpending
    have hknown := (sound_rounds request.caret hindex n).pending pending hpending
    exact ⟨hwaits pending hpending, hknown.denotes,
      resolved_of_placed hbuild (hwaits pending hpending).placed⟩
  · intro config htaking hstop
    obtain ⟨origin, rest, hpending, -, rfl⟩ := Progress.exists_pending_of_taking htaking
    have horigin := hwaits origin (hpending ▸ List.mem_cons_self)
    exact finishes_of_taking hindex htaking horigin.placed hstop

/-- The replay of one item takes up, in its fourth round, the end of a list inside a list. It is
in place there, and the way resumes before the next item of the list around. -/
theorem pending_disciplined_itemList :
    let query := itemQuery {}
    let first : Config := ⟨⟨0⟩, 0, [⟨⟨0⟩, 0, none⟩]⟩
    let middle : Config := ⟨⟨1⟩, 1, [⟨⟨0⟩, 0, some ⟨2⟩⟩, ⟨⟨0⟩, 0, none⟩]⟩
    (∃ outcome, query.answer (.replay ⟨0⟩ 0 1) = .ok outcome) ∧
      (query.rounds 1 first 3).taking? = some middle ∧ query.network.IsStop middle.state ∧
      query.Disciplined (.replay ⟨0⟩ 0 1) first middle ∧
      query.Finishes middle [⟨⟨2⟩, 1, [⟨⟨0⟩, 0, none⟩]⟩] [] ∧
      ∃ rest, (query.rounds 1 first 4).pending.map Pending.config =
        ⟨⟨2⟩, 1, [⟨⟨0⟩, 0, none⟩]⟩ :: rest := by
  intro query first middle
  have hok : query.collectFromRule ⟨0⟩ 0 1 = .ok (query.outcomeAfter 1 first 9) :=
    collectFromRule_eq_outcome (by decide) (by decide) rfl rfl (by decide +kernel)
  have hanswer : query.answer (.replay ⟨0⟩ 0 1) = .ok _ := hok
  have htaking : (query.rounds 1 first 3).taking? = some middle := by decide +kernel
  have hstop : query.network.IsStop middle.state := by decide +kernel
  obtain ⟨first', hfirst, -, hrounds⟩ := pending_disciplined build_listDraft_epsilon hanswer
  obtain rfl : first' = first := (Option.some.inj hfirst).symm
  obtain ⟨hwaits, hends⟩ := hrounds 3
  obtain ⟨origin, rest, hpending, -, hmiddle⟩ := Progress.exists_pending_of_taking htaking
  obtain ⟨hdisciplined, -⟩ := hwaits origin (hpending ▸ List.mem_cons_self)
  obtain ⟨successors, events, hfinishes, hnext, -⟩ := hends middle htaking hstop
  rw [hmiddle] at hdisciplined
  cases hfinishes with
  | outermost hstack => cases hstack
  | inner hstack hresume howns =>
    obtain ⟨rfl, houter⟩ := List.cons.inj hstack
    obtain ⟨rfl, rfl⟩ := List.cons.inj houter
    obtain rfl := Option.some.inj hresume
    exact ⟨⟨_, hanswer⟩, htaking, hstop, hdisciplined, .inner rfl rfl howns, _, hnext⟩

end Query

end CodeCompletion
