import CodeCompletion.Proofs.Window

/-!
# Replays that begin later

A replay from a later token is a replay of what is left of the tokens from the first one on: no
position counts by itself, only how far it is from the others. The two walks stay together round
by round. They number their stacks alike, although the stacks themselves differ, and every token
position that the later walk holds, compares or reports is the other one's, moved on.

## Main definitions

* `Frame.delay`, `Config.delay`, `Effect.delay` and others: everything with token positions, moved
  on by some tokens
* `Query.skipping`: the query, asked of the tokens without the first few
* `StackTable.Delays`, `Progress.Delays`: tables and walks that differ in positions alone

## Main results

* `Query.step_delay`: a step from a configuration that has been moved on
* `StackTable.Delays.push`, `Candidates.record_delay`: numbers and records
* `Progress.Delays.round`, `Query.delays_rounds`: what a round and a walk keep
* `Query.collectFromRule_delay`: a replay from a later token against one from the first
-/

set_option autoImplicit false

namespace CodeCompletion

variable {k : ℕ}

/-! ## Positions moved on -/

/-- The call, made `k` tokens later. -/
def Frame.delay (k : ℕ) (frame : Frame) : Frame := { frame with start := frame.start + k }

/-- The calls, all made `k` tokens later. -/
def CallStack.delay (k : ℕ) (stack : CallStack) : CallStack := stack.map (Frame.delay k)

/-- The configuration, met `k` tokens later. -/
def Config.delay (k : ℕ) (config : Config) : Config :=
  ⟨config.state, config.index + k, config.stack.delay k⟩

/-- The move, made `k` tokens later. -/
def Move.delay (k : ℕ) : Move → Move
  | .enter state frame => .enter state (frame.delay k)
  | .goto state => .goto state
  | .advance state => .advance state
  | .leave state => .leave state

/-- What is offered `k` tokens later. -/
def Offer.delay (k : ℕ) : Offer → Offer
  | .terminals offered => .terminals offered
  | .rule preferred start => .rule preferred (start + k)

/-- What is found `k` tokens later. -/
def Finding.delay (k : ℕ) (finding : Finding) : Finding :=
  ⟨finding.offer.delay k, finding.path, finding.active.delay k⟩

/-- What happens `k` tokens later. -/
def Event.delay (k : ℕ) : Event → Event
  | .recursionCut rule index => .recursionCut rule (index + k)
  | .steppedOver token index => .steppedOver token (index + k)
  | .outermostFinished rule => .outermostFinished rule
  | .predicateRejected predicate => .predicateRejected predicate
  | .depthLimitReached rule depth => .depthLimitReached rule depth

/-- What a configuration brings about, `k` tokens later. -/
def Effect.delay (k : ℕ) : Effect → Effect
  | .move way => .move (way.delay k)
  | .report finding => .report (finding.delay k)
  | .event news => .event (news.delay k)

theorem Frame.delay_injective (k : ℕ) : Function.Injective (Frame.delay k) := by
  rintro ⟨rule, start, resume?⟩ ⟨rule', start', resume?'⟩ h
  simpa [delay] using h

namespace CallStack

variable {stack : CallStack}

theorem length_delay : (stack.delay k).length = stack.length := List.length_map _

theorem path_delay : (stack.delay k).path = stack.path := by
  simp [path, delay, Frame.delay]

/-- Calls are told apart as before, since all have been moved on by the same tokens. -/
theorem openCount_delay (rule : RuleId) (start : ℕ) :
    (stack.delay k).openCount rule (start + k) = stack.openCount rule start := by
  rw [openCount, delay, List.countP_map, openCount]
  refine List.countP_congr fun frame _ => ?_
  simp only [Function.comp_apply, Frame.delay, decide_eq_true_eq, Nat.add_right_cancel_iff]

theorem outermost?_delay (chosen : RuleId → Bool) :
    (stack.delay k).outermost? chosen = (stack.outermost? chosen).map (delay k) := by
  induction stack with
  | nil => rfl
  | cons frame outer ih =>
    have hcons : delay k (frame :: outer) = frame.delay k :: delay k outer := rfl
    rw [hcons, outermost?, ih, outermost?]
    cases outermost? chosen outer with
    | some found => rfl
    | none =>
      have hrule : (frame.delay k).rule = frame.rule := rfl
      rw [Option.map_none, hrule]
      dsimp only
      split <;> rfl

end CallStack

theorem Config.after_delay (config : Config) (move : Move) :
    (config.delay k).after (move.delay k) = (config.after move).delay k := by
  cases move with
  | goto state | enter state frame => rfl
  | advance state => simp [after, delay, Move.delay, Nat.add_right_comm]
  | leave state => simp [after, delay, Move.delay, CallStack.delay, List.map_tail]

/-! ## Steps -/

namespace Query

variable {query : Query} {caret : ℕ} {config : Config}

/-- The query, asked of the tokens after the first `k`. -/
def skipping (query : Query) (k : ℕ) : Query := query.withTokens (query.tokens.drop k)

theorem size_skipping (query : Query) (k : ℕ) :
    (query.skipping k).tokens.size = query.tokens.size - k := by
  simp [skipping, withTokens]

theorem getElem?_skipping (query : Query) (k index : ℕ) :
    (query.skipping k).tokens[index]? = query.tokens[index + k]? := by
  rw [skipping, withTokens, Array.drop_eq_extract, Array.getElem?_extract, Nat.add_comm k index]
  split
  · rfl
  · rw [Array.getElem?_eq_none]
    omega

theorem finding_delay (stack : CallStack) (offer : Offer) :
    query.finding (stack.delay k) (offer.delay k) =
      ((query.skipping k).finding stack offer).delay k := by
  have henclosing : query.enclosing? (stack.delay k) =
      ((query.skipping k).enclosing? stack).map (Finding.delay k) := by
    have hoptions : (query.skipping k).options = query.options := rfl
    unfold enclosing?
    rw [CallStack.outermost?_delay, hoptions]
    cases stack.outermost? fun rule => rule ∈ query.options.preferred with
    | none => rfl
    | some found =>
      cases found with
      | nil => rfl
      | cons frame outer =>
        simp [CallStack.delay, Finding.delay, Offer.delay, Frame.delay, CallStack.path]
  unfold finding
  rw [henclosing, CallStack.path_delay]
  cases (query.skipping k).enclosing? stack with
  | none => rfl
  | some found => rfl

theorem call_delay (rule : RuleId) (target : StateId) :
    query.call (caret + k) (config.delay k) rule target =
      ((query.skipping k).call caret config rule target).map (Effect.delay k) := by
  have hfinding : query.finding (config.stack.delay k) (.rule rule (config.index + k)) =
      ((query.skipping k).finding config.stack (.rule rule config.index)).delay k :=
    finding_delay config.stack (.rule rule config.index)
  have hnetwork : (query.skipping k).network = query.network := rfl
  have hoptions : (query.skipping k).options = query.options := rfl
  unfold call
  rw [hnetwork, hoptions]
  cases query.network.entry? rule with
  | none => rfl
  | some entry =>
    simp only [Config.delay, hfinding, CallStack.length_delay, CallStack.openCount_delay,
      Nat.add_le_add_iff_right, Nat.add_sub_add_right,
      apply_ite (List.map (Effect.delay k)), List.map_cons, List.map_nil]
    rfl

theorem consume_delay (label : Label) (target : StateId) :
    query.consume (caret + k) (config.delay k) label target =
      ((query.skipping k).consume caret config label target).map (Effect.delay k) := by
  have hfinding : query.finding (config.stack.delay k) (query.offer label) =
      ((query.skipping k).finding config.stack ((query.skipping k).offer label)).delay k :=
    finding_delay config.stack (query.offer label)
  have hoptions : (query.skipping k).options = query.options := rfl
  unfold consume
  rw [getElem?_skipping, hoptions]
  simp only [Config.delay, hfinding, Nat.add_lt_add_iff_right]
  cases query.tokens[config.index + k]?.filter fun token => label.accepts token with
  | none =>
    simp only [apply_ite (List.map (Effect.delay k)), List.map_cons, List.map_nil]
    rfl
  | some token =>
    simp only [apply_ite (List.map (Effect.delay k)), List.map_cons, List.map_nil]
    rfl

theorem follow_delay (edge : Edge) :
    query.follow (caret + k) (config.delay k) edge =
      ((query.skipping k).follow caret config edge).map (Effect.delay k) := by
  obtain ⟨label, target⟩ := edge
  cases label with
  | epsilon => rfl
  | guard predicate =>
    have hconsents : (query.skipping k).consents = query.consents := rfl
    unfold follow
    rw [hconsents, apply_ite (List.map (Effect.delay k))]
    rfl
  | call rule => exact call_delay rule target
  | token _ | oneOf _ | noneOf _ | any =>
    rw [follow_of_consumes rfl, follow_of_consumes rfl]
    exact consume_delay _ _

theorem finish_delay (stack : CallStack) :
    finish (stack.delay k) = (finish stack).map (Effect.delay k) := by
  match stack with
  | [] => rfl
  | [⟨rule, start, none⟩] => rfl
  | [⟨rule, start, some state⟩] => rfl
  | ⟨rule, start, none⟩ :: caller :: outer => rfl
  | ⟨rule, start, some state⟩ :: caller :: outer => rfl

/-- From a configuration that has been moved on, a step has the effects that it has over the
tokens after the first `k`, moved on. -/
theorem step_delay (config : Config) :
    query.step (caret + k) (config.delay k) =
      ((query.skipping k).step caret config).map (Effect.delay k) := by
  have hnetwork : (query.skipping k).network = query.network := rfl
  have hstate : (config.delay k).state = config.state := rfl
  unfold step
  rw [hnetwork, hstate]
  cases query.network.state? config.state with
  | none => rfl
  | some state =>
    dsimp only
    split
    · exact finish_delay config.stack
    · rw [List.map_flatMap]
      exact List.flatMap_congr fun edge _ => follow_delay edge

end Query

/-! ## Numbers -/

/-- The frame, put `k` tokens later on the stack of the same number. -/
def Link.delay (k : ℕ) (link : Link) : Link := ⟨link.outer?, link.frame.delay k⟩

theorem Link.delay_injective (k : ℕ) : Function.Injective (Link.delay k) := by
  rintro ⟨outer?, frame⟩ ⟨outer?', frame'⟩ h
  obtain ⟨houter, hframe⟩ := Link.mk.inj h
  exact Link.ext houter (Frame.delay_injective k hframe)

/-- The numbered stack, built `k` tokens later. -/
def StackEntry.delay (k : ℕ) (entry : StackEntry) : StackEntry :=
  ⟨entry.toLink.delay k, entry.stack.delay k⟩

/-- The other table gives the same numbers to the stacks, moved on. Under links that are not
moved on by `k` tokens it may find anything, but these never come up. -/
structure StackTable.Delays (k : ℕ) (table late : StackTable) : Prop where
  entries : late.entries = table.entries.map (StackEntry.delay k)
  numbers : ∀ link : Link, late.numbers[link.delay k]? = table.numbers[link]?

namespace StackTable

variable {table late : StackTable}

theorem delays_empty (k : ℕ) : Delays k {} {} where
  entries := Array.map_empty.symm
  numbers _ := by simp

theorem Delays.size_eq (h : Delays k table late) : late.size = table.size := by
  rw [size, h.entries, Array.size_map, size]

theorem Delays.getElem?_eq (h : Delays k table late) (number : ℕ) :
    late.entries[number]? = table.entries[number]?.map (StackEntry.delay k) := by
  rw [h.entries, Array.getElem?_map]

theorem Delays.outer?_eq (h : Delays k table late) (number : ℕ) :
    late.outer? number = table.outer? number := by
  rw [outer?, h.getElem?_eq, outer?]
  cases table.entries[number]? with
  | none => rfl
  | some entry => rfl

theorem Delays.stackOf_eq (h : Delays k table late) (outer? : Option ℕ) :
    late.stackOf outer? = (table.stackOf outer?).delay k := by
  cases outer? with
  | none => rfl
  | some number =>
    rw [stackOf, h.getElem?_eq, stackOf]
    cases table.entries[number]? with
    | none => rfl
    | some entry => rfl

/-- Both tables know the stack, or both give it the same new number. -/
theorem Delays.push (h : Delays k table late) (outer? : Option ℕ) (frame : Frame) :
    (late.push outer? (frame.delay k)).1 = (table.push outer? frame).1 ∧
      Delays k (table.push outer? frame).2 (late.push outer? (frame.delay k)).2 := by
  have hlink : late.numbers[Link.mk outer? (frame.delay k)]? =
      table.numbers[Link.mk outer? frame]? := h.numbers ⟨outer?, frame⟩
  unfold StackTable.push
  rw [hlink]
  cases table.numbers[Link.mk outer? frame]? with
  | some number => exact ⟨rfl, h⟩
  | none =>
    refine ⟨h.size_eq, ?_, fun link => ?_⟩
    · dsimp only
      rw [h.stackOf_eq, h.entries, Array.map_push]
      rfl
    · -- A new link is the moved one exactly if it is the other table's new link.
      have hsame : Link.mk outer? (frame.delay k) = link.delay k ↔ Link.mk outer? frame = link :=
        (Link.delay_injective k).eq_iff (a := Link.mk outer? frame)
      have hsize : late.entries.size = table.entries.size := h.size_eq
      dsimp only
      rw [Std.ExtTreeMap.getElem?_insert, Std.ExtTreeMap.getElem?_insert, h.numbers, hsize]
      simp only [Std.LawfulEqCmp.compare_eq_iff_eq, hsame]

theorem Delays.pushAll (h : Delays k table late) (outer? : Option ℕ) (frames : List Frame) :
    (late.pushAll outer? (frames.map (Frame.delay k))).1 = (table.pushAll outer? frames).1 ∧
      Delays k (table.pushAll outer? frames).2
        (late.pushAll outer? (frames.map (Frame.delay k))).2 := by
  induction frames generalizing table late outer? with
  | nil => exact ⟨rfl, h⟩
  | cons frame rest ih =>
    obtain ⟨hnumber, hpush⟩ := h.push outer? frame
    have hcons : ∀ (table : StackTable) (frame : Frame) (rest : List Frame),
        table.pushAll outer? (frame :: rest) =
          (table.push outer? frame).2.pushAll (some (table.push outer? frame).1) rest :=
      fun _ _ _ => rfl
    rw [List.map_cons, hcons, hcons, hnumber]
    exact ih hpush _

end StackTable

/-! ## Records -/

/-- The candidates of a walk that is `k` tokens later: only starts differ. -/
def Candidates.delay (k : ℕ) (candidates : Candidates) : Candidates where
  tokens := candidates.tokens
  rules := candidates.rules.map fun _ known => { known with start := known.start + k }
  starts := candidates.starts.map fun _ start => start + k

namespace Candidates

theorem hasToken_delay (candidates : Candidates) (terminal : TerminalId) (path : Path) :
    (candidates.delay k).hasToken terminal path = candidates.hasToken terminal path := rfl

theorem hasRule_delay (candidates : Candidates) (rule : RuleId) (path : Path) :
    (candidates.delay k).hasRule rule path = candidates.hasRule rule path := by
  rw [hasRule, delay, Std.ExtTreeMap.getElem?_map, hasRule, Option.any_map]

theorem addTokens_delay (candidates : Candidates) (terminals : List TerminalId) (path : Path) :
    (candidates.delay k).addTokens terminals path =
      ((candidates.addTokens terminals path).1,
        (candidates.addTokens terminals path).2.delay k) := by
  induction terminals generalizing candidates with
  | nil => rfl
  | cons terminal rest ih =>
    have hadd : (candidates.delay k).addToken terminal path =
        ((candidates.addToken terminal path).1, (candidates.addToken terminal path).2.delay k) := by
      unfold addToken
      rw [hasToken_delay]
      split <;> rfl
    rw [addTokens, hadd, addTokens]
    dsimp only
    rw [ih]

/-- The latest start stays the latest one. -/
theorem join_delay (known : Option RuleCandidate) (start : ℕ) (path : Path) :
    RuleCandidate.join (known.map fun known => { known with start := known.start + k })
        (start + k) path =
      { RuleCandidate.join known start path with
        start := (RuleCandidate.join known start path).start + k } := by
  cases known with
  | none => rfl
  | some known => simp [RuleCandidate.join, Nat.add_max_add_right]

theorem addRule_delay (candidates : Candidates) (rule : RuleId) (start : ℕ) (path : Path) :
    (candidates.delay k).addRule rule (start + k) path =
      ((candidates.addRule rule start path).1, (candidates.addRule rule start path).2.delay k) := by
  unfold addRule
  rw [hasRule_delay]
  simp only [delay, Prod.mk.injEq, mk.injEq, true_and, and_true]
  apply Std.ExtTreeMap.ext_getElem?
  intro other
  simp only [Std.ExtTreeMap.getElem?_alter, Std.ExtTreeMap.getElem?_map, join_delay]
  split <;> rfl

theorem addOffer_delay (candidates : Candidates) (path : Path) (offer : Offer) :
    (candidates.delay k).addOffer path (offer.delay k) =
      ((candidates.addOffer path offer).1, (candidates.addOffer path offer).2.delay k) := by
  cases offer with
  | terminals terminals => exact addTokens_delay candidates terminals path
  | rule rule start => exact addRule_delay candidates rule start path

theorem noteStart_delay (candidates : Candidates) (rule : RuleId) (start : ℕ) :
    (candidates.delay k).noteStart rule (start + k) =
      (candidates.noteStart rule start).delay k := by
  simp only [noteStart, delay, mk.injEq, true_and]
  apply Std.ExtTreeMap.ext_getElem?
  intro other
  simp only [Std.ExtTreeMap.getElem?_alter, Std.ExtTreeMap.getElem?_map]
  split
  · cases candidates.starts[rule]? <;> simp [Nat.add_max_add_right]
  · rfl

theorem noteStarts_delay (candidates : Candidates) (stack : CallStack) :
    (candidates.delay k).noteStarts (stack.delay k) = (candidates.noteStarts stack).delay k := by
  unfold noteStarts CallStack.delay
  induction stack generalizing candidates with
  | nil => rfl
  | cons frame outer ih =>
    rw [List.map_cons, List.foldl_cons, List.foldl_cons, ← ih, ← noteStart_delay]
    rfl

/-- What is new stays new, and what is recorded differs in starts alone. -/
theorem record_delay (candidates : Candidates) (finding : Finding) :
    (candidates.delay k).record (finding.delay k) = (candidates.record finding).delay k := by
  rw [record, record, Finding.delay, addOffer_delay]
  dsimp only
  rw [noteStarts_delay]
  split <;> rfl

end Candidates

/-! ## Walks -/

/-- The visit, `k` tokens later, of a stack of the same number. -/
def Visit.delay (k : ℕ) (visit : Visit) : Visit := { visit with index := visit.index + k }

theorem Visit.delay_injective (k : ℕ) : Function.Injective (Visit.delay k) := by
  rintro ⟨state, index, stack⟩ ⟨state', index', stack'⟩ h
  simpa [delay] using h

/-- The waiting configuration, `k` tokens later, with a stack of the same number. -/
def Pending.delay (k : ℕ) (pending : Pending) : Pending :=
  ⟨pending.config.delay k, pending.number⟩

namespace Progress

variable {query : Query} {caret : ℕ} {progress late : Progress}

/-- The other walk is at the same point, `k` tokens later. -/
structure Delays (k : ℕ) (progress late : Progress) : Prop where
  table : progress.table.Delays k late.table
  pending : late.pending = progress.pending.map (Pending.delay k)
  visited : ∀ visit : Visit, visit.delay k ∈ late.visited ↔ visit ∈ progress.visited
  explored : late.visited.size = progress.visited.size
  revisited : late.revisited = progress.revisited
  candidates : late.candidates = progress.candidates.delay k
  trace : late.trace = progress.trace.map (Event.delay k)

theorem delays_start (k : ℕ) (config : Config) :
    (start config).Delays k (start (config.delay k)) := by
  obtain ⟨hnumber, htable⟩ :=
    (StackTable.delays_empty k).pushAll none config.stack.reverse
  have hstack : (config.delay k).stack.reverse = config.stack.reverse.map (Frame.delay k) :=
    List.map_reverse.symm
  unfold start
  rw [hstack]
  dsimp only
  rw [hnumber]
  refine ⟨htable, ?_, by simp, rfl, rfl, ?_, Array.map_empty.symm⟩
  · cases (({} : StackTable).pushAll none config.stack.reverse).1 <;> rfl
  · simp [Candidates.delay]

/-- One more configuration waits in either walk. -/
theorem Delays.wait (h : progress.Delays k late) {table table' : StackTable}
    (htable : table.Delays k table') {pending pending' : Pending}
    (hpending : pending' = pending.delay k) :
    Delays k { progress with table, pending := pending :: progress.pending }
      { late with table := table', pending := pending' :: late.pending } where
  table := htable
  pending := by rw [h.pending, hpending, List.map_cons]
  visited := h.visited
  explored := h.explored
  revisited := h.revisited
  candidates := h.candidates
  trace := h.trace

theorem Delays.move (h : progress.Delays k late) (origin : Pending) (move : Move) :
    (progress.move origin move).Delays k (late.move (origin.delay k) (move.delay k)) := by
  -- What waits next has been moved on, with the same number.
  have hwaits : ∀ number, Pending.mk ((origin.delay k).config.after (move.delay k)) number =
      (Pending.mk (origin.config.after move) number).delay k := by
    intro number
    exact congrArg (Pending.mk · number) (Config.after_delay origin.config move)
  cases move with
  | goto state | advance state => exact h.wait h.table (hwaits origin.number)
  | enter state frame =>
    obtain ⟨hnumber, htable⟩ := h.table.push (some origin.number) frame
    exact h.wait htable (hnumber ▸ hwaits _)
  | leave state =>
    have houter : late.table.outer? (origin.delay k).number = progress.table.outer? origin.number :=
      h.table.outer?_eq origin.number
    simp only [Progress.move, Move.delay, houter]
    cases progress.table.outer? origin.number with
    | none => exact h
    | some number => exact h.wait h.table (hwaits number)

theorem Delays.apply (h : progress.Delays k late) (origin : Pending) (effect : Effect) :
    (progress.apply origin effect).Delays k (late.apply (origin.delay k) (effect.delay k)) := by
  cases effect with
  | move way => exact h.move origin way
  | report finding =>
    refine ⟨h.table, h.pending, h.visited, h.explored, h.revisited, ?_, h.trace⟩
    simp only [Progress.apply, Effect.delay, h.candidates, Candidates.record_delay]
  | event news =>
    refine ⟨h.table, h.pending, h.visited, h.explored, h.revisited, h.candidates, ?_⟩
    simp only [Progress.apply, Effect.delay, h.trace, Array.map_push]

theorem Delays.foldl_apply (h : progress.Delays k late) (origin : Pending)
    (effects : List Effect) :
    (effects.foldl (Progress.apply origin) progress).Delays k
      ((effects.map (Effect.delay k)).foldl (Progress.apply (origin.delay k)) late) := by
  induction effects generalizing progress late with
  | nil => exact h
  | cons effect effects ih => exact ih (h.apply origin effect)

theorem Delays.mark (h : progress.Delays k late) (visit : Visit) (rest : List Pending) :
    Delays k { progress with pending := rest, visited := progress.visited.insert visit }
      { late with
        pending := rest.map (Pending.delay k)
        visited := late.visited.insert (visit.delay k) } where
  table := h.table
  pending := rfl
  visited other := by
    simp only [Std.ExtTreeSet.mem_insert, Std.LawfulEqCmp.compare_eq_iff_eq, h.visited,
      (Visit.delay_injective k).eq_iff]
  explored := by
    simp only [Std.ExtTreeSet.size_insert, Std.ExtTreeSet.contains_iff_mem, h.visited, h.explored]
  revisited := h.revisited
  candidates := h.candidates
  trace := h.trace

/-- One round leaves both walks at the same point. -/
theorem Delays.round (h : progress.Delays k late) :
    (progress.round (query.skipping k) caret).Delays k (late.round query (caret + k)) := by
  unfold Progress.round
  rw [h.pending]
  cases progress.pending with
  | nil => exact h
  | cons origin rest =>
    rw [List.map_cons]
    dsimp only
    -- Both walks find `origin` marked, or neither does.
    have hvisited : (origin.delay k).visit ∈ late.visited ↔ origin.visit ∈ progress.visited :=
      h.visited origin.visit
    by_cases hold : origin.visit ∈ progress.visited
    · rw [if_pos hold, if_pos (hvisited.mpr hold)]
      refine ⟨h.table, rfl, h.visited, h.explored, ?_, h.candidates, h.trace⟩
      simp only [drop, h.revisited]
    · rw [if_neg hold, if_neg (mt hvisited.mp hold)]
      have hstep : query.step (caret + k) (origin.delay k).config =
          ((query.skipping k).step caret origin.config).map (Effect.delay k) :=
        Query.step_delay origin.config
      rw [explore, explore, hstep]
      exact (h.mark origin.visit rest).foldl_apply origin _

end Progress

namespace Query

variable {query : Query} {caret : ℕ} {first : Config}

/-- A walk from a configuration that has been moved on keeps together with the walk over the
tokens after the first `k`. -/
theorem delays_rounds (n : ℕ) :
    ((query.skipping k).rounds caret first n).Delays k
      (query.rounds (caret + k) (first.delay k) n) := by
  induction n with
  | zero => exact Progress.delays_start k first
  | succ n ih =>
    rw [rounds_succ, rounds_succ]
    exact ih.round

end Query

/-! ## Answers -/

/-- What a walk yields that is `k` tokens later: the counts are the same, and the candidates are
listed with their later starts. -/
def Outcome.delay (k : ℕ) (vocabulary : Vocabulary) (outcome : Outcome) : Outcome :=
  { outcome with
    candidates := outcome.candidates.delay k
    trace := outcome.trace.map (Event.delay k)
    listing := (outcome.candidates.delay k).text vocabulary }

theorem Progress.Delays.outcome_eq {query : Query} {progress late : Progress}
    (h : progress.Delays k late) : query.outcome late =
      ((query.skipping k).outcome progress).delay k query.network.vocabulary := by
  simp only [Query.outcome, Outcome.delay, h.candidates, h.trace, h.explored, h.revisited,
    h.table.size_eq]

/-- Events of one kind are counted alike, whatever positions they name. -/
theorem Outcome.countP_delay {kind : Event → Bool}
    (hkind : ∀ event, kind (event.delay k) = kind event) (vocabulary : Vocabulary)
    (outcome : Outcome) :
    (outcome.delay k vocabulary).trace.countP kind = outcome.trace.countP kind := by
  have hsame : kind ∘ Event.delay k = kind := funext hkind
  rw [delay, Array.countP_map, hsame]

namespace Query

variable {query : Query} {start caret : ℕ}

theorem walk_delay (first : Config) (hindex : first.index ≤ (query.skipping k).tokens.size)
    (hindex' : (first.delay k).index ≤ query.tokens.size) :
    query.walk (caret + k) (first.delay k) hindex' =
      ((query.skipping k).walk caret first hindex).delay k query.network.vocabulary := by
  obtain ⟨n, hdone, hwalk⟩ := exists_walk_eq caret hindex
  have hdelays : ((query.skipping k).rounds caret first n).Delays k
      (query.rounds (caret + k) (first.delay k) n) := delays_rounds n
  have hdone' : (query.rounds (caret + k) (first.delay k) n).pending = [] := by
    rw [hdelays.pending, hdone, List.map_nil]
  rw [hwalk, walk_eq_outcome hindex' hdone', outcomeAfter, hdelays.outcome_eq]
  rfl

theorem collectFromRule_eq_map_delay (rule : RuleId) (hstart : start ≤ caret)
    (hcaret : caret + k ≤ query.tokens.size) :
    query.collectFromRule rule (start + k) (caret + k) =
      ((query.skipping k).collectFromRule rule start caret).map
        (Outcome.delay k query.network.vocabulary) := by
  have hcaret' : caret ≤ (query.skipping k).tokens.size := by
    rw [size_skipping]
    omega
  have hcheck : (query.skipping k).checkPreferred = query.checkPreferred :=
    checkPreferred_congr (sharesPlaces_withTokens query _) rfl
  have hnetwork : (query.skipping k).network = query.network := rfl
  unfold collectFromRule
  rw [dif_pos hcaret, dif_pos hcaret', dif_pos (Nat.add_le_add_right hstart k), dif_pos hstart,
    hcheck, hnetwork]
  cases query.checkPreferred with
  | error error => rfl
  | ok _ =>
    cases query.network.entry? rule with
    | none => rfl
    | some entry =>
      exact congrArg Except.ok (walk_delay ⟨entry, start, [⟨rule, start, none⟩]⟩
        (Nat.le_trans hstart hcaret') (Nat.le_trans (Nat.add_le_add_right hstart k) hcaret))

/-- A replay from the token `k` is refused as the replay of the tokens after the first `k` is, or
it offers the same terminals along the same paths and the same rules from `k` tokens later on,
notes the same rules as active from `k` tokens later on, and counts the same. -/
theorem collectFromRule_delay (query : Query) (rule : RuleId) (k caret : ℕ) (hk : k ≤ caret)
    (hcaret : caret ≤ query.tokens.size) :
    (∃ error, query.collectFromRule rule k caret = .error error ∧
      (query.skipping k).collectFromRule rule 0 (caret - k) = .error error) ∨
    ∃ late outcome, query.collectFromRule rule k caret = .ok late ∧
      (query.skipping k).collectFromRule rule 0 (caret - k) = .ok outcome ∧
      late.candidates.tokens = outcome.candidates.tokens ∧
      (∀ rule : RuleId, late.candidates.rules[rule]? =
        outcome.candidates.rules[rule]?.map fun known => { known with start := known.start + k }) ∧
      (∀ rule, late.candidates.start? rule = (outcome.candidates.start? rule).map (· + k)) ∧
      late.trace = outcome.trace.map (Event.delay k) ∧
      late.explored = outcome.explored ∧ late.revisited = outcome.revisited ∧
      late.depthPruned = outcome.depthPruned ∧ late.recursionCut = outcome.recursionCut ∧
      late.predicatesRejected = outcome.predicatesRejected ∧
      late.stackCount = outcome.stackCount := by
  obtain ⟨caret, rfl⟩ := Nat.exists_eq_add_of_le' hk
  have hmap := collectFromRule_eq_map_delay rule (Nat.zero_le caret) hcaret
  rw [Nat.zero_add] at hmap
  rw [Nat.add_sub_cancel, hmap]
  cases (query.skipping k).collectFromRule rule 0 caret with
  | error error => exact Or.inl ⟨error, rfl, rfl⟩
  | ok outcome =>
    refine Or.inr ⟨_, outcome, rfl, rfl, rfl, fun _ => Std.ExtTreeMap.getElem?_map,
      fun _ => Std.ExtTreeMap.getElem?_map, rfl, rfl, rfl, ?_, ?_, ?_, rfl⟩
    · exact Outcome.countP_delay (fun event => by cases event <;> rfl) _ outcome
    · exact Outcome.countP_delay (fun event => by cases event <;> rfl) _ outcome
    · exact Outcome.countP_delay (fun event => by cases event <;> rfl) _ outcome

/-- After a token of no use and an item, a pair is offered inside a phrase: the one that the item
may have begun, or a later one. -/
theorem collectFromRule_delay_phrase :
    let query := { phraseQuery ⟨.token ⟨0⟩, ⟨4⟩⟩ ⟨.call ⟨1⟩, ⟨1⟩⟩ with
      tokens := #[⟨7⟩, ⟨0⟩], options := ({} : Options).preferring [⟨1⟩] }
    ∃ late outcome, query.collectFromRule ⟨0⟩ 1 2 = .ok late ∧
      (query.skipping 1).collectFromRule ⟨0⟩ 0 1 = .ok outcome ∧
      late.candidates.rules[(⟨1⟩ : RuleId)]?.map RuleCandidate.start = some 2 ∧
      outcome.candidates.rules[(⟨1⟩ : RuleId)]?.map RuleCandidate.start = some 1 ∧
      late.candidates.start? ⟨0⟩ = some 1 ∧ outcome.candidates.start? ⟨0⟩ = some 0 ∧
      late.explored = outcome.explored ∧ 0 < late.explored := by
  intro query
  have hlate : query.collectFromRule ⟨0⟩ 1 2 =
      .ok (query.outcomeAfter 2 ⟨⟨0⟩, 1, [⟨⟨0⟩, 1, none⟩]⟩ 9) :=
    collectFromRule_eq_outcome (by decide) (by decide) (by decide +kernel) rfl (by decide +kernel)
  have hearly : (query.skipping 1).collectFromRule ⟨0⟩ 0 1 =
      .ok ((query.skipping 1).outcomeAfter 1 ⟨⟨0⟩, 0, [⟨⟨0⟩, 0, none⟩]⟩ 9) :=
    collectFromRule_eq_outcome (by decide) (by decide) (by decide +kernel) rfl (by decide +kernel)
  rcases collectFromRule_delay query ⟨0⟩ 1 2 (by decide) (by decide) with
    ⟨error, herror, -⟩ | ⟨late, outcome, hok, hok', -, -, -, -, hexplored, -⟩
  · rw [hlate] at herror
    cases herror
  · obtain rfl := Except.ok.inj (hok.symm.trans hlate)
    obtain rfl := Except.ok.inj (hok'.symm.trans hearly)
    exact ⟨_, _, hlate, hearly, by decide +kernel, by decide +kernel, by decide +kernel,
      by decide +kernel, hexplored, by decide +kernel⟩

end Query

end CodeCompletion
