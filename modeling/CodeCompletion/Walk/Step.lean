import CodeCompletion.Candidates.Basic
import CodeCompletion.Network.Basic
import CodeCompletion.Options

/-!
# One step of a walk

A walk explores where the parser may be. A configuration is a state of the network, the
next token, and the stack of open calls. What one configuration leads to depends on
nothing else: `Query.step` lists its effects, which are moves to further configurations,
findings at the caret, and events worth a line in a log.

Before the caret an edge that asks for a token is passed only with the token of the
stream. At the caret and after it, such an edge is a finding, unless the token that
follows is one that may be stepped over.

Left recursion is bounded by the input: every further call of a rule from the same token
on has to consume a token before the caret, so a rule is called only while no more calls
of it are open there than tokens remain. A nullable rule that is not called for this
reason is passed as if it had matched nothing.

## Main definitions

* `Query`: the network, the tokens, the options and the host's predicates
* `Config`, `Move`, `Config.after`: places of a walk and ways between them
* `Event`, `Effect`
* `Query.step`: the effects of one configuration
-/

set_option autoImplicit false

namespace CodeCompletion

/-- What a completion request is asked of. -/
structure Query where
  network : Network
  tokens : Array TerminalId
  options : Options := {}
  /-- The predicates that the host consents to. -/
  consents : PredicateId → Bool := fun _ => true

/-- A place of a walk: the state, the index of the next token, and the open calls. -/
structure Config where
  state : StateId
  index : Nat
  stack : CallStack
deriving DecidableEq

/-- A way from one configuration to the next. -/
inductive Move where
  /-- To a state, without a token. -/
  | goto (state : StateId)
  /-- To a state, past the next token. -/
  | advance (state : StateId)
  /-- To the entry of a called rule. -/
  | enter (state : StateId) (frame : Frame)
  /-- Back to the calling rule. -/
  | leave (state : StateId)
deriving DecidableEq

/-- The configuration that a move leads to. -/
def Config.after (config : Config) : Move → Config
  | .goto state => { config with state }
  | .advance state => { config with state, index := config.index + 1 }
  | .enter state frame => { config with state, stack := frame :: config.stack }
  | .leave state => { config with state, stack := config.stack.tail }

/-- What a walk reports of its course. Once it is over, the candidates are logged as well. -/
inductive Event where
  /-- The outermost rule has been matched, so that nothing follows. -/
  | outermostFinished (rule : RuleId)
  /-- The host does not consent to a predicate. -/
  | predicateRejected (predicate : PredicateId)
  /-- A call would open too many calls. -/
  | depthLimitReached (rule : RuleId) (depth : Nat)
  /-- A call cannot be fed by the tokens before the caret. -/
  | recursionCut (rule : RuleId) (index : Nat)
  /-- A token after the caret is stepped over. -/
  | steppedOver (token : TerminalId) (index : Nat)
deriving DecidableEq

/-- The text of an event, without its particulars. -/
def Event.message : Event → String
  | outermostFinished _ => "outermost rule finished"
  | predicateRejected _ => "predicate rejected"
  | depthLimitReached _ _ => "depth limit reached"
  | recursionCut _ _ => "left recursion cut"
  | steppedOver _ _ => "stepping over preloaded token"

/-- What a configuration brings about. -/
inductive Effect where
  | move (move : Move)
  | report (finding : Finding)
  | event (event : Event)
deriving DecidableEq

namespace Query

/-- The finding that stands for everything beneath a preferred rule: if one is open, the
outermost one is offered. -/
def enclosing? (query : Query) (stack : CallStack) : Option Finding :=
  match stack.outermost? fun rule => rule ∈ query.options.preferred with
  | some (frame :: outer) =>
    some ⟨.rule frame.rule frame.start, CallStack.path outer, frame :: outer⟩
  | _ => none

/-- An offer at the caret, or the preferred rule that it lies in. -/
def finding (query : Query) (stack : CallStack) (offer : Offer) : Finding :=
  (query.enclosing? stack).getD ⟨offer, stack.path, stack⟩

/-- The effects of an edge that calls a rule. -/
def call (query : Query) (caret : Nat) (config : Config) (rule : RuleId) (follow : StateId) :
    List Effect :=
  match query.network.entry? rule with
  | none => []
  | some entry =>
    let depth := config.stack.length + 1
    if caret ≤ config.index ∧ rule ∈ query.options.preferred then
      [.report (query.finding config.stack (.rule rule config.index))]
    else if query.options.depthLimit < depth then
      [.event (.depthLimitReached rule depth)]
    else if caret - config.index < config.stack.openCount rule config.index then
      .event (.recursionCut rule config.index) ::
        if query.network.isNullable rule then [.move (.goto follow)] else []
    else
      [.move (.enter entry ⟨rule, config.index, some follow⟩)]

/-- The terminals that an edge offers and the options allow. -/
def offer (query : Query) (label : Label) : Offer :=
  .terminals <| (label.offered query.network.vocabulary).filter fun terminal =>
    terminal ∉ query.options.ignored

/-- The effects of an edge that asks for a token. -/
def consume (query : Query) (caret : Nat) (config : Config) (label : Label) (target : StateId) :
    List Effect :=
  match query.tokens[config.index]?.filter fun token => label.accepts token with
  | some token =>
    if config.index < caret then
      [.move (.advance target)]
    else if token ∈ query.options.preloaded then
      [.event (.steppedOver token config.index), .move (.advance target)]
    else
      [.report (query.finding config.stack (query.offer label))]
  | none =>
    if config.index < caret then []
    else [.report (query.finding config.stack (query.offer label))]

/-- The effects of one edge. -/
def follow (query : Query) (caret : Nat) (config : Config) (edge : Edge) : List Effect :=
  match edge.label with
  | .epsilon => [.move (.goto edge.target)]
  | .guard predicate =>
    if query.consents predicate then [.move (.goto edge.target)]
    else [.event (.predicateRejected predicate)]
  | .call rule => query.call caret config rule edge.target
  | label => query.consume caret config label edge.target

/-- The effects of a stop state: the innermost call returns, unless it is the outermost. -/
def finish : CallStack → List Effect
  | ⟨_, _, some state⟩ :: _ :: _ => [.move (.leave state)]
  | frame :: _ => [.event (.outermostFinished frame.rule)]
  | [] => []

/-- The effects of a configuration. Edges are taken from the last to the first, so that
the move listed last belongs to the first edge. -/
def step (query : Query) (caret : Nat) (config : Config) : List Effect :=
  match query.network.state? config.state with
  | none => []
  | some state =>
    if state.isStop then finish config.stack
    else state.edges.reverse.flatMap (query.follow caret config)

end Query

end CodeCompletion
