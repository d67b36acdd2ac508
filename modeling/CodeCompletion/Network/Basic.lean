import CodeCompletion.Network.Edge

/-!
# Grammar networks

A grammar as a network of states: one part per rule, with an entry and at least one stop,
linked by edges that call other rules.

## Main definitions

* `StateKind`, `State`, `Rule`
* `Blueprint`: the tables of a network as they are stored, without any promise
* `Network`: the tables together with what is derived from them, the nullable rules
* `Network.state?`, `Network.rule?`, `Network.entry?`, `Network.isNullable`
-/

set_option autoImplicit false

namespace CodeCompletion

/-- The role of a state in its rule. -/
inductive StateKind where
  /-- The state in which a pass through the rule begins. -/
  | entry
  /-- A state inside the rule. -/
  | interior
  /-- A state in which the rule has been matched. -/
  | stop
deriving DecidableEq

/-- The rule that owns a state and the role that the state has there. -/
structure Place where
  rule : RuleId
  kind : StateKind
deriving DecidableEq

/-- A state with its outgoing edges. -/
structure State extends Place where
  edges : List Edge := []
deriving DecidableEq

/-- Whether the state ends its rule. -/
def State.isStop (state : State) : Bool := state.kind == .stop

/-- The boundary of a rule: where a pass begins and where it may end. -/
structure Rule where
  entry : StateId
  stops : List StateId
deriving DecidableEq

/-- The tables of a network, as they are written down. -/
structure Blueprint where
  states : Array State := #[]
  rules : Array Rule := #[]
  vocabulary : Vocabulary := {}
deriving DecidableEq

/-- A network ready for completion. `nullable` tells for each rule whether it can be
matched without consuming a token. -/
structure Network extends Blueprint where
  nullable : Array Bool := #[]
deriving DecidableEq

namespace Network

/-- The state with a given number. -/
def state? (network : Network) (state : StateId) : Option State :=
  network.states[state.index]?

/-- The rule with a given number. -/
def rule? (network : Network) (rule : RuleId) : Option Rule :=
  network.rules[rule.index]?

/-- Whether the network has the state. -/
def hasState (network : Network) (state : StateId) : Bool :=
  state.index < network.states.size

/-- Whether the network has the rule. -/
def hasRule (network : Network) (rule : RuleId) : Bool :=
  rule.index < network.rules.size

/-- The entry state of a rule. -/
def entry? (network : Network) (rule : RuleId) : Option StateId :=
  (network.rule? rule).map Rule.entry

/-- Whether a rule can be matched without consuming a token. No unknown rule can. -/
def isNullable (network : Network) (rule : RuleId) : Bool :=
  network.nullable[rule.index]?.getD false

/-- The nullable rules in ascending order. -/
def nullableRules (network : Network) : List RuleId :=
  ((List.range network.rules.size).map RuleId.ofIndex).filter network.isNullable

/-- The states with their numbers, in ascending order. -/
def numberedStates (network : Network) : Array (StateId × State) :=
  network.states.mapIdx fun position state => (StateId.ofIndex position, state)

end Network

end CodeCompletion
