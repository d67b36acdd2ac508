import CodeCompletion.TerminalSet
import CodeCompletion.Vocabulary

/-!
# Edges of the network

An edge leads from one state of a rule to another state of the same rule. Its label says
what has to happen on the way: nothing, the consumption of one token, a complete pass
through another rule, or the host's consent.

## Main definitions

* `Label`, `Edge`
* `Label.consumes`: whether the label asks for one token
* `Label.accepts`: whether a token satisfies the label
* `Label.offered`: the terminals that may come next at an edge with this label
-/

set_option autoImplicit false

namespace CodeCompletion

/-- What has to happen for an edge to be passed. -/
inductive Label where
  /-- Nothing: the edge is passed without input. -/
  | epsilon
  /-- One token of a given type. -/
  | token (terminal : TerminalId)
  /-- One token whose type is in the set. -/
  | oneOf (set : TerminalSet)
  /-- One token whose type is outside the set. -/
  | noneOf (set : TerminalSet)
  /-- One token of any type. -/
  | any
  /-- A pass through `rule` from its entry to one of its stops. -/
  | call (rule : RuleId)
  /-- The host's consent to `predicate`; no input. -/
  | guard (predicate : PredicateId)
deriving DecidableEq

namespace Label

/-- Whether passing the edge takes one token. -/
def consumes : Label → Bool
  | token _ | oneOf _ | noneOf _ | any => true
  | epsilon | call _ | guard _ => false

/-- Whether a token of type `terminal` lets the edge be passed. The wildcard is no real
token type, so it is never outside a set. -/
def accepts (terminal : TerminalId) : Label → Bool
  | token expected => expected == terminal
  | oneOf set => set.contains terminal
  | noneOf set => !terminal.isWildcard && !set.contains terminal
  | any => true
  | epsilon | call _ | guard _ => false

/-- The terminals that may come next at an edge with this label. A complement is listed
over the vocabulary; "any" is offered as the wildcard. -/
def offered (vocabulary : Vocabulary) : Label → List TerminalId
  | token terminal => [terminal]
  | oneOf set => set.toList
  | noneOf set => vocabulary.terminalIds.filter fun terminal => !set.contains terminal
  | any => [.wildcard]
  | epsilon | call _ | guard _ => []

end Label

/-- An edge: what has to happen, and the state reached then. For a call this is the state
in which the calling rule resumes. -/
structure Edge where
  label : Label
  target : StateId
deriving DecidableEq

end CodeCompletion
