import CodeCompletion.Network.Basic

/-!
# Drafts of a network

A draft collects terminals, rules, states and edges in any order. Nothing is checked
while a draft grows; `Draft.build` judges the whole.

## Main definitions

* `Draft`: the tables so far, with the edges kept apart in the order of their addition
* `Draft.addTerminal`, `Draft.addRule`, `Draft.addState`, `Draft.addStop`, `Draft.addEdge`
* `Element`, `Draft.addAlternative`: a sequence of elements chained from the entry of a
  rule to its stop
* `Blueprint.toDraft`: stored tables, opened for checking
-/

set_option autoImplicit false

namespace CodeCompletion

/-- A network under construction. -/
structure Draft where
  places : Array Place := #[]
  rules : Array Rule := #[]
  vocabulary : Vocabulary := {}
  edges : Array (StateId × Edge) := #[]
deriving DecidableEq

/-- One step of an alternative. -/
inductive Element where
  | token (terminal : TerminalId)
  | oneOf (terminals : List TerminalId)
  | noneOf (terminals : List TerminalId)
  | any
  | rule (called : RuleId)
  | guard (predicate : PredicateId)
deriving DecidableEq

/-- The label of the edge that an element becomes. -/
def Element.label : Element → Label
  | token terminal => .token terminal
  | oneOf terminals => .oneOf (.ofList terminals)
  | noneOf terminals => .noneOf (.ofList terminals)
  | any => .any
  | rule called => .call called
  | guard predicate => .guard predicate

/-- The states made for one alternative: the one before the first element, and the one
after each element. -/
structure Alternative where
  start : StateId
  steps : List StateId
deriving DecidableEq

namespace Alternative

/-- The state after the element at a position. -/
def after? (alternative : Alternative) (position : Nat) : Option StateId :=
  alternative.steps[position]?

/-- The state after the last element. -/
def finish (alternative : Alternative) : StateId :=
  alternative.steps.getLastD alternative.start

end Alternative

namespace Draft

/-- Register a terminal. -/
def addTerminal (draft : Draft) (name : String) : TerminalId × Draft :=
  let (terminal, vocabulary) := draft.vocabulary.addTerminal name
  (terminal, { draft with vocabulary })

/-- Add a state, whether or not its rule exists. -/
def addPlace (draft : Draft) (place : Place) : StateId × Draft :=
  (.ofIndex draft.places.size, { draft with places := draft.places.push place })

/-- Register a rule, with an entry state and, after it, a stop state. -/
def addRule (draft : Draft) (name : String) : RuleId × Draft :=
  let (rule, vocabulary) := draft.vocabulary.addRule name
  let (entry, draft) := { draft with vocabulary }.addPlace ⟨rule, .entry⟩
  let (stop, draft) := draft.addPlace ⟨rule, .stop⟩
  (rule, { draft with rules := draft.rules.push ⟨entry, [stop]⟩ })

/-- The entry state of a rule. -/
def entry? (draft : Draft) (rule : RuleId) : Option StateId :=
  draft.rules[rule.index]?.map Rule.entry

/-- The first stop state of a rule. -/
def stop? (draft : Draft) (rule : RuleId) : Option StateId :=
  draft.rules[rule.index]?.bind fun known => known.stops.head?

/-- Add a state inside a rule. -/
def addState (draft : Draft) (rule : RuleId) : StateId × Draft :=
  draft.addPlace ⟨rule, .interior⟩

/-- Add one more stop state to a rule. -/
def addStop (draft : Draft) (rule : RuleId) : StateId × Draft :=
  let (stop, draft) := draft.addPlace ⟨rule, .stop⟩
  let rules := draft.rules.modify rule.index fun known =>
    { known with stops := known.stops ++ [stop] }
  (stop, { draft with rules })

/-- Add an edge. -/
def addEdge (draft : Draft) (source : StateId) (edge : Edge) : Draft :=
  { draft with edges := draft.edges.push (source, edge) }

/-- Add an epsilon edge between two states, if both are known. -/
def link (draft : Draft) : Option StateId → Option StateId → Draft
  | some source, some target => draft.addEdge source ⟨.epsilon, target⟩
  | _, _ => draft

/-- Chain elements from the state `current`, one new state of `rule` after each. Returns
the new states. -/
def chain (draft : Draft) (rule : RuleId) (current : StateId) :
    List Element → List StateId × Draft
  | [] => ([], draft)
  | element :: rest =>
    let (next, draft) := draft.addState rule
    let (steps, draft) :=
      (draft.addEdge current ⟨element.label, next⟩).chain rule next rest
    (next :: steps, draft)

/-- Chain elements from the entry of `rule` to its stop. Without elements the rule may
match nothing. The chain of an unknown rule hangs loose. -/
def addAlternative (draft : Draft) (rule : RuleId) (elements : List Element) :
    Alternative × Draft :=
  let (start, draft) := draft.addState rule
  let (steps, draft) := (draft.link (draft.entry? rule) (some start)).chain rule start elements
  let alternative : Alternative := ⟨start, steps⟩
  (alternative, draft.link (some alternative.finish) (draft.stop? rule))

end Draft

/-- Open stored tables for checking: every edge is taken off its state and listed, state
by state. -/
def Blueprint.toDraft (blueprint : Blueprint) : Draft where
  places := blueprint.states.map State.toPlace
  rules := blueprint.rules
  vocabulary := blueprint.vocabulary
  edges := (blueprint.states.mapIdx fun position state =>
    (state.edges.map fun edge => (StateId.ofIndex position, edge)).toArray).flatten

end CodeCompletion
