import CodeCompletion.Network.Basic

/-!
# Nullable rules

A rule is nullable if it can be matched without consuming a token. This is decided by
marking states: a state is marked once its rule can be finished from it in silence. Stop
states are marked; a state with a silent edge to a marked state is marked too, where an
edge is silent if it is an epsilon edge, a guard, or a call of a rule whose entry is
marked. Sweeps over all states are repeated until a sweep adds no mark.

## Main definitions

* `Blueprint.finishesSilently`: one marking rule applied to one state
* `Blueprint.silentStates`: the marks when no sweep adds any
* `Blueprint.nullable`: the mark of each rule's entry
-/

set_option autoImplicit false

namespace CodeCompletion

/-- Whether a state is marked. -/
def isMarked (marks : Array Bool) (state : StateId) : Bool :=
  marks[state.index]?.getD false

namespace Blueprint

/-- Whether an edge can be passed without a token, given the states known to finish their
rules silently. -/
def isSilent (blueprint : Blueprint) (marks : Array Bool) : Label → Bool
  | .epsilon | .guard _ => true
  | .call rule => blueprint.rules[rule.index]?.any fun called => isMarked marks called.entry
  | .token _ | .oneOf _ | .noneOf _ | .any => false

/-- Whether the marks show that the rule of a state can be finished from it silently. -/
def finishesSilently (blueprint : Blueprint) (marks : Array Bool) (state : State) : Bool :=
  state.isStop ||
    state.edges.any fun edge => isMarked marks edge.target && blueprint.isSilent marks edge.label

/-- Mark the state at `position` if the marks so far allow it. -/
def markAt (blueprint : Blueprint) (position : Nat) (marks : Array Bool) : Array Bool :=
  if blueprint.states[position]?.any (blueprint.finishesSilently marks) then
    marks.setIfInBounds position true
  else
    marks

/-- Try to mark every state once, the last state first. -/
def sweep (blueprint : Blueprint) (marks : Array Bool) : Array Bool :=
  (List.range blueprint.states.size).foldr blueprint.markAt marks

/-- Sweep until the number of unmarked states no longer falls. -/
def saturate (blueprint : Blueprint) (marks : Array Bool) : Array Bool :=
  let swept := blueprint.sweep marks
  if swept.count false < marks.count false then blueprint.saturate swept else swept
termination_by marks.count false

/-- For each state, whether its rule can be finished from it without a token. -/
def silentStates (blueprint : Blueprint) : Array Bool :=
  blueprint.saturate (Array.replicate blueprint.states.size false)

/-- For each rule, whether it can be matched without a token. -/
def nullable (blueprint : Blueprint) : Array Bool :=
  let marks := blueprint.silentStates
  blueprint.rules.map fun rule => isMarked marks rule.entry

end Blueprint

end CodeCompletion
