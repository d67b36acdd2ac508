import CodeCompletion.Ident

/-!
# Defects of a draft

What can be wrong with the tables of a network, and the sentence that reports it.
-/

set_option autoImplicit false

namespace CodeCompletion

/-- A structural defect found while a network is being built. -/
inductive Defect where
  /-- An edge leads to a state that does not exist. -/
  | unknownTarget (source target : StateId)
  /-- An edge leaves a state that does not exist. -/
  | unknownSource (source : StateId)
  /-- An edge calls a rule that does not exist. -/
  | unknownRule (source : StateId) (rule : RuleId)
  /-- An edge leaves a stop state. -/
  | edgeFromStop (source : StateId)
  /-- An edge joins states of two rules. -/
  | edgeAcrossRules (source : StateId) (sourceRule : RuleId) (target : StateId)
      (targetRule : RuleId)
  /-- An edge carries a set without terminals. -/
  | emptySet (source : StateId)
  /-- A state belongs to a rule that does not exist. -/
  | orphanState (state : StateId) (rule : RuleId)
  /-- A rule lacks an entry or a stop of its own. -/
  | malformedRule (rule : RuleId)
  /-- The vocabulary does not have one name per rule. -/
  | ruleNamesMismatch (rules names : Nat)
deriving DecidableEq

/-- The sentence that reports a defect. -/
def Defect.message : Defect → String
  | unknownTarget source target =>
    s!"transition from {source} targets unknown state {target}"
  | unknownSource source => s!"transition added to unknown state {source}"
  | unknownRule source rule => s!"transition from {source} invokes unknown rule {rule}"
  | edgeFromStop source =>
    s!"state {source} is a rule stop state and cannot have outgoing transitions"
  | edgeAcrossRules source sourceRule target targetRule =>
    s!"transition from {source} (rule {sourceRule}) leaves its rule for {target} " ++
      s!"(rule {targetRule})"
  | emptySet source => s!"terminal set on transition from {source} is empty"
  | orphanState state rule => s!"state {state} belongs to unknown rule {rule}"
  | malformedRule rule =>
    s!"rule {rule} needs an entry state and at least one stop state of its own"
  | ruleNamesMismatch rules names => s!"network has {rules} rules but {names} rule names"

end CodeCompletion
