import CodeCompletion.Candidates.Basic
import CodeCompletion.Vocabulary

/-!
# Listing of candidates

One line per candidate: a terminal as `NAME: [outer > inner] | [outer]`, and after the
terminals the rules, as `<name> @start: [outer]`. What has no name is shown by its number.
-/

set_option autoImplicit false

namespace CodeCompletion

namespace Vocabulary

/-- A path as `[outer > inner]`. -/
def pathText (vocabulary : Vocabulary) (path : Path) : String :=
  "[" ++ " > ".intercalate (path.map vocabulary.ruleText) ++ "]"

/-- Paths in ascending order, divided by bars. -/
def pathsText (vocabulary : Vocabulary) (paths : PathSet) : String :=
  " | ".intercalate (paths.toList.map vocabulary.pathText)

end Vocabulary

namespace Candidates

/-- The line of a terminal. -/
def tokenLine (vocabulary : Vocabulary) (terminal : TerminalId) (paths : PathSet) :
    String :=
  s!"{vocabulary.terminalText terminal}: {vocabulary.pathsText paths}\n"

/-- The line of a rule. -/
def ruleLine (vocabulary : Vocabulary) (rule : RuleId) (candidate : RuleCandidate) : String :=
  s!"<{vocabulary.ruleText rule}> @{candidate.start}: {vocabulary.pathsText candidate.paths}\n"

/-- All candidates, terminals before rules, each kind in ascending order. -/
def text (candidates : Candidates) (vocabulary : Vocabulary) : String :=
  String.join <|
    candidates.tokens.toList.map (fun (terminal, paths) =>
      tokenLine vocabulary terminal paths) ++
    candidates.rules.toList.map fun (rule, candidate) => ruleLine vocabulary rule candidate

end Candidates

end CodeCompletion
