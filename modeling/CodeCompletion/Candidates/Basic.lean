import CodeCompletion.CallStack.Basic
import Std.Data.ExtTreeMap
import Std.Data.ExtTreeSet

/-!
# Candidates

What a completion request answers: terminals that may come next and rules that are
offered as such, each with the paths of rules that lead to it, and the rules that are
open at the caret with the token at which they start.

Recording is a join: a set of paths grows, a start token only rises. The order in which
findings are recorded therefore shows in no set of paths.

## Main definitions

* `Candidates`, `RuleCandidate`
* `Candidates.addToken`, `Candidates.addRule`, `Candidates.noteStart`: single facts; the
  first two tell whether the fact is new
* `Finding`, `Candidates.record`: what is found at one edge, recorded as a whole
-/

set_option autoImplicit false

namespace CodeCompletion

/-- Paths in lexicographic order, a path before its continuations. -/
abbrev PathSet := Std.ExtTreeSet Path

/-- A rule offered in place of its terminals: the latest token at which it starts, and the
paths of the rules around it. -/
structure RuleCandidate where
  start : Nat
  paths : PathSet
deriving DecidableEq

/-- A rule candidate with one more path and a start raised to `start`. -/
def RuleCandidate.join (known : Option RuleCandidate) (start : Nat) (path : Path) :
    RuleCandidate :=
  match known with
  | none => ⟨start, (∅ : PathSet).insert path⟩
  | some candidate => ⟨max candidate.start start, candidate.paths.insert path⟩

/-- The candidates of a completion request. -/
structure Candidates where
  /-- Terminals that may come next, each with the paths that lead to it. -/
  tokens : Std.ExtTreeMap TerminalId PathSet := ∅
  /-- Rules offered as such. -/
  rules : Std.ExtTreeMap RuleId RuleCandidate := ∅
  /-- The latest start of each rule that is open where something new was found. -/
  starts : Std.ExtTreeMap RuleId Nat := ∅
deriving DecidableEq

/-- What an edge offers: terminals, or a rule that starts at a token. -/
inductive Offer where
  | terminals (terminals : List TerminalId)
  | rule (rule : RuleId) (start : Nat)
deriving DecidableEq

/-- Something found during a walk: what is offered, the rules around it, and the calls
that are noted as active if the offer is new. -/
structure Finding where
  offer : Offer
  path : Path
  active : CallStack
deriving DecidableEq

namespace Candidates

/-- The terminals that may come next, in ascending order. -/
def terminals (candidates : Candidates) : List TerminalId := candidates.tokens.keys

/-- The paths that lead to a terminal, if it is a candidate. -/
def paths? (candidates : Candidates) (terminal : TerminalId) : Option PathSet :=
  candidates.tokens[terminal]?

/-- The latest noted start of a rule. -/
def start? (candidates : Candidates) (rule : RuleId) : Option Nat :=
  candidates.starts[rule]?

/-- Whether neither a terminal nor a rule is offered. -/
def isEmpty (candidates : Candidates) : Bool :=
  candidates.tokens.isEmpty && candidates.rules.isEmpty

/-- Whether a terminal is known to be reached along a path. -/
def hasToken (candidates : Candidates) (terminal : TerminalId) (path : Path) : Bool :=
  candidates.tokens[terminal]?.any fun paths => path ∈ paths

/-- Whether a rule is known to be offered along a path. -/
def hasRule (candidates : Candidates) (rule : RuleId) (path : Path) : Bool :=
  candidates.rules[rule]?.any fun known => path ∈ known.paths

/-- Record a terminal reached along a path, and tell whether the pair is new. -/
def addToken (candidates : Candidates) (terminal : TerminalId) (path : Path) :
    Bool × Candidates :=
  if candidates.hasToken terminal path then (false, candidates)
  else
    (true, { candidates with
      tokens := candidates.tokens.alter terminal fun known =>
        some ((known.getD ∅).insert path) })

/-- Record a rule offered along a path, and tell whether the pair is new. The start is
raised in any case. -/
def addRule (candidates : Candidates) (rule : RuleId) (start : Nat) (path : Path) :
    Bool × Candidates :=
  (!candidates.hasRule rule path, { candidates with
    rules := candidates.rules.alter rule fun known =>
      some (RuleCandidate.join known start path) })

/-- Note that a call of `rule` from the token `start` on is open. The latest start counts. -/
def noteStart (candidates : Candidates) (rule : RuleId) (start : Nat) : Candidates :=
  { candidates with
    starts := candidates.starts.alter rule fun known => some (max (known.getD start) start) }

/-- Note the starts of all calls of a stack. -/
def noteStarts (candidates : Candidates) (stack : CallStack) : Candidates :=
  stack.foldl (fun candidates frame => candidates.noteStart frame.rule frame.start) candidates

/-- Record several terminals reached along one path, and tell whether any is new. -/
def addTokens (candidates : Candidates) (terminals : List TerminalId) (path : Path) :
    Bool × Candidates :=
  match terminals with
  | [] => (false, candidates)
  | terminal :: rest =>
    let (isNew, candidates) := candidates.addToken terminal path
    let (anyNew, candidates) := candidates.addTokens rest path
    (isNew || anyNew, candidates)

/-- Record what is offered along a path, and tell whether any of it is new. -/
def addOffer (candidates : Candidates) (path : Path) : Offer → Bool × Candidates
  | .terminals terminals => candidates.addTokens terminals path
  | .rule rule start => candidates.addRule rule start path

/-- Record a finding. If it brings anything new, the starts of its calls are noted. -/
def record (candidates : Candidates) (finding : Finding) : Candidates :=
  let (isNew, candidates) := candidates.addOffer finding.path finding.offer
  if isNew then candidates.noteStarts finding.active else candidates

end Candidates

end CodeCompletion
