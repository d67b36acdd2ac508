import CodeCompletion.Candidates.Text
import CodeCompletion.Walk.Run

/-!
# Completion requests

A request names the place of the caret in one of two ways: by the state and the open
calls of a parser that has read the input, or by a rule and a token from which the input
is to be replayed. A request that does not fit the network or the tokens is refused, and
the first misfit found is reported.

## Main definitions

* `RequestError`: why a request is refused
* `Query.collect`: candidates from the state of a parser
* `Query.collectFromRule`: candidates by replay of the tokens through a rule
* `Query.completions`: replay from the first token, terminals only
-/

set_option autoImplicit false

namespace CodeCompletion

/-- Why a completion request is refused. -/
inductive RequestError where
  /-- A state is not in the network. -/
  | unknownState (state : StateId)
  /-- A rule is not in the network. -/
  | unknownRule (rule : RuleId)
  /-- The caret lies beyond the tokens. -/
  | tokenIndexOutOfRange (index length : Nat)
  /-- The replay would begin after the caret. -/
  | startAfterCaret (start caret : Nat)
  /-- The parser's state is not in the rule of its innermost call. -/
  | startStateOutsideFrame (state : StateId) (stateRule frameRule : RuleId)
  /-- An inner call does not say where it returns to. -/
  | missingReturnState (rule : RuleId)
  /-- A call returns to a state that is not in the calling rule. -/
  | returnStateOutsideCaller (rule : RuleId) (state : StateId) (caller : RuleId)
deriving DecidableEq

/-- The sentence that reports why a request is refused. -/
def RequestError.message : RequestError → String
  | unknownState state => s!"state {state} does not belong to the network"
  | unknownRule rule => s!"rule {rule} does not belong to the network"
  | tokenIndexOutOfRange index length =>
    s!"token index {index} is outside the token stream (length {length})"
  | startAfterCaret start caret => s!"start token {start} lies after the caret at {caret}"
  | startStateOutsideFrame state stateRule frameRule =>
    s!"start state {state} belongs to rule {stateRule}, but the innermost frame is rule " ++
      s!"{frameRule}"
  | missingReturnState rule => s!"frame for rule {rule} has no return state into its caller"
  | returnStateOutsideCaller rule state caller =>
    s!"return state {state} of rule {rule} is not inside calling rule {caller}"

namespace Query

/-- The preferred rules have to be rules of the network. -/
def checkPreferred (query : Query) : Except RequestError Unit :=
  match query.options.preferred.toList.find? fun rule => !query.network.hasRule rule with
  | some rule => .error (.unknownRule rule)
  | none => .ok ()

/-- A call inside a call of `caller` has to return to a state of `caller`. -/
def checkReturn (query : Query) (caller : RuleId) (frame : Frame) : Except RequestError Unit :=
  match frame.resume? with
  | none => .error (.missingReturnState frame.rule)
  | some resume =>
    match query.network.state? resume with
    | none => .error (.unknownState resume)
    | some state =>
      if state.rule = caller then .ok ()
      else .error (.returnStateOutsideCaller frame.rule resume caller)

/-- Put calls, given from the outermost inwards, on a stack, checking that each fits the
one around it. The outermost call is made to return nowhere. -/
def openCalls (query : Query) (stack : CallStack) :
    List Frame → Except RequestError CallStack
  | [] => .ok stack
  | frame :: rest =>
    if query.network.hasRule frame.rule then
      match stack with
      | [] => query.openCalls [{ frame with resume? := none }] rest
      | caller :: _ =>
        match query.checkReturn caller.rule frame with
        | .error error => .error error
        | .ok () => query.openCalls (frame :: stack) rest
    else
      .error (.unknownRule frame.rule)

/-- The stack of a parser in a state of `rule`. A parser that names no calls is taken to
have entered `rule` at the first token. -/
def parserStack (query : Query) (start : StateId) (rule : RuleId) (calls : List Frame) :
    Except RequestError CallStack :=
  match query.openCalls [] calls with
  | .error error => .error error
  | .ok [] => .ok [⟨rule, 0, none⟩]
  | .ok (innermost :: outer) =>
    if innermost.rule = rule then .ok (innermost :: outer)
    else .error (.startStateOutsideFrame start rule innermost.rule)

/-- The candidates for a parser that has read the tokens before `index`, is in the state
`start`, and has the given calls open, listed from the outermost inwards. -/
def collect (query : Query) (start : StateId) (calls : List Frame) (index : Nat) :
    Except RequestError Outcome := do
  if h : index ≤ query.tokens.size then
    query.checkPreferred
    match query.network.state? start with
    | none => throw (.unknownState start)
    | some state =>
      let stack ← query.parserStack start state.rule calls
      return query.walk index ⟨start, index, stack⟩ h
  else
    throw (.tokenIndexOutOfRange index query.tokens.size)

/-- The candidates at `caret` for all parses in which `rule` begins at the token `start`. -/
def collectFromRule (query : Query) (rule : RuleId) (start caret : Nat) :
    Except RequestError Outcome := do
  if hc : caret ≤ query.tokens.size then
    if hs : start ≤ caret then
      query.checkPreferred
      match query.network.entry? rule with
      | none => throw (.unknownRule rule)
      | some entry =>
        return query.walk caret ⟨entry, start, [⟨rule, start, none⟩]⟩ (Nat.le_trans hs hc)
    else
      throw (.startAfterCaret start caret)
  else
    throw (.tokenIndexOutOfRange caret query.tokens.size)

/-- The terminals that may come next at `caret` when the input is a text of `rule`. -/
def completions (query : Query) (rule : RuleId) (caret : Nat) :
    Except RequestError (List TerminalId) := do
  return (← query.collectFromRule rule 0 caret).candidates.terminals

end Query

end CodeCompletion
