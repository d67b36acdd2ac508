import CodeCompletion.Candidates.Text
import CodeCompletion.Walk.Sound

/-!
# Walks to their end

## Main definitions

* `Progress.run`: a walk, round by round, until nothing waits
* `Query.walk`, `Outcome`: a walk from its first configuration, and what it yields
* `LogEntry`, `Outcome.log`: all that a walk logs, the candidates at the end included
-/

set_option autoImplicit false

namespace CodeCompletion

namespace Progress

/-- Go on, round by round, until nothing waits any more. -/
def run (query : Query) (caret : Nat) (seed : CallStack) (progress : Progress)
    (h : progress.Sound query.tokens.size caret seed) : Progress :=
  match _ : progress.pending with
  | [] => progress
  | _ :: _ => run query caret seed (progress.round query caret) h.round
termination_by remaining query.tokens.size caret seed progress
decreasing_by exact h.remaining_lt ‹_›

end Progress

/-- What a walk yields: the candidates, the events in their order, the candidates as they
are listed at the end of the log, and how many configurations the walk took up, met again, and
call stacks it built. -/
structure Outcome where
  candidates : Candidates
  trace : Array Event
  listing : String
  explored : Nat
  revisited : Nat
  stackCount : Nat
deriving DecidableEq

/-- A line of the log. -/
inductive LogEntry where
  /-- Something happened in the course of the walk. -/
  | event (event : Event)
  /-- The walk is over, and these are the candidates. -/
  | collected (listing : String)
deriving DecidableEq

/-- The text of a line, without its particulars. -/
def LogEntry.message : LogEntry → String
  | event news => news.message
  | collected _ => "collected"

namespace Outcome

/-- How many calls were given up for the depth limit. -/
def depthPruned (outcome : Outcome) : Nat :=
  outcome.trace.countP fun event => event matches .depthLimitReached ..

/-- How many calls were given up for left recursion. -/
def recursionCut (outcome : Outcome) : Nat :=
  outcome.trace.countP fun event => event matches .recursionCut ..

/-- How many guards were closed. -/
def predicatesRejected (outcome : Outcome) : Nat :=
  outcome.trace.countP fun event => event matches .predicateRejected ..

/-- The log of a walk: its events and, last of all, the candidates. -/
def log (outcome : Outcome) : Array LogEntry :=
  (outcome.trace.map .event).push (.collected outcome.listing)

@[simp] theorem pop_log (outcome : Outcome) : outcome.log.pop = outcome.trace.map .event := by
  simp [log]

@[simp] theorem back?_log (outcome : Outcome) :
    outcome.log.back? = some (.collected outcome.listing) := by
  simp [log]

end Outcome

namespace Query

/-- What a walk yields at the point that it has reached. -/
def outcome (query : Query) (progress : Progress) : Outcome where
  candidates := progress.candidates
  trace := progress.trace
  listing := progress.candidates.text query.network.vocabulary
  explored := progress.visited.size
  revisited := progress.revisited
  stackCount := progress.table.size

/-- Walk from a configuration with at least one open call to the caret. -/
def walk (query : Query) (caret : Nat) (config : Config)
    (h : config.index ≤ query.tokens.size) : Outcome :=
  query.outcome <|
    Progress.run query caret config.stack (.start config) (Progress.sound_start caret h)

end Query

end CodeCompletion
