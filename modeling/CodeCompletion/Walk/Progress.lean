import CodeCompletion.CallStack.Table
import CodeCompletion.Walk.Step
import Std.Data.ExtTreeSet

/-!
# The course of a walk

A walk explores all configurations that can be reached from the first one, each of them
once. Configurations that wait to be explored are kept on a stack, so that the walk goes
into depth first and takes the edges of a state in their order. A configuration is
marked as visited when it is taken up, not when it is put on the stack; one that comes up
again is counted and dropped.

## Main definitions

* `Visit`: a configuration with its stack given by number
* `Pending`, `Progress`: what waits, and what a walk has done so far
* `Progress.start`: a walk before its first step
* `Progress.apply`, `Progress.explore`: the effects of one configuration
* `Progress.round`: one round of a walk
-/

set_option autoImplicit false

namespace CodeCompletion

/-- A configuration with its stack given by number. -/
@[ext]
structure Visit where
  state : StateId
  index : Nat
  stack : Nat
deriving DecidableEq

namespace Visit

instance : Ord Visit :=
  ⟨compareLex (compareOn stack) (compareLex (compareOn state) (compareOn index))⟩

instance : Std.TransOrd Visit :=
  inferInstanceAs (Std.TransCmp
    (compareLex (compareOn stack) (compareLex (compareOn state) (compareOn index))))

instance : Std.LawfulEqOrd Visit where
  eq_of_compare h := by
    obtain ⟨hstack, h⟩ := compareLex_eq_eq.1 h
    obtain ⟨hstate, hindex⟩ := compareLex_eq_eq.1 h
    exact Visit.ext (Std.LawfulEqOrd.eq_of_compare hstate)
      (Std.LawfulEqOrd.eq_of_compare hindex) (Std.LawfulEqOrd.eq_of_compare hstack)

end Visit

/-- A configuration that waits to be explored, with the number of its stack. -/
structure Pending where
  config : Config
  number : Nat

/-- The configuration with its stack given by number. -/
def Pending.visit (pending : Pending) : Visit :=
  ⟨pending.config.state, pending.config.index, pending.number⟩

/-- What a walk has done so far. -/
structure Progress where
  /-- The stacks met so far. -/
  table : StackTable
  /-- Configurations to explore, the next one first. -/
  pending : List Pending
  /-- Configurations taken up so far. -/
  visited : Std.ExtTreeSet Visit := ∅
  /-- How many configurations came up again. -/
  revisited : Nat := 0
  candidates : Candidates := {}
  trace : Array Event := #[]

namespace Progress

/-- Put the configuration that a move leads to before all that wait. -/
def move (progress : Progress) (origin : Pending) (move : Move) : Progress :=
  let config := origin.config.after move
  match move with
  | .goto _ | .advance _ =>
    { progress with pending := ⟨config, origin.number⟩ :: progress.pending }
  | .enter _ frame =>
    let (number, table) := progress.table.push (some origin.number) frame
    { progress with table, pending := ⟨config, number⟩ :: progress.pending }
  | .leave _ =>
    match progress.table.outer? origin.number with
    | some number => { progress with pending := ⟨config, number⟩ :: progress.pending }
    | none => progress

/-- Let one effect of `origin` happen. -/
def apply (origin : Pending) (progress : Progress) : Effect → Progress
  | .move move => progress.move origin move
  | .report finding => { progress with candidates := progress.candidates.record finding }
  | .event event => { progress with trace := progress.trace.push event }

/-- Take up `origin`, the first of the waiting configurations. -/
def explore (query : Query) (caret : Nat) (progress : Progress) (origin : Pending)
    (rest : List Pending) : Progress :=
  (query.step caret origin.config).foldl (apply origin)
    { progress with pending := rest, visited := progress.visited.insert origin.visit }

/-- Drop a configuration that has been taken up before. -/
def drop (progress : Progress) (rest : List Pending) : Progress :=
  { progress with pending := rest, revisited := progress.revisited + 1 }

/-- One round: the first of the waiting configurations is explored, or dropped if it has
been taken up before. Where nothing waits, nothing changes. -/
def round (query : Query) (caret : Nat) (progress : Progress) : Progress :=
  match progress.pending with
  | [] => progress
  | origin :: rest =>
    if origin.visit ∈ progress.visited then progress.drop rest
    else progress.explore query caret origin rest

end Progress

/-- A walk before its first step: `config` waits, its stack is in the table. -/
def Progress.start (config : Config) : Progress :=
  let (number?, table) := ({} : StackTable).pushAll none config.stack.reverse
  { table, pending := (number?.map fun number => ⟨config, number⟩).toList }

end CodeCompletion
