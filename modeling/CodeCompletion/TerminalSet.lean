import CodeCompletion.Ident

/-!
# Sets of terminals on edges

An edge of the network may carry a set of terminals. The items are kept in an array and
found by bisection. Sets made by `TerminalSet.ofList` and `TerminalSet.insert` are
strictly ascending; a set that comes with a stored network keeps the items it was stored
with.

## Main definitions

* `TerminalSet.bisect`, `TerminalSet.search`: the place of a terminal among the items
* `TerminalSet.contains`, `TerminalSet.insert`, `TerminalSet.ofList`
-/

set_option autoImplicit false

namespace CodeCompletion

/-- The terminals on an edge, in the order in which they are kept. -/
structure TerminalSet where
  items : Array TerminalId
deriving DecidableEq

namespace TerminalSet

/-- The set without terminals. -/
def empty : TerminalSet := ⟨#[]⟩

instance : EmptyCollection TerminalSet := ⟨empty⟩

/-- The number of items. -/
def size (set : TerminalSet) : Nat := set.items.size

/-- Whether there are no items. -/
def isEmpty (set : TerminalSet) : Bool := set.items.isEmpty

/-- The terminals of the set, in the order in which they are kept. -/
def toList (set : TerminalSet) : List TerminalId := set.items.toList

/-- Bisection of the `size` items from `base` on. Among ascending items this is the place of the
last one that does not lie after `terminal`, or else `base`. Every item that is met keeps
one half or the other, equal or not, until one item is left. -/
def bisect (set : TerminalSet) (terminal : TerminalId) (base size : Nat) : Nat :=
  if 1 < size then
    let half := size / 2
    let middle := base + half
    if set.items[middle]?.any fun item => compare item terminal = .gt then
      bisect set terminal base (size - half)
    else
      bisect set terminal middle (size - half)
  else
    base
termination_by size
decreasing_by all_goals omega

/-- Look for `terminal` among ascending items. The result is the position that holds it, or
as an error the position that would receive it. -/
def search (set : TerminalSet) (terminal : TerminalId) : Except Nat Nat :=
  let position := set.bisect terminal 0 set.size
  match set.items[position]? with
  | none => .error position
  | some item =>
    match compare item terminal with
    | .lt => .error (position + 1)
    | .eq => .ok position
    | .gt => .error position

/-- Whether an ascending set holds `terminal`. -/
def contains (set : TerminalSet) (terminal : TerminalId) : Bool :=
  (set.search terminal).isOk

/-- Put `terminal` in its place, and tell whether it was absent. A set that holds it already
stays as it is. -/
def insert (set : TerminalSet) (terminal : TerminalId) : Bool × TerminalSet :=
  match set.search terminal with
  | .ok _ => (false, set)
  | .error position => (true, ⟨set.items.insertIdxIfInBounds position terminal⟩)

/-- The ascending set of the given terminals. -/
def ofList (terminals : List TerminalId) : TerminalSet :=
  terminals.foldl (fun set terminal => (set.insert terminal).2) ∅

end TerminalSet

end CodeCompletion
