import CodeCompletion.Proofs.Tally
import Mathlib.Data.Finset.Dedup
import Mathlib.Data.Finset.Card

/-!
# Stacks that share their frames

A stack with one more frame need not be stored as a whole. It is enough to keep the frame, the
number of the stack around it, and how many frames there are. An arena keeps no more than such
nodes, and reads a stack off by going from each node to the one around it.

Two pushes get the same number if they make the same node, so single frames and numbers are
compared where whole stacks are meant. As long as frames are put only on stacks that have numbers,
this makes no difference, and the arena gives the numbers that a table of whole stacks gives.

## Main definitions

* `Pushes`: a course of pushes, with the numbers it returns and the stacks it makes
* `StackNode`, `StackArena`, `StackArena.push`: numbered stacks that share their frames
* `StackArena.frameAt?`, `StackArena.frames?`: the frames that are met on the way outwards
* `StackArena.depth?`, `StackArena.path?`, `StackArena.openCount?`: what is read off a number
* `StackArena.Denotes`: all of these agree with a stack
* `StackTable.Lists`: a table holds the stacks of a course of pushes, under their numbers
* `StackArena.Represents`: an arena stores the stacks of a table

## Main results

* `Pushes.lists`: a table lists what has been pushed
* `StackArena.Represents.push`, `StackArena.exists_represents`: an arena and a table give the same
  numbers
* `StackArena.Represents.denotes`: numbers denote the stacks of the table
* `StackArena.Denotes.pushEach`: what a number denotes does not change
* `StackArena.numbers_faithful`: numbers stand for stacks
-/

set_option autoImplicit false

namespace CodeCompletion

/-- A course of pushes on a new store. Each push returns a number, under which the store keeps a
stack from then on: a frame alone, or a frame on a stack whose number has been returned before. -/
inductive Pushes {Store : Type} (push : Store → Option ℕ → Frame → ℕ × Store) (new : Store) :
    List (ℕ × CallStack) → Store → Prop
  | new : Pushes push new [] new
  | root {pushed : List (ℕ × CallStack)} {store : Store} (h : Pushes push new pushed store)
      (frame : Frame) :
      Pushes push new (pushed ++ [((push store none frame).1, [frame])]) (push store none frame).2
  | inner {pushed : List (ℕ × CallStack)} {store : Store} (h : Pushes push new pushed store)
      {outer : ℕ} {stack : CallStack} (houter : (outer, stack) ∈ pushed) (frame : Frame) :
      Pushes push new (pushed ++ [((push store (some outer) frame).1, frame :: stack)])
        (push store (some outer) frame).2

/-! ## Tables -/

namespace StackTable

variable {table : StackTable} {pushed : List (ℕ × CallStack)} {outer? : Option ℕ}

/-- The table holds the stacks that have been pushed, under the numbers that were returned. -/
structure Lists (table : StackTable) (pushed : List (ℕ × CallStack)) : Prop where
  valid : table.Valid
  mem_iff : ∀ number stack, (number, stack) ∈ pushed ↔
    ∃ entry, table.entries[number]? = some entry ∧ entry.stack = stack

theorem Lists.stackOf_eq (h : table.Lists pushed) {number : ℕ} {stack : CallStack}
    (hmem : (number, stack) ∈ pushed) : table.stackOf (some number) = stack := by
  obtain ⟨entry, hentry, rfl⟩ := (h.mem_iff number stack).mp hmem
  exact stackOf_some hentry

theorem Lists.knows (h : table.Lists pushed) {number : ℕ} {stack : CallStack}
    (hmem : (number, stack) ∈ pushed) : table.Knows (some number) := by
  obtain ⟨entry, hentry, -⟩ := (h.mem_iff number stack).mp hmem
  exact fun _ hnumber => Option.some.inj hnumber ▸ lt_size hentry

theorem Lists.push (h : table.Lists pushed) (hknows : table.Knows outer?) (frame : Frame) :
    (table.push outer? frame).2.Lists
      (pushed ++ [((table.push outer? frame).1, frame :: table.stackOf outer?)]) where
  valid := h.valid.push hknows frame
  mem_iff number stack := by
    rw [List.mem_append, List.mem_singleton, h.mem_iff, Prod.mk.injEq]
    constructor
    · rintro (⟨entry, hentry, hstack⟩ | ⟨rfl, rfl⟩)
      · exact ⟨entry, entries_push_of_eq_some hentry, hstack⟩
      · exact ⟨_, h.valid.entry_push outer? frame, rfl⟩
    · rintro ⟨entry, hentry, rfl⟩
      rcases h.valid.entries_push_cases hentry with hold | hnew
      · exact Or.inl ⟨entry, hold, rfl⟩
      · exact Or.inr hnew

/-- Numbers are equal exactly if the stacks are. -/
theorem Lists.eq_iff (h : table.Lists pushed) {number number' : ℕ} {stack stack' : CallStack}
    (hmem : (number, stack) ∈ pushed) (hmem' : (number', stack') ∈ pushed) :
    number = number' ↔ stack = stack' := by
  obtain ⟨entry, hentry, rfl⟩ := (h.mem_iff _ _).mp hmem
  obtain ⟨entry', hentry', rfl⟩ := (h.mem_iff _ _).mp hmem'
  constructor
  · rintro rfl
    rw [Option.some.inj (hentry.symm.trans hentry')]
  · exact h.valid.stack_injective hentry hentry'

theorem Lists.size_eq (h : table.Lists pushed) :
    table.size = (pushed.map Prod.snd).toFinset.card := by
  have hstacks : (pushed.map Prod.snd).toFinset =
      (table.entries.toList.map StackEntry.stack).toFinset := by
    ext stack
    rw [List.mem_toFinset, List.mem_toFinset, mem_map_stack_iff]
    simp [h.mem_iff, Holds]
  rw [hstacks, List.toFinset_card_of_nodup h.valid.nodup_stacks, List.length_map,
    Array.length_toList, size]

end StackTable

/-- A table lists what has been pushed. -/
theorem Pushes.lists {pushed : List (ℕ × CallStack)} {table : StackTable}
    (h : Pushes StackTable.push {} pushed table) : table.Lists pushed := by
  induction h with
  | new => exact ⟨StackTable.valid_empty, fun _ _ => by simp⟩
  | root _ frame ih => exact ih.push (fun _ hnone => by cases hnone) frame
  | inner _ houter frame ih =>
    have hpush := ih.push (ih.knows houter) frame
    rwa [ih.stackOf_eq houter] at hpush

/-! ## Arenas -/

/-- A frame put on a numbered stack, or on no stack, with the number of frames that there are
then. -/
@[ext]
structure StackNode extends Link where
  depth : ℕ
deriving DecidableEq

namespace StackNode

instance : Ord StackNode := ⟨compareLex (compareOn toLink) (compareOn depth)⟩

instance : Std.TransOrd StackNode :=
  inferInstanceAs (Std.TransCmp (compareLex (compareOn toLink) (compareOn depth)))

instance : Std.LawfulEqOrd StackNode where
  eq_of_compare {node node'} h := by
    obtain ⟨hlink, hdepth⟩ := compareLex_eq_eq.1 h
    have hlink : node.toLink = node'.toLink := Std.LawfulEqOrd.eq_of_compare hlink
    exact StackNode.ext (congrArg Link.outer? hlink) (congrArg Link.frame hlink)
      (Std.LawfulEqOrd.eq_of_compare hdepth)

end StackNode

/-- Numbered stacks that share their frames. `numbers` finds the number of a node. -/
structure StackArena where
  nodes : Array StackNode := #[]
  numbers : Std.ExtTreeMap StackNode ℕ := ∅

namespace StackArena

variable {arena : StackArena} {table : StackTable} {pushed : List (ℕ × CallStack)}
  {number : ℕ} {stack : CallStack}

/-- The number of nodes. -/
def size (arena : StackArena) : ℕ := arena.nodes.size

/-- How many frames a numbered stack has. -/
def depth? (arena : StackArena) (number : ℕ) : Option ℕ :=
  arena.nodes[number]?.map StackNode.depth

/-- The node made by putting a frame on a numbered stack. -/
def node (arena : StackArena) (outer? : Option ℕ) (frame : Frame) : StackNode :=
  ⟨⟨outer?, frame⟩, (outer?.bind arena.depth?).getD 0 + 1⟩

/-- The number of the stack made by putting a frame on a numbered stack. If the same node has been
made before, it is used again. -/
def push (arena : StackArena) (outer? : Option ℕ) (frame : Frame) : ℕ × StackArena :=
  match arena.numbers[arena.node outer? frame]? with
  | some number => (number, arena)
  | none => (arena.size, {
      nodes := arena.nodes.push (arena.node outer? frame)
      numbers := arena.numbers.insert (arena.node outer? frame) arena.size })

/-- The arena after further pushes. -/
def pushEach (arena : StackArena) (later : List (Option ℕ × Frame)) : StackArena :=
  later.foldl (fun arena call => (arena.push call.1 call.2).2) arena

/-- The frame that is met after some steps outwards, unless the way ends before. -/
def frameAt? (arena : StackArena) : ℕ → ℕ → Option Frame
  | number, 0 => arena.nodes[number]?.map fun node => node.frame
  | number, steps + 1 => do
    let node ← arena.nodes[number]?
    arena.frameAt? (← node.outer?) steps

/-- The frames of a numbered stack, from the innermost outwards. There are none if the way outwards
leads to an unknown number, or to one that is not smaller, from where it need not end. -/
def frames? (arena : StackArena) (number : ℕ) : Option (List Frame) := do
  match ← arena.nodes[number]? with
  | ⟨⟨none, frame⟩, _⟩ => return [frame]
  | ⟨⟨some outer, frame⟩, _⟩ =>
    if outer < number then
      return frame :: (← arena.frames? outer)
    else
      none
termination_by number

/-- The rules of a numbered stack, outermost first. -/
def path? (arena : StackArena) (number : ℕ) : Option Path :=
  (arena.frames? number).map fun frames => (frames.map Frame.rule).reverse

/-- How many frames of a numbered stack are calls of `rule` from the token `start` on. -/
def openCount? (arena : StackArena) (number : ℕ) (rule : RuleId) (start : ℕ) : Option ℕ :=
  (arena.frames? number).map fun frames =>
    (frames.filter fun frame => frame.rule = rule ∧ frame.start = start).length

/-- What is read off the number is what holds of the stack. -/
structure Denotes (arena : StackArena) (number : ℕ) (stack : CallStack) : Prop where
  frameAt : ∀ steps, arena.frameAt? number steps = stack[steps]?
  frames : arena.frames? number = some stack
  depth : arena.depth? number = some stack.length
  path : arena.path? number = some stack.path
  openCount : ∀ rule start,
    arena.openCount? number rule start = some (stack.openCount rule start)

/-! ## The way outwards -/

theorem frames?_eq_some_iff {frames : List Frame} : arena.frames? number = some frames ↔
    ∃ node, arena.nodes[number]? = some node ∧
      (node.outer? = none ∧ frames = [node.frame] ∨
        ∃ outer rest, node.outer? = some outer ∧ outer < number ∧
          arena.frames? outer = some rest ∧ frames = node.frame :: rest) := by
  rw [frames?]
  cases hnode : arena.nodes[number]? with
  | none => simp
  | some node =>
    obtain ⟨⟨outer?, frame⟩, depth⟩ := node
    cases outer? with
    | none => simp [eq_comm]
    | some outer => simp [Option.bind_eq_some_iff, eq_comm (a := frames)]

theorem frames?_ne_nil : arena.frames? number ≠ some [] := by
  intro h
  obtain ⟨node, -, ⟨-, hnil⟩ | ⟨_, _, -, -, -, hnil⟩⟩ := frames?_eq_some_iff.mp h
  · cases hnil
  · cases hnil

/-- The frames are those that are met on the way outwards, which ends with the last of them. -/
theorem frameAt?_eq {frames : List Frame} (h : arena.frames? number = some frames) (steps : ℕ) :
    arena.frameAt? number steps = frames[steps]? := by
  induction steps generalizing number frames with
  | zero =>
    obtain ⟨node, hnode, ⟨-, rfl⟩ | ⟨_, _, -, -, -, rfl⟩⟩ := frames?_eq_some_iff.mp h
    · simp [frameAt?, hnode]
    · simp [frameAt?, hnode]
  | succ steps ih =>
    obtain ⟨node, hnode, ⟨houter, rfl⟩ | ⟨_, _, houter, -, hrest, rfl⟩⟩ := frames?_eq_some_iff.mp h
    · simp [frameAt?, hnode, houter]
    · simp [frameAt?, hnode, houter, ih hrest]

theorem Denotes.of_frames (hframes : arena.frames? number = some stack)
    (hdepth : arena.depth? number = some stack.length) : arena.Denotes number stack where
  frameAt := frameAt?_eq hframes
  frames := hframes
  depth := hdepth
  path := by rw [path?, hframes, Option.map_some, CallStack.path]
  openCount rule start := by
    rw [openCount?, hframes, Option.map_some, CallStack.openCount, List.countP_eq_length_filter]

/-! ## Older numbers -/

theorem nodes_push_of_eq_some {node : StackNode} (h : arena.nodes[number]? = some node)
    (outer? : Option ℕ) (frame : Frame) :
    (arena.push outer? frame).2.nodes[number]? = some node := by
  unfold push
  split
  · exact h
  · have hlt := (Array.getElem?_eq_some_iff.mp h).1
    rw [Array.getElem?_push, if_neg (Nat.ne_of_lt hlt), h]

theorem frames?_push {frames : List Frame} (h : arena.frames? number = some frames)
    (outer? : Option ℕ) (frame : Frame) :
    (arena.push outer? frame).2.frames? number = some frames := by
  induction frames generalizing number with
  | nil => exact absurd h frames?_ne_nil
  | cons innermost rest ih =>
    obtain ⟨node, hnode, hway⟩ := frames?_eq_some_iff.mp h
    refine frames?_eq_some_iff.mpr ⟨node, nodes_push_of_eq_some hnode outer? frame, ?_⟩
    rcases hway with hroot | ⟨outer, rest', houter, hlt, hrest, heq⟩
    · exact Or.inl hroot
    · obtain ⟨-, rfl⟩ := List.cons.inj heq
      exact Or.inr ⟨outer, rest, houter, hlt, ih hrest, heq⟩

theorem Denotes.push (h : arena.Denotes number stack) (outer? : Option ℕ) (frame : Frame) :
    (arena.push outer? frame).2.Denotes number stack := by
  refine .of_frames (frames?_push h.frames outer? frame) ?_
  obtain ⟨node, hnode, hdepth⟩ := Option.map_eq_some_iff.mp h.depth
  rw [depth?, nodes_push_of_eq_some hnode, Option.map_some, hdepth]

/-- What a number denotes does not change, whatever is pushed later. -/
theorem Denotes.pushEach (h : arena.Denotes number stack) (later : List (Option ℕ × Frame)) :
    (arena.pushEach later).Denotes number stack := by
  induction later generalizing arena with
  | nil => exact h
  | cons call rest ih => exact ih (h.push call.1 call.2)

/-! ## Arenas and tables -/

/-- What an arena keeps of an entry of a table. -/
def ofEntry (entry : StackEntry) : StackNode := ⟨entry.toLink, entry.stack.length⟩

/-- The arena stores the stacks of the table, in the same order. -/
structure Represents (arena : StackArena) (table : StackTable) : Prop where
  nodes_eq : arena.nodes = table.entries.map ofEntry
  numbers_iff : ∀ (node : StackNode) (number : ℕ),
    arena.numbers[node]? = some number ↔ arena.nodes[number]? = some node

theorem represents_empty : ({} : StackArena).Represents {} where
  nodes_eq := by simp
  numbers_iff _ _ := by simp

theorem Represents.getElem?_eq (h : arena.Represents table) (number : ℕ) :
    arena.nodes[number]? = table.entries[number]?.map ofEntry := by
  rw [h.nodes_eq, Array.getElem?_map]

theorem Represents.size_eq (h : arena.Represents table) : arena.size = table.size := by
  rw [size, h.nodes_eq, Array.size_map, StackTable.size]

/-- The node that is looked up tells how long the stack becomes. -/
theorem Represents.node_eq (h : arena.Represents table) (outer? : Option ℕ) (frame : Frame) :
    arena.node outer? frame = ofEntry ⟨⟨outer?, frame⟩, frame :: table.stackOf outer?⟩ := by
  have hdepth : (outer?.bind arena.depth?).getD 0 = (table.stackOf outer?).length := by
    cases outer? with
    | none => rfl
    | some outer =>
      rw [Option.bind_some, depth?, h.getElem?_eq, StackTable.stackOf]
      cases table.entries[outer]? <;> rfl
  rw [node, ofEntry, hdepth, List.length_cons]

/-- A node is found exactly where a table finds its link. The link determines the stack, and so
the number of frames. -/
theorem Represents.numbers_eq (h : arena.Represents table) (hvalid : table.Valid)
    (outer? : Option ℕ) (frame : Frame) :
    arena.numbers[arena.node outer? frame]? = table.numbers[Link.mk outer? frame]? := by
  ext number
  rw [h.numbers_iff, h.getElem?_eq, hvalid.numbers_iff, h.node_eq, Option.map_eq_some_iff]
  refine exists_congr fun entry => and_congr_right fun hentry => ?_
  constructor
  · exact congrArg StackNode.toLink
  · intro hlink
    have hstack := hvalid.stack_eq number entry hentry
    obtain ⟨link, stack⟩ := entry
    subst hlink
    exact congrArg (fun stack => ofEntry ⟨⟨outer?, frame⟩, stack⟩) hstack

/-- A node that is not found gets the number of nodes, which is a new number. -/
theorem Represents.insert_iff (h : arena.Represents table) {new : StackNode}
    (hnew : arena.numbers[new]? = none) (node : StackNode) (number : ℕ) :
    (arena.numbers.insert new arena.size)[node]? = some number ↔
      (arena.nodes.push new)[number]? = some node := by
  rw [Std.ExtTreeMap.getElem?_insert, Array.getElem?_push, size]
  by_cases hlast : number = arena.nodes.size
  · have hnone : arena.numbers[node]? ≠ some number := by simp [h.numbers_iff, hlast]
    by_cases hsame : new = node
    · simp [hsame, hlast]
    · simpa [hsame, hlast] using hlast ▸ hnone
  · by_cases hsame : new = node
    · subst hsame
      have hnone : arena.nodes[number]? ≠ some new := by simp [← h.numbers_iff, hnew]
      simp [hlast, Ne.symm hlast, hnone]
    · simp [hsame, hlast, h.numbers_iff]

/-- An arena and a table give the same number to a stack, and go on to agree. -/
theorem Represents.push (h : arena.Represents table) (hvalid : table.Valid) (outer? : Option ℕ)
    (frame : Frame) : (arena.push outer? frame).1 = (table.push outer? frame).1 ∧
      (arena.push outer? frame).2.Represents (table.push outer? frame).2 := by
  have hnumbers := h.numbers_eq hvalid outer? frame
  unfold StackArena.push StackTable.push
  rw [hnumbers]
  cases hfound : table.numbers[Link.mk outer? frame]? with
  | some number => exact ⟨rfl, h⟩
  | none =>
    refine ⟨h.size_eq, ?_, fun node number => ?_⟩
    · rw [Array.map_push, ← h.nodes_eq, h.node_eq]
    · exact h.insert_iff (hnumbers.trans hfound) node number

/-- Along a course of pushes, a table gives the same numbers. -/
theorem exists_represents (h : Pushes push {} pushed arena) :
    ∃ table, Pushes StackTable.push {} pushed table ∧ arena.Represents table := by
  induction h with
  | new => exact ⟨{}, .new, represents_empty⟩
  | root _ frame ih =>
    obtain ⟨table, htable, hrepresents⟩ := ih
    obtain ⟨hnumber, hpush⟩ := hrepresents.push htable.lists.valid none frame
    rw [hnumber]
    exact ⟨_, .root htable frame, hpush⟩
  | @inner _ _ _ outer _ houter frame ih =>
    obtain ⟨table, htable, hrepresents⟩ := ih
    obtain ⟨hnumber, hpush⟩ := hrepresents.push htable.lists.valid (some outer) frame
    rw [hnumber]
    exact ⟨_, .inner htable houter frame, hpush⟩

theorem Represents.frames?_eq (h : arena.Represents table) (hvalid : table.Valid)
    {entry : StackEntry} (hentry : table.entries[number]? = some entry) :
    arena.frames? number = some entry.stack := by
  -- On the number: the stack around the innermost frame has a smaller one.
  induction number using Nat.strongRecOn generalizing entry with
  | ind number ih =>
    have hnode : arena.nodes[number]? = some (ofEntry entry) := by
      rw [h.getElem?_eq, hentry, Option.map_some]
    refine frames?_eq_some_iff.mpr ⟨_, hnode, ?_⟩
    rcases hvalid.stack_cases hentry with hroot | ⟨outer, below, houter, hlt, hbelow, hstack⟩
    · exact Or.inl hroot
    · exact Or.inr ⟨outer, below.stack, houter, hlt, ih outer hlt hbelow, hstack⟩

theorem Represents.denotes (h : arena.Represents table) (hlists : table.Lists pushed)
    (hmem : (number, stack) ∈ pushed) : arena.Denotes number stack := by
  obtain ⟨entry, hentry, rfl⟩ := (hlists.mem_iff number stack).mp hmem
  refine .of_frames (h.frames?_eq hlists.valid hentry) ?_
  rw [depth?, h.getElem?_eq, hentry]
  rfl

theorem Represents.outer_lt (h : arena.Represents table) (hvalid : table.Valid)
    {node : StackNode} {outer : ℕ} (hnode : arena.nodes[number]? = some node)
    (houter : node.outer? = some outer) : outer < number := by
  rw [h.getElem?_eq, Option.map_eq_some_iff] at hnode
  obtain ⟨entry, hentry, rfl⟩ := hnode
  exact hvalid.outer_lt number entry outer hentry houter

/-- Along a course of pushes, numbers are equal exactly if the stacks are. Going outwards leads to
ever smaller numbers, and the frames, their count, their rules and the calls that are open are read
off correctly, also after further pushes. There are as many nodes as different stacks, and a table
of whole stacks gives the same numbers. -/
theorem numbers_faithful (h : Pushes push {} pushed arena) :
    (∀ number stack number' stack', (number, stack) ∈ pushed → (number', stack') ∈ pushed →
      (number = number' ↔ stack = stack')) ∧
    (∀ (number : ℕ) (node : StackNode) (outer : ℕ), arena.nodes[number]? = some node →
      node.outer? = some outer → outer < number) ∧
    (∀ number stack, (number, stack) ∈ pushed → arena.Denotes number stack ∧
      ∀ later, (arena.pushEach later).Denotes number stack) ∧
    arena.size = (pushed.map Prod.snd).toFinset.card ∧
    ∃ table, Pushes StackTable.push {} pushed table ∧ table.size = arena.size ∧
      ∀ number stack, (number, stack) ∈ pushed → table.stackOf (some number) = stack := by
  obtain ⟨table, htable, hrepresents⟩ := exists_represents h
  have hlists := htable.lists
  refine ⟨fun _ _ _ _ hmem hmem' => hlists.eq_iff hmem hmem',
    fun _ _ _ hnode houter => hrepresents.outer_lt hlists.valid hnode houter,
    fun _ _ hmem => ?_, hrepresents.size_eq.trans hlists.size_eq,
    table, htable, hrepresents.size_eq.symm, fun _ _ hmem => hlists.stackOf_eq hmem⟩
  have hdenotes := hrepresents.denotes hlists hmem
  exact ⟨hdenotes, hdenotes.pushEach⟩

/-- A call that is made twice in the same call has one number, and two stacks are stored. -/
theorem numbers_faithful_again :
    let caller : Frame := ⟨⟨0⟩, 0, none⟩
    let callee : Frame := ⟨⟨1⟩, 0, some ⟨3⟩⟩
    ∃ arena, Pushes StackArena.push {}
        [(0, [caller]), (1, [callee, caller]), (1, [callee, caller])] arena ∧
      arena.size = 2 ∧
      arena.frames? 1 = some [callee, caller] ∧ arena.depth? 1 = some 2 ∧
      arena.path? 1 = some [⟨0⟩, ⟨1⟩] ∧ arena.openCount? 1 ⟨0⟩ 0 = some 1 ∧
      (arena.push none callee).2.frames? 1 = some [callee, caller] := by
  intro caller callee
  let first := StackArena.push {} none caller
  let second := first.2.push (some 0) callee
  let third := second.2.push (some 0) callee
  have hfirst : first.1 = 0 := by decide +kernel
  have hsecond : second.1 = 1 := by decide +kernel
  have hthird : third.1 = 1 := by decide +kernel
  have hone : Pushes StackArena.push {} [(0, [caller])] first.2 :=
    hfirst ▸ .root .new caller
  have htwo : Pushes StackArena.push {} [(0, [caller]), (1, [callee, caller])] second.2 :=
    hsecond ▸ .inner hone List.mem_cons_self callee
  have hpushed : Pushes StackArena.push {}
      [(0, [caller]), (1, [callee, caller]), (1, [callee, caller])] third.2 :=
    hthird ▸ .inner htwo List.mem_cons_self callee
  obtain ⟨-, -, hdenotes, hsize, -⟩ := numbers_faithful hpushed
  obtain ⟨hnow, hlater⟩ := hdenotes 1 [callee, caller] (by decide)
  exact ⟨_, hpushed, hsize, hnow.frames, hnow.depth, hnow.path, hnow.openCount ⟨0⟩ 0,
    (hlater [(none, callee)]).frames⟩

end StackArena

end CodeCompletion
