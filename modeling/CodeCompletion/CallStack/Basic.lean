import CodeCompletion.Ident

/-!
# Call stacks

While the network is explored, the calls that are open form a stack of frames. A stack is
listed from the innermost call outwards.

## Main definitions

* `Frame`, `CallStack`
* `Path`, `CallStack.path`: the rules of a stack, outermost first
* `CallStack.openCount`: how often a rule is open from the same token on
* `CallStack.outermost?`: the outermost frame of a chosen rule, with the frames around it
-/

set_option autoImplicit false

namespace CodeCompletion

/-- One open call: the rule, the first token it covers, and the state of the calling rule
in which matching resumes. An outermost call resumes nowhere. -/
@[ext]
structure Frame where
  rule : RuleId
  start : Nat
  resume? : Option StateId := none
deriving DecidableEq

namespace Frame

instance : Ord Frame :=
  ⟨compareLex (compareOn rule) (compareLex (compareOn start) (compareOn resume?))⟩

instance : Std.TransOrd Frame :=
  inferInstanceAs (Std.TransCmp
    (compareLex (compareOn rule) (compareLex (compareOn start) (compareOn resume?))))

instance : Std.LawfulEqOrd Frame where
  eq_of_compare h := by
    obtain ⟨hrule, h⟩ := compareLex_eq_eq.1 h
    obtain ⟨hstart, hresume⟩ := compareLex_eq_eq.1 h
    exact Frame.ext (Std.LawfulEqOrd.eq_of_compare hrule)
      (Std.LawfulEqOrd.eq_of_compare hstart) (Std.LawfulEqOrd.eq_of_compare hresume)

end Frame

/-- The open calls, innermost first. -/
abbrev CallStack := List Frame

/-- Rules that enclose a place in the input, outermost first. -/
abbrev Path := List RuleId

/-- The most specific rule of a path. -/
def Path.innermost? (path : Path) : Option RuleId := path.getLast?

namespace CallStack

/-- The rules of a stack, outermost first. -/
def path (stack : CallStack) : Path := (List.map Frame.rule stack).reverse

/-- How many calls of `rule` that start at the token `start` are open. -/
def openCount (stack : CallStack) (rule : RuleId) (start : Nat) : Nat :=
  List.countP (fun frame => frame.rule = rule ∧ frame.start = start) stack

theorem openCount_cons (frame : Frame) (stack : CallStack) (rule : RuleId) (start : Nat) :
    openCount (frame :: stack) rule start =
      stack.openCount rule start + if frame.rule = rule ∧ frame.start = start then 1 else 0 := by
  simp only [openCount, List.countP_cons, decide_eq_true_eq]

/-- The part of a stack from the outermost frame of a chosen rule outwards. -/
def outermost? (chosen : RuleId → Bool) : CallStack → Option CallStack
  | [] => none
  | frame :: outer =>
    match outermost? chosen outer with
    | some found => some found
    | none => if chosen frame.rule then some (frame :: outer) else none

end CallStack

end CodeCompletion
