import CodeCompletion.CallStack.Basic
import Std.Data.ExtTreeMap

/-!
# Numbered call stacks

A walk meets the same call stack many times. A table gives each stack that is built in
it a number, the same number for the same stack, so that stacks can be compared by
number. A stack is built by putting a frame on a stack that already has a number.

## Main definitions

* `Link`: a frame put on a numbered stack
* `StackTable`: the stacks numbered so far
* `StackTable.push`: the number of a stack with one more frame
* `StackTable.pushAll`: the number of a stack built from its outermost frame inwards
* `StackTable.Valid`: what holds of every table made by pushing on known stacks

## Main results

* `StackTable.Valid.push`: pushing on a known stack keeps a table valid
* `StackTable.Valid.stackOf_push`, `StackTable.stackOf_push_of_lt`: the number returned
  denotes the longer stack, and older numbers denote what they did before
* `StackTable.Valid.stack_injective`: different numbers denote different stacks
-/

set_option autoImplicit false

namespace CodeCompletion

/-- A frame put on a numbered stack, or on no stack. -/
@[ext]
structure Link where
  outer? : Option Nat
  frame : Frame
deriving DecidableEq

namespace Link

instance : Ord Link := ⟨compareLex (compareOn outer?) (compareOn frame)⟩

instance : Std.TransOrd Link :=
  inferInstanceAs (Std.TransCmp (compareLex (compareOn outer?) (compareOn frame)))

instance : Std.LawfulEqOrd Link where
  eq_of_compare h := by
    obtain ⟨houter, hframe⟩ := compareLex_eq_eq.1 h
    exact Link.ext (Std.LawfulEqOrd.eq_of_compare houter)
      (Std.LawfulEqOrd.eq_of_compare hframe)

end Link

/-- A numbered stack: how it was made, and the stack as a whole. -/
structure StackEntry extends Link where
  stack : CallStack
deriving DecidableEq

/-- Call stacks with numbers. `numbers` finds the number of a stack by the way it is
made. -/
structure StackTable where
  entries : Array StackEntry := #[]
  numbers : Std.ExtTreeMap Link Nat := ∅

namespace StackTable

/-- The number of stacks in the table. -/
def size (table : StackTable) : Nat := table.entries.size

/-- The stack with a given number. No number denotes the stack without frames. -/
def stackOf (table : StackTable) : Option Nat → CallStack
  | none => []
  | some number => (table.entries[number]?.map StackEntry.stack).getD []

/-- The number of the stack around the innermost frame of a numbered stack. -/
def outer? (table : StackTable) (number : Nat) : Option Nat :=
  table.entries[number]?.bind fun entry => entry.outer?

/-- The number of the stack made by putting `frame` on a numbered stack. -/
def push (table : StackTable) (outer? : Option Nat) (frame : Frame) : Nat × StackTable :=
  match table.numbers[Link.mk outer? frame]? with
  | some number => (number, table)
  | none =>
    let number := table.entries.size
    (number, {
      entries := table.entries.push ⟨⟨outer?, frame⟩, frame :: table.stackOf outer?⟩
      numbers := table.numbers.insert ⟨outer?, frame⟩ number })

/-- The number of a stack given from its outermost frame inwards, on top of a numbered
stack. -/
def pushAll (table : StackTable) (outer? : Option Nat) : List Frame → Option Nat × StackTable
  | [] => (outer?, table)
  | frame :: rest =>
    let (number, table) := table.push outer? frame
    table.pushAll (some number) rest

/-- What holds of every table made by pushing on known stacks. -/
structure Valid (table : StackTable) : Prop where
  /-- A number is found exactly under the link that it was made of. -/
  numbers_iff : ∀ (link : Link) (number : Nat), table.numbers[link]? = some number ↔
    ∃ entry, table.entries[number]? = some entry ∧ entry.toLink = link
  /-- The stack around a frame is older than the stack. -/
  outer_lt : ∀ (number : Nat) (entry : StackEntry) (outer : Nat),
    table.entries[number]? = some entry → entry.outer? = some outer → outer < number
  /-- The stack of an entry is its frame on its outer stack. -/
  stack_eq : ∀ (number : Nat) (entry : StackEntry), table.entries[number]? = some entry →
    entry.stack = entry.frame :: table.stackOf entry.outer?

theorem valid_empty : Valid {} where
  numbers_iff _ _ := by simp
  outer_lt _ _ _ h := by simp at h
  stack_eq _ _ h := by simp at h

/-- A number that is in use, or none. -/
def Knows (table : StackTable) (outer? : Option Nat) : Prop :=
  ∀ outer, outer? = some outer → outer < table.size

theorem stackOf_some {table : StackTable} {number : Nat} {entry : StackEntry}
    (h : table.entries[number]? = some entry) : table.stackOf (some number) = entry.stack := by
  simp [stackOf, h]

theorem lt_size {table : StackTable} {number : Nat} {entry : StackEntry}
    (h : table.entries[number]? = some entry) : number < table.size :=
  (Array.getElem?_eq_some_iff.1 h).1

/-- Pushing keeps what is in the table. -/
theorem entries_push_of_eq_some {table : StackTable} {outer? : Option Nat} {frame : Frame}
    {number : Nat} {entry : StackEntry} (h : table.entries[number]? = some entry) :
    (table.push outer? frame).2.entries[number]? = some entry := by
  unfold push
  split
  · exact h
  · have := lt_size h
    simp only [size] at this
    simp [Array.getElem?_push, Nat.ne_of_lt this, h]

theorem size_le_push (table : StackTable) (outer? : Option Nat) (frame : Frame) :
    table.size ≤ (table.push outer? frame).2.size := by
  unfold push
  split <;> simp [size]

/-- Pushing does not change what older numbers denote. -/
theorem stackOf_push_of_lt {table : StackTable} {below : Option Nat} (hb : table.Knows below)
    (outer? : Option Nat) (frame : Frame) :
    (table.push outer? frame).2.stackOf below = table.stackOf below := by
  cases below with
  | none => rfl
  | some number =>
    have hn : number < table.entries.size := hb number rfl
    have he := Array.getElem?_eq_getElem hn
    rw [stackOf_some (entries_push_of_eq_some he), stackOf_some he]

/-- The entry under the number that a push returns. -/
theorem Valid.entry_push {table : StackTable} (h : table.Valid) (outer? : Option Nat)
    (frame : Frame) :
    (table.push outer? frame).2.entries[(table.push outer? frame).1]? =
      some ⟨⟨outer?, frame⟩, frame :: table.stackOf outer?⟩ := by
  unfold push
  split
  · next number hn =>
    obtain ⟨⟨link, stack⟩, he, rfl⟩ := (h.numbers_iff _ _).1 hn
    rw [he, ← h.stack_eq _ _ he]
  · simp

/-- The number that a push returns denotes the longer stack. -/
theorem Valid.stackOf_push {table : StackTable} (h : table.Valid) (outer? : Option Nat)
    (frame : Frame) : (table.push outer? frame).2.stackOf (some (table.push outer? frame).1) =
      frame :: table.stackOf outer? :=
  stackOf_some (h.entry_push outer? frame)

/-- Pushing on a known stack keeps a table valid. -/
theorem Valid.push {table : StackTable} (h : table.Valid) {outer? : Option Nat}
    (ho : table.Knows outer?) (frame : Frame) : (table.push outer? frame).2.Valid := by
  have hstack : ∀ below, table.Knows below →
      (table.push outer? frame).2.stackOf below = table.stackOf below :=
    fun _ hb => stackOf_push_of_lt hb outer? frame
  unfold StackTable.push at hstack ⊢
  split
  · exact h
  -- The link is new, so the number of entries is a new number.
  · next hnone =>
    simp only [hnone] at hstack
    refine ⟨fun link number => ?_, fun number entry outer he hout => ?_,
      fun number entry he => ?_⟩
    · rw [Std.ExtTreeMap.getElem?_insert]
      by_cases hlink : Link.mk outer? frame = link
      · subst hlink
        simp only [Std.ReflCmp.compare_self, if_true, Option.some.injEq]
        constructor
        · rintro rfl
          exact ⟨⟨⟨outer?, frame⟩, frame :: table.stackOf outer?⟩, by simp, rfl⟩
        · rintro ⟨entry, he, hentry⟩
          rw [Array.getElem?_push] at he
          split at he
          · next hn => exact hn.symm
          · exact absurd ((h.numbers_iff _ _).2 ⟨entry, he, hentry⟩) (by simp [hnone])
      · simp only [Std.LawfulEqCmp.compare_eq_iff_eq, hlink, if_false, h.numbers_iff]
        constructor
        · rintro ⟨entry, he, hentry⟩
          have hlt : number < table.entries.size := lt_size he
          exact ⟨entry, by simp [Array.getElem?_push, Nat.ne_of_lt hlt, he], hentry⟩
        · rintro ⟨entry, he, hentry⟩
          rw [Array.getElem?_push] at he
          split at he
          · obtain rfl := Option.some.inj he
            exact absurd hentry hlink
          · exact ⟨entry, he, hentry⟩
    · rw [Array.getElem?_push] at he
      split at he
      · next hn =>
        obtain rfl := Option.some.inj he
        exact hn ▸ ho outer hout
      · exact h.outer_lt _ _ _ he hout
    · rw [Array.getElem?_push] at he
      split at he
      · obtain rfl := Option.some.inj he
        simp only [List.cons.injEq, true_and]
        exact (hstack _ ho).symm
      · rw [h.stack_eq _ _ he]
        refine congrArg _ (hstack _ fun outer hout => ?_).symm
        exact Nat.lt_trans (h.outer_lt _ _ _ he hout) (lt_size he)

/-- The stack of an entry is the frame of the entry on the stack of an older entry, or
alone. -/
theorem Valid.stack_cases {table : StackTable} (h : table.Valid) {number : Nat}
    {entry : StackEntry} (he : table.entries[number]? = some entry) :
    (entry.outer? = none ∧ entry.stack = [entry.frame]) ∨
      ∃ outer below, entry.outer? = some outer ∧ outer < number ∧
        table.entries[outer]? = some below ∧ entry.stack = entry.frame :: below.stack := by
  have hs := h.stack_eq _ _ he
  cases ho : entry.outer? with
  | none => exact .inl ⟨rfl, by rw [hs, ho]; rfl⟩
  | some outer =>
    have hlt := h.outer_lt _ _ _ he ho
    have hin : outer < table.entries.size := Nat.lt_trans hlt (lt_size he)
    have hb := Array.getElem?_eq_getElem hin
    exact .inr ⟨outer, _, rfl, hlt, hb, by rw [hs, ho, stackOf_some hb]⟩

/-- A numbered stack has at least one frame. -/
theorem Valid.stack_ne_nil {table : StackTable} (h : table.Valid) {number : Nat}
    {entry : StackEntry} (he : table.entries[number]? = some entry) : entry.stack ≠ [] := by
  rw [h.stack_eq _ _ he]
  exact List.cons_ne_nil _ _

/-- Different numbers denote different stacks. -/
theorem Valid.stack_injective {table : StackTable} (h : table.Valid) {i j : Nat}
    {a b : StackEntry} (ha : table.entries[i]? = some a) (hb : table.entries[j]? = some b)
    (hab : a.stack = b.stack) : i = j := by
  -- On the number: outer stacks have smaller ones, and equal links have one number.
  induction i using Nat.strongRecOn generalizing j a b with
  | ind i ih =>
    have hlink : a.toLink = b.toLink := by
      rcases h.stack_cases ha with ⟨hao, has⟩ | ⟨p, c, hao, hp, hc, has⟩ <;>
        rcases h.stack_cases hb with ⟨hbo, hbs⟩ | ⟨q, d, hbo, hq, hd, hbs⟩
      · rw [has, hbs] at hab
        exact Link.ext (hao.trans hbo.symm) (List.cons.inj hab).1
      · rw [has, hbs] at hab
        exact absurd (List.cons.inj hab).2.symm (h.stack_ne_nil hd)
      · rw [has, hbs] at hab
        exact absurd (List.cons.inj hab).2 (h.stack_ne_nil hc)
      · rw [has, hbs] at hab
        obtain ⟨hf, hs⟩ := List.cons.inj hab
        obtain rfl := ih p hp hc hd hs
        exact Link.ext (hao.trans hbo.symm) hf
    have hi := (h.numbers_iff a.toLink i).2 ⟨a, ha, rfl⟩
    have hj := (h.numbers_iff a.toLink j).2 ⟨b, hb, hlink.symm⟩
    exact Option.some.inj (hi.symm.trans hj)

end StackTable

end CodeCompletion
