/-!
# Identifiers

States, rules, terminals and predicates of a grammar network are numbered by 32-bit
words. Each kind of number is a type of its own, so that a rule is never taken for a
state.

## Main definitions

* `StateId`, `RuleId`, `TerminalId`, `PredicateId`: the four kinds of number, written
  `s3`, `r1`, `t2` and `p0`
* `StateId.ofIndex` and its companions: the number of the item at a position, the
  largest number standing for every position beyond it
* `TerminalId.wildcard`: the terminal that stands for "any token"
-/

set_option autoImplicit false

namespace CodeCompletion

/-- The word that numbers the item at a position. Positions beyond the last word share
that word. -/
def wordOfIndex (position : Nat) : UInt32 :=
  UInt32.ofNat (min position 4294967295)

theorem toNat_wordOfIndex (position : Nat) :
    (wordOfIndex position).toNat = min position 4294967295 := by
  simp only [wordOfIndex, UInt32.toNat_ofNat']
  omega

theorem wordOfIndex_toNat (word : UInt32) : wordOfIndex word.toNat = word := by
  have hlt := word.toNat_lt
  rw [← UInt32.toNat_inj, toNat_wordOfIndex]
  omega

/-- A state of the network. -/
@[ext]
structure StateId where
  raw : UInt32
deriving DecidableEq

namespace StateId

/-- The position of the state in the network's table of states. -/
def index (state : StateId) : Nat := state.raw.toNat

/-- The state at a position. -/
def ofIndex (position : Nat) : StateId := ⟨wordOfIndex position⟩

instance : ToString StateId := ⟨fun state => s!"s{state.index}"⟩

instance : Ord StateId := ⟨compareOn StateId.raw⟩

instance : Std.TransOrd StateId := inferInstanceAs (Std.TransCmp (compareOn StateId.raw))

instance : Std.LawfulEqOrd StateId where
  eq_of_compare h := StateId.ext (Std.LawfulEqOrd.eq_of_compare h)

theorem index_ofIndex (position : Nat) : (ofIndex position).index = min position 4294967295 :=
  toNat_wordOfIndex position

theorem ofIndex_index (state : StateId) : ofIndex state.index = state :=
  StateId.ext (wordOfIndex_toNat state.raw)

theorem index_le (state : StateId) : state.index ≤ 4294967295 :=
  Nat.le_of_lt_succ state.raw.toNat_lt

end StateId

/-- A rule of the grammar. -/
@[ext]
structure RuleId where
  raw : UInt32
deriving DecidableEq

namespace RuleId

/-- The position of the rule in the network's table of rules. -/
def index (rule : RuleId) : Nat := rule.raw.toNat

/-- The rule at a position. -/
def ofIndex (position : Nat) : RuleId := ⟨wordOfIndex position⟩

instance : ToString RuleId := ⟨fun rule => s!"r{rule.index}"⟩

instance : Ord RuleId := ⟨compareOn RuleId.raw⟩

instance : Std.TransOrd RuleId := inferInstanceAs (Std.TransCmp (compareOn RuleId.raw))

instance : Std.LawfulEqOrd RuleId where
  eq_of_compare h := RuleId.ext (Std.LawfulEqOrd.eq_of_compare h)

theorem index_ofIndex (position : Nat) : (ofIndex position).index = min position 4294967295 :=
  toNat_wordOfIndex position

theorem ofIndex_index (rule : RuleId) : ofIndex rule.index = rule :=
  RuleId.ext (wordOfIndex_toNat rule.raw)

end RuleId

/-- A terminal of the grammar, that is, a type of token. -/
@[ext]
structure TerminalId where
  raw : UInt32
deriving DecidableEq

namespace TerminalId

/-- The position of the terminal in the vocabulary. -/
def index (terminal : TerminalId) : Nat := terminal.raw.toNat

/-- The terminal at a position. -/
def ofIndex (position : Nat) : TerminalId := ⟨wordOfIndex position⟩

/-- The terminal that is offered where any token may follow. No vocabulary names it. -/
def wildcard : TerminalId := ⟨4294967295⟩

/-- Whether the terminal is `wildcard`. -/
def isWildcard (terminal : TerminalId) : Bool := terminal == wildcard

instance : ToString TerminalId := ⟨fun terminal => s!"t{terminal.index}"⟩

instance : Ord TerminalId := ⟨compareOn TerminalId.raw⟩

instance : Std.TransOrd TerminalId := inferInstanceAs (Std.TransCmp (compareOn TerminalId.raw))

instance : Std.LawfulEqOrd TerminalId where
  eq_of_compare h := TerminalId.ext (Std.LawfulEqOrd.eq_of_compare h)

theorem index_ofIndex (position : Nat) : (ofIndex position).index = min position 4294967295 :=
  toNat_wordOfIndex position

end TerminalId

/-- A semantic predicate, decided by the host when a completion is asked for. -/
@[ext]
structure PredicateId where
  raw : UInt32
deriving DecidableEq

namespace PredicateId

/-- The number of the predicate. -/
def index (predicate : PredicateId) : Nat := predicate.raw.toNat

instance : ToString PredicateId := ⟨fun predicate => s!"p{predicate.index}"⟩

end PredicateId

end CodeCompletion
