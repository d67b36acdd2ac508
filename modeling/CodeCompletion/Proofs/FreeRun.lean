import CodeCompletion.Proofs.TerminalSet
import CodeCompletion.Walk.Step
import Mathlib.Logic.Relation

/-!
# Free runs

A free run goes through the network as a parser with a stack of calls may go. It reads
the tokens of the stream one after the other, and it knows neither a caret nor any of the
limits of a walk: no call is given up for its depth or for left recursion, and nothing is
remembered of where the run has been.

Whether a token fits a label, and which terminals a label offers, is said here by plain
membership in the label's set.

## Main definitions

* `Label.Matches`, `Label.Offers`: the tokens that a label asks for, and the terminals that
  it proposes
* `Network.Ascending`: all sets on edges ascend
* `Network.HasEdge`, `Network.IsStop`: the network as a graph
* `Network.StopsFinal`: no edge leaves a stop state
* `Query.FreeStep`, `Query.FreeRun`: one step of a free run, and free runs

## Main results

* `Label.accepts_iff`, `Label.mem_offered_iff`: bisection does not show on ascending sets
* `Query.FreeStep.index_le`: a free run never goes back in the tokens
-/

set_option autoImplicit false

namespace CodeCompletion

namespace Label

variable {label : Label} {terminal : TerminalId} {vocabulary : Vocabulary}

/-- The label asks for a token, and `terminal` is a type of token that it asks for. The
wildcard is no type of token, so it is not outside a set either. -/
def Matches (terminal : TerminalId) : Label → Prop
  | token expected => terminal = expected
  | oneOf set => terminal ∈ set.toList
  | noneOf set => terminal ≠ .wildcard ∧ terminal ∉ set.toList
  | any => True
  | epsilon | call _ | guard _ => False

/-- The label asks for a token, and `terminal` is among those that it proposes. -/
def Offers (vocabulary : Vocabulary) (terminal : TerminalId) : Label → Prop
  | token expected => terminal = expected
  | oneOf set => terminal ∈ set.toList
  | noneOf set => terminal ∈ vocabulary.terminalIds ∧ terminal ∉ set.toList
  | any => terminal = .wildcard
  | epsilon | call _ | guard _ => False

/-- The set of the label, if it has one, ascends. -/
def Ascending : Label → Prop
  | oneOf set | noneOf set => set.Ascending
  | token _ | any | epsilon | call _ | guard _ => True

instance : (label : Label) → Decidable label.Ascending
  | oneOf set | noneOf set => inferInstanceAs (Decidable set.Ascending)
  | token _ | any | epsilon | call _ | guard _ => inferInstanceAs (Decidable True)

theorem accepts_iff (h : label.Ascending) : label.accepts terminal ↔ label.Matches terminal := by
  cases label with
  | token expected => simp [accepts, Matches, eq_comm (a := expected)]
  | oneOf set => exact TerminalSet.Ascending.contains_iff h
  | noneOf set =>
    have hset : set.Ascending := h
    simp [accepts, Matches, TerminalId.isWildcard, ← hset.contains_iff]
  | any => simp [accepts, Matches]
  | epsilon | call _ | guard _ => simp [accepts, Matches]

theorem mem_offered_iff (h : label.Ascending) :
    terminal ∈ label.offered vocabulary ↔ label.Offers vocabulary terminal := by
  cases label with
  | noneOf set =>
    have hset : set.Ascending := h
    simp [offered, Offers, ← hset.contains_iff]
  | _ => simp [offered, Offers]

/-- Whether or not its set ascends, a label lists all that it proposes. -/
theorem Offers.mem_offered (h : label.Offers vocabulary terminal) :
    terminal ∈ label.offered vocabulary := by
  cases label with
  | noneOf set =>
    refine List.mem_filter.mpr ⟨h.1, ?_⟩
    simpa using mt TerminalSet.mem_of_contains h.2
  | token _ | any => exact List.mem_singleton.mpr h
  | oneOf _ => exact h
  | epsilon | call _ | guard _ => exact h.elim

/-- Only an edge that asks for a token offers any. -/
theorem consumes_of_mem_offered (h : terminal ∈ label.offered vocabulary) : label.consumes := by
  cases label with
  | token _ | oneOf _ | noneOf _ | any => rfl
  | epsilon | call _ | guard _ => exact absurd h List.not_mem_nil

theorem Offers.consumes (h : label.Offers vocabulary terminal) : label.consumes :=
  consumes_of_mem_offered h.mem_offered

end Label

namespace Network

variable {network : Network} {source target : StateId} {label : Label}

/-- All sets on edges ascend. -/
def Ascending (network : Network) : Prop :=
  ∀ state ∈ network.states, ∀ edge ∈ state.edges, edge.label.Ascending

instance (network : Network) : Decidable network.Ascending :=
  inferInstanceAs (Decidable (∀ state ∈ network.states, ∀ edge ∈ state.edges, _))

/-- An edge with the given label leads from `source` to `target`. -/
def HasEdge (network : Network) (source : StateId) (label : Label) (target : StateId) : Prop :=
  ∃ state, network.state? source = some state ∧ ⟨label, target⟩ ∈ state.edges

instance : Decidable (network.HasEdge source label target) :=
  match h : network.state? source with
  | none => isFalse (by simp [HasEdge, h])
  | some state => decidable_of_iff (⟨label, target⟩ ∈ state.edges) (by simp [HasEdge, h])

/-- The state ends its rule. -/
def IsStop (network : Network) (state : StateId) : Prop :=
  ∃ known, network.state? state = some known ∧ known.isStop

instance (network : Network) (state : StateId) : Decidable (network.IsStop state) :=
  match h : network.state? state with
  | none => isFalse (by simp [IsStop, h])
  | some known => decidable_of_iff (known.isStop = true) (by simp [IsStop, h])

/-- No edge leaves a stop state. -/
def StopsFinal (network : Network) : Prop :=
  ∀ source label target, network.HasEdge source label target → ¬ network.IsStop source

theorem Ascending.of_hasEdge (h : network.Ascending) (hedge : network.HasEdge source label target) :
    label.Ascending := by
  obtain ⟨state, hstate, hmem⟩ := hedge
  exact h state (Array.mem_of_getElem? hstate) _ hmem

end Network

namespace Query

variable {query : Query} {config config' : Config}

/-- The label is passed without a token and without a call. -/
def Passes (query : Query) : Label → Prop
  | .epsilon => True
  | .guard predicate => query.consents predicate
  | .token _ | .oneOf _ | .noneOf _ | .any | .call _ => False

/-- One step of a free run. -/
inductive FreeStep (query : Query) : Config → Config → Prop
  /-- Along an epsilon edge, or past a guard that the host consents to. -/
  | pass {state : StateId} {index : ℕ} {stack : CallStack} {label : Label} {target : StateId}
      (hedge : query.network.HasEdge state label target) (hpasses : query.Passes label) :
      FreeStep query ⟨state, index, stack⟩ ⟨target, index, stack⟩
  /-- Past the next token of the stream, if it is one that the edge asks for. -/
  | read {state : StateId} {index : ℕ} {stack : CallStack} {label : Label} {target : StateId}
      {token : TerminalId} (hedge : query.network.HasEdge state label target)
      (htoken : query.tokens[index]? = some token) (hmatches : label.Matches token) :
      FreeStep query ⟨state, index, stack⟩ ⟨target, index + 1, stack⟩
  /-- Into a called rule. -/
  | call {state : StateId} {index : ℕ} {stack : CallStack} {rule : RuleId} {entry target : StateId}
      (hedge : query.network.HasEdge state (.call rule) target)
      (hentry : query.network.entry? rule = some entry) :
      FreeStep query ⟨state, index, stack⟩ ⟨entry, index, ⟨rule, index, some target⟩ :: stack⟩
  /-- Back from a called rule to its caller. -/
  | finish {state : StateId} {index : ℕ} {rule : RuleId} {start : ℕ} {resume : StateId}
      {caller : Frame} {outer : CallStack} (hstop : query.network.IsStop state) :
      FreeStep query ⟨state, index, ⟨rule, start, some resume⟩ :: caller :: outer⟩
        ⟨resume, index, caller :: outer⟩

/-- A free run from one configuration to another. -/
def FreeRun (query : Query) : Config → Config → Prop :=
  Relation.ReflTransGen query.FreeStep

theorem FreeStep.index_le (h : query.FreeStep config config') : config.index ≤ config'.index := by
  cases h with
  | read => exact Nat.le_succ _
  | pass | call | finish => exact Nat.le_refl _

end Query

end CodeCompletion
