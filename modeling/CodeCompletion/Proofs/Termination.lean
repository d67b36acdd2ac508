import CodeCompletion.Proofs.Build
import CodeCompletion.Proofs.Requests
import Mathlib.Data.Set.Finite.Basic

/-!
# Walks end

The walk of every accepted request comes to its end, whatever the network, the tokens and
the options are. The depth limit plays no part in this. What bounds a walk is that a rule
is open from a token on no more often than the tokens before the caret can feed, or than
the request itself has it open.

## Main definitions

* `Progress.Explored`: the configurations that a walk has taken up so far

## Main results

* `Query.openCount_le_of_rounds`, `Query.index_le_of_rounds`: the bounds in every round
* `Query.finite_explored`: only finitely many configurations are ever explored
* `Query.rounds_end_of_answer`: all this for every accepted request
-/

set_option autoImplicit false

namespace CodeCompletion

/-- The walk has taken up the configuration. -/
def Progress.Explored (progress : Progress) (config : Config) : Prop :=
  ∃ visit ∈ progress.visited, progress.table.Denotes visit config

/-- The values of a predicate that has finitely many form a finite set. -/
theorem FinitelyMany.set_finite {α : Type} {P : α → Prop} (h : FinitelyMany P) :
    {a | P a}.Finite := by
  obtain ⟨values, hvalues⟩ := h
  exact values.finite_toSet.subset hvalues

namespace Query

variable {query : Query} {caret : ℕ} {first : Config}

/-- However far a walk has gone, none of the stacks it has numbered holds more calls of a
rule from a token on than there were at first, or than the tokens from there to the caret
can feed and one more. -/
theorem openCount_le_of_rounds (hindex : first.index ≤ query.tokens.size) (n : ℕ)
    {entry : StackEntry} (hentry : entry ∈ (query.rounds caret first n).table.entries)
    (rule : RuleId) (start : ℕ) :
    entry.stack.openCount rule start ≤
      max (first.stack.openCount rule start) (caret - start + 1) := by
  obtain ⟨number, hnumber⟩ := Array.mem_iff_getElem?.mp hentry
  exact ((sound_rounds caret hindex n).admissible number entry hnumber).openCount_le rule start

theorem index_le_of_rounds (hindex : first.index ≤ query.tokens.size) (n : ℕ) {visit : Visit}
    (hvisit : visit ∈ (query.rounds caret first n).visited) :
    visit.index ≤ query.tokens.size :=
  ((sound_rounds caret hindex n).visited visit hvisit).2

/-- Only finitely many configurations are ever explored. -/
theorem finite_explored (caret : ℕ) (hindex : first.index ≤ query.tokens.size) :
    {config | ∃ n, (query.rounds caret first n).Explored config}.Finite := by
  -- State, index and stack range over finitely many values each.
  have hmany := (finitelyMany_stateId.prod (.prod (.nat_le query.tokens.size)
    (finitelyMany_admissible query.tokens.size caret first.stack))).map
    fun c => Config.mk c.1 c.2.1 c.2.2
  refine hmany.set_finite.subset ?_
  rintro ⟨state, index, stack⟩ ⟨n, visit, hvisit, hstate, hi, entry, hentry, hstack⟩
  have hsound := sound_rounds caret hindex n
  refine ⟨(state, index, stack), ⟨trivial, ?_, ?_⟩, rfl⟩
  · exact Nat.le_trans (Nat.le_of_eq hi.symm) (hsound.visited visit hvisit).2
  · have hadmissible := hsound.admissible _ entry hentry
    rwa [hstack] at hadmissible

/-- The walk of an accepted request ends: after some round nothing waits, and the answer is
read off there. In every round the open calls and the indices are bounded, and only finitely
many configurations are ever explored. -/
theorem rounds_end_of_answer {request : Request} {outcome : Outcome}
    (h : query.answer request = .ok outcome) :
    ∃ first, query.first? request = some first ∧
      (∃ n, (query.rounds request.caret first n).pending = [] ∧
        query.outcomeAfter request.caret first n = outcome) ∧
      (∀ n, ∀ entry ∈ (query.rounds request.caret first n).table.entries, ∀ rule start,
        entry.stack.openCount rule start ≤
          max (first.stack.openCount rule start) (request.caret - start + 1)) ∧
      (∀ n, ∀ visit ∈ (query.rounds request.caret first n).visited,
        visit.index ≤ query.tokens.size) ∧
      {config | ∃ n, (query.rounds request.caret first n).Explored config}.Finite := by
  obtain ⟨first, hindex, hfirst, -, -, hwalk⟩ := exists_walk_of_answer h
  obtain ⟨n, hdone, hlast⟩ := exists_walk_eq request.caret hindex
  refine ⟨first, hfirst, ⟨n, hdone, hlast.symm.trans hwalk⟩, ?_, ?_, ?_⟩
  · intro n entry hentry rule start
    exact openCount_le_of_rounds hindex n hentry rule start
  · intro n visit hvisit
    exact index_le_of_rounds hindex n hvisit
  · exact finite_explored request.caret hindex

/-- A parser inside a left-recursive list, entered from a token that is not there, with
items to step over and no limit of depth to speak of. -/
theorem rounds_end_of_answer_itemList :
    let query := itemQuery ((({} : Options).preloading [⟨0⟩]).limitingDepth (UInt64.size - 1))
    ∃ outcome first, query.answer (.parser ⟨0⟩ [⟨⟨0⟩, 7, none⟩, ⟨⟨0⟩, 1, some ⟨2⟩⟩] 1) =
        .ok outcome ∧
      ∃ n, (query.rounds 1 first n).pending = [] ∧ query.outcomeAfter 1 first n = outcome := by
  intro query
  have hstate : query.network.state? ⟨0⟩ =
      some ⟨⟨⟨0⟩, .entry⟩, [⟨.call ⟨0⟩, ⟨2⟩⟩, ⟨.epsilon, ⟨1⟩⟩]⟩ := by
    decide +kernel
  have hstack : query.parserStack ⟨0⟩ ⟨0⟩ [⟨⟨0⟩, 7, none⟩, ⟨⟨0⟩, 1, some ⟨2⟩⟩] =
      .ok [⟨⟨0⟩, 1, some ⟨2⟩⟩, ⟨⟨0⟩, 7, none⟩] := by
    decide +kernel
  have hok : query.answer (.parser ⟨0⟩ [⟨⟨0⟩, 7, none⟩, ⟨⟨0⟩, 1, some ⟨2⟩⟩] 1) = .ok _ :=
    collect_eq_ok_iff.mpr ⟨by decide, _, _, rfl, hstate, hstack, rfl⟩
  obtain ⟨first, -, hend, -⟩ := rounds_end_of_answer hok
  exact ⟨_, first, hok, hend⟩

end Query

end CodeCompletion
