import CodeCompletion.Proofs.Steps
import CodeCompletion.Proofs.Tally

/-!
# Continuing a replay at the caret

A replay comes to the caret in many configurations at once. Each of them is one that a
parser could report: its calls are nested, so that the checks on a parser's calls let them
pass, and asking there continues the replay from that configuration alone. All these
answers together are the answer of the replay.

## Main definitions

* `Network.Nested`: every open call returns into the call around it
* `Config.Placed`: the calls are nested, and the state belongs to the innermost
* `Query.Continues`: an answer asked for where a replay has come to the caret

## Main results

* `Query.Reaches.placed`: all along a walk from a placed configuration the configurations
  are placed
* `Query.collect_of_placed`: a placed configuration is accepted as the state of a parser
* `Query.Reaches.exists_at_caret`: what lies beyond the caret is reached through it
* `Query.collectFromRule_continues`: the answers at the caret make up the answer of the replay
-/

set_option autoImplicit false

namespace CodeCompletion

/-! ## Nested calls -/

/-- The outermost call returns nowhere, and every other one into the rule of the call around
it. -/
inductive Network.Nested (network : Network) : CallStack → Prop
  | outermost {rule : RuleId} {start : ℕ} (hrule : network.hasRule rule) :
      Nested network [⟨rule, start, none⟩]
  | inside {rule : RuleId} {start : ℕ} {resume : StateId} {caller : Frame} {outer : CallStack}
      (hrule : network.hasRule rule) (hresume : network.Owns caller.rule resume)
      (houter : Nested network (caller :: outer)) :
      Nested network (⟨rule, start, some resume⟩ :: caller :: outer)

theorem Network.hasRule_of_entry {network : Network} {rule : RuleId} {entry : StateId}
    (hentry : network.entry? rule = some entry) : network.hasRule rule := by
  obtain ⟨known, hknown, -⟩ := Option.map_eq_some_iff.mp hentry
  exact decide_eq_true (Array.getElem?_eq_some_iff.mp hknown).1

/-- The calls are nested, and the innermost is of the rule that the state belongs to. -/
structure Config.Placed (network : Network) (config : Config) : Prop where
  nested : network.Nested config.stack
  owned : ∃ innermost outer, config.stack = innermost :: outer ∧
    network.Owns innermost.rule config.state

namespace Config

variable {network : Network} {config : Config} {draft : Draft}

theorem placed_entry (hbuild : draft.build = .ok network) {rule : RuleId} {entry : StateId}
    (hentry : network.entry? rule = some entry) (start : ℕ) :
    Placed network ⟨entry, start, [⟨rule, start, none⟩]⟩ where
  nested := .outermost (Network.hasRule_of_entry hentry)
  owned := ⟨_, _, rfl, Draft.owns_entry_of_build hbuild hentry⟩

/-- Along an edge the calls stay as they are and the state stays in the rule. -/
theorem Placed.along (hplaced : config.Placed network) (hbuild : draft.build = .ok network)
    {label : Label} {target : StateId} (hedge : network.HasEdge config.state label target)
    (index : ℕ) : Placed network ⟨target, index, config.stack⟩ := by
  obtain ⟨innermost, outer, hstack, howned⟩ := hplaced.owned
  exact ⟨hplaced.nested, innermost, outer, hstack, Draft.owns_target_of_build hbuild hedge howned⟩

theorem Placed.stack_ne_nil (hplaced : config.Placed network) : config.stack ≠ [] := by
  obtain ⟨innermost, outer, hstack, -⟩ := hplaced.owned
  exact hstack ▸ List.cons_ne_nil _ _

end Config

namespace Query

variable {query : Query} {caret : ℕ} {first config config' : Config} {draft : Draft}

theorem Leads.placed (hbuild : draft.build = .ok query.network)
    (hplaced : config.Placed query.network) (h : query.Leads caret config config') :
    config'.Placed query.network := by
  obtain ⟨move, hmove, rfl⟩ := h
  cases Moves.of_mem_step hmove with
  | pass hedge _ => exact hplaced.along hbuild hedge config.index
  | advance hedge _ _ _ => exact hplaced.along hbuild hedge (config.index + 1)
  | skip hcalls _ _ => exact hplaced.along hbuild hcalls.edge config.index
  | enter hcalls _ =>
    obtain ⟨innermost, outer, hstack, howned⟩ := hplaced.owned
    have hnested := hplaced.nested
    -- The callee returns to the target of the edge, a state of the calling rule.
    refine ⟨?_, _, _, rfl, Draft.owns_entry_of_build hbuild hcalls.entry⟩
    rw [hstack] at hnested
    simp only [Config.after, hstack]
    exact .inside (Network.hasRule_of_entry hcalls.entry)
      (Draft.owns_target_of_build hbuild hcalls.edge howned) hnested
  | @leave rule start resume caller outer _ hstack =>
    have htail : config.stack.tail = caller :: outer := congrArg List.tail hstack
    have hnested := hplaced.nested
    rw [hstack] at hnested
    cases hnested with
    | inside _ hresume houter =>
      refine ⟨?_, caller, outer, htail, hresume⟩
      simpa only [Config.after, htail] using houter

theorem Reaches.placed (hbuild : draft.build = .ok query.network)
    (hfirst : first.Placed query.network) (h : query.Reaches caret first config) :
    config.Placed query.network := by
  induction h with
  | refl => exact hfirst
  | tail _ hleads ih => exact hleads.placed hbuild ih

/-! ## Nested calls as those of a parser -/

/-- Nested calls are put on the stack one after the other, without any misfit. -/
theorem openCalls_reverse_append {stack : CallStack} (h : query.network.Nested stack)
    (rest : List Frame) :
    query.openCalls [] (stack.reverse ++ rest) = query.openCalls stack rest := by
  induction h generalizing rest with
  | outermost hrule =>
    rw [List.reverse_singleton, List.singleton_append, openCalls, if_pos hrule]
  | @inside rule start resume caller outer hrule hresume _ ih =>
    obtain ⟨known, hknown, hsame⟩ := hresume
    have hcheck : query.checkReturn caller.rule ⟨rule, start, some resume⟩ = .ok () := by
      simp only [checkReturn, hknown, if_pos hsame]
    rw [List.reverse_cons, List.append_assoc, List.singleton_append, ih, openCalls, if_pos hrule]
    simp only [hcheck]

theorem parserStack_reverse {start : StateId} {rule : RuleId} {innermost : Frame}
    {outer : CallStack} (h : query.network.Nested (innermost :: outer))
    (hrule : innermost.rule = rule) :
    query.parserStack start rule (innermost :: outer).reverse = .ok (innermost :: outer) := by
  have hopen := openCalls_reverse_append h []
  rw [List.append_nil, openCalls] at hopen
  simp only [parserStack, hopen, if_pos hrule]

/-- A placed configuration is accepted as the state of a parser, and the walk begins in it. -/
theorem collect_of_placed (hcheck : query.checkPreferred = .ok ())
    (hindex : config.index ≤ query.tokens.size) (hplaced : config.Placed query.network) :
    query.collect config.state config.stack.reverse config.index =
      .ok (query.walk config.index config hindex) := by
  obtain ⟨innermost, outer, hstack, known, hknown, hrule⟩ := hplaced.owned
  have hnested := hplaced.nested
  rw [hstack] at hnested
  obtain ⟨state, index, stack⟩ := config
  obtain rfl : stack = innermost :: outer := hstack
  exact collect_eq_ok_iff.mpr ⟨hindex, known, _, hcheck, hknown,
    parserStack_reverse hnested hrule.symm, rfl⟩

/-! ## Through the caret -/

/-- A step passes one token at most. -/
theorem Leads.index_le (h : query.Leads caret config config') :
    config'.index ≤ config.index + 1 := by
  obtain ⟨move, -, rfl⟩ := h
  cases move with
  | advance => exact Nat.le_refl _
  | goto | enter | leave => exact Nat.le_succ _

/-- What lies beyond the caret is reached through a configuration at the caret. -/
theorem Reaches.exists_at_caret (hfirst : first.index ≤ caret)
    (h : query.Reaches caret first config) (hcaret : caret ≤ config.index) :
    ∃ middle, query.Reaches caret first middle ∧ middle.index = caret ∧
      query.Reaches caret middle config := by
  induction h with
  | refl => exact ⟨first, .refl, Nat.le_antisymm hfirst hcaret, .refl⟩
  | @tail before after hreach hleads ih =>
    by_cases hbefore : caret ≤ before.index
    · obtain ⟨middle, hmiddle, hindex, hrest⟩ := ih hbefore
      exact ⟨middle, hmiddle, hindex, hrest.tail hleads⟩
    · -- This step comes to the caret.
      have hstep := hleads.index_le
      exact ⟨after, hreach.tail hleads, by omega, .refl⟩

theorem Reports.caret_le {finding : Finding} (h : query.Reports caret config finding) :
    caret ≤ config.index := by
  cases h with
  | terminals _ _ hcaret _ => exact hcaret
  | rule _ _ hcaret _ => exact hcaret

/-- A walk finds what the walks from its configurations at the caret find. -/
theorem finds_iff_exists_at_caret (hfirst : first.index ≤ caret) {finding : Finding} :
    query.Finds caret first finding ↔
      ∃ middle, query.Reaches caret first middle ∧ middle.index = caret ∧
        query.Finds caret middle finding := by
  constructor
  · rintro ⟨config, hreach, hreport⟩
    obtain ⟨middle, hmiddle, hindex, hrest⟩ :=
      hreach.exists_at_caret hfirst (Reports.of_mem_step hreport).caret_le
    exact ⟨middle, hmiddle, hindex, config, hrest, hreport⟩
  · rintro ⟨middle, hmiddle, -, config, hrest, hreport⟩
    exact ⟨config, hmiddle.trans hrest, hreport⟩

/-! ## The answers at the caret -/

/-- An answer that is asked for where a walk from `first` has come to the caret. -/
def Continues (query : Query) (caret : ℕ) (first : Config) (outcome : Outcome) : Prop :=
  ∃ config, query.Explores caret first config ∧ config.index = caret ∧
    query.collect config.state config.stack.reverse caret = .ok outcome

section

variable (hbuild : draft.build = .ok query.network) (hcheck : query.checkPreferred = .ok ())
  (hplaced : first.Placed query.network) (hcaret : caret ≤ query.tokens.size)
include hbuild hcheck hplaced hcaret

theorem collect_of_reaches {middle : Config} (hmiddle : query.Reaches caret first middle)
    (hindex : middle.index = caret) :
    ∃ hsize, query.collect middle.state middle.stack.reverse caret =
      .ok (query.walk caret middle hsize) := by
  subst hindex
  exact ⟨hcaret, collect_of_placed hcheck hcaret (hmiddle.placed hbuild hplaced)⟩

/-- The answers at the caret find together what the walk finds. -/
theorem exists_continues_iff (hfirst : first.index ≤ caret) {holds : Outcome → Prop}
    {brings : Finding → Prop}
    (hholds : ∀ (config : Config) (hsize : config.index ≤ query.tokens.size), config.stack ≠ [] →
      (holds (query.walk caret config hsize) ↔
        ∃ finding, query.Finds caret config finding ∧ brings finding)) :
    (∃ finding, query.Finds caret first finding ∧ brings finding) ↔
      ∃ inner, query.Continues caret first inner ∧ holds inner := by
  have hexplores : ∀ {config}, query.Explores caret first config ↔
      query.Reaches caret first config :=
    explores_iff (Nat.le_trans hfirst hcaret) hplaced.stack_ne_nil
  constructor
  · rintro ⟨finding, hfinds, hbrings⟩
    obtain ⟨middle, hmiddle, hindex, hfound⟩ := (finds_iff_exists_at_caret hfirst).mp hfinds
    obtain ⟨hsize, hcollect⟩ := collect_of_reaches hbuild hcheck hplaced hcaret hmiddle hindex
    have hstack := (hmiddle.placed hbuild hplaced).stack_ne_nil
    exact ⟨_, ⟨middle, hexplores.mpr hmiddle, hindex, hcollect⟩,
      (hholds middle hsize hstack).mpr ⟨finding, hfound, hbrings⟩⟩
  · rintro ⟨inner, ⟨middle, hexplored, hindex, hanswer⟩, hinner⟩
    have hmiddle := hexplores.mp hexplored
    obtain ⟨hsize, hcollect⟩ := collect_of_reaches hbuild hcheck hplaced hcaret hmiddle hindex
    obtain rfl := Except.ok.inj (hcollect.symm.trans hanswer)
    have hstack := (hmiddle.placed hbuild hplaced).stack_ne_nil
    obtain ⟨finding, hfound, hbrings⟩ := (hholds middle hsize hstack).mp hinner
    exact ⟨finding, (finds_iff_exists_at_caret hfirst).mpr ⟨middle, hmiddle, hindex, hfound⟩,
      hbrings⟩

end

/-- Wherever a replay comes to the caret, its configuration is accepted as the state of a
parser. The answers given there are, taken together, the answer of the replay. -/
theorem collectFromRule_continues {rule : RuleId} {start : ℕ} {outcome : Outcome}
    (hbuild : draft.build = .ok query.network)
    (hreplay : query.collectFromRule rule start caret = .ok outcome) :
    ∃ first, query.first? (.replay rule start caret) = some first ∧
      (∀ config, query.Explores caret first config → config.index = caret →
        ∃ inner, query.collect config.state config.stack.reverse caret = .ok inner) ∧
      (∀ terminal path, outcome.candidates.hasToken terminal path ↔
        ∃ inner, query.Continues caret first inner ∧ inner.candidates.hasToken terminal path) ∧
      ∀ rule path, outcome.candidates.hasRule rule path ↔
        ∃ inner, query.Continues caret first inner ∧ inner.candidates.hasRule rule path := by
  obtain ⟨hcaret, hstart, entry, hcheck, hentry, rfl⟩ := collectFromRule_eq_ok_iff.mp hreplay
  have hplaced := Config.placed_entry hbuild hentry start
  have hindex := Nat.le_trans hstart hcaret
  refine ⟨⟨entry, start, [⟨rule, start, none⟩]⟩, by rw [first?, hentry]; rfl, ?_, ?_, ?_⟩
  · intro config hexplored hat
    have hreach := (explores_iff hindex (List.cons_ne_nil _ _)).mp hexplored
    obtain ⟨hsize, hcollect⟩ := collect_of_reaches hbuild hcheck hplaced hcaret hreach hat
    exact ⟨_, hcollect⟩
  · intro terminal path
    rw [hasToken_walk_iff hindex (List.cons_ne_nil _ _)]
    exact exists_continues_iff hbuild hcheck hplaced hcaret hstart
      fun _ hsize hstack => hasToken_walk_iff hsize hstack
  · intro rule path
    rw [hasRule_walk_iff hindex (List.cons_ne_nil _ _)]
    exact exists_continues_iff hbuild hcheck hplaced hcaret hstart
      fun _ hsize hstack => hasRule_walk_iff hsize hstack

/-- The replay of one item comes to the caret at the end of a list inside a list. A parser may
report this place, and the next item is offered by one that does. -/
theorem collectFromRule_continues_itemList :
    let first : Config := ⟨⟨0⟩, 0, [⟨⟨0⟩, 0, none⟩]⟩
    let middle : Config := ⟨⟨1⟩, 1, [⟨⟨0⟩, 0, some ⟨2⟩⟩, ⟨⟨0⟩, 0, none⟩]⟩
    ∃ outcome, (itemQuery {}).collectFromRule ⟨0⟩ 0 1 = .ok outcome ∧
      (itemQuery {}).Explores 1 first middle ∧
      (∃ inner, (itemQuery {}).collect middle.state middle.stack.reverse 1 = .ok inner) ∧
      outcome.candidates.hasToken ⟨0⟩ [⟨0⟩] ∧
      ∃ inner, (itemQuery {}).Continues 1 first inner ∧
        inner.candidates.hasToken ⟨0⟩ [⟨0⟩] := by
  intro first middle
  have hok : (itemQuery {}).collectFromRule ⟨0⟩ 0 1 =
      .ok ((itemQuery {}).outcomeAfter 1 first 9) :=
    collectFromRule_eq_outcome (by decide) (by decide) rfl rfl (by decide +kernel)
  have hmiddle : (itemQuery {}).Explores 1 first middle :=
    explores_of_taking (by decide) (by decide) (n := 3) (by decide +kernel)
  have htoken : ((itemQuery {}).outcomeAfter 1 first 9).candidates.hasToken ⟨0⟩ [⟨0⟩] := by
    decide +kernel
  obtain ⟨first', hfirst, haccepted, htokens, -⟩ :=
    collectFromRule_continues build_listDraft_epsilon hok
  obtain rfl : first' = first := (Option.some.inj hfirst).symm
  exact ⟨_, hok, hmiddle, haccepted middle hmiddle rfl, htoken, (htokens _ _).mp htoken⟩

end Query

end CodeCompletion
