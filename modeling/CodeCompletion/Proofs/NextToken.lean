import CodeCompletion.Proofs.Completeness
import CodeCompletion.Proofs.Soundness
import CodeCompletion.Proofs.Tally

/-!
# What is offered and what is read

What a replay offers at the caret and what it reads there are decided in two ways. Offers
list the terminals of a label, a complement over the vocabulary and "any" as the wildcard; a
token is read if the label accepts it. Over tokens of the vocabulary the two agree: a replay
gets past a token exactly if a replay up to it offers the token or the wildcard. The longer
replay cuts left recursion later, but neither of the two cuts off a state at the caret.

## Main definitions

* `Label.Within`, `Network.Within`: labels that name terminals of the vocabulary only
* `Query.Meets`: a free run comes to the caret where an edge leaves

## Main results

* `Label.matches_iff_offers`: a token of the vocabulary fits a label exactly if the label
  offers it or the wildcard
* `Query.mem_terminals_walk_iff`: a replay offers what the edges at the caret offer
* `Query.exists_reaches_succ_iff`: a replay reads what the edges at the caret match
* `Query.explores_next_iff_offered`: replays to carets one token apart agree
-/

set_option autoImplicit false

namespace CodeCompletion

/-- The wildcard is no terminal of a vocabulary that leaves its number free. -/
theorem Vocabulary.wildcard_not_mem_terminalIds {vocabulary : Vocabulary}
    (hsize : vocabulary.terminals.size < 4294967295) : .wildcard ∉ vocabulary.terminalIds := by
  intro hmem
  obtain ⟨position, hposition, hwildcard⟩ := List.mem_map.mp hmem
  have hindex := congrArg TerminalId.index hwildcard
  have hlast : TerminalId.wildcard.index = 4294967295 := rfl
  rw [TerminalId.index_ofIndex, hlast] at hindex
  have hless := List.mem_range.mp hposition
  omega

namespace Label

variable {label : Label} {vocabulary : Vocabulary}

/-- The terminals that the label asks for by name are in the vocabulary. -/
def Within (vocabulary : Vocabulary) : Label → Prop
  | token terminal => terminal ∈ vocabulary.terminalIds
  | oneOf set => ∀ terminal ∈ set.toList, terminal ∈ vocabulary.terminalIds
  | noneOf _ | any | epsilon | call _ | guard _ => True

instance : (label : Label) → Decidable (label.Within vocabulary)
  | token terminal => inferInstanceAs (Decidable (terminal ∈ vocabulary.terminalIds))
  | oneOf set => inferInstanceAs (Decidable (∀ terminal ∈ set.toList, _))
  | noneOf _ | any | epsilon | call _ | guard _ => inferInstanceAs (Decidable True)

/-- A token of the vocabulary fits a label exactly if the label offers it or the wildcard. -/
theorem matches_iff_offers {token : TerminalId} (hlabel : label.Within vocabulary)
    (hsize : vocabulary.terminals.size < 4294967295) (htoken : token ∈ vocabulary.terminalIds) :
    label.Matches token ↔ label.Offers vocabulary token ∨ label.Offers vocabulary .wildcard := by
  have hwildcard := Vocabulary.wildcard_not_mem_terminalIds hsize
  have hne : token ≠ .wildcard := fun heq => hwildcard (heq ▸ htoken)
  cases label with
  | token expected =>
    -- The wildcard is not asked for by name.
    have hexpected : TerminalId.wildcard ≠ expected := fun heq => hwildcard (heq ▸ hlabel)
    simp only [Matches, Offers, hexpected, or_false]
  | oneOf set =>
    have hset : TerminalId.wildcard ∉ set.toList := fun hmem => hwildcard (hlabel _ hmem)
    simp only [Matches, Offers, hset, or_false]
  | noneOf set => simp only [Matches, Offers, hne, htoken, hwildcard, false_and, or_false, ne_eq,
      not_false_eq_true, true_and]
  | any => simp only [Matches, Offers, or_true]
  | epsilon | call _ | guard _ => simp only [Matches, Offers, or_self]

end Label

/-- The terminals that the labels ask for by name are in the vocabulary. -/
def Network.Within (network : Network) : Prop :=
  ∀ state ∈ network.states, ∀ edge ∈ state.edges, edge.label.Within network.vocabulary

instance (network : Network) : Decidable network.Within :=
  inferInstanceAs (Decidable (∀ state ∈ network.states, ∀ edge ∈ state.edges, _))

theorem Network.Within.of_hasEdge {network : Network} (h : network.Within)
    {source target : StateId} {label : Label} (hedge : network.HasEdge source label target) :
    label.Within network.vocabulary := by
  obtain ⟨state, hstate, hmem⟩ := hedge
  exact h state (Array.mem_of_getElem? hstate) _ hmem

namespace Query

variable {query : Query} {caret : ℕ} {first config : Config} {draft : Draft} {label : Label}
  {rule : RuleId} {entry : StateId} {start : ℕ}

/-- A free run from `first` comes to the caret where an edge with the label leaves. -/
def Meets (query : Query) (caret : ℕ) (first : Config) (label : Label) : Prop :=
  ∃ site stack target, query.FreeRun first ⟨site, caret, stack⟩ ∧
    query.network.HasEdge site label target

/-- A free run that gets past the caret has read the token there. -/
theorem FreeRun.exists_meets (hfirst : first.index ≤ caret) (h : query.FreeRun first config)
    (hpast : caret < config.index) :
    ∃ label token, query.Meets caret first label ∧ query.tokens[caret]? = some token ∧
      label.Matches token := by
  induction h with
  | refl => exact absurd hpast (Nat.not_lt.mpr hfirst)
  | @tail before after hrun hstep ih =>
    by_cases hbefore : caret < before.index
    · exact ih hbefore
    · -- The run passes the caret in this step, which reads a token.
      cases hstep with
      | @read state index stack label target token hedge htoken hmatches =>
        obtain rfl : index = caret :=
          Nat.le_antisymm (Nat.not_lt.mp hbefore) (Nat.le_of_lt_succ hpast)
        exact ⟨label, token, ⟨state, stack, target, hrun, hedge⟩, htoken, hmatches⟩
      | pass | call | finish => exact absurd hpast hbefore

section Replay

variable (hbuild : draft.build = .ok query.network) (hsets : query.network.Ascending)
  (hconsents : ∀ predicate, query.consents predicate)
  (hpreferred : query.options.preferred = ∅) (hpreloaded : query.options.preloaded = ∅)
  (hentry : query.network.entry? rule = some entry) (hstart : start ≤ caret)
include hbuild hsets hconsents hpreferred hpreloaded hentry hstart

/-- A replay that gave up no call for its depth offers what the edges offer that free runs meet
at the caret. -/
theorem mem_terminals_walk_iff (hignored : query.options.ignored = ∅)
    (hindex : start ≤ query.tokens.size)
    (hpruned : (query.walk caret ⟨entry, start, [⟨rule, start, none⟩]⟩ hindex).depthPruned = 0)
    (terminal : TerminalId) :
    terminal ∈ (query.walk caret ⟨entry, start, [⟨rule, start, none⟩]⟩
        hindex).candidates.terminals ↔
      ∃ label, query.Meets caret ⟨entry, start, [⟨rule, start, none⟩]⟩ label ∧
        label.Offers query.network.vocabulary terminal := by
  have hstack : [(⟨rule, start, none⟩ : Frame)] ≠ [] := List.cons_ne_nil _ _
  refine (grounded_walk hindex hstack).mem_terminals_iff.trans
    ((exists_congr fun path => hasToken_walk_iff hindex hstack).trans ?_)
  constructor
  · rintro ⟨path, finding, hfinds, hbrings⟩
    obtain ⟨⟨site, index, stack⟩, label, target, hoffering, -⟩ :=
      offered_of_finds hbuild hsets hconsents hstart hfinds hbrings
    obtain rfl : index = caret :=
      Nat.le_antisymm (hoffering.preloaded.index_le hpreloaded) hoffering.caret_le
    exact ⟨label, ⟨site, stack, target, hoffering.run, hoffering.edge⟩, hoffering.offers⟩
  · rintro ⟨label, ⟨site, stack, target, hrun, hedge⟩, hoffers⟩
    have hdepth := neverTooDeep_of_depthPruned hindex hstack hpruned
    obtain ⟨inner, hreach⟩ :=
      exists_reaches_of_freeRun hbuild hsets hpreferred hentry hdepth hrun
    have hstays : ¬ query.StepsOver caret label := by
      rintro ⟨token, -, -, htoken⟩
      simp [hpreloaded] at htoken
    obtain ⟨finding, hreport, hbrings⟩ := exists_report_of_offers ⟨site, caret, inner⟩
      (Draft.stopsFinal_of_build hbuild) hpreferred hedge hoffers (Nat.le_refl _) hstays
      (by simp [hignored])
    exact ⟨_, finding, ⟨_, hreach, hreport⟩, hbrings⟩

omit hpreloaded in
/-- A replay that gave up no call for its depth comes to its caret exactly if some edge that a
free run meets one token before fits the token there. -/
theorem exists_reaches_succ_iff
    (hdepth : query.NeverTooDeep (caret + 1) ⟨entry, start, [⟨rule, start, none⟩]⟩) :
    (∃ config, query.Reaches (caret + 1) ⟨entry, start, [⟨rule, start, none⟩]⟩ config ∧
        config.index = caret + 1) ↔
      ∃ label token, query.Meets caret ⟨entry, start, [⟨rule, start, none⟩]⟩ label ∧
        query.tokens[caret]? = some token ∧ label.Matches token := by
  constructor
  · rintro ⟨config, hreach, hnext⟩
    have hrun := hreach.freeRun hbuild hsets hconsents
    exact hrun.exists_meets hstart (hnext ▸ Nat.lt_succ_self caret)
  · rintro ⟨label, token, ⟨site, stack, target, hrun, hedge⟩, htoken, hmatches⟩
    have hread := hrun.tail (.read hedge htoken hmatches)
    obtain ⟨inner, hreach⟩ :=
      exists_reaches_of_freeRun hbuild hsets hpreferred hentry hdepth hread
    exact ⟨_, hreach, rfl⟩

/-- Over tokens of the vocabulary, a replay gets past the token at `caret` exactly if the replay
that stops there offers this token or the wildcard. -/
theorem explores_next_iff_offered (hwithin : query.network.Within)
    (hsize : query.network.vocabulary.terminals.size < 4294967295)
    (htokens : ∀ token ∈ query.tokens, token ∈ query.network.vocabulary.terminalIds)
    (hignored : query.options.ignored = ∅) (hcaret : caret < query.tokens.size) :
    ∃ near far, query.collectFromRule rule start caret = .ok near ∧
      query.collectFromRule rule start (caret + 1) = .ok far ∧
      (near.depthPruned = 0 → far.depthPruned = 0 →
        ((∃ config, query.Explores (caret + 1) ⟨entry, start, [⟨rule, start, none⟩]⟩ config ∧
            config.index = caret + 1) ↔
          query.tokens[caret] ∈ near.candidates.terminals ∨
            .wildcard ∈ near.candidates.terminals)) := by
  have hindex : start ≤ query.tokens.size := Nat.le_trans hstart (Nat.le_of_lt hcaret)
  have hcheck := checkPreferred_eq_ok hpreferred
  refine ⟨_, _,
    collectFromRule_eq_ok_iff.mpr ⟨Nat.le_of_lt hcaret, hstart, entry, hcheck, hentry, rfl⟩,
    collectFromRule_eq_ok_iff.mpr ⟨hcaret, Nat.le_succ_of_le hstart, entry, hcheck, hentry, rfl⟩,
    fun hnear hfar => ?_⟩
  have htoken : query.tokens[caret] ∈ query.network.vocabulary.terminalIds :=
    htokens _ (Array.getElem_mem hcaret)
  have hfits : ∀ {label}, query.Meets caret ⟨entry, start, [⟨rule, start, none⟩]⟩ label →
      (label.Matches query.tokens[caret] ↔
        label.Offers query.network.vocabulary query.tokens[caret] ∨
          label.Offers query.network.vocabulary .wildcard) := by
    rintro label ⟨site, stack, target, -, hedge⟩
    exact Label.matches_iff_offers (hwithin.of_hasEdge hedge) hsize htoken
  have hoffered := mem_terminals_walk_iff hbuild hsets hconsents hpreferred hpreloaded hentry
    hstart hignored hindex hnear
  have hnext := (exists_congr fun config => and_congr_left' (explores_iff hindex
    (List.cons_ne_nil _ _))).trans (exists_reaches_succ_iff hbuild hsets hconsents hpreferred
      hentry hstart (neverTooDeep_of_depthPruned hindex (List.cons_ne_nil _ _) hfar))
  rw [hnext, hoffered, hoffered]
  constructor
  · rintro ⟨label, token, hmeets, hread, hmatches⟩
    obtain ⟨_, rfl⟩ := Array.getElem?_eq_some_iff.mp hread
    rcases (hfits hmeets).mp hmatches with hoffers | hoffers
    · exact Or.inl ⟨label, hmeets, hoffers⟩
    · exact Or.inr ⟨label, hmeets, hoffers⟩
  · rintro (⟨label, hmeets, hoffers⟩ | ⟨label, hmeets, hoffers⟩)
    · exact ⟨label, _, hmeets, Array.getElem?_eq_getElem hcaret,
        (hfits hmeets).mpr (Or.inl hoffers)⟩
    · exact ⟨label, _, hmeets, Array.getElem?_eq_getElem hcaret,
        (hfits hmeets).mpr (Or.inr hoffers)⟩

end Replay

/-- After one item of a list the next one is offered, and the replay that goes on reads it. -/
theorem explores_next_iff_offered_itemList :
    let query := itemQuery {}
    let first : Config := ⟨⟨0⟩, 0, [⟨⟨0⟩, 0, none⟩]⟩
    ∃ near far, query.collectFromRule ⟨0⟩ 0 1 = .ok near ∧
      query.collectFromRule ⟨0⟩ 0 2 = .ok far ∧ near.depthPruned = 0 ∧ far.depthPruned = 0 ∧
      0 < near.recursionCut ∧ query.tokens[1]? = some ⟨0⟩ ∧ ⟨0⟩ ∈ near.candidates.terminals ∧
      ∃ config, query.Explores 2 first config ∧ config.index = 2 := by
  intro query first
  have hsets : query.network.Ascending := by decide +kernel
  have hwithin : query.network.Within := by decide +kernel
  have hentry : query.network.entry? ⟨0⟩ = some ⟨0⟩ := rfl
  have htokens : ∀ token ∈ query.tokens, token ∈ query.network.vocabulary.terminalIds := by
    decide +kernel
  have hnear : query.collectFromRule ⟨0⟩ 0 1 = .ok (query.outcomeAfter 1 first 9) :=
    collectFromRule_eq_outcome (by decide) (by decide) rfl rfl (by decide +kernel)
  have hfar : query.collectFromRule ⟨0⟩ 0 2 = .ok (query.outcomeAfter 2 first 17) :=
    collectFromRule_eq_outcome (by decide) (by decide) rfl rfl (by decide +kernel)
  obtain ⟨near, far, hnear', hfar', hiff⟩ := explores_next_iff_offered build_listDraft_epsilon
    hsets (fun _ => rfl) rfl rfl hentry (Nat.zero_le 1) hwithin (by decide) htokens rfl (by decide)
  obtain rfl := Except.ok.inj (hnear.symm.trans hnear')
  obtain rfl := Except.ok.inj (hfar.symm.trans hfar')
  have hpruned : (query.outcomeAfter 1 first 9).depthPruned = 0 := by decide +kernel
  have hpruned' : (query.outcomeAfter 2 first 17).depthPruned = 0 := by decide +kernel
  have hoffered : ⟨0⟩ ∈ (query.outcomeAfter 1 first 9).candidates.terminals := by
    decide +kernel
  exact ⟨_, _, hnear, hfar, hpruned, hpruned', by decide +kernel, rfl, hoffered,
    (hiff hpruned hpruned').mpr (Or.inl hoffered)⟩

end Query

end CodeCompletion
