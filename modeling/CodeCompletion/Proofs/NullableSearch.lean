import CodeCompletion.Proofs.Continuation
import CodeCompletion.Proofs.Rearrangement
import CodeCompletion.Proofs.SetOrder
import CodeCompletion.Proofs.Soundness

/-!
# Nullable rules, rule by rule

Which rules are nullable can also be found out one rule at a time. From the entry of a rule a
search goes along epsilon edges, guards, and calls of rules that are known to be nullable, until
it comes upon a stop state. A rule for which this succeeds is known from then on, also to the
searches that follow, and the rules are tried again until no further one becomes known. Neither
the order in which the rules are tried nor the order of edges shows in the result: it is what
the marking of states yields, and what runs without a token show.

## Main definitions

* `Network.silentTargets`, `Network.seeksStop`: the search for a stop state
* `Network.tryRule`, `Network.tryRules`: one rule tried, and all of them in some order
* `Network.withoutTokens`: the network, asked without any token

## Main results

* `Network.exists_waiting_eq_nil`: every search ends
* `Network.seeksStop_iff`: a search succeeds exactly if a stop state is within its reach
* `Network.exists_tryRules_eq_nullable`: trying the rules in whatever order ends with the
  nullable ones
* `Network.silentFinish_of_freeRun`: a run that ends as it began has passed a rule in silence
* `Provenance.isNullable_iff_freeRun`: the nullable rules of every network
-/

set_option autoImplicit false

namespace CodeCompletion

/-- Whether the label is passed in silence, if calls of the rules marked in `known` are. -/
def Label.passesGiven (known : Array Bool) : Label → Bool
  | epsilon | guard _ => true
  | call rule => known[rule.index]?.getD false
  | token _ | oneOf _ | noneOf _ | any => false

theorem Label.passesGiven_iff {known : Array Bool} {label : Label} :
    label.passesGiven known ↔
      label.IsSilent ∨ ∃ rule, label = .call rule ∧ known[rule.index]? = some true := by
  cases label with
  | call rule => cases hrule : known[rule.index]? <;> simp [passesGiven, IsSilent, hrule]
  | _ => simp [passesGiven, IsSilent]

/-- If every pass leaves marks as they are or fewer places without, marks come to rest. -/
theorem exists_iterate_fixed {pass : Array Bool → Array Bool}
    (hpass : ∀ marks, pass marks = marks ∨ (pass marks).count false < marks.count false)
    (marks : Array Bool) :
    ∃ n ≤ marks.count false, pass (pass^[n] marks) = pass^[n] marks := by
  induction hcount : marks.count false using Nat.strongRecOn generalizing marks with
  | ind count ih =>
    subst hcount
    rcases hpass marks with hfixed | hless
    · exact ⟨0, Nat.zero_le _, hfixed⟩
    · obtain ⟨n, hn, hfixed⟩ := ih _ hless (pass marks) rfl
      exact ⟨n + 1, Nat.lt_of_le_of_lt hn hless, hfixed⟩

namespace Network

variable {network network' : Network} {known : Array Bool} {search : Search StateId}
  {state target : StateId}

/-! ## The search for a stop state -/

/-- The states to which a state leads in silence, those of later edges first. -/
def silentTargets (network : Network) (known : Array Bool) (id : StateId) : List StateId :=
  match network.state? id with
  | none => []
  | some state =>
    ((state.edges.filter fun edge => edge.label.passesGiven known).map Edge.target).reverse

theorem mem_silentTargets_iff : target ∈ network.silentTargets known state ↔
    ∃ label, network.HasEdge state label target ∧ label.passesGiven known := by
  unfold silentTargets HasEdge
  cases network.state? state with
  | none => simp
  | some found =>
    simp only [List.mem_reverse, List.mem_map, List.mem_filter, Option.some.injEq,
      exists_eq_left']
    constructor
    · rintro ⟨⟨label, _⟩, ⟨hmem, hpasses⟩, rfl⟩
      exact ⟨label, hmem, hpasses⟩
    · rintro ⟨label, hmem, hpasses⟩
      exact ⟨⟨label, target⟩, ⟨hmem, hpasses⟩, rfl⟩

/-- The positions of states that a search has not taken up. -/
def unseen (network : Network) (taken : List StateId) : Finset ℕ :=
  {position ∈ Finset.range network.states.size | .ofIndex position ∉ taken}

theorem unseen_concat_subset (taken : List StateId) (id : StateId) :
    network.unseen (taken ++ [id]) ⊆ network.unseen taken := by
  refine Finset.monotone_filter_right _ fun position _ hunseen => ?_
  exact mt (List.mem_append_left _) hunseen

/-- Taking up one more state of the network leaves fewer unseen. -/
theorem card_unseen_concat_lt {taken : List StateId} {found : State} {id : StateId}
    (hstate : network.state? id = some found) (hnew : id ∉ taken) :
    (network.unseen (taken ++ [id])).card < (network.unseen taken).card := by
  have hlt : id.index < network.states.size := (Array.getElem?_eq_some_iff.mp hstate).1
  apply Finset.card_lt_card
  rw [Finset.ssubset_iff_of_subset (unseen_concat_subset taken id)]
  refine ⟨id.index, Finset.mem_filter.mpr ⟨Finset.mem_range.mpr hlt, ?_⟩, ?_⟩
  · rwa [StateId.ofIndex_index]
  · simp [unseen, StateId.ofIndex_index]

/-- A round of the search leaves fewer states unseen, or as many and fewer waiting. -/
theorem round_lt {id : StateId} {rest : List StateId} (known : Array Bool)
    (hwaiting : search.waiting = id :: rest) :
    Prod.Lex (· < ·) (· < ·)
      ((network.unseen (search.round (network.silentTargets known)).taken).card,
        (search.round (network.silentTargets known)).waiting.length)
      ((network.unseen search.taken).card, search.waiting.length) := by
  obtain ⟨taken, waiting⟩ := search
  obtain rfl : waiting = id :: rest := hwaiting
  by_cases htaken : id ∈ taken
  · simp only [Search.round, if_pos htaken]
    exact Prod.Lex.right _ (Nat.lt_succ_self _)
  · simp only [Search.round, if_neg htaken]
    cases hstate : network.state? id with
    | some found => exact Prod.Lex.left _ _ (card_unseen_concat_lt hstate htaken)
    | none =>
      -- What is no state of the network leads nowhere.
      have hnone : network.silentTargets known id = [] := by simp [silentTargets, hstate]
      rw [hnone]
      rcases Nat.lt_or_eq_of_le (Finset.card_le_card (unseen_concat_subset taken id)) with
        hless | hsame
      · exact Prod.Lex.left _ _ hless
      · rw [hsame]
        exact Prod.Lex.right _ (Nat.lt_succ_self _)

/-- Every search ends. -/
theorem exists_waiting_eq_nil (network : Network) (known : Array Bool) (search : Search StateId) :
    ∃ n, ((Search.round (network.silentTargets known))^[n] search).waiting = [] := by
  induction hmeasure : ((network.unseen search.taken).card, search.waiting.length) using
    (Prod.lex Nat.lt_wfRel Nat.lt_wfRel).wf.induction generalizing search with
  | _ measure ih =>
    cases hwaiting : search.waiting with
    | nil => exact ⟨0, hwaiting⟩
    | cons id rest =>
      obtain ⟨n, hn⟩ := ih _ (hmeasure ▸ network.round_lt known hwaiting) _ rfl
      exact ⟨n + 1, hn⟩

/-- Go on with a search until it takes up a stop state or nothing waits. -/
def seeksStop (network : Network) (known : Array Bool) (search : Search StateId) : Bool :=
  match _ : search.waiting with
  | [] => false
  | id :: _ =>
    if id ∉ search.taken ∧ network.IsStop id then true
    else network.seeksStop known (search.round (network.silentTargets known))
termination_by ((network.unseen search.taken).card, search.waiting.length)
decreasing_by exact network.round_lt known ‹_›

/-- What the edges passed in silence lead to. -/
def GoesSilently (network : Network) (known : Array Bool) : StateId → StateId → Prop :=
  Relation.ReflTransGen fun state target => target ∈ network.silentTargets known state

theorem GoesSilently.along {label : Label} {stop : StateId}
    (hedge : network.HasEdge state label target)
    (hpasses : label.IsSilent ∨ ∃ rule, label = .call rule ∧ known[rule.index]? = some true)
    (h : network.GoesSilently known target stop) : network.GoesSilently known state stop :=
  .head (mem_silentTargets_iff.mpr ⟨label, hedge, Label.passesGiven_iff.mpr hpasses⟩) h

/-- A search that has taken up no stop state yet succeeds exactly if one is within reach. -/
theorem seeksStop_iff_of_covers {entry : StateId}
    (hcovers : search.Covers (network.silentTargets known) entry)
    (hnone : ∀ id ∈ search.taken, ¬ network.IsStop id) :
    network.seeksStop known search ↔
      ∃ stop, network.GoesSilently known entry stop ∧ network.IsStop stop := by
  fun_induction network.seeksStop known search with
  | case1 search hwaiting =>
    -- Everything within reach has been taken up.
    simp only [Bool.false_eq_true, false_iff, not_exists, not_and]
    intro stop hreach
    exact hnone stop ((hcovers.mem_taken_iff hwaiting stop).mpr hreach)
  | case2 search id rest hwaiting hstop =>
    simp only [true_iff]
    exact ⟨id, hcovers.reached id (Or.inr (hwaiting ▸ List.mem_cons_self)), hstop.2⟩
  | case3 search id rest hwaiting hgo ih =>
    refine ih hcovers.round fun other hother => ?_
    unfold Search.round at hother
    rw [hwaiting] at hother
    dsimp only at hother
    split at hother
    · exact hnone other hother
    · next hnew =>
      rcases List.mem_append.mp hother with hother | hother
      · exact hnone other hother
      · rw [List.mem_singleton.mp hother]
        exact fun hstop => hgo ⟨hnew, hstop⟩

/-- A search from a state succeeds exactly if a stop state is within reach. -/
theorem seeksStop_iff {entry : StateId} : network.seeksStop known (.start entry) ↔
    ∃ stop, network.GoesSilently known entry stop ∧ network.IsStop stop :=
  seeksStop_iff_of_covers (Search.covers_start _ _) fun _ h => absurd h List.not_mem_nil

/-! ## Trying the rules -/

/-- Try the rule at `position`: unless it is known to be nullable, look for a stop state. -/
def tryRule (network : Network) (known : Array Bool) (position : ℕ) : Array Bool :=
  if known[position]? = some false ∧ network.rules[position]?.any fun rule =>
      network.seeksStop known (.start rule.entry) then
    known.setIfInBounds position true
  else
    known

/-- Try the rules at all positions in the given order, each with what is known by then. -/
def tryRules (network : Network) (order : List ℕ) (known : Array Bool) : Array Bool :=
  order.foldl network.tryRule known

/-- Every rule known to be nullable can be passed in silence. -/
def SoundRules (network : Network) (known : Array Bool) : Prop :=
  ∀ position : ℕ, known[position]? = some true →
    ∃ rule : Rule, network.rules[position]? = some rule ∧ network.SilentFinish rule.entry

/-- No rule for which a search would succeed is unknown. -/
def ClosedRules (network : Network) (known : Array Bool) : Prop :=
  ∀ (position : ℕ) (rule : Rule), network.rules[position]? = some rule →
    network.seeksStop known (.start rule.entry) → known[position]? = some true

theorem SoundRules.silentFinish (h : network.SoundRules known) {stop : StateId}
    (hreach : network.GoesSilently known state stop) (hstop : network.IsStop stop) :
    network.SilentFinish state := by
  induction hreach using Relation.ReflTransGen.head_induction_on with
  | refl => exact .stop hstop
  | head hstep _ ih =>
    obtain ⟨label, hedge, hpasses⟩ := mem_silentTargets_iff.mp hstep
    rcases Label.passesGiven_iff.mp hpasses with hsilent | ⟨called, rfl, hknown⟩
    · exact .pass hedge hsilent ih
    · obtain ⟨rule, hrule, hfinish⟩ := h called.index hknown
      exact .call hedge (Option.map_eq_some_iff.mpr ⟨rule, hrule, rfl⟩) hfinish ih

theorem ClosedRules.goesSilently (h : network.ClosedRules known)
    (hfinish : network.SilentFinish state) :
    ∃ stop, network.GoesSilently known state stop ∧ network.IsStop stop := by
  induction hfinish with
  | stop hstop => exact ⟨_, .refl, hstop⟩
  | pass hedge hsilent _ ih =>
    obtain ⟨stop, hreach, hstop⟩ := ih
    exact ⟨stop, .along hedge (Or.inl hsilent) hreach, hstop⟩
  | call hedge hentry _ _ ihcalled ih =>
    obtain ⟨stop, hreach, hstop⟩ := ih
    -- The search from the entry of the called rule would succeed, so the rule is known.
    obtain ⟨rule, hrule, rfl⟩ := Option.map_eq_some_iff.mp hentry
    have hknown := h _ rule hrule (seeksStop_iff.mpr ihcalled)
    exact ⟨stop, .along hedge (Or.inr ⟨_, rfl, hknown⟩) hreach, hstop⟩

theorem size_tryRule (known : Array Bool) (position : ℕ) :
    (network.tryRule known position).size = known.size := by
  unfold tryRule
  split <;> simp

theorem tryRule_eq_or_count_lt (network : Network) (position : ℕ) (known : Array Bool) :
    network.tryRule known position = known ∨
      (network.tryRule known position).count false < known.count false := by
  unfold tryRule
  split
  · exact setMark_eq_or_count_lt position known
  · exact Or.inl rfl

theorem SoundRules.tryRule (h : network.SoundRules known) (position : ℕ) :
    network.SoundRules (network.tryRule known position) := by
  unfold Network.tryRule
  split
  · next hfound =>
    intro other hknown
    by_cases hsame : position = other
    · subst hsame
      obtain ⟨rule, hrule, hseeks⟩ := (Option.any_eq_true _ _).mp hfound.2
      obtain ⟨stop, hreach, hstop⟩ := seeksStop_iff.mp hseeks
      exact ⟨rule, hrule, h.silentFinish hreach hstop⟩
    · rw [Array.getElem?_setIfInBounds_ne hsame] at hknown
      exact h other hknown
  · exact h

theorem tryRules_induction {P : Array Bool → Prop} {order : List ℕ} (hstart : P known)
    (htry : ∀ position known, P known → P (network.tryRule known position)) :
    P (network.tryRules order known) := by
  induction order generalizing known with
  | nil => exact hstart
  | cons position rest ih => exact ih (htry position known hstart)

theorem tryRules_eq_or_count_lt (network : Network) (order : List ℕ) (known : Array Bool) :
    (network.tryRules order known = known ∧
        ∀ position ∈ order, network.tryRule known position = known) ∨
      (network.tryRules order known).count false < known.count false := by
  have hfold := foldr_mark_eq_or_count_lt network.tryRule_eq_or_count_lt order.reverse known
  simpa only [List.foldr_reverse, List.mem_reverse, tryRules] using hfold

/-- What is known after all rules have been tried for nothing misses no rule. -/
theorem closedRules_of_fixed {order : List ℕ} (hsize : known.size = network.rules.size)
    (hall : ∀ position, position < network.rules.size → position ∈ order)
    (hfixed : ∀ position ∈ order, network.tryRule known position = known) :
    network.ClosedRules known := by
  intro position rule hrule hseeks
  have hlt : position < network.rules.size := (Array.getElem?_eq_some_iff.mp hrule).1
  have hknown : position < known.size := hsize ▸ hlt
  have htried := hfixed position (hall position hlt)
  rw [tryRule] at htried
  split at htried
  · rw [← htried, Array.getElem?_setIfInBounds_self_of_lt hknown]
  · next hnot =>
    rw [Array.getElem?_eq_getElem hknown] at hnot ⊢
    cases hmark : known[position] with
    | true => rfl
    | false => exact absurd ⟨by rw [hmark], by simp [hrule, hseeks]⟩ hnot

/-- What is sound, and misses no rule, tells which rules are nullable. -/
theorem SoundRules.eq_nullable (hsound : network.SoundRules known)
    (hclosed : network.ClosedRules known) (hsize : known.size = network.rules.size) :
    known = network.toBlueprint.nullable := by
  apply Array.ext_getElem?
  intro position
  rw [Blueprint.nullable, Array.getElem?_map]
  cases hrule : network.rules[position]? with
  | none => exact Array.getElem?_eq_none (hsize ▸ Array.getElem?_eq_none_iff.mp hrule)
  | some rule =>
    have hlt : position < known.size := hsize ▸ (Array.getElem?_eq_some_iff.mp hrule).1
    have hknown : known[position] ↔ known[position]? = some true := by
      rw [Array.getElem?_eq_getElem hlt, Option.some_inj]
    rw [Array.getElem?_eq_getElem hlt, Option.map_some, Option.some_inj, Bool.eq_iff_iff,
      isMarked_silentStates_iff, hknown]
    constructor
    · intro htrue
      obtain ⟨found, hfound, hfinish⟩ := hsound position htrue
      obtain rfl := Option.some.inj (hrule.symm.trans hfound)
      exact hfinish
    · intro hfinish
      exact hclosed position rule hrule (seeksStop_iff.mpr (hclosed.goesSilently hfinish))

/-- What is known at first: no rule. -/
def unknownRules (network : Network) : Array Bool := Array.replicate network.rules.size false

/-- Trying the rules in whatever order, again and again, comes to rest after no more passes than
there are rules, and then exactly the nullable ones are known. -/
theorem exists_tryRules_eq_nullable (network : Network) {order : List ℕ}
    (hall : ∀ position, position < network.rules.size → position ∈ order) :
    ∃ n ≤ network.rules.size,
      network.tryRules order ((network.tryRules order)^[n] network.unknownRules) =
        (network.tryRules order)^[n] network.unknownRules ∧
      (network.tryRules order)^[n] network.unknownRules = network.toBlueprint.nullable := by
  obtain ⟨n, hn, hfixed⟩ := exists_iterate_fixed
    (fun known => (network.tryRules_eq_or_count_lt order known).imp_left And.left)
    network.unknownRules
  have hkept : ∀ k, network.SoundRules ((network.tryRules order)^[k] network.unknownRules) ∧
      ((network.tryRules order)^[k] network.unknownRules).size = network.rules.size := by
    intro k
    induction k with
    | zero =>
      refine ⟨fun position htrue => ?_, Array.size_replicate⟩
      rw [Function.iterate_zero_apply, unknownRules, Array.getElem?_replicate] at htrue
      split at htrue <;> simp at htrue
    | succ k ih =>
      rw [Function.iterate_succ_apply']
      refine tryRules_induction (P := fun known => network.SoundRules known ∧
        known.size = network.rules.size) ih fun position known h => ?_
      exact ⟨h.1.tryRule position, (size_tryRule known position).trans h.2⟩
  obtain ⟨hsound, hsize⟩ := hkept n
  refine ⟨n, hn.trans (Array.count_le_size.trans_eq Array.size_replicate), hfixed, ?_⟩
  rcases network.tryRules_eq_or_count_lt order _ with ⟨-, heach⟩ | hless
  · exact hsound.eq_nullable (closedRules_of_fixed hsize hall heach) hsize
  · exact absurd (hfixed ▸ hless) (Nat.lt_irrefl _)

/-- The order of edges does not show in which rules are nullable. -/
theorem Rearranges.nullable_eq (h : network.Rearranges network') :
    network'.toBlueprint.nullable = network.toBlueprint.nullable := by
  rw [Blueprint.nullable, Blueprint.nullable, h.rules_eq]
  refine Array.map_congr_left fun rule _ => ?_
  rw [Bool.eq_iff_iff, isMarked_silentStates_iff, isMarked_silentStates_iff]
  exact ⟨h.symm.silentFinish, h.silentFinish⟩

/-! ## Runs without a token -/

/-- The network, asked without any token and with every guard open. -/
def withoutTokens (network : Network) : Query := { network, tokens := #[] }

/-- The rule of a state can be finished in silence, and so can the rules in which the calls
around it resume, one after the other. -/
def FinishesThrough (network : Network) (state : StateId) : CallStack → Prop
  | [] => network.SilentFinish state
  | frame :: outer => network.SilentFinish state ∧
    ∃ resume, frame.resume? = some resume ∧ network.FinishesThrough resume outer

theorem FinishesThrough.imp {state' : StateId} {calls : CallStack}
    (himp : network.SilentFinish state' → network.SilentFinish state)
    (h : network.FinishesThrough state' calls) : network.FinishesThrough state calls := by
  cases calls with
  | nil => exact himp h
  | cons frame outer => exact ⟨himp h.1, h.2⟩

/-- One step back along a run without a token. A run may go below `base`; then it has passed a
stop state there. -/
theorem finishesThrough_of_freeStep {config config' : Config} {base : CallStack}
    (hstep : network.withoutTokens.FreeStep config config')
    (hrest : ∀ calls, config'.stack = calls ++ base →
      network.FinishesThrough config'.state calls) :
    ∀ calls, config.stack = calls ++ base → network.FinishesThrough config.state calls := by
  intro calls hstack
  cases hstep with
  | pass hedge hpasses => exact (hrest calls hstack).imp (.pass hedge hpasses.isSilent)
  | read _ htoken => exact absurd htoken (by simp [withoutTokens])
  | @call state index stack rule entry target hedge hentry =>
    obtain ⟨hcalled, resume, hresume, hafter⟩ :=
      hrest (⟨rule, index, some target⟩ :: calls) (congrArg (List.cons _) hstack)
    obtain rfl := Option.some.inj hresume
    exact hafter.imp (.call hedge hentry hcalled)
  | finish hstop =>
    cases calls with
    | nil => exact .stop hstop
    | cons frame outer =>
      obtain ⟨rfl, houter⟩ := List.cons.inj hstack
      exact ⟨.stop hstop, _, rfl, hrest outer houter⟩

/-- A run without a token that comes to a stop state under the stack with which it began has
passed the rule in silence. -/
theorem silentFinish_of_freeRun {stop : StateId} {index last : ℕ} {base : CallStack}
    (hstop : network.IsStop stop)
    (hrun : network.withoutTokens.FreeRun ⟨state, index, base⟩ ⟨stop, last, base⟩) :
    network.SilentFinish state := by
  have hthrough : ∀ config, network.withoutTokens.FreeRun config ⟨stop, last, base⟩ →
      ∀ calls, config.stack = calls ++ base → network.FinishesThrough config.state calls := by
    intro config hrun
    induction hrun using Relation.ReflTransGen.head_induction_on with
    | refl =>
      intro calls hcalls
      obtain rfl : calls = [] := List.self_eq_append_left.mp hcalls
      exact .stop hstop
    | head hstep _ ih => exact finishesThrough_of_freeStep hstep ih
  exact hthrough _ hrun [] rfl

end Network

/-! ## The nullable rules of every network -/

namespace Provenance

/-- A rule of a network is nullable exactly if, under any stack, a run without a token leads from
the entry of the rule to a stop state of the rule under the same stack. No unknown rule is
nullable. A search for a stop state ends in every case, trying the rules comes to rest, and in
whatever order the rules are tried and the edges stand, the result is the same. -/
theorem isNullable_iff_freeRun {provenance : Provenance} {network : Network}
    (hbuild : provenance.build = .ok network) :
    (∀ (rule : RuleId) (index : ℕ) (frame : Frame) (outer : CallStack),
      network.isNullable rule ↔ ∃ entry stop, network.entry? rule = some entry ∧
        network.Owns rule stop ∧ network.IsStop stop ∧
        network.withoutTokens.FreeRun ⟨entry, index, frame :: outer⟩
          ⟨stop, index, frame :: outer⟩) ∧
    (∀ rule, ¬ network.hasRule rule → ¬ network.isNullable rule) ∧
    ∀ (network' : Network) (order : List ℕ), network.Rearranges network' →
      (∀ position, position < network.rules.size → position ∈ order) →
      (∀ known entry,
        ∃ n, ((Search.round (network'.silentTargets known))^[n] (.start entry)).waiting = []) ∧
      ∃ n ≤ network.rules.size,
        network'.tryRules order ((network'.tryRules order)^[n] network'.unknownRules) =
          (network'.tryRules order)^[n] network'.unknownRules ∧
        (network'.tryRules order)^[n] network'.unknownRules = network.nullable := by
  rw [← build_draft] at hbuild
  refine ⟨fun rule index frame outer => ?_, fun rule hunknown hnullable => ?_,
    fun network' order hrearranges hall => ⟨fun known entry => ?_, ?_⟩⟩
  · rw [Network.isNullable_iff hbuild]
    constructor
    · rintro ⟨entry, hentry, hfinish⟩
      have hsame : provenance.draft.build = .ok network.withoutTokens.network := hbuild
      obtain ⟨stop, howns, hstop, hrun⟩ := Query.exists_freeRun_of_silentFinish hsame
        (fun _ => rfl) hfinish (Draft.owns_entry_of_build hbuild hentry) index frame outer
      exact ⟨entry, stop, hentry, howns, hstop, hrun⟩
    · rintro ⟨entry, stop, hentry, -, hstop, hrun⟩
      exact ⟨entry, hentry, Network.silentFinish_of_freeRun hstop hrun⟩
  · obtain ⟨entry, hentry, -⟩ := (Network.isNullable_iff hbuild).mp hnullable
    exact hunknown (Network.hasRule_of_entry hentry)
  · exact network'.exists_waiting_eq_nil known _
  · obtain ⟨n, hn, hfixed, hresult⟩ := network'.exists_tryRules_eq_nullable
      (hrearranges.rules_eq ▸ hall)
    refine ⟨n, hrearranges.rules_eq ▸ hn, hfixed, ?_⟩
    rw [hresult, hrearranges.nullable_eq, Network.nullable_of_build hbuild]

/-- Two passes through a rule that is a guard, or itself before an item. Both rules are nullable,
and are found to be so also if the first one is tried before anything is known of the second. -/
theorem isNullable_iff_freeRun_twice :
    let additions : List Addition := [.terminal "item", .rule "twice", .rule "maybe",
      .alternative ⟨0⟩ [.rule ⟨1⟩, .rule ⟨1⟩], .alternative ⟨1⟩ [.rule ⟨1⟩, .token ⟨0⟩],
      .alternative ⟨1⟩ [.guard ⟨0⟩]]
    let frame : Frame := ⟨⟨0⟩, 3, none⟩
    ∃ network, (assembled additions).build = .ok network ∧ network.isNullable ⟨0⟩ ∧
      (∃ entry stop, network.entry? ⟨0⟩ = some entry ∧ network.IsStop stop ∧
        network.withoutTokens.FreeRun ⟨entry, 3, [frame]⟩ ⟨stop, 3, [frame]⟩) ∧
      ¬ network.isNullable ⟨2⟩ ∧
      ∃ n ≤ 2, (network.tryRules [0, 1])^[n] network.unknownRules = #[true, true] := by
  intro additions frame
  let network : Network :=
    { toBlueprint := (Draft.assemble additions).toBlueprint, nullable := #[true, true] }
  have hbuild : (assembled additions).build = .ok network := by decide +kernel
  have hnullable : network.isNullable ⟨0⟩ := rfl
  have hall : ∀ position, position < network.rules.size → position ∈ [0, 1] := by decide +kernel
  have hsame : network.Rearranges network :=
    ⟨List.forall₂_same.mpr fun _ _ => ⟨rfl, .refl _⟩, rfl, rfl⟩
  obtain ⟨hruns, hunknown, htries⟩ := isNullable_iff_freeRun hbuild
  obtain ⟨entry, stop, hentry, -, hstop, hrun⟩ := (hruns ⟨0⟩ 3 frame []).mp hnullable
  obtain ⟨-, n, hn, -, hresult⟩ := htries network [0, 1] hsame hall
  exact ⟨network, hbuild, hnullable, ⟨entry, stop, hentry, hstop, hrun⟩,
    hunknown ⟨2⟩ (by decide +kernel), n, hn, hresult⟩

end Provenance

end CodeCompletion
