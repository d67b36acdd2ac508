import CodeCompletion.Proofs.Validation
import Mathlib.Data.List.Induction

/-!
# Declared boundaries and roles of states

A rule declares where it begins and where it ends, and every state says which role it has in
its rule. Building asks of what a rule declares whether the states agree. It does not ask the
converse, whether the rule declares every state with such a role. Stored tables may have
states that begin or end a rule which declares others. In a draft that has been put together
by additions this comes about in one way only: a stop that is added to a rule before the rule
itself is declared nowhere.

## Main definitions

* `Addition`, `Draft.add`, `Draft.assemble`: drafts put together by additions, in any order
* `Provenance`, `Provenance.build`: networks of assembled drafts and of stored tables
* `Network.BoundariesAgree`: the states with a role in a rule are those that it declares
* `Draft.Declares`: every state with a given role is declared
* `Draft.StopsFollow`: every stop is added after its rule
* `Draft.Fills`, `Draft.Since`: how a draft has grown

## Main results

* `Draft.boundariesAgree_iff_declares`: what building leaves open
* `Draft.declares_assemble`: entries are always declared, stops if they follow their rules
* `Draft.stopsFollow_of_declares`: a stop that comes before its rule is not declared
* `Provenance.boundariesAgree_iff`: the networks in which boundaries and roles agree
-/

set_option autoImplicit false

namespace CodeCompletion

/-! ## Additions -/

/-- One addition to a draft. -/
inductive Addition where
  | terminal (name : String)
  | rule (name : String)
  | state (rule : RuleId)
  | stop (rule : RuleId)
  | edge (source : StateId) (edge : Edge)
  | alternative (rule : RuleId) (elements : List Element)
deriving DecidableEq

/-- The rule declares the state for the given role. No state inside a rule is declared. -/
def Rule.Declares (rule : Rule) (state : StateId) : StateKind → Prop
  | .entry => state = rule.entry
  | .stop => state ∈ rule.stops
  | .interior => False

namespace Draft

variable {draft draft' mid : Draft} {additions : List Addition} {network : Network}
  {kind : StateKind}

/-- The draft with one more addition. -/
def add (draft : Draft) : Addition → Draft
  | .terminal name => (draft.addTerminal name).2
  | .rule name => (draft.addRule name).2
  | .state rule => (draft.addState rule).2
  | .stop rule => (draft.addStop rule).2
  | .edge source edge => draft.addEdge source edge
  | .alternative rule elements => (draft.addAlternative rule elements).2

/-- The draft that additions make, one after the other. -/
def assemble (additions : List Addition) : Draft :=
  additions.foldl add {}

theorem assemble_append (additions later : List Addition) :
    assemble (additions ++ later) = later.foldl add (assemble additions) :=
  List.foldl_append

theorem assemble_concat (additions : List Addition) (addition : Addition) :
    assemble (additions ++ [addition]) = (assemble additions).add addition :=
  assemble_append additions [addition]

/-- Every stop is added to a rule that is there already. -/
def StopsFollow (additions : List Addition) : Prop :=
  ∀ before rule after, additions = before ++ .stop rule :: after →
    rule.index < (assemble before).rules.size

theorem StopsFollow.of_concat {addition : Addition} (h : StopsFollow (additions ++ [addition])) :
    StopsFollow additions := by
  rintro before rule after rfl
  exact h before rule (after ++ [addition]) (by simp)

/-! ## Additions inside a rule -/

/-- The other draft differs in terminals, edges and further interior states only. -/
structure Fills (draft draft' : Draft) : Prop where
  rules_eq : draft'.rules = draft.rules
  names_eq : draft'.vocabulary.rules = draft.vocabulary.rules
  size_le : draft.places.size ≤ draft'.places.size
  old : ∀ position < draft.places.size, draft'.places[position]? = draft.places[position]?
  new : ∀ position place, draft.places.size ≤ position →
    draft'.places[position]? = some place → place.kind = .interior

theorem Fills.of_places_eq (hrules : draft'.rules = draft.rules)
    (hnames : draft'.vocabulary.rules = draft.vocabulary.rules)
    (hplaces : draft'.places = draft.places) : draft.Fills draft' where
  rules_eq := hrules
  names_eq := hnames
  size_le := Nat.le_of_eq (congrArg Array.size hplaces.symm)
  old position _ := by rw [hplaces]
  new position place hposition hplace := by
    rw [hplaces, Array.getElem?_eq_none hposition] at hplace
    cases hplace

theorem Fills.trans {draft'' : Draft} (h : draft.Fills draft') (h' : draft'.Fills draft'') :
    draft.Fills draft'' where
  rules_eq := h'.rules_eq.trans h.rules_eq
  names_eq := h'.names_eq.trans h.names_eq
  size_le := Nat.le_trans h.size_le h'.size_le
  old position hposition :=
    (h'.old position (Nat.lt_of_lt_of_le hposition h.size_le)).trans (h.old position hposition)
  new position place hposition hplace := by
    by_cases hmid : position < draft'.places.size
    · exact h.new position place hposition ((h'.old position hmid).symm.trans hplace)
    · exact h'.new position place (Nat.not_lt.mp hmid) hplace

theorem fills_addState (draft : Draft) (rule : RuleId) :
    draft.Fills (draft.addState rule).2 where
  rules_eq := rfl
  names_eq := rfl
  size_le := by simp [addState, addPlace]
  old position hposition := by
    rw [addState, addPlace, Array.getElem?_push, if_neg (Nat.ne_of_lt hposition)]
  new position place hposition hplace := by
    rw [addState, addPlace, Array.getElem?_push] at hplace
    split at hplace
    · exact congrArg Place.kind (Option.some.inj hplace).symm
    · rw [Array.getElem?_eq_none hposition] at hplace
      cases hplace

theorem fills_addEdge (draft : Draft) (source : StateId) (edge : Edge) :
    draft.Fills (draft.addEdge source edge) :=
  .of_places_eq rfl rfl rfl

theorem fills_link (draft : Draft) (source? target? : Option StateId) :
    draft.Fills (draft.link source? target?) := by
  unfold link
  split
  · exact fills_addEdge _ _ _
  · exact .of_places_eq rfl rfl rfl

theorem fills_chain (draft : Draft) (rule : RuleId) (current : StateId)
    (elements : List Element) : draft.Fills (draft.chain rule current elements).2 := by
  induction elements generalizing draft current with
  | nil => exact .of_places_eq rfl rfl rfl
  | cons element rest ih =>
    exact (fills_addState draft rule).trans ((fills_addEdge _ _ _).trans (ih _ _))

theorem fills_addAlternative (draft : Draft) (rule : RuleId) (elements : List Element) :
    draft.Fills (draft.addAlternative rule elements).2 :=
  (fills_addState draft rule).trans <| (fills_link _ _ _).trans <|
    (fills_chain _ _ _ _).trans (fills_link _ _ _)

/-- An addition is a rule, a stop, or lies inside a rule. -/
theorem add_cases (draft : Draft) (addition : Addition) :
    (∃ name, addition = .rule name) ∨ (∃ rule, addition = .stop rule) ∨
      draft.Fills (draft.add addition) := by
  cases addition with
  | rule name => exact Or.inl ⟨name, rfl⟩
  | stop rule => exact Or.inr (Or.inl ⟨rule, rfl⟩)
  | terminal name => exact Or.inr (Or.inr (.of_places_eq rfl rfl rfl))
  | state rule => exact Or.inr (Or.inr (fills_addState draft rule))
  | edge source edge => exact Or.inr (Or.inr (fills_addEdge draft source edge))
  | alternative rule elements =>
    exact Or.inr (Or.inr (fills_addAlternative draft rule elements))

/-! ## Rules and stops -/

theorem places_addRule (draft : Draft) (name : String) : (draft.addRule name).2.places =
    (draft.places.push ⟨.ofIndex draft.vocabulary.rules.size, .entry⟩).push
      ⟨.ofIndex draft.vocabulary.rules.size, .stop⟩ :=
  rfl

theorem rules_addRule (draft : Draft) (name : String) : (draft.addRule name).2.rules =
    draft.rules.push ⟨.ofIndex draft.places.size, [.ofIndex (draft.places.size + 1)]⟩ := by
  simp [addRule, addPlace]

theorem places_addStop (draft : Draft) (rule : RuleId) :
    (draft.addStop rule).2.places = draft.places.push ⟨rule, .stop⟩ :=
  rfl

theorem rules_addStop (draft : Draft) (rule : RuleId) : (draft.addStop rule).2.rules =
    draft.rules.modify rule.index fun known =>
      { known with stops := known.stops ++ [.ofIndex draft.places.size] } :=
  rfl

/-- There is a name for every rule, and there are two states for every rule. -/
structure Tidy (draft : Draft) : Prop where
  named : draft.vocabulary.rules.size = draft.rules.size
  room : 2 * draft.rules.size ≤ draft.places.size

theorem Tidy.add (h : draft.Tidy) (addition : Addition) : (draft.add addition).Tidy := by
  obtain ⟨hnamed, hroom⟩ := h
  rcases add_cases draft addition with ⟨name, rfl⟩ | ⟨rule, rfl⟩ | hfills
  · constructor
    · simp [Draft.add, addRule, addPlace, Vocabulary.addRule, hnamed]
    · simp only [Draft.add, rules_addRule, places_addRule, Array.size_push]
      omega
  · constructor
    · simpa [Draft.add, rules_addStop, addStop, addPlace] using hnamed
    · simp only [Draft.add, rules_addStop, places_addStop, Array.size_push, Array.size_modify]
      omega
  · exact ⟨by rw [hfills.rules_eq, hfills.names_eq, hnamed], by
      rw [hfills.rules_eq]
      exact Nat.le_trans hroom hfills.size_le⟩

theorem tidy_assemble (additions : List Addition) : (assemble additions).Tidy := by
  induction additions using List.reverseRecOn with
  | nil => exact ⟨rfl, Nat.le_refl _⟩
  | append_singleton additions addition ih =>
    rw [assemble_concat]
    exact ih.add addition

/-! ## Declared states -/

/-- Every state with the given role is declared by its rule. -/
def Declares (draft : Draft) (kind : StateKind) : Prop :=
  ∀ state id, draft.place? state = some ⟨id, kind⟩ →
    ∃ rule, draft.rules[id.index]? = some rule ∧ rule.Declares state kind

theorem Declares.fills (h : draft.Declares kind) (hkind : kind ≠ .interior)
    (hfills : draft.Fills draft') : draft'.Declares kind := by
  intro state id hplace
  rw [hfills.rules_eq]
  by_cases hold : state.index < draft.places.size
  · exact h state id ((hfills.old _ hold).symm.trans hplace)
  · exact absurd (hfills.new _ _ (Nat.not_lt.mp hold) hplace) hkind

/-- A rule that is added declares its two states. -/
theorem Declares.addRule (h : draft.Declares kind) (htidy : draft.Tidy) (name : String) :
    (draft.addRule name).2.Declares kind := by
  intro state id hplace
  rw [place?, places_addRule, Array.getElem?_push, Array.getElem?_push, Array.size_push] at hplace
  rw [rules_addRule]
  -- As long as states can be told apart by number, so can rules, which are fewer.
  have hnumber : draft.places.size ≤ state.index →
      (RuleId.ofIndex draft.vocabulary.rules.size).index = draft.rules.size := by
    intro hstate
    have hlast := state.index_le
    have hroom := htidy.room
    rw [RuleId.index_ofIndex, htidy.named]
    omega
  split at hplace
  · next hstop =>
    obtain ⟨rfl, rfl⟩ := Place.mk.inj (Option.some.inj hplace)
    rw [hnumber (by omega), Array.getElem?_push_size]
    refine ⟨_, rfl, ?_⟩
    rw [Rule.Declares, ← hstop, StateId.ofIndex_index]
    exact List.mem_singleton.mpr rfl
  · split at hplace
    · next hentry =>
      obtain ⟨rfl, rfl⟩ := Place.mk.inj (Option.some.inj hplace)
      rw [hnumber (Nat.le_of_eq hentry.symm), Array.getElem?_push_size]
      refine ⟨_, rfl, ?_⟩
      rw [Rule.Declares, ← hentry, StateId.ofIndex_index]
    · obtain ⟨rule, hrule, hdeclares⟩ := h state id hplace
      have hold := (Array.getElem?_eq_some_iff.mp hrule).1
      exact ⟨rule, by rw [Array.getElem?_push, if_neg (Nat.ne_of_lt hold), hrule], hdeclares⟩

/-- A stop that is added to a rule of the draft is declared there. -/
theorem Declares.addStop (h : draft.Declares kind) {rule : RuleId}
    (hrule : kind = .stop → rule.index < draft.rules.size) :
    (draft.addStop rule).2.Declares kind := by
  intro state id hplace
  rw [place?, places_addStop, Array.getElem?_push] at hplace
  rw [rules_addStop, Array.getElem?_modify]
  split at hplace
  · next hnew =>
    obtain ⟨rfl, rfl⟩ := Place.mk.inj (Option.some.inj hplace)
    rw [if_pos rfl, Array.getElem?_eq_getElem (hrule rfl)]
    refine ⟨_, rfl, List.mem_append_right _ ?_⟩
    rw [← hnew, StateId.ofIndex_index]
    exact List.mem_singleton.mpr rfl
  · obtain ⟨known, hknown, hdeclares⟩ := h state id hplace
    rw [hknown]
    split
    · refine ⟨_, rfl, ?_⟩
      cases kind with
      | entry => exact hdeclares
      | stop => exact List.mem_append_left _ hdeclares
      | interior => exact hdeclares
    · exact ⟨known, rfl, hdeclares⟩

/-- Additions declare all entries, and all stops if these follow their rules. -/
theorem declares_assemble (hkind : kind ≠ .interior)
    (hfollow : kind = .stop → StopsFollow additions) : (assemble additions).Declares kind := by
  induction additions using List.reverseRecOn with
  | nil =>
    intro state id hplace
    cases hplace
  | append_singleton additions addition ih =>
    rw [assemble_concat]
    have hdeclares := ih fun hstop => (hfollow hstop).of_concat
    rcases add_cases (assemble additions) addition with ⟨name, rfl⟩ | ⟨rule, rfl⟩ | hfills
    · exact hdeclares.addRule (tidy_assemble additions) name
    · exact hdeclares.addStop fun hstop => hfollow hstop additions rule [] rfl
    · exact hdeclares.fills hkind hfills

/-! ## What has been added since -/

/-- The draft has grown from an earlier one: the states of that one are where they were, and a
rule that is new declares only states that are new. -/
structure Since (mid draft : Draft) : Prop where
  size_le : mid.places.size ≤ draft.places.size
  old : ∀ position < mid.places.size, draft.places[position]? = mid.places[position]?
  fresh : ∀ position rule, mid.rules.size ≤ position → draft.rules[position]? = some rule →
    ∀ state kind, rule.Declares state kind →
      ∃ number, mid.places.size ≤ number ∧ state = .ofIndex number

theorem Since.refl (draft : Draft) : draft.Since draft where
  size_le := Nat.le_refl _
  old _ _ := rfl
  fresh position rule hposition hrule := by
    rw [Array.getElem?_eq_none hposition] at hrule
    cases hrule

theorem Since.fills (h : mid.Since draft) (hfills : draft.Fills draft') : mid.Since draft' where
  size_le := Nat.le_trans h.size_le hfills.size_le
  old position hposition :=
    (hfills.old position (Nat.lt_of_lt_of_le hposition h.size_le)).trans (h.old position hposition)
  fresh := by
    rw [hfills.rules_eq]
    exact h.fresh

theorem Since.addRule (h : mid.Since draft) (name : String) :
    mid.Since (draft.addRule name).2 where
  size_le := by
    rw [places_addRule, Array.size_push, Array.size_push]
    exact Nat.le_add_right_of_le (Nat.le_add_right_of_le h.size_le)
  old position hposition := by
    have hbefore := Nat.lt_of_lt_of_le hposition h.size_le
    rw [places_addRule, Array.getElem?_push, Array.getElem?_push, Array.size_push,
      if_neg (by omega), if_neg (by omega), h.old position hposition]
  fresh position rule hposition hrule state kind hdeclares := by
    rw [rules_addRule, Array.getElem?_push] at hrule
    split at hrule
    · obtain rfl := Option.some.inj hrule
      cases kind with
      | entry => exact ⟨_, h.size_le, hdeclares⟩
      | stop => exact ⟨_, Nat.le_succ_of_le h.size_le, List.mem_singleton.mp hdeclares⟩
      | interior => exact hdeclares.elim
    · exact h.fresh position rule hposition hrule state kind hdeclares

theorem Since.addStop (h : mid.Since draft) (rule : RuleId) :
    mid.Since (draft.addStop rule).2 where
  size_le := by
    rw [places_addStop, Array.size_push]
    exact Nat.le_succ_of_le h.size_le
  old position hposition := by
    have hbefore := Nat.lt_of_lt_of_le hposition h.size_le
    rw [places_addStop, Array.getElem?_push, if_neg (Nat.ne_of_lt hbefore),
      h.old position hposition]
  fresh position known hposition hknown state kind hdeclares := by
    rw [rules_addStop, Array.getElem?_modify] at hknown
    split at hknown
    · obtain ⟨rule', hrule', rfl⟩ := Option.map_eq_some_iff.mp hknown
      have hfresh := h.fresh position rule' hposition hrule' state
      cases kind with
      | entry => exact hfresh .entry hdeclares
      | stop =>
        rcases List.mem_append.mp hdeclares with hmem | hmem
        · exact hfresh .stop hmem
        · exact ⟨_, h.size_le, List.mem_singleton.mp hmem⟩
      | interior => exact hdeclares.elim
    · exact h.fresh position known hposition hknown state kind hdeclares

theorem Since.add (h : mid.Since draft) (addition : Addition) :
    mid.Since (draft.add addition) := by
  rcases add_cases draft addition with ⟨name, rfl⟩ | ⟨rule, rfl⟩ | hfills
  · exact h.addRule name
  · exact h.addStop rule
  · exact h.fills hfills

theorem since_foldl_add (mid : Draft) (additions : List Addition) :
    mid.Since (additions.foldl add mid) := by
  induction additions using List.reverseRecOn with
  | nil => exact .refl mid
  | append_singleton additions addition ih =>
    rw [List.foldl_append]
    exact ih.add addition

end Draft

/-! ## What building leaves open -/

/-- The rule that a state belongs to and its role there. -/
def Network.place? (network : Network) (state : StateId) : Option Place :=
  (network.state? state).map State.toPlace

/-- Of the states of a rule, the one that it declares as its entry and no other is an entry, and
those that it declares as its stops and no others are stops. -/
def Network.BoundariesAgree (network : Network) : Prop :=
  ∀ id rule, network.rule? id = some rule → ∀ state,
    (network.place? state = some ⟨id, .entry⟩ ↔ state = rule.entry) ∧
      (network.place? state = some ⟨id, .stop⟩ ↔ state ∈ rule.stops)

namespace Draft

variable {draft mid : Draft} {additions : List Addition} {network : Network} {kind : StateKind}

theorem place?_of_build (hbuild : draft.build = .ok network) (state : StateId) :
    network.place? state = draft.place? state := by
  simp [Network.place?, state?_of_build hbuild, Function.comp_def]

theorem rule?_of_build (hbuild : draft.build = .ok network) (id : RuleId) :
    network.rule? id = draft.rules[id.index]? := by
  rw [Network.rule?, (freezes_of_build hbuild).rules]

theorem bounded_of_build (hbuild : draft.build = .ok network) {id : RuleId} {rule : Rule}
    (hrule : draft.rules[id.index]? = some rule) : draft.Bounded id rule :=
  isBounded_iff.mp (isBounded_of_build hbuild ((rule?_of_build hbuild id).trans hrule))

/-- The states that a rule declares have the role that it declares them for. -/
theorem Bounded.place?_of_declares {id : RuleId} {rule : Rule} (hbounded : draft.Bounded id rule)
    {state : StateId} (h : rule.Declares state kind) : draft.place? state = some ⟨id, kind⟩ := by
  cases kind with
  | entry =>
    obtain rfl : state = rule.entry := h
    exact hbounded.entry
  | stop => exact hbounded.stops state h
  | interior => exact h.elim

theorem exists_rule_of_place? (hbuild : draft.build = .ok network) {position : ℕ} {place : Place}
    (hplace : draft.places[position]? = some place) :
    ∃ rule, draft.rules[place.rule.index]? = some rule :=
  ⟨_, Array.getElem?_eq_getElem ((wellFormed_of_build hbuild).owned position place hplace)⟩

/-- A draft that is built declares all states with a role exactly if in every rule the states
with this role are those that the rule declares for it. -/
theorem declares_iff_of_build (hbuild : draft.build = .ok network) :
    draft.Declares kind ↔ ∀ id rule, draft.rules[id.index]? = some rule → ∀ state,
      draft.place? state = some ⟨id, kind⟩ ↔ rule.Declares state kind := by
  constructor
  · intro hdeclares id rule hrule state
    refine ⟨fun hplace => ?_, (bounded_of_build hbuild hrule).place?_of_declares⟩
    obtain ⟨rule', hrule', hdeclared⟩ := hdeclares state id hplace
    obtain rfl := Option.some.inj (hrule.symm.trans hrule')
    exact hdeclared
  · intro hagree state id hplace
    obtain ⟨rule, hrule⟩ := exists_rule_of_place? hbuild hplace
    exact ⟨rule, hrule, (hagree id rule hrule state).mp hplace⟩

/-- In a built network boundaries and roles agree exactly if the draft declares every state that
begins or ends a rule. -/
theorem boundariesAgree_iff_declares (hbuild : draft.build = .ok network) :
    network.BoundariesAgree ↔ draft.Declares .entry ∧ draft.Declares .stop := by
  rw [declares_iff_of_build hbuild, declares_iff_of_build hbuild]
  simp only [Network.BoundariesAgree, rule?_of_build hbuild, place?_of_build hbuild]
  constructor
  · intro hagree
    exact ⟨fun id rule hrule state => (hagree id rule hrule state).1,
      fun id rule hrule state => (hagree id rule hrule state).2⟩
  · rintro ⟨hentries, hstops⟩ id rule hrule state
    exact ⟨hentries id rule hrule state, hstops id rule hrule state⟩

/-- A rule has two states to declare, so it cannot declare the one with the last number only. -/
theorem Bounded.lt_of_declares {id : RuleId} {rule : Rule} (hbounded : draft.Bounded id rule)
    {least : ℕ} (hfresh : ∀ state kind, rule.Declares state kind →
      ∃ number, least ≤ number ∧ state = .ofIndex number) : least < 4294967295 := by
  by_contra hlast
  obtain ⟨stop, rest, hstops⟩ := List.exists_cons_of_ne_nil hbounded.stops_ne_nil
  have hmem : stop ∈ rule.stops := hstops ▸ List.mem_cons_self
  obtain ⟨number, hle, hentry⟩ := hfresh rule.entry .entry rfl
  obtain ⟨number', hle', hstop⟩ := hfresh stop .stop hmem
  have hsame : rule.entry.index = stop.index := by
    rw [hentry, hstop, StateId.index_ofIndex, StateId.index_ofIndex]
    omega
  have hplace := hbounded.entry
  rw [place?, hsame] at hplace
  exact absurd (hplace.symm.trans (hbounded.stops stop hmem)) (by simp)

/-- A state that was added when its rule was not there is not declared later either. -/
theorem Since.not_declares (hsince : mid.Since draft) (hbuild : draft.build = .ok network)
    {position : ℕ} {rule : RuleId} (hplace : mid.places[position]? = some ⟨rule, kind⟩)
    (hearly : mid.rules.size ≤ rule.index) : ¬ draft.Declares kind := by
  intro hdeclares
  have hposition := (Array.getElem?_eq_some_iff.mp hplace).1
  have hkept : draft.places[position]? = some ⟨rule, kind⟩ :=
    (hsince.old position hposition).trans hplace
  obtain ⟨known, hknown⟩ := exists_rule_of_place? hbuild hkept
  have hfresh := hsince.fresh rule.index known hearly hknown
  have hlast := (bounded_of_build hbuild hknown).lt_of_declares hfresh
  have hindex : (StateId.ofIndex position).index = position := by
    rw [StateId.index_ofIndex]
    omega
  have hdeclared : known.Declares (.ofIndex position) kind :=
    ((declares_iff_of_build hbuild).mp hdeclares rule known hknown _).mp
      (by rw [place?, hindex, hkept])
  -- The state would have to be one of those that were added after it.
  obtain ⟨number, hle, hsame⟩ := hfresh _ kind hdeclared
  have hequal := congrArg StateId.index hsame
  rw [hindex, StateId.index_ofIndex] at hequal
  omega

/-- A stop that is added before its rule is declared nowhere. -/
theorem stopsFollow_of_declares (hbuild : (assemble additions).build = .ok network)
    (hdeclares : (assemble additions).Declares .stop) : StopsFollow additions := by
  rintro before rule after rfl
  by_contra hearly
  have hsince := since_foldl_add ((assemble before).add (.stop rule)) after
  have hassemble : assemble (before ++ .stop rule :: after) =
      after.foldl add ((assemble before).add (.stop rule)) :=
    assemble_append before (.stop rule :: after)
  rw [hassemble] at hbuild hdeclares
  have hplace : ((assemble before).add (.stop rule)).places[(assemble before).places.size]? =
      some ⟨rule, .stop⟩ := by
    rw [add, places_addStop, Array.getElem?_push_size]
  have hrules : ((assemble before).add (.stop rule)).rules.size ≤ rule.index := by
    rw [add, rules_addStop, Array.size_modify]
    exact Nat.not_lt.mp hearly
  exact hsince.not_declares hbuild hplace hrules hdeclares

end Draft

/-! ## Assembled and stored networks -/

/-- Where a network comes from: additions to an empty draft, or stored tables. -/
inductive Provenance where
  | assembled (additions : List Addition)
  | stored (blueprint : Blueprint)

namespace Provenance

/-- The network that comes from there, or its first defect. -/
def build : Provenance → Except Defect Network
  | assembled additions => (Draft.assemble additions).build
  | stored blueprint => blueprint.load

/-- Stops are added after their rules; stored tables declare every state that begins or ends a
rule. -/
def Orderly : Provenance → Prop
  | assembled additions => Draft.StopsFollow additions
  | stored blueprint => blueprint.toDraft.Declares .entry ∧ blueprint.toDraft.Declares .stop

/-- The boundaries that rules declare and the roles of their states agree exactly in the networks
of orderly provenance. -/
theorem boundariesAgree_iff {provenance : Provenance} {network : Network}
    (hbuild : provenance.build = .ok network) :
    network.BoundariesAgree ↔ provenance.Orderly := by
  cases provenance with
  | stored blueprint => exact Draft.boundariesAgree_iff_declares hbuild
  | assembled additions =>
    rw [Draft.boundariesAgree_iff_declares hbuild]
    constructor
    · rintro ⟨-, hstops⟩
      exact Draft.stopsFollow_of_declares hbuild hstops
    · intro hfollow
      exact ⟨Draft.declares_assemble (by decide) fun hstop => absurd hstop (by decide),
        Draft.declares_assemble (by decide) fun _ => hfollow⟩

/-- A rule and then one more stop for it are added, and both stops are declared. -/
theorem boundariesAgree_iff_twoStops :
    ∃ network, (assembled [.rule "a", .stop ⟨0⟩]).build = .ok network ∧
      (assembled [.rule "a", .stop ⟨0⟩]).Orderly ∧ network.BoundariesAgree := by
  have horderly : (assembled [.rule "a", .stop ⟨0⟩]).Orderly := by
    rintro (_ | ⟨first, _ | ⟨second, before⟩⟩) rule after hsplit
    · cases hsplit
    · obtain ⟨rfl, hrest⟩ := List.cons.inj hsplit
      obtain ⟨rfl, -⟩ := Addition.stop.inj (List.cons.inj hrest).1
      decide
    · simp at hsplit
  have hbuild : (assembled [.rule "a", .stop ⟨0⟩]).build = .ok
      { states := #[⟨⟨⟨0⟩, .entry⟩, []⟩, ⟨⟨⟨0⟩, .stop⟩, []⟩, ⟨⟨⟨0⟩, .stop⟩, []⟩]
        rules := #[⟨⟨0⟩, [⟨1⟩, ⟨2⟩]⟩]
        vocabulary := { rules := #["a"] }
        nullable := #[false] } := by
    decide +kernel
  exact ⟨_, hbuild, horderly, (boundariesAgree_iff hbuild).mpr horderly⟩

/-- A stop that is added before its rule is not declared, and stored tables may have a second
entry. -/
theorem not_boundariesAgree :
    (∃ network, (assembled [.stop ⟨0⟩, .rule "a"]).build = .ok network ∧
      ¬ network.BoundariesAgree) ∧
    ∃ network, (stored
        { states := #[⟨⟨⟨0⟩, .entry⟩, []⟩, ⟨⟨⟨0⟩, .stop⟩, []⟩, ⟨⟨⟨0⟩, .entry⟩, []⟩]
          rules := #[⟨⟨0⟩, [⟨1⟩]⟩]
          vocabulary := { rules := #["a"] } }).build = .ok network ∧
      ¬ network.BoundariesAgree := by
  constructor
  · refine ⟨{ states := #[⟨⟨⟨0⟩, .stop⟩, []⟩, ⟨⟨⟨0⟩, .entry⟩, []⟩, ⟨⟨⟨0⟩, .stop⟩, []⟩]
              rules := #[⟨⟨1⟩, [⟨2⟩]⟩]
              vocabulary := { rules := #["a"] }
              nullable := #[false] }, by decide +kernel, fun hagree => ?_⟩
    exact absurd ((hagree ⟨0⟩ _ rfl ⟨0⟩).2.mp rfl) (by decide)
  · refine ⟨{ states := #[⟨⟨⟨0⟩, .entry⟩, []⟩, ⟨⟨⟨0⟩, .stop⟩, []⟩, ⟨⟨⟨0⟩, .entry⟩, []⟩]
              rules := #[⟨⟨0⟩, [⟨1⟩]⟩]
              vocabulary := { rules := #["a"] }
              nullable := #[false] }, by decide +kernel, fun hagree => ?_⟩
    exact absurd ((hagree ⟨0⟩ _ rfl ⟨2⟩).1.mp rfl) (by decide)

end Provenance

end CodeCompletion
