import CodeCompletion.Proofs.Nullable

/-!
# Networks without closed guards

A guard that the host does not consent to may as well be missing. Here its edge is taken
out, in the draft of a network and in the network itself. A draft stays free of defects,
and its network loses these edges and nothing else; only which rules are nullable has to
be decided anew.

## Main definitions

* `Label.isOpen`: not a closed guard
* `Draft.prune`, `Network.prune`: without closed guards, nullable rules decided anew
* `Network.strip`: without closed guards, nullable rules as they were
* `Network.Sheds`: the tables of one network are those of another without closed guards

## Main results

* `Draft.build_prune`: pruning a draft prunes its network
* `Network.Sheds.silentFinish`: no silent pass is gained
* `Network.isNullable_of_prune`: no rule becomes nullable
-/

set_option autoImplicit false

namespace CodeCompletion

variable {consents : PredicateId → Bool}

/-- Whether the label is not a guard that lacks consent. -/
def Label.isOpen (consents : PredicateId → Bool) : Label → Bool
  | guard predicate => consents predicate
  | epsilon | token _ | oneOf _ | noneOf _ | any | call _ => true

/-- The state without the edges of closed guards. -/
def State.prune (consents : PredicateId → Bool) (state : State) : State :=
  { state with edges := state.edges.filter fun edge => edge.label.isOpen consents }

/-- The tables without the edges of closed guards. -/
def Blueprint.prune (blueprint : Blueprint) (consents : PredicateId → Bool) : Blueprint :=
  { blueprint with states := blueprint.states.map (State.prune consents) }

/-- The network without the edges of closed guards, its nullable rules as they were. -/
def Network.strip (network : Network) (consents : PredicateId → Bool) : Network :=
  { network with toBlueprint := network.toBlueprint.prune consents }

/-- The network without the edges of closed guards, its nullable rules decided anew. -/
def Network.prune (network : Network) (consents : PredicateId → Bool) : Network :=
  { toBlueprint := network.toBlueprint.prune consents
    nullable := (network.toBlueprint.prune consents).nullable }

/-! ## Drafts -/

namespace Draft

variable {draft : Draft} {network : Network}

/-- The draft without the edges of closed guards. -/
def prune (draft : Draft) (consents : PredicateId → Bool) : Draft :=
  { draft with edges := draft.edges.filter fun added => added.2.label.isOpen consents }

theorem edgesFrom_prune (draft : Draft) (consents : PredicateId → Bool) (position : ℕ) :
    (draft.prune consents).edgesFrom position =
      (draft.edgesFrom position).filter fun edge => edge.label.isOpen consents := by
  -- Edges are filtered by their label and by their source, in either order.
  simp only [edgesFrom, prune, Array.toList_filter, List.filter_filter, List.filter_map]
  congr 1
  apply List.filter_congr
  intro added _
  exact Bool.and_comm _ _

theorem toBlueprint_prune (draft : Draft) (consents : PredicateId → Bool) :
    (draft.prune consents).toBlueprint = draft.toBlueprint.prune consents := by
  have hstates : (draft.prune consents).toBlueprint.states =
      (draft.toBlueprint.prune consents).states := by
    apply Array.ext_getElem?
    intro position
    rw [getElem?_states_toBlueprint, edgesFrom_prune, Blueprint.prune, Array.getElem?_map,
      getElem?_states_toBlueprint, Option.map_map]
    rfl
  rw [Blueprint.mk.injEq]
  exact ⟨hstates, rfl, rfl⟩

theorem defect?_prune (h : draft.defect? = none) (consents : PredicateId → Bool) :
    (draft.prune consents).defect? = none := by
  obtain ⟨horphan, hnames, hmalformed, hedges⟩ := defect?_eq_none_iff.mp h
  -- No check of states and rules looks at the edges.
  refine defect?_eq_none_iff.mpr ⟨horphan, hnames, hmalformed, ?_⟩
  intro source edge hmem
  exact hedges source edge (Array.mem_filter.mp hmem).1

/-- Pruning a draft prunes its network. -/
theorem build_prune (hbuild : draft.build = .ok network) (consents : PredicateId → Bool) :
    (draft.prune consents).build = .ok (network.prune consents) := by
  obtain ⟨hdefect, rfl⟩ := build_eq_ok_iff.mp hbuild
  refine build_eq_ok_iff.mpr ⟨defect?_prune hdefect consents, ?_⟩
  rw [toBlueprint_prune, Network.prune]

end Draft

/-! ## Networks -/

namespace Network

variable {network network' : Network} {source target : StateId} {label : Label}

/-- The tables of the other network are those of this one without the edges of closed
guards. -/
def Sheds (network : Network) (consents : PredicateId → Bool) (network' : Network) : Prop :=
  network'.toBlueprint = network.toBlueprint.prune consents

theorem sheds_strip (network : Network) (consents : PredicateId → Bool) :
    network.Sheds consents (network.strip consents) := rfl

theorem sheds_prune (network : Network) (consents : PredicateId → Bool) :
    network.Sheds consents (network.prune consents) := rfl

namespace Sheds

theorem state?_eq (h : network.Sheds consents network') (state : StateId) :
    network'.state? state = (network.state? state).map (State.prune consents) := by
  rw [state?, h, state?, Blueprint.prune, Array.getElem?_map]

theorem rules_eq (h : network.Sheds consents network') : network'.rules = network.rules := by
  rw [h, Blueprint.prune]

theorem vocabulary_eq (h : network.Sheds consents network') :
    network'.vocabulary = network.vocabulary := by
  rw [h, Blueprint.prune]

theorem entry?_eq (h : network.Sheds consents network') (rule : RuleId) :
    network'.entry? rule = network.entry? rule := by
  unfold entry? rule?
  rw [h.rules_eq]

theorem hasEdge_iff (h : network.Sheds consents network') :
    network'.HasEdge source label target ↔
      network.HasEdge source label target ∧ label.isOpen consents := by
  simp only [HasEdge, h.state?_eq, Option.map_eq_some_iff]
  constructor
  · rintro ⟨_, ⟨state, hstate, rfl⟩, hmem⟩
    obtain ⟨hmem, hopen⟩ := List.mem_filter.mp hmem
    exact ⟨⟨state, hstate, hmem⟩, hopen⟩
  · rintro ⟨⟨state, hstate, hmem⟩, hopen⟩
    exact ⟨_, ⟨state, hstate, rfl⟩, List.mem_filter.mpr ⟨hmem, hopen⟩⟩

theorem isStop_iff (h : network.Sheds consents network') {state : StateId} :
    network'.IsStop state ↔ network.IsStop state := by
  simp only [IsStop, h.state?_eq, Option.map_eq_some_iff]
  constructor
  · rintro ⟨_, ⟨known, hknown, rfl⟩, hstop⟩
    exact ⟨known, hknown, hstop⟩
  · rintro ⟨known, hknown, hstop⟩
    exact ⟨_, ⟨known, hknown, rfl⟩, hstop⟩

/-- No silent pass is gained. -/
theorem silentFinish (h : network.Sheds consents network') {state : StateId}
    (hfinish : network'.SilentFinish state) : network.SilentFinish state := by
  induction hfinish with
  | stop hstop => exact .stop (h.isStop_iff.mp hstop)
  | pass hedge hsilent _ ih => exact .pass (h.hasEdge_iff.mp hedge).1 hsilent ih
  | call hedge hentry _ _ ihcalled ih =>
    rw [h.entry?_eq] at hentry
    exact .call (h.hasEdge_iff.mp hedge).1 hentry ihcalled ih

end Sheds

/-- No rule becomes nullable when edges are taken out. -/
theorem isNullable_of_prune {draft : Draft} (hbuild : draft.build = .ok network)
    {rule : RuleId} (h : (network.prune consents).isNullable rule) : network.isNullable rule := by
  have hsheds := network.sheds_prune consents
  obtain ⟨entry, hentry, hfinish⟩ := (isNullable_iff (Draft.build_prune hbuild consents)).mp h
  rw [hsheds.entry?_eq] at hentry
  exact (isNullable_iff hbuild).mpr ⟨entry, hentry, hsheds.silentFinish hfinish⟩

end Network

end CodeCompletion
