import CodeCompletion.Proofs.Boundaries
import CodeCompletion.Proofs.Steps

/-!
# The order of sets in networks

Sets of terminals come into a network in three ways: with an alternative, where they are made
from a list, with a single edge, or in stored tables. In the last two cases the set is taken as
it is. Building does not look at the order of its items, so they are in order exactly if the
set is one that could have been made from a list or by insertion. A set whose items are out
of order is offered as it is listed, but a replay does not find all of it.

## Main definitions

* `Label.set?`: the set of a label
* `Network.SetsOrdered`: the items of all sets are in order, without repeats
* `Network.SetsFaithful`: sets hold what they list, and a replay reads what they offer
* `Provenance.draft`: the draft that is built
* `Provenance.Hands`: labels that are taken as they are

## Main results

* `Draft.setsOrdered_iff_of_build`: the sets of a network are those of its draft
* `Draft.edge_mem_assemble`: an edge of an assembled draft was added as it is, or its set was
  made from a list
* `Provenance.setsOrdered_iff`: the networks in which all sets are in order
-/

set_option autoImplicit false

namespace CodeCompletion

namespace Label

/-- The set of the label, if it has one. -/
def set? : Label → Option TerminalSet
  | oneOf set | noneOf set => some set
  | token _ | any | epsilon | call _ | guard _ => none

/-- The set of the label, if it has one, is in order. -/
def SetOrdered (label : Label) : Prop :=
  ∀ set, label.set? = some set → set.Ordered

theorem SetOrdered.ascending {label : Label} (h : label.SetOrdered) : label.Ascending := by
  cases label with
  | oneOf set | noneOf set => exact (h set rfl).ascending
  | token _ | any | epsilon | call _ | guard _ => trivial

end Label

/-- The set of an element, if it has one, is made from a list. -/
theorem Element.setOrdered_label (element : Element) : element.label.SetOrdered := by
  intro set hset
  cases element with
  | oneOf terminals | noneOf terminals =>
    obtain rfl := Option.some.inj hset
    exact TerminalSet.ordered_ofList terminals
  | token _ | any | rule _ | guard _ => cases hset

namespace Network

/-- The items of all sets on edges are in order, without repeats. -/
def SetsOrdered (network : Network) : Prop :=
  ∀ state ∈ network.states, ∀ edge ∈ state.edges, edge.label.SetOrdered

/-- A set holds the terminals that it lists, and a replay passes an edge with a set at every token
that the edge offers. -/
structure SetsFaithful (network : Network) : Prop where
  contains_iff : ∀ state ∈ network.states, ∀ edge ∈ state.edges, ∀ set,
    edge.label.set? = some set → ∀ terminal, set.contains terminal ↔ terminal ∈ set.toList
  reads : ∀ (query : Query) caret config set target terminal, query.network = network →
    network.HasEdge config.state (.oneOf set) target →
    terminal ∈ (Label.oneOf set).offered network.vocabulary →
    query.tokens[config.index]? = some terminal → config.index < caret →
    .move (.advance target) ∈ query.step caret config

theorem SetsOrdered.faithful {network : Network} (hfinal : network.StopsFinal)
    (h : network.SetsOrdered) : network.SetsFaithful where
  contains_iff state hstate edge hedge set hset terminal :=
    (h state hstate edge hedge set hset).ascending.contains_iff
  reads := by
    rintro query caret config set target terminal rfl hedge hoffered htoken hcaret
    obtain ⟨state, hstate, hmem⟩ := id hedge
    have hordered : set.Ordered := h state (Array.mem_of_getElem? hstate) _ hmem set rfl
    have haccepts : (Label.oneOf set).accepts terminal :=
      hordered.ascending.contains_iff.mpr hoffered
    exact (Query.Moves.advance hedge htoken haccepts (Or.inl hcaret)).mem_step hfinal

end Network

/-! ## Drafts -/

namespace Draft

variable {draft : Draft} {network : Network}

/-- The sets of a network are in order exactly if those of its draft are. -/
theorem setsOrdered_iff_of_build (hbuild : draft.build = .ok network) : network.SetsOrdered ↔
    ∀ source edge, (source, edge) ∈ draft.edges → edge.label.SetOrdered := by
  have hstates := (freezes_of_build hbuild).states
  constructor
  · intro h source edge hadded
    obtain ⟨origin, -, horigin, -⟩ := (wellFormed_of_build hbuild).sound source edge hadded
    have hstate : network.states[source.index]? =
        some { toPlace := origin, edges := draft.edgesFrom source.index } := by
      rw [hstates, show draft.places[source.index]? = some origin from horigin, Option.map_some]
    exact h _ (Array.mem_of_getElem? hstate) edge (mem_edgesFrom_iff.mpr ⟨source, hadded, rfl⟩)
  · intro h state hmem edge hedge
    obtain ⟨position, hposition⟩ := Array.mem_iff_getElem?.mp hmem
    rw [hstates, Option.map_eq_some_iff] at hposition
    obtain ⟨place, -, rfl⟩ := hposition
    obtain ⟨source, hadded, -⟩ := mem_edgesFrom_iff.mp hedge
    exact h source edge hadded

/-! ## Assembled drafts -/

theorem setOrdered_of_mem_link {source? target? : Option StateId} {source : StateId} {edge : Edge}
    (h : (source, edge) ∈ (draft.link source? target?).edges) :
    (source, edge) ∈ draft.edges ∨ edge.label.SetOrdered := by
  unfold link at h
  split at h
  · rcases Array.mem_push.mp h with hold | hnew
    · exact Or.inl hold
    · obtain ⟨-, rfl⟩ := Prod.mk.inj hnew
      exact Or.inr fun set hset => by cases hset
  · exact Or.inl h

theorem setOrdered_of_mem_chain {rule : RuleId} {current source : StateId}
    {elements : List Element} {edge : Edge}
    (h : (source, edge) ∈ (draft.chain rule current elements).2.edges) :
    (source, edge) ∈ draft.edges ∨ edge.label.SetOrdered := by
  induction elements generalizing draft current with
  | nil => exact Or.inl h
  | cons element rest ih =>
    rcases ih h with hold | hordered
    · rcases Array.mem_push.mp hold with hold | hnew
      · exact Or.inl hold
      · obtain ⟨-, rfl⟩ := Prod.mk.inj hnew
        exact Or.inr element.setOrdered_label
    · exact Or.inr hordered

/-- Each edge that an addition brings was given as it is, or its set was made from a list. -/
theorem edge_mem_add {addition : Addition} {source : StateId} {edge : Edge}
    (h : (source, edge) ∈ (draft.add addition).edges) :
    (source, edge) ∈ draft.edges ∨ addition = .edge source edge ∨ edge.label.SetOrdered := by
  cases addition with
  | terminal | rule | state | stop => exact Or.inl h
  | edge origin added =>
    rcases Array.mem_push.mp h with hold | hnew
    · exact Or.inl hold
    · obtain ⟨rfl, rfl⟩ := Prod.mk.inj hnew
      exact Or.inr (Or.inl rfl)
  | alternative rule elements =>
    rcases setOrdered_of_mem_link h with h | hordered
    · rcases setOrdered_of_mem_chain h with h | hordered
      · rcases setOrdered_of_mem_link h with h | hordered
        · exact Or.inl h
        · exact Or.inr (Or.inr hordered)
      · exact Or.inr (Or.inr hordered)
    · exact Or.inr (Or.inr hordered)

/-- An edge of an assembled draft was added as it is, or its set was made from a list. -/
theorem edge_mem_assemble {additions : List Addition} {source : StateId} {edge : Edge}
    (h : (source, edge) ∈ (assemble additions).edges) :
    .edge source edge ∈ additions ∨ edge.label.SetOrdered := by
  induction additions using List.reverseRecOn with
  | nil => exact absurd h (Array.not_mem_empty _)
  | append_singleton additions addition ih =>
    rw [assemble_concat] at h
    rcases edge_mem_add h with hold | rfl | hordered
    · exact (ih hold).imp_left (List.mem_append_left _)
    · exact Or.inl (List.mem_append_right _ (List.mem_singleton.mpr rfl))
    · exact Or.inr hordered

theorem mem_edges_link {added : StateId × Edge} (h : added ∈ draft.edges)
    (source? target? : Option StateId) : added ∈ (draft.link source? target?).edges := by
  unfold link
  split
  · exact Array.mem_push_of_mem _ h
  · exact h

theorem mem_edges_chain {added : StateId × Edge} (h : added ∈ draft.edges) (rule : RuleId)
    (current : StateId) (elements : List Element) :
    added ∈ (draft.chain rule current elements).2.edges := by
  induction elements generalizing draft current with
  | nil => exact h
  | cons element rest ih => exact ih (Array.mem_push_of_mem _ h) _

/-- No addition takes an edge away. -/
theorem mem_edges_add {added : StateId × Edge} (h : added ∈ draft.edges) (addition : Addition) :
    added ∈ (draft.add addition).edges := by
  cases addition with
  | terminal | rule | state | stop => exact h
  | edge source edge => exact Array.mem_push_of_mem _ h
  | alternative rule elements =>
    have hstart : added ∈ (draft.addState rule).2.edges := h
    exact mem_edges_link (mem_edges_chain (mem_edges_link hstart _ _) _ _ _) _ _

theorem mem_edges_assemble {additions : List Addition} {source : StateId} {edge : Edge}
    (h : .edge source edge ∈ additions) : (source, edge) ∈ (assemble additions).edges := by
  induction additions using List.reverseRecOn with
  | nil => exact absurd h List.not_mem_nil
  | append_singleton additions addition ih =>
    rw [assemble_concat]
    rcases List.mem_append.mp h with hold | hnew
    · exact mem_edges_add (ih hold) addition
    · obtain rfl := List.mem_singleton.mp hnew
      exact Array.mem_push_self

end Draft

/-! ## Stored tables -/

theorem Blueprint.mem_edges_toDraft_iff {blueprint : Blueprint} {source : StateId} {edge : Edge} :
    (source, edge) ∈ blueprint.toDraft.edges ↔ ∃ (position : ℕ) (state : State),
      blueprint.states[position]? = some state ∧ edge ∈ state.edges ∧
        source = .ofIndex position := by
  simp only [toDraft, Array.mem_flatten, Array.mem_mapIdx, Array.getElem?_eq_some_iff]
  constructor
  · rintro ⟨-, ⟨position, hlt, rfl⟩, hmem⟩
    simp only [List.mem_toArray, List.mem_map, Prod.mk.injEq] at hmem
    obtain ⟨_, hedge, rfl, rfl⟩ := hmem
    exact ⟨position, _, ⟨hlt, rfl⟩, hedge, rfl⟩
  · rintro ⟨position, -, ⟨hlt, rfl⟩, hedge, rfl⟩
    exact ⟨_, ⟨position, hlt, rfl⟩, List.mem_toArray.mpr (List.mem_map_of_mem hedge)⟩

/-! ## Networks -/

namespace Provenance

/-- The label is taken as it is: it comes with a single edge, or in stored tables. -/
def Hands : Provenance → Label → Prop
  | assembled additions, label => ∃ source target, .edge source ⟨label, target⟩ ∈ additions
  | stored blueprint, label => ∃ state ∈ blueprint.states, ∃ edge ∈ state.edges,
      edge.label = label

/-- The draft that is built. -/
def draft : Provenance → Draft
  | assembled additions => .assemble additions
  | stored blueprint => blueprint.toDraft

theorem build_draft (provenance : Provenance) : provenance.draft.build = provenance.build := by
  cases provenance <;> rfl

/-- Labels that are taken as they are come on edges of the draft. -/
theorem Hands.exists_edge {provenance : Provenance} {label : Label} (h : provenance.Hands label) :
    ∃ source target, (source, ⟨label, target⟩) ∈ provenance.draft.edges := by
  cases provenance with
  | assembled additions =>
    obtain ⟨source, target, hadded⟩ := h
    exact ⟨source, target, Draft.mem_edges_assemble hadded⟩
  | stored blueprint =>
    obtain ⟨state, hstate, edge, hedge, rfl⟩ := h
    obtain ⟨position, hposition⟩ := Array.mem_iff_getElem?.mp hstate
    exact ⟨.ofIndex position, edge.target,
      Blueprint.mem_edges_toDraft_iff.mpr ⟨position, state, hposition, hedge, rfl⟩⟩

/-- A label on an edge of the draft is taken as it is, or its set was made from a list. -/
theorem hands_or_setOrdered {provenance : Provenance} {source : StateId} {edge : Edge}
    (h : (source, edge) ∈ provenance.draft.edges) :
    provenance.Hands edge.label ∨ edge.label.SetOrdered := by
  cases provenance with
  | assembled additions =>
    exact (Draft.edge_mem_assemble h).imp_left fun hadded => ⟨source, edge.target, hadded⟩
  | stored blueprint =>
    obtain ⟨position, state, hposition, hedge, -⟩ := Blueprint.mem_edges_toDraft_iff.mp h
    exact Or.inl ⟨state, Array.mem_of_getElem? hposition, edge, hedge, rfl⟩

/-- All sets of a network are in order exactly if those that were taken as they are could have
been made from a list or by insertion, and then sets hold what they list and a replay reads
what they offer. -/
theorem setsOrdered_iff {provenance : Provenance} {network : Network}
    (hbuild : provenance.build = .ok network) :
    (network.SetsOrdered ↔
      ∀ label set, provenance.Hands label → label.set? = some set → set.Made) ∧
    (network.SetsOrdered → network.SetsFaithful) := by
  rw [← build_draft] at hbuild
  refine ⟨?_, fun hordered => hordered.faithful (Draft.stopsFinal_of_build hbuild)⟩
  rw [Draft.setsOrdered_iff_of_build hbuild]
  constructor
  · intro hordered label set hhands hset
    obtain ⟨source, target, hadded⟩ := hhands.exists_edge
    exact TerminalSet.made_iff_ordered.mpr (hordered source _ hadded set hset)
  · intro hmade source edge hadded
    rcases hands_or_setOrdered hadded with hhands | hordered
    · exact fun set hset => TerminalSet.made_iff_ordered.mp (hmade _ set hhands hset)
    · exact hordered

/-- One set is made from a list with a repeat, and one by insertion. -/
theorem setsOrdered_iff_madeSets :
    ∃ network, (assembled [.rule "a", .alternative ⟨0⟩ [.oneOf [⟨2⟩, ⟨1⟩, ⟨2⟩]],
        .edge ⟨0⟩ ⟨.noneOf ((∅ : TerminalSet).insert ⟨3⟩).2, ⟨1⟩⟩]).build = .ok network ∧
      network.HasEdge ⟨2⟩ (.oneOf ⟨#[⟨1⟩, ⟨2⟩]⟩) ⟨3⟩ ∧
      network.SetsOrdered ∧ network.SetsFaithful := by
  have hbuild : (assembled [.rule "a", .alternative ⟨0⟩ [.oneOf [⟨2⟩, ⟨1⟩, ⟨2⟩]],
      .edge ⟨0⟩ ⟨.noneOf ((∅ : TerminalSet).insert ⟨3⟩).2, ⟨1⟩⟩]).build = .ok
      { states := #[⟨⟨⟨0⟩, .entry⟩, [⟨.epsilon, ⟨2⟩⟩, ⟨.noneOf ⟨#[⟨3⟩]⟩, ⟨1⟩⟩]⟩,
          ⟨⟨⟨0⟩, .stop⟩, []⟩, ⟨⟨⟨0⟩, .interior⟩, [⟨.oneOf ⟨#[⟨1⟩, ⟨2⟩]⟩, ⟨3⟩⟩]⟩,
          ⟨⟨⟨0⟩, .interior⟩, [⟨.epsilon, ⟨1⟩⟩]⟩]
        rules := #[⟨⟨0⟩, [⟨1⟩]⟩]
        vocabulary := { rules := #["a"] }
        nullable := #[false] } := by
    decide +kernel
  have hmade : ∀ label set, (assembled [.rule "a", .alternative ⟨0⟩ [.oneOf [⟨2⟩, ⟨1⟩, ⟨2⟩]],
      .edge ⟨0⟩ ⟨.noneOf ((∅ : TerminalSet).insert ⟨3⟩).2, ⟨1⟩⟩]).Hands label →
      label.set? = some set → set.Made := by
    rintro label set ⟨source, target, hadded⟩ hset
    simp only [List.mem_cons, reduceCtorEq, Addition.edge.injEq, Edge.mk.injEq, List.not_mem_nil,
      or_false, false_or] at hadded
    obtain ⟨-, rfl, -⟩ := hadded
    obtain rfl := Option.some.inj hset
    exact .insert .empty ⟨3⟩
  have hordered := (setsOrdered_iff hbuild).1.mpr hmade
  exact ⟨_, hbuild, ⟨_, rfl, List.mem_singleton.mpr rfl⟩, hordered,
    (setsOrdered_iff hbuild).2 hordered⟩

/-- Stored tables are loaded with a set that lists its terminals in descending order and does
not hold the first of them. -/
theorem not_setsOrdered :
    ∃ network, (stored
        { states := #[⟨⟨⟨0⟩, .entry⟩, [⟨.oneOf ⟨#[⟨1⟩, ⟨0⟩]⟩, ⟨1⟩⟩]⟩, ⟨⟨⟨0⟩, .stop⟩, []⟩]
          rules := #[⟨⟨0⟩, [⟨1⟩]⟩]
          vocabulary := { terminals := #["x", "y"], rules := #["a"] } }).build = .ok network ∧
      ¬ network.SetsOrdered ∧ ¬ network.SetsFaithful := by
  refine ⟨{ states := #[⟨⟨⟨0⟩, .entry⟩, [⟨.oneOf ⟨#[⟨1⟩, ⟨0⟩]⟩, ⟨1⟩⟩]⟩, ⟨⟨⟨0⟩, .stop⟩, []⟩]
            rules := #[⟨⟨0⟩, [⟨1⟩]⟩]
            vocabulary := { terminals := #["x", "y"], rules := #["a"] }
            nullable := #[false] }, by decide +kernel, fun hordered => ?_, fun hfaithful => ?_⟩
  · have hset : TerminalSet.Ordered ⟨#[⟨1⟩, ⟨0⟩]⟩ :=
      hordered _ (Array.mem_of_getElem? (i := 0) rfl) _ (List.mem_singleton.mpr rfl) _ rfl
    exact absurd hset (by decide)
  · have hholds : (⟨#[⟨1⟩, ⟨0⟩]⟩ : TerminalSet).contains ⟨1⟩ :=
      (hfaithful.contains_iff _ (Array.mem_of_getElem? (i := 0) rfl) _
        (List.mem_singleton.mpr rfl) _ rfl ⟨1⟩).mpr (by decide)
    exact absurd hholds (by decide +kernel)

end Provenance

end CodeCompletion
