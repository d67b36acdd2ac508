import CodeCompletion.Network.Build
import CodeCompletion.Proofs.FreeRun

/-!
# What building a network guarantees

A draft without defects is frozen as it is: every state keeps its place, and its edges are
those that were added to it. The defects that were looked for and not found become facts
about the network.

## Main definitions

* `Draft.edgesFrom`: the edges added to a state, in the order of their addition
* `Network.Owns`: a state belongs to a rule

## Main results

* `Draft.getElem?_states_toBlueprint`: the states of the tables of a draft
* `Draft.build_eq_ok_iff`: when a draft is built, and into what
* `Draft.edgeDefect?_of_hasEdge`: no edge of a built network has a defect
* `Draft.stopsFinal_of_build`: no edge of a built network leaves a stop state
* `Draft.owns_target_of_build`, `Draft.owns_entry_of_build`: edges of a built network stay
  within a rule, and every rule begins in a state of its own

A list of items, `listDraft`, serves as a sample of left recursion, with two items in
`itemQuery`. A phrase, `phraseDraft`, is a sample of a rule that may begin at several tokens.
-/

set_option autoImplicit false

namespace CodeCompletion

/-- The state belongs to the rule. -/
def Network.Owns (network : Network) (rule : RuleId) (state : StateId) : Prop :=
  ∃ known, network.state? state = some known ∧ known.rule = rule

namespace Draft

variable {draft : Draft} {network : Network} {source : StateId}

/-- The edges added to the state at `position`, in the order of their addition. -/
def edgesFrom (draft : Draft) (position : ℕ) : List Edge :=
  (draft.edges.toList.filter fun added => added.1.index = position).map Prod.snd

theorem mem_edgesFrom_iff {position : ℕ} {edge : Edge} :
    edge ∈ draft.edgesFrom position ↔ ∃ source, (source, edge) ∈ draft.edges ∧
      source.index = position := by
  simp [edgesFrom]

/-- Putting one edge after the other, the last one first, before the edges of its state. -/
theorem getElem?_foldr_addEdge (edges : List (StateId × Edge)) (states : Array State)
    (position : ℕ) :
    (edges.foldr (fun (source, edge) states => states.modify source.index fun state =>
      { state with edges := edge :: state.edges }) states)[position]? =
      states[position]?.map fun state => { state with
        edges := (edges.filter fun added => added.1.index = position).map Prod.snd ++
          state.edges } := by
  induction edges with
  | nil => simp
  | cons added rest ih =>
    obtain ⟨source, edge⟩ := added
    rw [List.foldr_cons, Array.getElem?_modify, ih]
    -- The edge goes before those of its own source and leaves every other state alone.
    by_cases hsource : source.index = position
    · simp [hsource, Function.comp_def]
    · simp [hsource]

theorem getElem?_states_toBlueprint (draft : Draft) (position : ℕ) :
    draft.toBlueprint.states[position]? =
      draft.places[position]?.map fun place =>
        { toPlace := place, edges := draft.edgesFrom position } := by
  rw [toBlueprint, ← Array.foldr_toList, getElem?_foldr_addEdge]
  simp [edgesFrom, Function.comp_def]

theorem build_eq_ok_iff : draft.build = .ok network ↔
    draft.defect? = none ∧
      network = { toBlueprint := draft.toBlueprint, nullable := draft.toBlueprint.nullable } := by
  unfold build
  split
  · next defect hdefect => simp [hdefect]
  · next hdefect => simp [hdefect, eq_comm]

theorem defect?_eq_none_iff : draft.defect? = none ↔
    draft.orphan? = none ∧ draft.ruleNames? = none ∧ draft.malformed? = none ∧
      ∀ source edge, (source, edge) ∈ draft.edges → draft.edgeDefect? source edge = none := by
  simp [defect?]

theorem edgeDefect?_eq_none_iff {edge : Edge} : draft.edgeDefect? source edge = none ↔
    ∃ origin destination, draft.place? source = some origin ∧ origin.kind ≠ .stop ∧
      draft.place? edge.target = some destination ∧ destination.rule = origin.rule ∧
      draft.labelDefect? source edge.label = none := by
  unfold edgeDefect?
  cases draft.place? source with
  | none => simp
  | some origin =>
    by_cases hstop : origin.kind = .stop
    · simp [hstop]
    · cases draft.place? edge.target with
      | none => simp [hstop]
      | some destination =>
        by_cases hrule : destination.rule = origin.rule
        · simp [hstop, hrule]
        · simp [hstop, hrule]

theorem state?_of_build (hbuild : draft.build = .ok network) (state : StateId) :
    network.state? state = (draft.place? state).map fun place =>
      { toPlace := place, edges := draft.edgesFrom state.index } := by
  obtain ⟨-, rfl⟩ := build_eq_ok_iff.mp hbuild
  exact getElem?_states_toBlueprint draft state.index

/-- Every edge of a built network was added to the draft and found without defect. -/
theorem edgeDefect?_of_hasEdge (hbuild : draft.build = .ok network) {label : Label}
    {target : StateId} (hedge : network.HasEdge source label target) :
    draft.edgeDefect? source ⟨label, target⟩ = none := by
  obtain ⟨state, hstate, hmem⟩ := hedge
  rw [state?_of_build hbuild, Option.map_eq_some_iff] at hstate
  obtain ⟨place, -, rfl⟩ := hstate
  obtain ⟨added, hadded, hindex⟩ := mem_edgesFrom_iff.mp hmem
  obtain rfl : added = source := StateId.ext (UInt32.toNat_inj.mp hindex)
  exact (defect?_eq_none_iff.mp (build_eq_ok_iff.mp hbuild).1).2.2.2 added _ hadded

/-- No edge of a built network leaves a stop state. -/
theorem stopsFinal_of_build (hbuild : draft.build = .ok network) : network.StopsFinal := by
  rintro source label target hedge ⟨state, hstate, hstop⟩
  obtain ⟨origin, -, horigin, hkind, -⟩ :=
    edgeDefect?_eq_none_iff.mp (edgeDefect?_of_hasEdge hbuild hedge)
  rw [state?_of_build hbuild, horigin, Option.map_some] at hstate
  obtain rfl := Option.some.inj hstate
  exact hkind (of_decide_eq_true hstop)

theorem owns_iff_of_build (hbuild : draft.build = .ok network) {rule : RuleId} {state : StateId} :
    network.Owns rule state ↔ ∃ place, draft.place? state = some place ∧ place.rule = rule := by
  simp [Network.Owns, state?_of_build hbuild]

/-- Edges of a built network lead to states of the same rule. -/
theorem owns_target_of_build (hbuild : draft.build = .ok network) {rule : RuleId} {label : Label}
    {target : StateId} (hedge : network.HasEdge source label target)
    (howns : network.Owns rule source) : network.Owns rule target := by
  obtain ⟨origin, destination, horigin, -, hdestination, hsame, -⟩ :=
    edgeDefect?_eq_none_iff.mp (edgeDefect?_of_hasEdge hbuild hedge)
  obtain ⟨place, hplace, rfl⟩ := (owns_iff_of_build hbuild).mp howns
  obtain rfl := Option.some.inj (hplace.symm.trans horigin)
  exact (owns_iff_of_build hbuild).mpr ⟨destination, hdestination, hsame⟩

theorem isBounded_of_build (hbuild : draft.build = .ok network) {id : RuleId} {rule : Rule}
    (hrule : network.rule? id = some rule) : draft.isBounded id rule := by
  obtain ⟨hdefect, rfl⟩ := build_eq_ok_iff.mp hbuild
  have hmalformed := (defect?_eq_none_iff.mp hdefect).2.2.1
  have hmem : (rule, id.index) ∈ draft.rules.toList.zipIdx := by
    rw [List.mk_mem_zipIdx_iff_getElem?, Array.getElem?_toList]
    exact hrule
  rw [malformed?, List.findSome?_eq_none_iff] at hmalformed
  have hnone := hmalformed _ hmem
  dsimp only at hnone
  rw [RuleId.ofIndex_index] at hnone
  by_contra hnot
  rw [if_neg hnot] at hnone
  cases hnone

/-- Every rule of a built network begins in a state of its own. -/
theorem owns_entry_of_build (hbuild : draft.build = .ok network) {rule : RuleId}
    {entry : StateId} (hentry : network.entry? rule = some entry) : network.Owns rule entry := by
  obtain ⟨known, hknown, rfl⟩ := Option.map_eq_some_iff.mp hentry
  have hbounded := isBounded_of_build hbuild hknown
  simp only [isBounded, Bool.and_eq_true, decide_eq_true_eq] at hbounded
  exact (owns_iff_of_build hbuild).mpr ⟨_, hbounded.1.1, rfl⟩

end Draft

/-! ## Samples -/

/-- The draft of one rule that is either passed along an edge labelled `last`, or a call of
itself followed by the only terminal. -/
def listDraft (last : Label) : Draft where
  places := #[⟨⟨0⟩, .entry⟩, ⟨⟨0⟩, .stop⟩, ⟨⟨0⟩, .interior⟩]
  rules := #[⟨⟨0⟩, [⟨1⟩]⟩]
  vocabulary := { terminals := #["item"], rules := #["items"] }
  edges := #[(⟨0⟩, ⟨.call ⟨0⟩, ⟨2⟩⟩), (⟨2⟩, ⟨.token ⟨0⟩, ⟨1⟩⟩), (⟨0⟩, ⟨last, ⟨1⟩⟩)]

/-- A list of items, nullable and left-recursive. -/
def itemList : Network :=
  { toBlueprint := (listDraft .epsilon).toBlueprint, nullable := #[true] }

theorem build_listDraft_epsilon : (listDraft .epsilon).build = .ok itemList := by
  decide +kernel

/-- A list of two items. -/
def itemQuery (options : Options) : Query :=
  { network := itemList, tokens := #[⟨0⟩, ⟨0⟩], options }

/-- The draft of two rules: a pair of items, and a phrase that is a pair or an item before a
pair. The two ways to begin a phrase stand in the given order. -/
def phraseDraft (former latter : Edge) : Draft where
  places := #[⟨⟨0⟩, .entry⟩, ⟨⟨0⟩, .stop⟩, ⟨⟨1⟩, .entry⟩, ⟨⟨1⟩, .stop⟩, ⟨⟨0⟩, .interior⟩,
    ⟨⟨1⟩, .interior⟩]
  rules := #[⟨⟨0⟩, [⟨1⟩]⟩, ⟨⟨2⟩, [⟨3⟩]⟩]
  vocabulary := { terminals := #["item"], rules := #["phrase", "pair"] }
  edges := #[(⟨0⟩, former), (⟨0⟩, latter), (⟨4⟩, ⟨.call ⟨1⟩, ⟨1⟩⟩), (⟨2⟩, ⟨.token ⟨0⟩, ⟨5⟩⟩),
    (⟨5⟩, ⟨.token ⟨0⟩, ⟨3⟩⟩)]

/-- One item, asked of the network of a phrase. -/
def phraseQuery (former latter : Edge) : Query where
  network := { toBlueprint := (phraseDraft former latter).toBlueprint, nullable := #[false, false] }
  tokens := #[⟨0⟩]

end CodeCompletion
