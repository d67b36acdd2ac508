import CodeCompletion.Proofs.Boundaries

/-!
# Growing drafts

Additions to a well-formed draft leave it well formed as long as each makes sense by itself:
states are added to rules that are there, edges are sound, and there are numbers left for new
states. States keep their places, and only the source of an added edge gets a new edge.

## Main definitions

* `Draft.Keeps`: states keep their places
* `Draft.attach`: one more state, and an edge to it

## Main results

* `Draft.WellFormed.addTerminal`, `Draft.WellFormed.addRule`, `Draft.WellFormed.addState`,
  `Draft.WellFormed.addEdge`: a draft stays well formed
* `Draft.edgesFrom_addEdge_self`, `Draft.edgesFrom_addEdge_of_ne`: the edges of a state after
  one more addition
* `Draft.size_places_addAlternative`: the number of states that an alternative takes
-/

set_option autoImplicit false

namespace CodeCompletion

namespace Draft

variable {draft draft' : Draft} {id : RuleId} {rule : Rule} {source : StateId} {edge : Edge}
  {position : ℕ}

/-! ## Places -/

/-- States keep their places. -/
def Keeps (draft draft' : Draft) : Prop :=
  ∀ state place, draft.place? state = some place → draft'.place? state = some place

theorem index_lt_of_place? {place : Place} (h : draft.place? source = some place) :
    source.index < draft.places.size :=
  (Array.getElem?_eq_some_iff.mp h).1

theorem Fills.keeps (h : draft.Fills draft') : draft.Keeps draft' := by
  intro state place hplace
  rw [place?, h.old _ (index_lt_of_place? hplace)]
  exact hplace

theorem Bounded.keeps (h : draft.Bounded id rule) (hkeeps : draft.Keeps draft') :
    draft'.Bounded id rule where
  entry := hkeeps _ _ h.entry
  stops_ne_nil := h.stops_ne_nil
  stops stop hstop := hkeeps _ _ (h.stops stop hstop)

theorem WellFormed.bounded_rule (h : draft.WellFormed)
    (hrule : draft.rules[id.index]? = some rule) : draft.Bounded id rule := by
  simpa only [RuleId.ofIndex_index] using h.bounded id.index rule hrule

theorem SoundEdge.keeps (h : draft.SoundEdge source edge) (hkeeps : draft.Keeps draft')
    (hrules : draft.rules.size ≤ draft'.rules.size) : draft'.SoundEdge source edge := by
  obtain ⟨origin, destination, horigin, hkind, hdestination, hrule, hlabel⟩ := h
  refine ⟨origin, destination, hkeeps _ _ horigin, hkind, hkeeps _ _ hdestination, hrule, ?_⟩
  cases hedge : edge.label with
  | call called =>
    rw [hedge] at hlabel
    exact Nat.lt_of_lt_of_le hlabel hrules
  | oneOf _ | noneOf _ | epsilon | token _ | any | guard _ => rwa [hedge] at hlabel

theorem WellFormed.addState (h : draft.WellFormed) (hrule : id.index < draft.rules.size) :
    (draft.addState id).2.WellFormed where
  owned position place hplace := by
    rw [Draft.addState, addPlace, Array.getElem?_push] at hplace
    split at hplace
    · obtain rfl := Option.some.inj hplace
      exact hrule
    · exact h.owned position place hplace
  named := h.named
  bounded position rule hknown :=
    (h.bounded position rule hknown).keeps (fills_addState draft id).keeps
  sound source edge hadded :=
    (h.sound source edge hadded).keeps (fills_addState draft id).keeps (Nat.le_refl _)

theorem WellFormed.addEdge (h : draft.WellFormed) (hsound : draft.SoundEdge source edge) :
    (draft.addEdge source edge).WellFormed where
  owned := h.owned
  named := h.named
  bounded position rule hknown :=
    (h.bounded position rule hknown).keeps (fills_addEdge draft source edge).keeps
  sound source' edge' hadded := by
    have hkeeps := (fills_addEdge draft source edge).keeps
    rcases Array.mem_push.mp hadded with hold | hnew
    · exact (h.sound source' edge' hold).keeps hkeeps (Nat.le_refl _)
    · obtain ⟨rfl, rfl⟩ := Prod.mk.inj hnew
      exact hsound.keeps hkeeps (Nat.le_refl _)

theorem WellFormed.addTerminal (h : draft.WellFormed) (name : String) :
    (draft.addTerminal name).2.WellFormed :=
  h.congr rfl rfl rfl fun _ hadded => hadded

theorem keeps_addRule (draft : Draft) (name : String) : draft.Keeps (draft.addRule name).2 := by
  intro state place hplace
  have hlt := index_lt_of_place? hplace
  rw [place?, places_addRule, Array.getElem?_push, Array.getElem?_push, Array.size_push,
    if_neg (by omega), if_neg (by omega)]
  exact hplace

/-- A new rule begins and ends in the states that are made for it. -/
theorem bounded_addRule (draft : Draft) (name : String)
    (hroom : draft.places.size + 2 ≤ 4294967296) :
    (draft.addRule name).2.Bounded (.ofIndex draft.vocabulary.rules.size)
      ⟨.ofIndex draft.places.size, [.ofIndex (draft.places.size + 1)]⟩ where
  entry := by
    rw [place?, places_addRule, StateId.index_ofIndex, Nat.min_eq_left (by omega),
      Array.getElem?_push, Array.size_push, if_neg (by omega), Array.getElem?_push_size]
  stops_ne_nil := List.cons_ne_nil _ _
  stops stop hstop := by
    obtain rfl := List.mem_singleton.mp hstop
    rw [place?, places_addRule, StateId.index_ofIndex, Nat.min_eq_left (by omega),
      Array.getElem?_push, Array.size_push, if_pos rfl]

theorem WellFormed.addRule (h : draft.WellFormed) (name : String)
    (hroom : draft.places.size + 2 ≤ 4294967296) (hrules : draft.rules.size ≤ 4294967295) :
    (draft.addRule name).2.WellFormed := by
  have hsize : (draft.addRule name).2.rules.size = draft.rules.size + 1 := by
    rw [rules_addRule, Array.size_push]
  have hid : (RuleId.ofIndex draft.vocabulary.rules.size).index < draft.rules.size + 1 := by
    rw [RuleId.index_ofIndex, h.named]
    omega
  refine ⟨?_, ?_, ?_, ?_⟩
  · intro position place hplace
    rw [places_addRule, Array.getElem?_push, Array.getElem?_push] at hplace
    rw [hsize]
    split at hplace
    · obtain rfl := Option.some.inj hplace
      exact hid
    · split at hplace
      · obtain rfl := Option.some.inj hplace
        exact hid
      · exact Nat.lt_succ_of_lt (h.owned position place hplace)
  · rw [RulesNamed, hsize, ← h.named]
    exact Array.size_push _
  · intro position rule hrule
    rw [rules_addRule, Array.getElem?_push] at hrule
    split at hrule
    · next hposition =>
      obtain rfl := Option.some.inj hrule
      rw [hposition, ← h.named]
      exact bounded_addRule draft name hroom
    · exact (h.bounded position rule hrule).keeps (keeps_addRule draft name)
  · intro source edge hadded
    exact (h.sound source edge hadded).keeps (keeps_addRule draft name) (by omega)

/-! ## Edges of a state -/

theorem edgesFrom_addEdge_self (draft : Draft) (source : StateId) (edge : Edge) :
    (draft.addEdge source edge).edgesFrom source.index =
      draft.edgesFrom source.index ++ [edge] := by
  simp [edgesFrom, Draft.addEdge]

theorem edgesFrom_addEdge_of_ne (draft : Draft) (edge : Edge) (h : position ≠ source.index) :
    (draft.addEdge source edge).edgesFrom position = draft.edgesFrom position := by
  simp [edgesFrom, Draft.addEdge, h.symm]

/-- No edge leaves a state that is not there. -/
theorem WellFormed.edgesFrom_eq_nil (h : draft.WellFormed)
    (hposition : draft.places.size ≤ position) : draft.edgesFrom position = [] := by
  refine List.eq_nil_iff_forall_not_mem.mpr fun edge hedge => ?_
  obtain ⟨source, hadded, rfl⟩ := mem_edgesFrom_iff.mp hedge
  obtain ⟨origin, -, horigin, -⟩ := h.sound source edge hadded
  exact absurd (index_lt_of_place? horigin) (Nat.not_lt.mpr hposition)

/-! ## New states -/

theorem index_addState (draft : Draft) (id : RuleId) (hroom : draft.places.size < 4294967296) :
    (draft.addState id).1.index = draft.places.size := by
  rw [addState, addPlace, StateId.index_ofIndex]
  omega

theorem place?_addState (draft : Draft) (id : RuleId) (hroom : draft.places.size < 4294967296) :
    (draft.addState id).2.place? (draft.addState id).1 = some ⟨id, .interior⟩ := by
  rw [place?, index_addState draft id hroom]
  exact Array.getElem?_push_size

/-- The draft with one more state inside the rule and an edge from `source` to it. -/
def attach (draft : Draft) (id : RuleId) (source : StateId) (label : Label) : Draft :=
  (draft.addState id).2.addEdge source ⟨label, (draft.addState id).1⟩

theorem fills_attach (draft : Draft) (id : RuleId) (source : StateId) (label : Label) :
    draft.Fills (draft.attach id source label) :=
  (fills_addState draft id).trans (fills_addEdge _ _ _)

theorem size_places_attach (draft : Draft) (id : RuleId) (source : StateId) (label : Label) :
    (draft.attach id source label).places.size = draft.places.size + 1 :=
  Array.size_push _

theorem edgesFrom_attach_self (draft : Draft) (id : RuleId) (source : StateId) (label : Label) :
    (draft.attach id source label).edgesFrom source.index =
      draft.edgesFrom source.index ++ [⟨label, (draft.addState id).1⟩] :=
  edgesFrom_addEdge_self (draft.addState id).2 source _

theorem edgesFrom_attach_of_ne (draft : Draft) (id : RuleId) (label : Label)
    (h : position ≠ source.index) :
    (draft.attach id source label).edgesFrom position = draft.edgesFrom position :=
  edgesFrom_addEdge_of_ne (draft.addState id).2 _ h

theorem size_places_chain (draft : Draft) (id : RuleId) (current : StateId)
    (elements : List Element) :
    (draft.chain id current elements).2.places.size = draft.places.size + elements.length := by
  induction elements generalizing draft current with
  | nil => rfl
  | cons element rest ih =>
    have hrest := ih (draft.attach id current element.label) (draft.addState id).1
    rw [size_places_attach, Nat.add_assoc, Nat.add_comm 1] at hrest
    exact hrest

theorem places_link (draft : Draft) (source? target? : Option StateId) :
    (draft.link source? target?).places = draft.places := by
  unfold link
  split <;> rfl

theorem size_places_addAlternative (draft : Draft) (id : RuleId) (elements : List Element) :
    (draft.addAlternative id elements).2.places.size =
      draft.places.size + elements.length + 1 := by
  have hsize : (draft.addState id).2.places.size = draft.places.size + 1 := Array.size_push _
  rw [addAlternative, places_link, size_places_chain, places_link, hsize]
  omega

end Draft

end CodeCompletion
