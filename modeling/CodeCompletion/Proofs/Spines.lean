import CodeCompletion.Proofs.Growth
import CodeCompletion.Proofs.TerminalSet

/-!
# Spines

An alternative becomes a spine: new states one after the other inside its rule, each with one
edge, from the entry of the rule to its stop. Spines do not share states. Of the states that were
there before, an alternative gives one edge to the entry of its rule, and none to any other.

## Main definitions

* `Element.Sound`: elements that make a sound edge
* `Draft.Spine`: a row of states for a sequence of elements
* `Draft.chainTo`, `Draft.Growing`: a spine that is being laid
* `Draft.Grafts`: what an alternative changes

## Main results

* `Draft.Growing.chainTo`: a chain of elements becomes a spine
* `Draft.WellFormed.grafts`: an alternative becomes a spine
* `Draft.Grafts.keeps_spine`: no spine is touched by one that is laid after it
-/

set_option autoImplicit false

namespace CodeCompletion

/-! ## Sound elements -/

/-- The element calls one of the first `count` rules, or asks for a token of a list that has
some. -/
def Element.Sound (count : ℕ) : Element → Prop
  | oneOf terminals | noneOf terminals => terminals ≠ []
  | rule called => called.index < count
  | token _ | any | guard _ => True

instance (count : ℕ) : (element : Element) → Decidable (element.Sound count)
  | .oneOf terminals | .noneOf terminals => inferInstanceAs (Decidable (terminals ≠ []))
  | .rule called => inferInstanceAs (Decidable (called.index < count))
  | .token _ | .any | .guard _ => inferInstanceAs (Decidable True)

theorem TerminalSet.toList_ofList_ne_nil {terminals : List TerminalId} (h : terminals ≠ []) :
    (TerminalSet.ofList terminals).toList ≠ [] := by
  obtain ⟨terminal, hmem⟩ := List.exists_mem_of_ne_nil terminals h
  exact List.ne_nil_of_mem (TerminalSet.mem_ofList_iff.mpr hmem)

namespace Draft

variable {draft draft' : Draft} {id : RuleId} {rule : Rule} {stop current source : StateId}
  {elements : List Element} {label : Label}

theorem soundLabel_of_sound {element : Element} (h : element.Sound draft.rules.size) :
    draft.SoundLabel element.label := by
  cases element with
  | oneOf terminals | noneOf terminals => exact TerminalSet.toList_ofList_ne_nil h
  | rule called => exact h
  | token _ | any | guard _ => trivial

/-! ## Spines -/

/-- A row of states inside a rule, each with one edge: one for each element in turn, and one to
the stop at the end. -/
inductive Spine (draft : Draft) (id : RuleId) (stop : StateId) : StateId → List Element → Prop
  | last {source : StateId} (hplace : draft.place? source = some ⟨id, .interior⟩)
      (hedges : draft.edgesFrom source.index = [⟨.epsilon, stop⟩]) : Spine draft id stop source []
  | step {source next : StateId} {element : Element} {rest : List Element}
      (hplace : draft.place? source = some ⟨id, .interior⟩)
      (hedges : draft.edgesFrom source.index = [⟨element.label, next⟩])
      (hrest : Spine draft id stop next rest) : Spine draft id stop source (element :: rest)

/-- A spine is still there if the states inside its rule have kept their places and edges. -/
theorem Spine.keeps (h : draft.Spine id stop source elements) (hkeeps : draft.Keeps draft')
    (hedges : ∀ state, draft.place? state = some ⟨id, .interior⟩ →
      draft'.edgesFrom state.index = draft.edgesFrom state.index) :
    draft'.Spine id stop source elements := by
  induction h with
  | last hplace hlast => exact .last (hkeeps _ _ hplace) ((hedges _ hplace).trans hlast)
  | step hplace hstep _ ih => exact .step (hkeeps _ _ hplace) ((hedges _ hplace).trans hstep) ih

/-- Chain elements from the state `current` to the stop. -/
def chainTo (draft : Draft) (id : RuleId) (stop current : StateId) (elements : List Element) :
    Draft :=
  let (steps, draft) := draft.chain id current elements
  draft.addEdge (steps.getLastD current) ⟨.epsilon, stop⟩

theorem chainTo_nil (draft : Draft) (id : RuleId) (stop current : StateId) :
    draft.chainTo id stop current [] = draft.addEdge current ⟨.epsilon, stop⟩ :=
  rfl

theorem chainTo_cons (draft : Draft) (id : RuleId) (stop current : StateId) (element : Element)
    (rest : List Element) : draft.chainTo id stop current (element :: rest) =
      (draft.attach id current element.label).chainTo id stop (draft.addState id).1 rest := by
  simp only [chainTo, chain, attach, List.getLastD_cons]

theorem fills_chainTo (draft : Draft) (id : RuleId) (stop current : StateId)
    (elements : List Element) : draft.Fills (draft.chainTo id stop current elements) :=
  (fills_chain _ _ _ _).trans (fills_addEdge _ _ _)

/-- An alternative of a known rule is a new state after the entry of the rule, and a chain from
there to the stop. -/
theorem addAlternative_eq_chainTo {entry : StateId} (hentry : draft.entry? id = some entry)
    (hstop : draft.stop? id = some stop) (elements : List Element) :
    (draft.addAlternative id elements).2 =
      (draft.attach id entry .epsilon).chainTo id stop (draft.addState id).1 elements := by
  have hentry' : Draft.entry? (draft.addState id).2 id = some entry := hentry
  have hrules := (fills_chain (draft.attach id entry .epsilon) id (draft.addState id).1
    elements).rules_eq
  have hstop' : ((draft.attach id entry .epsilon).chain id (draft.addState id).1
      elements).2.stop? id = some stop := by
    rw [stop?, hrules]
    exact hstop
  rw [attach] at hstop' ⊢
  simp only [addAlternative, hentry', link, hstop', chainTo, Alternative.finish]

/-- A spine is being laid: its last state so far is new and has no edge yet. -/
structure Growing (draft : Draft) (id : RuleId) (stop current : StateId) : Prop where
  wellFormed : draft.WellFormed
  stop : draft.place? stop = some ⟨id, .stop⟩
  place : draft.place? current = some ⟨id, .interior⟩
  fresh : draft.edgesFrom current.index = []

/-- A new state after one of the same rule is the last state of a spine. -/
theorem WellFormed.growing (h : draft.WellFormed) (hstop : draft.place? stop = some ⟨id, .stop⟩)
    {kind : StateKind} (hsource : draft.place? source = some ⟨id, kind⟩) (hkind : kind ≠ .stop)
    (hlabel : draft.SoundLabel label) (hroom : draft.places.size < 4294967296) :
    (draft.attach id source label).Growing id stop (draft.addState id).1 := by
  have hkeeps := (fills_addState draft id).keeps
  have hnew := place?_addState draft id hroom
  have hrule : id.index < draft.rules.size := h.owned _ _ hsource
  have hsound : (draft.addState id).2.SoundEdge source ⟨label, (draft.addState id).1⟩ :=
    ⟨_, _, hkeeps _ _ hsource, hkind, hnew, rfl, hlabel⟩
  have hne : (draft.addState id).1.index ≠ source.index := by
    have hlt := index_lt_of_place? hsource
    rw [index_addState draft id hroom]
    omega
  refine ⟨(h.addState hrule).addEdge hsound, hkeeps _ _ hstop, hnew, ?_⟩
  rw [edgesFrom_attach_of_ne _ _ _ hne]
  exact h.edgesFrom_eq_nil (index_addState draft id hroom).ge

/-- A chain of elements becomes a spine, and the other states keep their edges. -/
theorem Growing.chainTo (h : draft.Growing id stop current)
    (hlabels : ∀ element ∈ elements, draft.SoundLabel element.label)
    (hroom : draft.places.size + elements.length ≤ 4294967296) :
    (draft.chainTo id stop current elements).WellFormed ∧
    (draft.chainTo id stop current elements).Spine id stop current elements ∧
    ∀ position < draft.places.size, position ≠ current.index →
      (draft.chainTo id stop current elements).edgesFrom position = draft.edgesFrom position := by
  induction elements generalizing draft current with
  | nil =>
    rw [chainTo_nil]
    have hsound : draft.SoundEdge current ⟨.epsilon, stop⟩ :=
      ⟨_, _, h.place, by simp, h.stop, rfl, trivial⟩
    refine ⟨h.wellFormed.addEdge hsound, .last h.place ?_, fun position _ hne => ?_⟩
    · rw [edgesFrom_addEdge_self, h.fresh, List.nil_append]
    · exact edgesFrom_addEdge_of_ne _ _ hne
  | cons element rest ih =>
    rw [List.length_cons] at hroom
    have hlt := index_lt_of_place? h.place
    have hnext := index_addState draft id (by omega)
    have hgrowing := h.wellFormed.growing h.stop h.place (by decide)
      (hlabels element List.mem_cons_self) (by omega)
    have hsize := size_places_attach draft id current element.label
    obtain ⟨hwell, hspine, hothers⟩ := ih hgrowing
      (fun other hother => hlabels other (List.mem_cons_of_mem _ hother)) (by omega)
    rw [chainTo_cons]
    have hkeeps := ((fills_attach draft id current element.label).trans
      (fills_chainTo _ id stop (draft.addState id).1 rest)).keeps
    refine ⟨hwell, .step (hkeeps _ _ h.place) ?_ hspine, fun position hposition hne => ?_⟩
    · rw [hothers _ (by omega) (by omega), edgesFrom_attach_self, h.fresh, List.nil_append]
    · rw [hothers _ (by omega) (by omega), edgesFrom_attach_of_ne _ _ _ hne]

/-! ## Alternatives -/

/-- The other draft has one spine more. It begins after the entry of the rule, and the states that
were there before have no other new edge. -/
structure Grafts (draft draft' : Draft) (id : RuleId) (entry stop start : StateId)
    (elements : List Element) : Prop where
  fills : draft.Fills draft'
  wellFormed : draft'.WellFormed
  spine : draft'.Spine id stop start elements
  entry_edges : draft'.edgesFrom entry.index = draft.edgesFrom entry.index ++ [⟨.epsilon, start⟩]
  other_edges : ∀ position < draft.places.size, position ≠ entry.index →
    draft'.edgesFrom position = draft.edgesFrom position

theorem WellFormed.grafts (h : draft.WellFormed) (hrule : draft.rules[id.index]? = some rule)
    (hstops : rule.stops = [stop]) (hlabels : ∀ element ∈ elements, draft.SoundLabel element.label)
    (hroom : draft.places.size + elements.length + 1 ≤ 4294967296) :
    draft.Grafts (draft.addAlternative id elements).2 id rule.entry stop (draft.addState id).1
      elements := by
  have hbounded := h.bounded_rule hrule
  have hstop := hbounded.stops stop (hstops ▸ List.mem_singleton.mpr rfl)
  have hlt := index_lt_of_place? hbounded.entry
  have hstart := index_addState draft id (by omega)
  have hgrowing : (draft.attach id rule.entry .epsilon).Growing id stop (draft.addState id).1 :=
    h.growing hstop hbounded.entry (by decide) trivial (by omega)
  have hsize := size_places_attach draft id rule.entry .epsilon
  have hknown : draft.entry? id = some rule.entry := by rw [Draft.entry?, hrule, Option.map_some]
  have hknown' : draft.stop? id = some stop := by
    rw [stop?, hrule, Option.bind_some, hstops, List.head?_cons]
  obtain ⟨hwell, hspine, hothers⟩ := hgrowing.chainTo hlabels (by omega)
  have heq := addAlternative_eq_chainTo hknown hknown' elements
  refine ⟨fills_addAlternative draft id elements, heq ▸ hwell, heq ▸ hspine, ?_, ?_⟩
  · rw [heq, hothers _ (by omega) (by omega), edgesFrom_attach_self]
  · intro position hposition hne
    rw [heq, hothers _ (by omega) (by omega), edgesFrom_attach_of_ne _ _ _ hne]

/-- No spine is touched by one that is laid after it. -/
theorem Grafts.keeps_spine {entry start stop' : StateId} {id' : RuleId}
    (h : draft.Grafts draft' id entry stop start elements)
    (hentry : draft.place? entry = some ⟨id, .entry⟩) {elements' : List Element}
    (hspine : draft.Spine id' stop' source elements') :
    draft'.Spine id' stop' source elements' := by
  refine hspine.keeps h.fills.keeps fun state hplace => ?_
  refine h.other_edges _ (index_lt_of_place? hplace) fun hindex => ?_
  rw [place?, hindex, ← place?, hentry] at hplace
  cases hplace

end Draft

end CodeCompletion
