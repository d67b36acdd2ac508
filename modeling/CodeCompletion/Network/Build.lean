import CodeCompletion.Network.Defect
import CodeCompletion.Network.Draft
import CodeCompletion.Network.Nullable

/-!
# Building a network

A draft becomes a network if it has no defect. Defects are looked for in a fixed order:
states without a rule, the count of rule names, the boundaries of the rules, and then the
edges in the order of their addition.

## Main definitions

* `Draft.edgeDefect?`: the defect of one edge
* `Draft.defect?`: the first defect of a draft
* `Draft.build`: the network of a draft without defects
* `Blueprint.load`: stored tables, checked and built as a draft is
-/

set_option autoImplicit false

namespace CodeCompletion

namespace Draft

/-- The place of a state. -/
def place? (draft : Draft) (state : StateId) : Option Place :=
  draft.places[state.index]?

/-- Whether the draft has the rule. -/
def hasRule (draft : Draft) (rule : RuleId) : Bool :=
  rule.index < draft.rules.size

/-- The first state that belongs to no rule of the draft. -/
def orphan? (draft : Draft) : Option Defect :=
  draft.places.toList.zipIdx.findSome? fun (place, position) =>
    if draft.hasRule place.rule then none
    else some (.orphanState (.ofIndex position) place.rule)

/-- A wrong number of rule names. -/
def ruleNames? (draft : Draft) : Option Defect :=
  if draft.vocabulary.rules.size = draft.rules.size then none
  else some (.ruleNamesMismatch draft.rules.size draft.vocabulary.rules.size)

/-- Whether a rule begins at an entry state of its own and ends at stop states of its own,
at least one. -/
def isBounded (draft : Draft) (id : RuleId) (rule : Rule) : Bool :=
  draft.place? rule.entry = some ⟨id, .entry⟩ &&
    !rule.stops.isEmpty &&
    rule.stops.all fun stop => draft.place? stop = some ⟨id, .stop⟩

/-- The first rule without a proper boundary. -/
def malformed? (draft : Draft) : Option Defect :=
  draft.rules.toList.zipIdx.findSome? fun (rule, position) =>
    if draft.isBounded (.ofIndex position) rule then none
    else some (.malformedRule (.ofIndex position))

/-- What is wrong with the label of an edge that leaves `source`. -/
def labelDefect? (draft : Draft) (source : StateId) : Label → Option Defect
  | .call rule => if draft.hasRule rule then none else some (.unknownRule source rule)
  | .oneOf set | .noneOf set => if set.isEmpty then some (.emptySet source) else none
  | .epsilon | .token _ | .any | .guard _ => none

/-- What is wrong with an edge: its source, its target, the pair of them, or its label. -/
def edgeDefect? (draft : Draft) (source : StateId) (edge : Edge) : Option Defect :=
  match draft.place? source with
  | none => some (.unknownSource source)
  | some origin =>
    if origin.kind = .stop then some (.edgeFromStop source)
    else
      match draft.place? edge.target with
      | none => some (.unknownTarget source edge.target)
      | some destination =>
        if destination.rule = origin.rule then draft.labelDefect? source edge.label
        else some (.edgeAcrossRules source origin.rule edge.target destination.rule)

/-- The first defect of a draft. -/
def defect? (draft : Draft) : Option Defect :=
  draft.orphan? <|> draft.ruleNames? <|> draft.malformed? <|>
    draft.edges.toList.findSome? fun (source, edge) => draft.edgeDefect? source edge

/-- The tables of a draft, each state with its edges in the order of their addition. -/
def toBlueprint (draft : Draft) : Blueprint where
  states := draft.edges.foldr
    (fun (source, edge) states =>
      states.modify source.index fun state => { state with edges := edge :: state.edges })
    (draft.places.map fun place => { toPlace := place })
  rules := draft.rules
  vocabulary := draft.vocabulary

/-- The network of a draft, or its first defect. -/
def build (draft : Draft) : Except Defect Network :=
  match draft.defect? with
  | some defect => .error defect
  | none =>
    let blueprint := draft.toBlueprint
    .ok { toBlueprint := blueprint, nullable := blueprint.nullable }

end Draft

/-- The network of stored tables, which are checked as a draft is. -/
def Blueprint.load (blueprint : Blueprint) : Except Defect Network :=
  blueprint.toDraft.build

end CodeCompletion
