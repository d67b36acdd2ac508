import CodeCompletion.Proofs.Language
import CodeCompletion.Proofs.SetOrder
import CodeCompletion.Proofs.Spines

/-!
# Grammars laid out as networks

A grammar is built by registering its terminals and rules, and then adding the alternatives of
all rules in any order. Each addition lays out one more production, and leaves those before it as
they are. The network that is built in the end realizes the productions of the grammar, so that
its runs read the words of the grammar.

## Main definitions

* `Draft.Forks`, `Draft.Compiles`: productions laid out in a draft
* `Registers`: terminals and rules registered in any order
* `Grammar`, `Grammar.productions`, `Grammar.Sound`

## Main results

* `Draft.Compiles.addAlternative`, `Draft.Compiles.foldl_add`: alternatives one after the other
* `Registers.blank`: registrations in any order
* `Draft.Compiles.realizes`: the network realizes the productions
* `Grammar.freeRun_iff_derives`: a grammar is built, and the runs read its words
-/

set_option autoImplicit false

namespace CodeCompletion

/-! ## Productions in a draft -/

/-- The production is of one of the first `count` rules, and so are the calls in it. -/
structure Production.Sound (count : ℕ) (production : Production) : Prop where
  rule : production.rule.index < count
  elements : ∀ element ∈ production.elements, element.Sound count

namespace Draft

variable {draft draft' : Draft} {productions : List Production} {id : RuleId} {rule : Rule}
  {stop : StateId} {elements : List Element}

/-- From the entry of the rule a spine begins for each of its productions, and no edge leads
anywhere else. -/
structure Forks (draft : Draft) (productions : List Production) (id : RuleId) (rule : Rule)
    (stop : StateId) : Prop where
  stops : rule.stops = [stop]
  spine_of_edge : ∀ edge ∈ draft.edgesFrom rule.entry.index, edge.label = .epsilon ∧
    ∃ elements, ⟨id, elements⟩ ∈ productions ∧ draft.Spine id stop edge.target elements
  edge_of_production : ∀ elements, ⟨id, elements⟩ ∈ productions →
    ∃ target, ⟨.epsilon, target⟩ ∈ draft.edgesFrom rule.entry.index ∧
      draft.Spine id stop target elements

/-- The productions are laid out in the draft. -/
structure Compiles (draft : Draft) (productions : List Production) : Prop where
  wellFormed : draft.WellFormed
  forks : ∀ id rule, draft.rules[id.index]? = some rule →
    ∃ stop, draft.Forks productions id rule stop

/-- The rule of the alternative has one more spine. -/
theorem Forks.graft {start : StateId} (h : draft.Forks productions id rule stop)
    (hgrafts : draft.Grafts draft' id rule.entry stop start elements)
    (hentry : draft.place? rule.entry = some ⟨id, .entry⟩) :
    draft'.Forks (productions ++ [⟨id, elements⟩]) id rule stop where
  stops := h.stops
  spine_of_edge edge hedge := by
    rw [hgrafts.entry_edges] at hedge
    rcases List.mem_append.mp hedge with hold | hnew
    · obtain ⟨hlabel, others, hmem, hspine⟩ := h.spine_of_edge edge hold
      exact ⟨hlabel, others, List.mem_append_left _ hmem, hgrafts.keeps_spine hentry hspine⟩
    · obtain rfl := List.mem_singleton.mp hnew
      exact ⟨rfl, elements, List.mem_append_right _ (List.mem_singleton.mpr rfl), hgrafts.spine⟩
  edge_of_production others hmem := by
    rw [hgrafts.entry_edges]
    rcases List.mem_append.mp hmem with hold | hnew
    · obtain ⟨target, hedge, hspine⟩ := h.edge_of_production others hold
      exact ⟨target, List.mem_append_left _ hedge, hgrafts.keeps_spine hentry hspine⟩
    · obtain rfl := (Production.mk.inj (List.mem_singleton.mp hnew)).2
      exact ⟨start, List.mem_append_right _ (List.mem_singleton.mpr rfl), hgrafts.spine⟩

/-- The other rules have the spines that they had. -/
theorem Forks.graft_of_ne {id' : RuleId} {entry stop' start : StateId}
    (h : draft.Forks productions id rule stop)
    (hgrafts : draft.Grafts draft' id' entry stop' start elements)
    (hentry : draft.place? entry = some ⟨id', .entry⟩)
    (hentry' : draft.place? rule.entry = some ⟨id, .entry⟩) (hne : id ≠ id') :
    draft'.Forks (productions ++ [⟨id', elements⟩]) id rule stop := by
  have hedges : draft'.edgesFrom rule.entry.index = draft.edgesFrom rule.entry.index := by
    refine hgrafts.other_edges _ (index_lt_of_place? hentry') fun hindex => hne ?_
    rw [place?, hindex, ← place?, hentry] at hentry'
    exact (congrArg Place.rule (Option.some.inj hentry')).symm
  refine ⟨h.stops, ?_, ?_⟩
  · intro edge hedge
    rw [hedges] at hedge
    obtain ⟨hlabel, others, hmem, hspine⟩ := h.spine_of_edge edge hedge
    exact ⟨hlabel, others, List.mem_append_left _ hmem, hgrafts.keeps_spine hentry hspine⟩
  · intro others hmem
    rw [hedges]
    rcases List.mem_append.mp hmem with hold | hnew
    · obtain ⟨target, hedge, hspine⟩ := h.edge_of_production others hold
      exact ⟨target, hedge, hgrafts.keeps_spine hentry hspine⟩
    · exact absurd (Production.mk.inj (List.mem_singleton.mp hnew)).1 hne

/-- One more alternative is laid out. -/
theorem Compiles.addAlternative (h : draft.Compiles productions) {production : Production}
    (hsound : production.Sound draft.rules.size)
    (hroom : draft.places.size + production.elements.length + 1 ≤ 4294967296) :
    (draft.addAlternative production.rule production.elements).2.Compiles
      (productions ++ [production]) := by
  obtain ⟨rule, hrule⟩ : ∃ rule, draft.rules[production.rule.index]? = some rule :=
    ⟨_, Array.getElem?_eq_getElem hsound.rule⟩
  obtain ⟨stop, hforks⟩ := h.forks production.rule rule hrule
  have hgrafts := h.wellFormed.grafts hrule hforks.stops
    (fun element helement => soundLabel_of_sound (hsound.elements element helement)) hroom
  have hentry := (h.wellFormed.bounded_rule hrule).entry
  refine ⟨hgrafts.wellFormed, fun id other hother => ?_⟩
  rw [hgrafts.fills.rules_eq] at hother
  by_cases hid : id = production.rule
  · subst hid
    obtain rfl := Option.some.inj (hrule.symm.trans hother)
    exact ⟨stop, hforks.graft hgrafts hentry⟩
  · obtain ⟨stop', hforks'⟩ := h.forks id other hother
    have hentry' := (h.wellFormed.bounded_rule hother).entry
    exact ⟨stop', hforks'.graft_of_ne hgrafts hentry hentry' hid⟩

end Draft

/-! ## Calls and registrations in any order -/

/-- The addition of an alternative. -/
def Production.addition (production : Production) : Addition :=
  .alternative production.rule production.elements

/-- The number of states that alternatives are made of: one for each alternative, and one after
each element. -/
def laneCount (productions : List Production) : ℕ :=
  productions.length + (productions.flatMap Production.elements).length

theorem laneCount_cons (production : Production) (productions : List Production) :
    laneCount (production :: productions) =
      production.elements.length + 1 + laneCount productions := by
  simp only [laneCount, List.length_cons, List.flatMap_cons, List.length_append]
  omega

/-- Alternatives are laid out one after the other. -/
theorem Draft.Compiles.foldl_add {draft : Draft} {productions : List Production}
    (h : draft.Compiles productions) {calls : List Production}
    (hsound : ∀ production ∈ calls, production.Sound draft.rules.size)
    (hroom : draft.places.size + laneCount calls ≤ 4294967296) :
    ((calls.map Production.addition).foldl add draft).Compiles (productions ++ calls) ∧
      ((calls.map Production.addition).foldl add draft).rules = draft.rules := by
  induction calls generalizing draft productions with
  | nil => exact ⟨by rwa [List.append_nil], rfl⟩
  | cons production calls ih =>
    have hrules := (fills_addAlternative draft production.rule production.elements).rules_eq
    have hsize := size_places_addAlternative draft production.rule production.elements
    rw [laneCount_cons] at hroom
    have hstep := h.addAlternative (hsound production List.mem_cons_self) (by omega)
    obtain ⟨hcompiles, hrules'⟩ := ih hstep
      (fun other hother => hrules ▸ hsound other (List.mem_cons_of_mem _ hother))
      (by omega)
    rw [List.append_assoc, List.singleton_append] at hcompiles
    exact ⟨hcompiles, hrules'.trans hrules⟩

/-- Additions that register terminals and rules under the given names, each in their order. -/
inductive Registers : List Addition → List String → List String → Prop
  | nil : Registers [] [] []
  | terminal {additions : List Addition} {terminals rules : List String} {name : String}
      (hrest : Registers additions terminals rules) :
      Registers (.terminal name :: additions) (name :: terminals) rules
  | rule {additions : List Addition} {terminals rules : List String} {name : String}
      (hrest : Registers additions terminals rules) :
      Registers (.rule name :: additions) terminals (name :: rules)

namespace Draft

variable {draft : Draft}

/-- The draft has rules, each with its two states, and nothing else. -/
structure Blank (draft : Draft) : Prop where
  wellFormed : draft.WellFormed
  edges : draft.edges = #[]
  size : draft.places.size = 2 * draft.rules.size
  stops : ∀ (position : ℕ) (rule : Rule), draft.rules[position]? = some rule →
    ∃ stop, rule.stops = [stop]

theorem blank_empty : ({} : Draft).Blank where
  wellFormed := defect?_eq_none_iff_wellFormed.mp rfl
  edges := rfl
  size := rfl
  stops _ _ hrule := by cases hrule

theorem Blank.addTerminal (h : draft.Blank) (name : String) : (draft.addTerminal name).2.Blank :=
  ⟨h.wellFormed.addTerminal name, h.edges, h.size, h.stops⟩

theorem Blank.addRule (h : draft.Blank) (name : String)
    (hroom : draft.places.size + 2 ≤ 4294967296) : (draft.addRule name).2.Blank where
  wellFormed := h.wellFormed.addRule name hroom (by have := h.size; omega)
  edges := h.edges
  size := by
    have hsize := h.size
    rw [places_addRule, rules_addRule, Array.size_push, Array.size_push, Array.size_push]
    omega
  stops position rule hrule := by
    rw [rules_addRule, Array.getElem?_push] at hrule
    split at hrule
    · obtain rfl := Option.some.inj hrule
      exact ⟨_, rfl⟩
    · exact h.stops position rule hrule

/-- As long as there are only rules, no production is laid out. -/
theorem Blank.compiles (h : draft.Blank) : draft.Compiles [] := by
  refine ⟨h.wellFormed, fun id rule hrule => ?_⟩
  obtain ⟨stop, hstops⟩ := h.stops _ rule hrule
  refine ⟨stop, hstops, fun edge hedge => ?_, fun elements hmem => absurd hmem List.not_mem_nil⟩
  obtain ⟨source, hadded, -⟩ := mem_edgesFrom_iff.mp hedge
  rw [h.edges] at hadded
  exact absurd hadded (Array.not_mem_empty _)

end Draft

theorem Registers.blank {additions : List Addition} {terminals rules : List String}
    (h : Registers additions terminals rules) {draft : Draft} (hblank : draft.Blank)
    (hroom : draft.places.size + 2 * rules.length ≤ 4294967296) :
    (additions.foldl Draft.add draft).Blank ∧
      (additions.foldl Draft.add draft).rules.size = draft.rules.size + rules.length := by
  induction h generalizing draft with
  | nil => exact ⟨hblank, rfl⟩
  | terminal _ ih => exact ih (hblank.addTerminal _) hroom
  | @rule _ _ rules name _ ih =>
    rw [List.length_cons] at hroom
    have hstep := hblank.addRule name (by omega)
    have hrules : (draft.addRule name).2.rules.size = draft.rules.size + 1 := by
      rw [Draft.rules_addRule, Array.size_push]
    have hsize := hblank.size
    obtain ⟨hblank', hcount⟩ := ih hstep (by have := hstep.size; omega)
    refine ⟨hblank', hcount.trans ?_⟩
    rw [hrules, List.length_cons]
    omega

/-! ## The network of a grammar -/

namespace Draft

variable {draft : Draft} {network : Network} {productions : List Production} {id : RuleId}
  {rule : Rule} {stop source : StateId} {elements : List Element}

theorem onlyEdge_of_build (hbuild : draft.build = .ok network) {label : Label} {target : StateId}
    (hedges : draft.edgesFrom source.index = [⟨label, target⟩]) :
    network.OnlyEdge source label target := by
  intro label' target'
  rw [hasEdge_iff_of_build hbuild, hedges, List.mem_singleton, Edge.mk.injEq]

theorem Spine.lane (h : draft.Spine id stop source elements)
    (hbuild : draft.build = .ok network) : network.Lane stop source elements := by
  induction h with
  | last _ hedges => exact .last (onlyEdge_of_build hbuild hedges)
  | step _ hedges _ ih => exact .step (onlyEdge_of_build hbuild hedges) ih

theorem Forks.branches (h : draft.Forks productions id rule stop)
    (hbounded : draft.Bounded id rule) (hbuild : draft.build = .ok network) :
    network.Branches productions id rule stop where
  stops := h.stops
  isStop := (isStop_iff_of_build hbuild).mpr
    ⟨_, hbounded.stops stop (h.stops ▸ List.mem_singleton.mpr rfl), rfl⟩
  entry hstop := by
    obtain ⟨place, hplace, hkind⟩ := (isStop_iff_of_build hbuild).mp hstop
    obtain rfl := Option.some.inj (hbounded.entry.symm.trans hplace)
    cases hkind
  lane_of_edge label target hedge := by
    obtain ⟨hlabel, elements, hmem, hspine⟩ :=
      h.spine_of_edge _ ((hasEdge_iff_of_build hbuild).mp hedge)
    exact ⟨hlabel, elements, hmem, hspine.lane hbuild⟩
  edge_of_production elements hmem := by
    obtain ⟨target, hedge, hspine⟩ := h.edge_of_production elements hmem
    exact ⟨target, (hasEdge_iff_of_build hbuild).mpr hedge, hspine.lane hbuild⟩

theorem Compiles.realizes (h : draft.Compiles productions) (hbuild : draft.build = .ok network)
    (hsound : ∀ production ∈ productions, production.Sound draft.rules.size) :
    network.Realizes productions where
  final := stopsFinal_of_build hbuild
  known production hmem := by
    rw [rule?_of_build hbuild]
    exact ⟨_, Array.getElem?_eq_getElem (hsound production hmem).rule⟩
  branches id rule hrule := by
    rw [rule?_of_build hbuild] at hrule
    obtain ⟨stop, hforks⟩ := h.forks id rule hrule
    exact ⟨stop, hforks.branches (h.wellFormed.bounded_rule hrule) hbuild⟩

end Draft

/-- The names of the terminals, and the rules with their names and alternatives. -/
structure Grammar where
  terminals : List String := []
  rules : List (String × List (List Element)) := []

namespace Grammar

variable {grammar : Grammar}

/-- The alternatives of all rules. -/
def productions (grammar : Grammar) : List Production :=
  grammar.rules.zipIdx.flatMap fun (rule, position) =>
    rule.2.map fun elements => ⟨.ofIndex position, elements⟩

/-- Called rules are rules of the grammar, no set of terminals is empty, and there are enough
numbers for the states. -/
structure Sound (grammar : Grammar) : Prop where
  elements : ∀ production ∈ grammar.productions, ∀ element ∈ production.elements,
    element.Sound grammar.rules.length
  room : 2 * grammar.rules.length + laneCount grammar.productions ≤ 4294967296

theorem Sound.production (h : grammar.Sound) {production : Production}
    (hmem : production ∈ grammar.productions) : production.Sound grammar.rules.length := by
  refine ⟨?_, h.elements production hmem⟩
  obtain ⟨⟨rule, position⟩, hrule, hproduction⟩ := List.mem_flatMap.mp hmem
  obtain ⟨elements, -, rfl⟩ := List.mem_map.mp hproduction
  have hlt := (List.getElem?_eq_some_iff.mp (List.mk_mem_zipIdx_iff_getElem?.mp hrule)).1
  have hindex := RuleId.index_ofIndex position
  show (RuleId.ofIndex position).index < _
  omega

/-- Whichever way symbols are registered and alternatives are added after them, the productions
are laid out. -/
theorem Sound.compiles (h : grammar.Sound) {registrations : List Addition}
    (hregistrations : Registers registrations grammar.terminals (grammar.rules.map Prod.fst))
    {calls : List Production} (hcalls : calls.Perm grammar.productions) :
    (Draft.assemble (registrations ++ calls.map Production.addition)).Compiles calls ∧
      (Draft.assemble (registrations ++ calls.map Production.addition)).rules.size =
        grammar.rules.length := by
  have hroom := h.room
  have hcount : laneCount calls = laneCount grammar.productions := by
    rw [laneCount, laneCount, hcalls.length_eq, (hcalls.flatMap_right _).length_eq]
  obtain ⟨hblank, hrules⟩ := hregistrations.blank Draft.blank_empty (by
    rw [List.length_map, Array.size_empty]
    omega)
  rw [List.length_map, Array.size_empty, Nat.zero_add] at hrules
  have hsound : ∀ production ∈ calls,
      production.Sound (registrations.foldl Draft.add {}).rules.size := by
    intro production hproduction
    rw [hrules]
    exact h.production (hcalls.mem_iff.mp hproduction)
  obtain ⟨hcompiles, hsame⟩ := hblank.compiles.foldl_add hsound (by
    rw [hblank.size, hrules, hcount]
    exact hroom)
  rw [Draft.assemble_append]
  exact ⟨hcompiles, (congrArg Array.size hsame).trans hrules⟩

end Grammar

/-- If no edge was added as it is, the labels of the network accept what they match. -/
theorem Draft.accepts_iff_of_build {additions : List Addition} {network : Network}
    (hbuild : (assemble additions).build = .ok network)
    (hadditions : ∀ source edge, .edge source edge ∉ additions) {source target : StateId}
    {label : Label} (hedge : network.HasEdge source label target) (terminal : TerminalId) :
    label.accepts terminal ↔ label.Matches terminal := by
  obtain ⟨source', hadded, -⟩ := mem_edgesFrom_iff.mp ((hasEdge_iff_of_build hbuild).mp hedge)
  rcases edge_mem_assemble hadded with hgiven | hordered
  · exact absurd hgiven (hadditions source' _)
  · exact Label.accepts_iff hordered.ascending

theorem Registers.edge_not_mem {additions : List Addition} {terminals rules : List String}
    (h : Registers additions terminals rules) (source : StateId) (edge : Edge) :
    .edge source edge ∉ additions := by
  induction h with
  | nil => exact List.not_mem_nil
  | terminal _ ih | rule _ ih => simpa using ih

namespace Grammar

/-- A grammar is built whichever way its symbols are registered and its alternatives are added
after them, and from the entry of a rule to its stop the network reads the words of the rule. -/
theorem freeRun_iff_derives {grammar : Grammar} (hgrammar : grammar.Sound)
    {registrations : List Addition}
    (hregistrations : Registers registrations grammar.terminals (grammar.rules.map Prod.fst))
    {calls : List Production} (hcalls : calls.Perm grammar.productions) :
    ∃ network, (Draft.assemble (registrations ++ calls.map Production.addition)).build =
        .ok network ∧
      network.rules.size = grammar.rules.length ∧
      (∀ source label target terminal, network.HasEdge source label target →
        (label.accepts terminal ↔ label.Matches terminal)) ∧
      ∀ consents id word,
        (∃ rule stop, network.rule? id = some rule ∧ stop ∈ rule.stops ∧
          Query.FreeRun { network, tokens := word.toArray, consents }
            ⟨rule.entry, 0, [⟨id, 0, none⟩]⟩ ⟨stop, word.length, [⟨id, 0, none⟩]⟩) ↔
        Derives grammar.productions consents id word := by
  obtain ⟨hcompiles, hrules⟩ := hgrammar.compiles hregistrations hcalls
  obtain ⟨network, hbuild⟩ : ∃ network,
      (Draft.assemble (registrations ++ calls.map Production.addition)).build = .ok network :=
    ⟨_, Draft.build_eq_ok_iff.mpr
      ⟨Draft.defect?_eq_none_iff_wellFormed.mpr hcompiles.wellFormed, rfl⟩⟩
  have hrealizes : network.Realizes grammar.productions := by
    refine (hcompiles.realizes hbuild fun production hmem => ?_).congr fun _ => hcalls.mem_iff
    rw [hrules]
    exact hgrammar.production (hcalls.mem_iff.mp hmem)
  refine ⟨network, hbuild, ?_, ?_, ?_⟩
  · rw [(Draft.freezes_of_build hbuild).rules, hrules]
  · intro source label target terminal hedge
    refine Draft.accepts_iff_of_build hbuild (fun origin edge hmem => ?_) hedge terminal
    rcases List.mem_append.mp hmem with hregistered | hcalled
    · exact hregistrations.edge_not_mem origin edge hregistered
    · obtain ⟨production, -, hproduction⟩ := List.mem_map.mp hcalled
      cases hproduction
  · intro consents id word
    have hiff := Network.Realizes.freeRun_iff { network, tokens := word.toArray, consents }
      hrealizes id
    rwa [List.size_toArray] at hiff

/-- As many `b` as `a` around something else: `s ::= a s b | t` and `t ::= guard | not a`. -/
def nested : Grammar where
  terminals := ["a", "b"]
  rules := [("s", [[.token ⟨0⟩, .rule ⟨0⟩, .oneOf [⟨1⟩]], [.rule ⟨1⟩]]),
    ("t", [[.guard ⟨0⟩], [.noneOf [⟨0⟩]]])]

/-- The alternatives of the two rules are added in turns, and then `a a b b` is read if the host
consents. -/
theorem freeRun_iff_derives_nested :
    ∃ network, (Draft.assemble ([.rule "s", .terminal "a", .rule "t", .terminal "b"] ++
        [⟨⟨1⟩, [.noneOf [⟨0⟩]]⟩, ⟨⟨0⟩, [.rule ⟨1⟩]⟩, ⟨⟨1⟩, [.guard ⟨0⟩]⟩,
          ⟨⟨0⟩, [.token ⟨0⟩, .rule ⟨0⟩, .oneOf [⟨1⟩]]⟩].map Production.addition)).build =
        .ok network ∧
      ∃ rule stop, network.rule? ⟨0⟩ = some rule ∧ stop ∈ rule.stops ∧
        Query.FreeRun { network, tokens := #[⟨0⟩, ⟨0⟩, ⟨1⟩, ⟨1⟩] }
          ⟨rule.entry, 0, [⟨⟨0⟩, 0, none⟩]⟩ ⟨stop, 4, [⟨⟨0⟩, 0, none⟩]⟩ := by
  have hsound : nested.Sound := ⟨by decide, by decide⟩
  have hregistrations : Registers [.rule "s", .terminal "a", .rule "t", .terminal "b"]
      nested.terminals (nested.rules.map Prod.fst) :=
    .rule (.terminal (.rule (.terminal .nil)))
  have hcalls : List.Perm [⟨⟨1⟩, [.noneOf [⟨0⟩]]⟩, ⟨⟨0⟩, [.rule ⟨1⟩]⟩, ⟨⟨1⟩, [.guard ⟨0⟩]⟩,
      ⟨⟨0⟩, [.token ⟨0⟩, .rule ⟨0⟩, .oneOf [⟨1⟩]]⟩] nested.productions := by
    decide
  obtain ⟨network, hbuild, -, -, hiff⟩ := freeRun_iff_derives hsound hregistrations hcalls
  have houter : ⟨⟨0⟩, [.token ⟨0⟩, .rule ⟨0⟩, .oneOf [⟨1⟩]]⟩ ∈ nested.productions := by decide
  have hmiddle : ⟨⟨0⟩, [.rule ⟨1⟩]⟩ ∈ nested.productions := by decide
  have hinner : ⟨⟨1⟩, [.guard ⟨0⟩]⟩ ∈ nested.productions := by decide
  have hopens : (Element.token ⟨0⟩).Reads ⟨0⟩ := rfl
  have hclosing : Yields nested.productions (fun _ => true) [.oneOf [⟨1⟩]] [⟨1⟩] :=
    .read (List.mem_singleton.mpr rfl) .nil
  have hconsent : Yields nested.productions (fun _ => true) [.guard ⟨0⟩] [] := .guard rfl .nil
  have hempty := Yields.rule hinner hconsent .nil
  have hpair := Yields.read hopens (Yields.rule hmiddle hempty hclosing)
  have hpairs := Yields.read hopens (Yields.rule houter hpair hclosing)
  exact ⟨network, hbuild, (hiff _ ⟨0⟩ [⟨0⟩, ⟨0⟩, ⟨1⟩, ⟨1⟩]).mpr ⟨_, houter, hpairs⟩⟩

end Grammar

end CodeCompletion
