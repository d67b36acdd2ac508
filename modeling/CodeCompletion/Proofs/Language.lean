import CodeCompletion.Proofs.Trips

/-!
# Productions and the words of a network

A production says that a rule may be spelled out as a sequence of elements. A word is derived
from a rule by spelling out every call in turn, until only tokens are left. Guards that the host
consents to leave nothing behind.

A network realizes productions if the entry of each rule branches into lanes, one for each
production of the rule: a lane has one edge after the other, one for each element, and ends in
the stop of the rule. The words that a run can read from the entry of a rule to its stop are
then those that are derived from the rule.

## Main definitions

* `Element.Reads`, `Production`: the tokens of an element, and productions
* `Yields`, `Derives`: the words of a sequence of elements, and of a rule
* `Network.Lane`, `Network.Branches`, `Network.Realizes`: productions as parts of a network
* `Query.Spells`: a word between two places of the token stream
* `Query.Accounts`: what is read from a state on is a word
* `Query.Closes`: the outermost of the open calls can be finished

## Main results

* `Yields.freeRun`: a run along a lane reads every word of the lane's elements
* `Query.Trip.accounts`: whatever is read along a lane is a word of its elements
* `Query.FreeRun.closes`: a free run that ends where it began is folded along its calls
* `Network.Realizes.freeRun_iff`: the words between the entry and the stop of a rule
-/

set_option autoImplicit false

namespace CodeCompletion

/-! ## Words of productions -/

/-- The element asks for a token, and `terminal` is a type of token that it asks for. -/
def Element.Reads (terminal : TerminalId) : Element → Prop
  | token expected => terminal = expected
  | oneOf terminals => terminal ∈ terminals
  | noneOf terminals => terminal ≠ .wildcard ∧ terminal ∉ terminals
  | any => True
  | rule _ | guard _ => False

/-- An edge made for an element matches the tokens of the element. -/
theorem Element.matches_label_iff {element : Element} {terminal : TerminalId} :
    element.label.Matches terminal ↔ element.Reads terminal := by
  cases element with
  | oneOf terminals => exact TerminalSet.mem_ofList_iff
  | noneOf terminals => exact and_congr_right' (not_congr TerminalSet.mem_ofList_iff)
  | token _ | any | rule _ | guard _ => exact Iff.rfl

/-- A rule may be spelled out as a sequence of elements. -/
structure Production where
  rule : RuleId
  elements : List Element
deriving DecidableEq

section Words

variable {productions : List Production} {consents : PredicateId → Bool}

/-- The words of a sequence of elements. -/
inductive Yields (productions : List Production) (consents : PredicateId → Bool) :
    List Element → List TerminalId → Prop
  | nil : Yields productions consents [] []
  /-- One token that the first element asks for. -/
  | read {element : Element} {rest : List Element} {terminal : TerminalId}
      {word : List TerminalId} (hreads : element.Reads terminal)
      (hrest : Yields productions consents rest word) :
      Yields productions consents (element :: rest) (terminal :: word)
  /-- Nothing, for a guard that the host consents to. -/
  | guard {predicate : PredicateId} {rest : List Element} {word : List TerminalId}
      (hconsents : consents predicate) (hrest : Yields productions consents rest word) :
      Yields productions consents (.guard predicate :: rest) word
  /-- A word of the called rule. -/
  | rule {called : RuleId} {elements rest : List Element} {inner word : List TerminalId}
      (hmem : ⟨called, elements⟩ ∈ productions)
      (hcalled : Yields productions consents elements inner)
      (hrest : Yields productions consents rest word) :
      Yields productions consents (.rule called :: rest) (inner ++ word)

/-- The words of a rule. -/
def Derives (productions : List Production) (consents : PredicateId → Bool) (rule : RuleId)
    (word : List TerminalId) : Prop :=
  ∃ elements, ⟨rule, elements⟩ ∈ productions ∧ Yields productions consents elements word

end Words

/-! ## Lanes -/

namespace Network

variable {network : Network} {productions productions' : List Production}

/-- One edge leaves the state. -/
def OnlyEdge (network : Network) (source : StateId) (label : Label) (target : StateId) : Prop :=
  ∀ label' target', network.HasEdge source label' target' ↔ label' = label ∧ target' = target

/-- A row of states with an edge for each element in turn, and one to the stop at the end. -/
inductive Lane (network : Network) (stop : StateId) : StateId → List Element → Prop
  | last {source : StateId} (hedge : network.OnlyEdge source .epsilon stop) :
      Lane network stop source []
  | step {source next : StateId} {element : Element} {rest : List Element}
      (hedge : network.OnlyEdge source element.label next)
      (hrest : Lane network stop next rest) : Lane network stop source (element :: rest)

/-- From the entry of the rule a lane begins for each of its productions, and no edge leads
anywhere else. -/
structure Branches (network : Network) (productions : List Production) (id : RuleId)
    (rule : Rule) (stop : StateId) : Prop where
  stops : rule.stops = [stop]
  isStop : network.IsStop stop
  entry : ¬ network.IsStop rule.entry
  lane_of_edge : ∀ label target, network.HasEdge rule.entry label target →
    label = .epsilon ∧ ∃ elements, ⟨id, elements⟩ ∈ productions ∧ network.Lane stop target elements
  edge_of_production : ∀ elements, ⟨id, elements⟩ ∈ productions →
    ∃ target, network.HasEdge rule.entry .epsilon target ∧ network.Lane stop target elements

/-- The rules of the network are those of the productions. -/
structure Realizes (network : Network) (productions : List Production) : Prop where
  final : network.StopsFinal
  known : ∀ production ∈ productions, ∃ rule, network.rule? production.rule = some rule
  branches : ∀ id rule, network.rule? id = some rule →
    ∃ stop, network.Branches productions id rule stop

theorem Branches.congr {id : RuleId} {rule : Rule} {stop : StateId}
    (h : network.Branches productions id rule stop)
    (hmem : ∀ production, production ∈ productions ↔ production ∈ productions') :
    network.Branches productions' id rule stop where
  stops := h.stops
  isStop := h.isStop
  entry := h.entry
  lane_of_edge label target hedge := by simpa only [hmem] using h.lane_of_edge label target hedge
  edge_of_production elements helements := h.edge_of_production elements ((hmem _).mpr helements)

/-- The order of the productions does not show. -/
theorem Realizes.congr (h : network.Realizes productions)
    (hmem : ∀ production, production ∈ productions ↔ production ∈ productions') :
    network.Realizes productions' where
  final := h.final
  known production hproduction := h.known production ((hmem _).mpr hproduction)
  branches id rule hrule := by
    obtain ⟨stop, hbranches⟩ := h.branches id rule hrule
    exact ⟨stop, hbranches.congr hmem⟩

theorem Lane.not_isStop {stop source : StateId} {elements : List Element}
    (h : network.Lane stop source elements) (hfinal : network.StopsFinal) :
    ¬ network.IsStop source := by
  cases h with
  | last hedge => exact hfinal _ _ _ ((hedge _ _).mpr ⟨rfl, rfl⟩)
  | step hedge _ => exact hfinal _ _ _ ((hedge _ _).mpr ⟨rfl, rfl⟩)

end Network

/-! ## Words of the token stream -/

namespace Query

variable {query : Query} {productions : List Production}

/-- The word stands in the token stream from one place to another. -/
inductive Spells (query : Query) : ℕ → List TerminalId → ℕ → Prop
  | nil {index : ℕ} : Spells query index [] index
  | cons {index last : ℕ} {terminal : TerminalId} {word : List TerminalId}
      (htoken : query.tokens[index]? = some terminal) (hrest : Spells query (index + 1) word last) :
      Spells query index (terminal :: word) last

theorem Spells.append {index mid last : ℕ} {word word' : List TerminalId}
    (h : query.Spells index word mid) (h' : query.Spells mid word' last) :
    query.Spells index (word ++ word') last := by
  induction h with
  | nil => exact h'
  | cons htoken _ ih => exact .cons htoken (ih h')

theorem Spells.split {index last : ℕ} {word word' : List TerminalId}
    (h : query.Spells index (word ++ word') last) :
    ∃ mid, query.Spells index word mid ∧ query.Spells mid word' last := by
  induction word generalizing index with
  | nil => exact ⟨index, .nil, h⟩
  | cons terminal word ih =>
    cases h with
    | cons htoken hrest =>
      obtain ⟨mid, hword, hword'⟩ := ih hrest
      exact ⟨mid, .cons htoken hword, hword'⟩

theorem Spells.drop_eq {index last : ℕ} {word : List TerminalId}
    (h : query.Spells index word last) :
    query.tokens.toList.drop index = word ++ query.tokens.toList.drop last := by
  induction h with
  | nil => rfl
  | cons htoken _ ih =>
    rw [← Array.getElem?_toList] at htoken
    obtain ⟨hlt, rfl⟩ := List.getElem?_eq_some_iff.mp htoken
    rw [List.drop_eq_getElem_cons hlt, ih, List.cons_append]

/-- From a place to the end of the stream stands what is left of it. -/
theorem spells_size_iff {index : ℕ} {word : List TerminalId} (hindex : index ≤ query.tokens.size) :
    query.Spells index word query.tokens.size ↔ query.tokens.toList.drop index = word := by
  constructor
  · intro hspells
    rw [hspells.drop_eq, ← Array.length_toList, List.drop_length, List.append_nil]
  · intro hdrop
    induction word generalizing index with
    | nil =>
      have hle := List.drop_eq_nil_iff.mp hdrop
      rw [Array.length_toList] at hle
      obtain rfl := Nat.le_antisymm hindex hle
      exact .nil
    | cons terminal word ih =>
      have hlt : index < query.tokens.toList.length := by
        by_contra hge
        rw [List.drop_eq_nil_of_le (Nat.not_lt.mp hge)] at hdrop
        cases hdrop
      rw [List.drop_eq_getElem_cons hlt] at hdrop
      obtain ⟨hterminal, hrest⟩ := List.cons.inj hdrop
      have htoken : query.tokens[index]? = some terminal := by
        rw [← Array.getElem?_toList, List.getElem?_eq_getElem hlt, hterminal]
      rw [Array.length_toList] at hlt
      exact .cons htoken (ih hlt hrest)

end Query

/-! ## From words to runs -/

/-- A run along a lane reads every word of the lane's elements. -/
theorem Yields.freeRun {query : Query} {productions : List Production} {elements : List Element}
    {word : List TerminalId} (h : Yields productions query.consents elements word)
    (hrealizes : query.network.Realizes productions) {stop source : StateId} {index last : ℕ}
    {caller : Frame} {outer : CallStack} (hlane : query.network.Lane stop source elements)
    (hspells : query.Spells index word last) :
    query.FreeRun ⟨source, index, caller :: outer⟩ ⟨stop, last, caller :: outer⟩ := by
  induction h generalizing stop source index last caller outer with
  | nil =>
    cases hspells
    cases hlane with
    | last hedge => exact .single (.pass ((hedge _ _).mpr ⟨rfl, rfl⟩) trivial)
  | read hreads _ ih =>
    cases hspells with
    | cons htoken hspells =>
      cases hlane with
      | step hedge hlane =>
        have hmatches := Element.matches_label_iff.mpr hreads
        exact .head (.read ((hedge _ _).mpr ⟨rfl, rfl⟩) htoken hmatches) (ih hlane hspells)
  | guard hconsents _ ih =>
    cases hlane with
    | step hedge hlane =>
      exact .head (.pass ((hedge _ _).mpr ⟨rfl, rfl⟩) hconsents) (ih hlane hspells)
  | @rule called elements rest inner word hmem _ _ ihcalled ih =>
    obtain ⟨mid, hinner, hspells⟩ := hspells.split
    obtain ⟨rule, hrule⟩ := hrealizes.known _ hmem
    obtain ⟨exit, hbranches⟩ := hrealizes.branches called rule hrule
    obtain ⟨start, hstart, hcalled⟩ := hbranches.edge_of_production elements hmem
    have hentry : query.network.entry? called = some rule.entry := by
      rw [Network.entry?, hrule, Option.map_some]
    cases hlane with
    | step hedge hlane =>
      -- Into the rule, along its lane, and back to the state after the call.
      refine .head (.call ((hedge _ _).mpr ⟨rfl, rfl⟩) hentry) ?_
      refine .head (.pass hstart trivial) ?_
      refine (ihcalled hcalled hinner).trans ?_
      exact .head (.finish hbranches.isStop) (ih hlane hspells)

/-! ## From runs to words -/

namespace Query

variable {query : Query} {productions : List Production} {caret : ℕ} {site state : StateId}
  {size index last : ℕ} {stack : CallStack}

/-- A trip from a stop state ends where it begins. -/
theorem Trip.eq_of_isStop (h : query.Trip caret site size state index (.finish last))
    (hfinal : query.network.StopsFinal) (hstop : query.network.IsStop state) : last = index := by
  cases h with
  | finish => rfl
  | pass hedge => exact absurd hstop (hfinal _ _ _ hedge)
  | read hedge => exact absurd hstop (hfinal _ _ _ hedge)
  | call hedge => exact absurd hstop (hfinal _ _ _ hedge)

/-- What stands between two places of the stream is a word of the part of the network that begins
at the state: of a sequence of elements if this is a lane, of a rule if it is an entry. -/
structure Accounts (query : Query) (productions : List Production) (state : StateId)
    (index last : ℕ) : Prop where
  lane : ∀ stop elements, query.network.IsStop stop → query.network.Lane stop state elements →
    ∃ word, Yields productions query.consents elements word ∧ query.Spells index word last
  entry : ∀ id rule, query.network.rule? id = some rule → rule.entry = state →
    ∃ word, Derives productions query.consents id word ∧ query.Spells index word last

/-- Every trip that finishes its rule reads a word. -/
theorem Trip.accounts (h : query.Trip caret site size state index (.finish last))
    (hrealizes : query.network.Realizes productions) :
    query.Accounts productions state index last := by
  generalize hgoal : Goal.finish last = goal at h
  induction h generalizing last with
  | arrive | stay => cases hgoal
  | finish hstop _ =>
    constructor
    · intro stop elements _ hlane
      exact absurd hstop (hlane.not_isStop hrealizes.final)
    · rintro id rule hrule rfl
      obtain ⟨exit, hbranches⟩ := hrealizes.branches id rule hrule
      exact absurd hstop hbranches.entry
  | pass hedge hpasses hrest ih =>
    subst hgoal
    constructor
    · intro stop elements hstop hlane
      cases hlane with
      | last honly =>
        obtain ⟨rfl, rfl⟩ := (honly _ _).mp hedge
        obtain rfl := hrest.eq_of_isStop hrealizes.final hstop
        exact ⟨[], .nil, .nil⟩
      | @step _ _ element _ honly hlane =>
        obtain ⟨rfl, rfl⟩ := (honly _ _).mp hedge
        obtain ⟨word, hyields, hspells⟩ := (ih rfl).lane stop _ hstop hlane
        cases element with
        | guard predicate => exact ⟨word, .guard hpasses hyields, hspells⟩
        | token _ | oneOf _ | noneOf _ | any | rule _ => exact hpasses.elim
    · rintro id rule hrule rfl
      obtain ⟨exit, hbranches⟩ := hrealizes.branches id rule hrule
      obtain ⟨-, elements, hmem, hlane⟩ := hbranches.lane_of_edge _ _ hedge
      obtain ⟨word, hyields, hspells⟩ := (ih rfl).lane exit elements hbranches.isStop hlane
      exact ⟨word, ⟨elements, hmem, hyields⟩, hspells⟩
  | read hedge htoken hmatches _ ih =>
    subst hgoal
    constructor
    · intro stop elements hstop hlane
      cases hlane with
      | last honly =>
        obtain ⟨rfl, -⟩ := (honly _ _).mp hedge
        exact hmatches.elim
      | step honly hlane =>
        obtain ⟨rfl, rfl⟩ := (honly _ _).mp hedge
        obtain ⟨word, hyields, hspells⟩ := (ih rfl).lane stop _ hstop hlane
        exact ⟨_, .read (Element.matches_label_iff.mp hmatches) hyields, .cons htoken hspells⟩
    · rintro id rule hrule rfl
      obtain ⟨exit, hbranches⟩ := hrealizes.branches id rule hrule
      obtain ⟨rfl, -⟩ := hbranches.lane_of_edge _ _ hedge
      exact hmatches.elim
  | call hedge hentry _ _ ihcalled ih =>
    subst hgoal
    constructor
    · intro stop elements hstop hlane
      cases hlane with
      | last honly => exact absurd ((honly _ _).mp hedge).1 (by simp)
      | @step _ _ element _ honly hlane =>
        obtain ⟨hlabel, rfl⟩ := (honly _ _).mp hedge
        obtain ⟨word, hyields, hspells⟩ := (ih rfl).lane stop _ hstop hlane
        obtain ⟨rule, hrule, hstart⟩ := Option.map_eq_some_iff.mp hentry
        obtain ⟨inner, ⟨called, hmem, hcalled⟩, hinner⟩ := (ihcalled rfl).entry _ rule hrule hstart
        cases element with
        | rule id =>
          cases hlabel
          exact ⟨inner ++ word, .rule hmem hcalled hyields, hinner.append hspells⟩
        | token _ | oneOf _ | noneOf _ | any | guard _ => cases hlabel
    · rintro id rule hrule rfl
      obtain ⟨exit, hbranches⟩ := hrealizes.branches id rule hrule
      exact absurd (hbranches.lane_of_edge _ _ hedge).1 (by simp)

/-- From a state under a stack, the outermost call can be finished at `last`: by a trip that
finishes the innermost call, and further ones for the calls around it. -/
inductive Closes (query : Query) (site : StateId) (last : ℕ) : StateId → ℕ → CallStack → Prop
  | outermost {size : ℕ} {state : StateId} {index : ℕ} {frame : Frame}
      (hframe : frame.resume? = none)
      (htrip : query.Trip last site size state index (.finish last)) :
      Closes query site last state index [frame]
  | above {size : ℕ} {state resume : StateId} {index mid start : ℕ} {rule : RuleId}
      {caller : Frame} {outer : CallStack}
      (htrip : query.Trip last site size state index (.finish mid))
      (houter : Closes query site last resume mid (caller :: outer)) :
      Closes query site last state index (⟨rule, start, some resume⟩ :: caller :: outer)

theorem Closes.index_le (h : query.Closes site last state index stack) : index ≤ last := by
  cases h with
  | outermost _ htrip => exact htrip.index_le_caret
  | above htrip _ => exact htrip.index_le_caret

/-- A step that lengthens every trip from its end lengthens the innermost trip. -/
theorem Closes.map {state' : StateId} {index' : ℕ}
    (hmap : ∀ {size goal}, query.Trip last site size state' index' goal →
      ∃ size', query.Trip last site size' state index goal)
    (h : query.Closes site last state' index' stack) :
    query.Closes site last state index stack := by
  cases h with
  | outermost hframe htrip =>
    obtain ⟨size', htrip'⟩ := hmap htrip
    exact .outermost hframe htrip'
  | above htrip houter =>
    obtain ⟨size', htrip'⟩ := hmap htrip
    exact .above htrip' houter

theorem FreeStep.closes {config config' : Config} (h : query.FreeStep config config')
    (hrest : query.Closes site last config'.state config'.index config'.stack) :
    query.Closes site last config.state config.index config.stack := by
  cases h with
  | pass hedge hpasses => exact hrest.map fun htrip => ⟨_, .pass hedge hpasses htrip⟩
  | read hedge htoken hmatches =>
    exact hrest.map fun htrip => ⟨_, .read hedge htoken hmatches htrip⟩
  | call hedge hentry =>
    cases hrest with
    -- The outermost call resumes nowhere, so it is not the one that is entered here.
    | outermost hframe => cases hframe
    | above hcalled houter => exact houter.map fun htrip => ⟨_, .call hedge hentry hcalled htrip⟩
  | finish hstop => exact .above (.finish hstop hrest.index_le) hrest

theorem FreeRun.closes {config : Config} {frame : Frame} (hframe : frame.resume? = none)
    (hstop : query.network.IsStop site) (h : query.FreeRun config ⟨site, last, [frame]⟩) :
    query.Closes site last config.state config.index config.stack := by
  induction h using Relation.ReflTransGen.head_induction_on with
  | refl => exact .outermost hframe (.finish hstop (Nat.le_refl last))
  | head hstep _ ih => exact hstep.closes ih

/-- A free run under one call that ends in a stop state under the same call is a trip that
finishes the call. -/
theorem exists_trip_of_freeRun_stop {frame : Frame} (hframe : frame.resume? = none)
    (hstop : query.network.IsStop site)
    (h : query.FreeRun ⟨state, index, [frame]⟩ ⟨site, last, [frame]⟩) :
    ∃ size, query.Trip last site size state index (.finish last) := by
  cases h.closes hframe hstop with
  | outermost _ htrip => exact ⟨_, htrip⟩

end Query

/-- The words that a run reads from the entry of a rule to a stop of the rule, at the same height
of the stack, are those of the rule. -/
theorem Network.Realizes.freeRun_iff (query : Query) {productions : List Production}
    (h : query.network.Realizes productions) (id : RuleId) :
    (∃ rule stop, query.network.rule? id = some rule ∧ stop ∈ rule.stops ∧
      query.FreeRun ⟨rule.entry, 0, [⟨id, 0, none⟩]⟩
        ⟨stop, query.tokens.size, [⟨id, 0, none⟩]⟩) ↔
    Derives productions query.consents id query.tokens.toList := by
  constructor
  · rintro ⟨rule, stop, hrule, hmem, hrun⟩
    obtain ⟨exit, hbranches⟩ := h.branches id rule hrule
    rw [hbranches.stops, List.mem_singleton] at hmem
    subst hmem
    obtain ⟨size, htrip⟩ := Query.exists_trip_of_freeRun_stop rfl hbranches.isStop hrun
    obtain ⟨word, hderives, hspells⟩ := (htrip.accounts h).entry id rule hrule rfl
    rw [Query.spells_size_iff (Nat.zero_le _), List.drop_zero] at hspells
    exact hspells ▸ hderives
  · rintro ⟨elements, hmem, hyields⟩
    obtain ⟨rule, hrule⟩ := h.known _ hmem
    obtain ⟨stop, hbranches⟩ := h.branches id rule hrule
    obtain ⟨start, hedge, hlane⟩ := hbranches.edge_of_production elements hmem
    have hspells : query.Spells 0 query.tokens.toList query.tokens.size :=
      (Query.spells_size_iff (Nat.zero_le _)).mpr List.drop_zero
    refine ⟨rule, stop, hrule, hbranches.stops ▸ List.mem_singleton.mpr rfl, ?_⟩
    exact .head (.pass hedge trivial) (hyields.freeRun h hlane hspells)

end CodeCompletion
