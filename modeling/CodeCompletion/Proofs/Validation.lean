import CodeCompletion.Proofs.Build
import Mathlib.Data.List.Perm.Basic
import Mathlib.Data.Option.Basic

/-!
# Which drafts are built

What a draft has to be like is said here without any order of checks. A draft is built
exactly if it is like this, and then its network has the states of the draft, each with the
edges that were added to it. Of any other draft the first defect is reported, in the order
of the tables: states, rule names, rules, and then the edges as they were added.

## Main definitions

* `Draft.Bounded`, `Draft.SoundEdge`: what a rule and an edge have to be like
* `Draft.WellFormed`: what a draft has to be like
* `Draft.EdgeFault`: the fault of an edge, each one found where the ones before it are absent
* `Draft.FirstDefect`: the defect of a draft that comes first
* `Draft.Freezes`: the network of a draft

## Main results

* `Draft.defect?_eq_none_iff_wellFormed`, `Draft.defect?_eq_some_iff`: what is looked for is
  found
* `Draft.edges_toDraft_perm`: a network has the edges of its draft, none lost and none
  twice
* `Draft.build_decides`: which drafts are built, into what, and what is reported of the others
-/

set_option autoImplicit false

namespace CodeCompletion

/-! ## First results -/

section First

variable {α β : Type}

/-- The item at `position` fails the test, and no item before it does. -/
structure FirstFailing (items : Array α) (passes : ℕ → α → Prop) (position : ℕ) (item : α) :
    Prop where
  at_position : items[position]? = some item
  fails : ¬ passes position item
  before : ∀ earlier other, earlier < position → items[earlier]? = some other →
    passes earlier other

theorem findSome?_eq_some_iff_getElem? {items : List α} {find : α → Option β} {found : β} :
    items.findSome? find = some found ↔
      ∃ (position : ℕ) (item : α), items[position]? = some item ∧ find item = some found ∧
        ∀ earlier other, earlier < position → items[earlier]? = some other →
          find other = none := by
  rw [List.findSome?_eq_some_iff]
  constructor
  · rintro ⟨before, item, after, rfl, hfound, hbefore⟩
    refine ⟨before.length, item, by simp, hfound, fun earlier other hlt hother => ?_⟩
    rw [List.getElem?_append_left hlt] at hother
    exact hbefore other (List.mem_of_getElem? hother)
  · rintro ⟨position, item, hitem, hfound, hbefore⟩
    obtain ⟨hlt, rfl⟩ := List.getElem?_eq_some_iff.mp hitem
    refine ⟨items.take position, items[position], items.drop (position + 1), by simp, hfound,
      fun other hother => ?_⟩
    obtain ⟨earlier, hearlier, hget⟩ := List.mem_take_iff_getElem.mp hother
    exact hbefore earlier other (by omega) (List.getElem?_eq_some_iff.mpr ⟨by omega, hget⟩)

/-- A search by position that passes over what passes a test finds the first item to fail
it. -/
theorem findSome?_zipIdx_eq_some_iff {items : Array α} (passes : ℕ → α → Prop)
    {find : α × ℕ → Option β} {found : β}
    (hfind : ∀ position item, find (item, position) = none ↔ passes position item) :
    items.toList.zipIdx.findSome? find = some found ↔
      ∃ position item, FirstFailing items passes position item ∧
        find (item, position) = some found := by
  have hnumbered : ∀ (position index : ℕ) (item : α),
      items.toList.zipIdx[position]? = some (item, index) ↔
        items[position]? = some item ∧ position = index := by
    simp [List.getElem?_zipIdx]
  rw [findSome?_eq_some_iff_getElem?]
  constructor
  · rintro ⟨position, ⟨item, index⟩, hitem, hfound, hbefore⟩
    obtain ⟨hat, rfl⟩ := (hnumbered _ _ _).mp hitem
    refine ⟨position, item, ⟨hat, ?_, ?_⟩, hfound⟩
    · rw [← hfind, hfound]
      exact Option.some_ne_none found
    · intro earlier other hlt hother
      exact (hfind _ _).mp (hbefore earlier _ hlt ((hnumbered _ _ _).mpr ⟨hother, rfl⟩))
  · rintro ⟨position, item, hfirst, hfound⟩
    refine ⟨position, (item, position), (hnumbered _ _ _).mpr ⟨hfirst.at_position, rfl⟩, hfound,
      ?_⟩
    rintro earlier ⟨other, index⟩ hlt hother
    obtain ⟨hat, rfl⟩ := (hnumbered _ _ _).mp hother
    exact (hfind _ _).mpr (hfirst.before earlier other hlt hat)

/-- A search by position that passes over what passes a test finds nothing if all pass. -/
theorem findSome?_zipIdx_eq_none_iff {items : Array α} {passes : ℕ → α → Prop}
    {find : α × ℕ → Option β}
    (hfind : ∀ position item, find (item, position) = none ↔ passes position item) :
    items.toList.zipIdx.findSome? find = none ↔
      ∀ position item, items[position]? = some item → passes position item := by
  simp only [List.findSome?_eq_none_iff, Prod.forall, List.mk_mem_zipIdx_iff_getElem?,
    Array.getElem?_toList, hfind]
  exact forall_comm

end First

namespace Draft

variable {draft draft' : Draft} {network : Network} {source : StateId} {edge : Edge}
  {label : Label} {defect : Defect}

/-! ## What a draft has to be like -/

/-- The rule begins in an entry state of its own and ends in stop states of its own, at least
one. -/
structure Bounded (draft : Draft) (id : RuleId) (rule : Rule) : Prop where
  entry : draft.place? rule.entry = some ⟨id, .entry⟩
  stops_ne_nil : rule.stops ≠ []
  stops : ∀ stop ∈ rule.stops, draft.place? stop = some ⟨id, .stop⟩

/-- The label calls a rule that exists, or asks for a token of a set that has some. -/
def SoundLabel (draft : Draft) : Label → Prop
  | .call rule => rule.index < draft.rules.size
  | .oneOf set | .noneOf set => set.toList ≠ []
  | .epsilon | .token _ | .any | .guard _ => True

/-- The edge joins two states of one rule, the first of which is no stop, and its label can
be followed. -/
def SoundEdge (draft : Draft) (source : StateId) (edge : Edge) : Prop :=
  ∃ origin destination, draft.place? source = some origin ∧ origin.kind ≠ .stop ∧
    draft.place? edge.target = some destination ∧ destination.rule = origin.rule ∧
    draft.SoundLabel edge.label

/-- Every state belongs to a rule that exists. -/
def StatesOwned (draft : Draft) : Prop :=
  ∀ (position : ℕ) (place : Place), draft.places[position]? = some place →
    place.rule.index < draft.rules.size

/-- There are as many rule names as rules. -/
def RulesNamed (draft : Draft) : Prop :=
  draft.vocabulary.rules.size = draft.rules.size

/-- Every rule begins and ends in states of its own. -/
def RulesBounded (draft : Draft) : Prop :=
  ∀ (position : ℕ) (rule : Rule), draft.rules[position]? = some rule →
    draft.Bounded (.ofIndex position) rule

/-- Every edge joins states of one rule and carries a label that can be followed. -/
def EdgesSound (draft : Draft) : Prop :=
  ∀ source edge, (source, edge) ∈ draft.edges → draft.SoundEdge source edge

/-- What a draft has to be like. -/
structure WellFormed (draft : Draft) : Prop where
  owned : draft.StatesOwned
  named : draft.RulesNamed
  bounded : draft.RulesBounded
  sound : draft.EdgesSound

theorem isBounded_iff {id : RuleId} {rule : Rule} :
    draft.isBounded id rule ↔ draft.Bounded id rule := by
  simp only [isBounded, Bool.and_eq_true, decide_eq_true_eq, Bool.not_eq_true',
    List.isEmpty_eq_false_iff, List.all_eq_true]
  constructor
  · rintro ⟨⟨hentry, hne⟩, hstops⟩
    exact ⟨hentry, hne, hstops⟩
  · rintro ⟨hentry, hne, hstops⟩
    exact ⟨⟨hentry, hne⟩, hstops⟩

theorem orphan?_eq_none_iff : draft.orphan? = none ↔ draft.StatesOwned :=
  findSome?_zipIdx_eq_none_iff fun _ _ => by simp [hasRule]

theorem ruleNames?_eq_none_iff : draft.ruleNames? = none ↔ draft.RulesNamed := by
  simp [ruleNames?, RulesNamed]

theorem malformed?_eq_none_iff : draft.malformed? = none ↔ draft.RulesBounded :=
  findSome?_zipIdx_eq_none_iff fun _ _ => by simp [isBounded_iff]

theorem labelDefect?_eq_none_iff : draft.labelDefect? source label = none ↔
    draft.SoundLabel label := by
  cases label <;> simp [labelDefect?, SoundLabel, hasRule, TerminalSet.isEmpty,
    TerminalSet.toList]

theorem edgeDefect?_eq_none_iff_soundEdge : draft.edgeDefect? source edge = none ↔
    draft.SoundEdge source edge := by
  rw [edgeDefect?_eq_none_iff]
  simp only [labelDefect?_eq_none_iff, SoundEdge]

/-- Exactly what a draft has to be like is looked for. -/
theorem defect?_eq_none_iff_wellFormed : draft.defect? = none ↔ draft.WellFormed := by
  rw [defect?_eq_none_iff, orphan?_eq_none_iff, ruleNames?_eq_none_iff, malformed?_eq_none_iff]
  simp only [edgeDefect?_eq_none_iff_soundEdge]
  constructor
  · rintro ⟨howned, hnamed, hbounded, hsound⟩
    exact ⟨howned, hnamed, hbounded, hsound⟩
  · rintro ⟨howned, hnamed, hbounded, hsound⟩
    exact ⟨howned, hnamed, hbounded, hsound⟩

theorem wellFormed_of_build (hbuild : draft.build = .ok network) : draft.WellFormed :=
  defect?_eq_none_iff_wellFormed.mp (build_eq_ok_iff.mp hbuild).1

theorem hasEdge_iff_of_build (hbuild : draft.build = .ok network) {target : StateId} :
    network.HasEdge source label target ↔ ⟨label, target⟩ ∈ draft.edgesFrom source.index := by
  rw [Network.HasEdge, state?_of_build hbuild]
  constructor
  · rintro ⟨state, hstate, hedge⟩
    obtain ⟨place, -, rfl⟩ := Option.map_eq_some_iff.mp hstate
    exact hedge
  · intro hedge
    obtain ⟨source', hadded, hindex⟩ := mem_edgesFrom_iff.mp hedge
    obtain ⟨origin, -, horigin, -⟩ := (wellFormed_of_build hbuild).sound source' _ hadded
    rw [place?, hindex, ← place?] at horigin
    exact ⟨_, by rw [horigin, Option.map_some], hedge⟩

theorem isStop_iff_of_build (hbuild : draft.build = .ok network) : network.IsStop source ↔
    ∃ place, draft.place? source = some place ∧ place.kind = .stop := by
  rw [Network.IsStop, state?_of_build hbuild]
  simp [State.isStop]

/-- Whether a draft is well formed does not depend on the order of its edges. -/
theorem WellFormed.congr (h : draft.WellFormed) (hplaces : draft'.places = draft.places)
    (hrules : draft'.rules = draft.rules)
    (hnames : draft'.vocabulary.rules = draft.vocabulary.rules)
    (hedges : ∀ added ∈ draft'.edges, added ∈ draft.edges) : draft'.WellFormed := by
  obtain ⟨places, rules, ⟨terminals, names⟩, edges⟩ := draft'
  obtain rfl : places = draft.places := hplaces
  obtain rfl : rules = draft.rules := hrules
  obtain rfl : names = draft.vocabulary.rules := hnames
  exact ⟨h.owned, h.named, fun position rule hrule => ⟨(h.bounded position rule hrule).entry,
    (h.bounded position rule hrule).stops_ne_nil, (h.bounded position rule hrule).stops⟩,
    fun source edge hadded => h.sound source edge (hedges _ hadded)⟩

/-! ## The first defect -/

/-- The fault of a label on an edge that leaves `source`. -/
inductive LabelFault (draft : Draft) (source : StateId) : Label → Defect → Prop
  | unknownRule {rule : RuleId} (hrule : draft.rules.size ≤ rule.index) :
      LabelFault draft source (.call rule) (.unknownRule source rule)
  | emptyOneOf {set : TerminalSet} (hset : set.toList = []) :
      LabelFault draft source (.oneOf set) (.emptySet source)
  | emptyNoneOf {set : TerminalSet} (hset : set.toList = []) :
      LabelFault draft source (.noneOf set) (.emptySet source)

/-- The fault of an edge. The ends are judged from the source on, and the label last. -/
inductive EdgeFault (draft : Draft) (source : StateId) (edge : Edge) : Defect → Prop
  | unknownSource (hsource : draft.place? source = none) :
      EdgeFault draft source edge (.unknownSource source)
  | fromStop {origin : Place} (hsource : draft.place? source = some origin)
      (hstop : origin.kind = .stop) : EdgeFault draft source edge (.edgeFromStop source)
  | unknownTarget {origin : Place} (hsource : draft.place? source = some origin)
      (hstop : origin.kind ≠ .stop) (htarget : draft.place? edge.target = none) :
      EdgeFault draft source edge (.unknownTarget source edge.target)
  | acrossRules {origin destination : Place} (hsource : draft.place? source = some origin)
      (hstop : origin.kind ≠ .stop) (htarget : draft.place? edge.target = some destination)
      (hrule : destination.rule ≠ origin.rule) :
      EdgeFault draft source edge
        (.edgeAcrossRules source origin.rule edge.target destination.rule)
  | label {origin destination : Place} {defect : Defect}
      (hsource : draft.place? source = some origin) (hstop : origin.kind ≠ .stop)
      (htarget : draft.place? edge.target = some destination)
      (hrule : destination.rule = origin.rule)
      (hlabel : draft.LabelFault source edge.label defect) : EdgeFault draft source edge defect

/-- The defect that comes first: states before rule names, these before the rules, and the
edges last; among several of a kind the one at the lowest position. -/
inductive FirstDefect (draft : Draft) : Defect → Prop
  | orphan {position : ℕ} {place : Place}
      (hfirst : FirstFailing draft.places (fun _ place => place.rule.index < draft.rules.size)
        position place) :
      FirstDefect draft (.orphanState (.ofIndex position) place.rule)
  | names (howned : draft.StatesOwned) (hnames : ¬ draft.RulesNamed) :
      FirstDefect draft (.ruleNamesMismatch draft.rules.size draft.vocabulary.rules.size)
  | boundary {position : ℕ} {rule : Rule} (howned : draft.StatesOwned)
      (hnamed : draft.RulesNamed)
      (hfirst : FirstFailing draft.rules
        (fun position rule => draft.Bounded (.ofIndex position) rule) position rule) :
      FirstDefect draft (.malformedRule (.ofIndex position))
  | edge {position : ℕ} {source : StateId} {edge : Edge} {defect : Defect}
      (howned : draft.StatesOwned) (hnamed : draft.RulesNamed) (hbounded : draft.RulesBounded)
      (hfirst : FirstFailing draft.edges (fun _ added => draft.SoundEdge added.1 added.2)
        position (source, edge))
      (hfault : draft.EdgeFault source edge defect) : FirstDefect draft defect

theorem labelDefect?_eq_some_iff : draft.labelDefect? source label = some defect ↔
    draft.LabelFault source label defect := by
  constructor
  · intro h
    unfold labelDefect? at h
    split at h
    · next rule =>
      split at h
      · cases h
      · next hrule =>
        obtain rfl := Option.some.inj h
        exact .unknownRule (by simpa [hasRule] using hrule)
    · next set =>
      split at h
      · next hset =>
        obtain rfl := Option.some.inj h
        exact .emptyOneOf (by simpa [TerminalSet.isEmpty, TerminalSet.toList] using hset)
      · cases h
    · next set =>
      split at h
      · next hset =>
        obtain rfl := Option.some.inj h
        exact .emptyNoneOf (by simpa [TerminalSet.isEmpty, TerminalSet.toList] using hset)
      · cases h
    all_goals cases h
  · intro h
    cases h with
    | unknownRule hrule => simp [labelDefect?, hasRule, Nat.not_lt.mpr hrule]
    | emptyOneOf hset | emptyNoneOf hset =>
      have hempty := Array.toList_eq_nil_iff.mp hset
      simp [labelDefect?, TerminalSet.isEmpty, hempty]

theorem edgeDefect?_eq_some_iff : draft.edgeDefect? source edge = some defect ↔
    draft.EdgeFault source edge defect := by
  constructor
  · intro h
    unfold edgeDefect? at h
    split at h
    · next hsource =>
      obtain rfl := Option.some.inj h
      exact .unknownSource hsource
    · next origin hsource =>
      split at h
      · next hstop =>
        obtain rfl := Option.some.inj h
        exact .fromStop hsource hstop
      · next hstop =>
        split at h
        · next htarget =>
          obtain rfl := Option.some.inj h
          exact .unknownTarget hsource hstop htarget
        · next destination htarget =>
          split at h
          · next hrule => exact .label hsource hstop htarget hrule (labelDefect?_eq_some_iff.mp h)
          · next hrule =>
            obtain rfl := Option.some.inj h
            exact .acrossRules hsource hstop htarget hrule
  · intro h
    unfold edgeDefect?
    cases h with
    | unknownSource hsource => simp [hsource]
    | fromStop hsource hstop => simp [hsource, hstop]
    | unknownTarget hsource hstop htarget => simp [hsource, hstop, htarget]
    | acrossRules hsource hstop htarget hrule => simp [hsource, hstop, htarget, hrule]
    | label hsource hstop htarget hrule hlabel =>
      simp [hsource, hstop, htarget, hrule, labelDefect?_eq_some_iff.mpr hlabel]

theorem orphan?_eq_some_iff : draft.orphan? = some defect ↔ ∃ position place,
    FirstFailing draft.places (fun _ place => place.rule.index < draft.rules.size)
      position place ∧ defect = .orphanState (.ofIndex position) place.rule := by
  rw [orphan?, findSome?_zipIdx_eq_some_iff
    (fun _ (place : Place) => place.rule.index < draft.rules.size) fun _ _ => by simp [hasRule]]
  refine exists₂_congr fun position place => and_congr_right fun hfirst => ?_
  simpa [hasRule, hfirst.fails] using eq_comm

theorem malformed?_eq_some_iff : draft.malformed? = some defect ↔ ∃ position rule,
    FirstFailing draft.rules (fun position rule => draft.Bounded (.ofIndex position) rule)
      position rule ∧ defect = .malformedRule (.ofIndex position) := by
  rw [malformed?, findSome?_zipIdx_eq_some_iff
    (fun position (rule : Rule) => draft.Bounded (.ofIndex position) rule) fun _ _ => by
      simp [isBounded_iff]]
  refine exists₂_congr fun position rule => and_congr_right fun hfirst => ?_
  simpa [isBounded_iff, hfirst.fails] using eq_comm

theorem findSome?_edgeDefect?_eq_some_iff :
    (draft.edges.toList.findSome? fun (source, edge) => draft.edgeDefect? source edge) =
      some defect ↔ ∃ position source edge,
        FirstFailing draft.edges (fun _ added => draft.SoundEdge added.1 added.2) position
          (source, edge) ∧ draft.EdgeFault source edge defect := by
  rw [← List.zipIdx_map_fst 0 draft.edges.toList, List.findSome?_map,
    findSome?_zipIdx_eq_some_iff (fun _ (added : StateId × Edge) =>
      draft.SoundEdge added.1 added.2) fun _ _ => edgeDefect?_eq_none_iff_soundEdge]
  simp only [Prod.exists, Function.comp_apply, edgeDefect?_eq_some_iff]

/-- The defect that is reported is the one that comes first. -/
theorem defect?_eq_some_iff : draft.defect? = some defect ↔ draft.FirstDefect defect := by
  simp only [defect?, Option.orElse_eq_some, orphan?_eq_some_iff, orphan?_eq_none_iff,
    ruleNames?_eq_none_iff, malformed?_eq_some_iff, malformed?_eq_none_iff,
    findSome?_edgeDefect?_eq_some_iff]
  constructor
  · rintro (⟨position, place, hfirst, rfl⟩ | ⟨howned, hnames | ⟨hnamed,
      ⟨position, rule, hfirst, rfl⟩ | ⟨hbounded, position, source, edge, hfirst, hfault⟩⟩⟩)
    · exact .orphan hfirst
    · unfold ruleNames? at hnames
      split at hnames
      · cases hnames
      · next hne =>
        obtain rfl := Option.some.inj hnames
        exact .names howned hne
    · exact .boundary howned hnamed hfirst
    · exact .edge howned hnamed hbounded hfirst hfault
  · intro h
    cases h with
    | orphan hfirst => exact Or.inl ⟨_, _, hfirst, rfl⟩
    | names howned hne => exact Or.inr ⟨howned, Or.inl (if_neg hne)⟩
    | boundary howned hnamed hfirst =>
      exact Or.inr ⟨howned, Or.inr ⟨hnamed, Or.inl ⟨_, _, hfirst, rfl⟩⟩⟩
    | edge howned hnamed hbounded hfirst hfault =>
      exact Or.inr ⟨howned, Or.inr ⟨hnamed, Or.inr ⟨hbounded, _, _, _, hfirst, hfault⟩⟩⟩

theorem build_eq_error_iff : draft.build = .error defect ↔ draft.defect? = some defect := by
  unfold build
  split
  · next found hfound => simp [hfound]
  · next hnone => simp [hnone]

/-! ## The network of a draft -/

/-- What a list holds under each of the first keys, key after key, is what it holds under
these keys. -/
theorem flatMap_filter_perm {α : Type} (key : α → ℕ) (items : List α) (n : ℕ) :
    ((List.range n).flatMap fun i => items.filter fun item => key item = i).Perm
      (items.filter fun item => key item < n) := by
  induction n with
  | zero => simp
  | succ n ih =>
    rw [List.range_succ, List.flatMap_append, List.flatMap_singleton]
    refine (ih.append_right _).trans ?_
    -- The keys up to `n` are those below `n`, and `n`.
    have hsplit := List.filter_append_perm (fun item => decide (key item < n))
      (items.filter fun item => decide (key item < n + 1))
    have hbelow : ((items.filter fun item => key item < n + 1).filter fun item => key item < n) =
        items.filter fun item => key item < n := by
      rw [List.filter_filter]
      refine List.filter_congr fun item _ => ?_
      rw [← Bool.decide_and, decide_eq_decide]
      omega
    have hlast : ((items.filter fun item => key item < n + 1).filter fun item =>
        !decide (key item < n)) = items.filter fun item => key item = n := by
      rw [List.filter_filter]
      refine List.filter_congr fun item _ => ?_
      rw [← decide_not, ← Bool.decide_and, decide_eq_decide]
      omega
    rwa [hbelow, hlast] at hsplit

theorem filter_edges_eq (draft : Draft) (position : ℕ) :
    (draft.edges.toList.filter fun added => added.1.index = position) =
      (draft.edgesFrom position).map fun edge => (StateId.ofIndex position, edge) := by
  rw [edgesFrom, List.map_map]
  refine (List.map_id _).symm.trans (List.map_congr_left fun added hadded => ?_)
  obtain ⟨-, hindex⟩ := List.mem_filter.mp hadded
  rw [Function.comp_apply, ← of_decide_eq_true hindex, StateId.ofIndex_index]
  rfl

/-- A network that is opened again has the edges of its draft, none lost and none twice. -/
theorem edges_toDraft_perm (hbuild : draft.build = .ok network) :
    network.toBlueprint.toDraft.edges.toList.Perm draft.edges.toList := by
  have hsound := (wellFormed_of_build hbuild).sound
  obtain ⟨-, rfl⟩ := build_eq_ok_iff.mp hbuild
  have hlisted : draft.toBlueprint.toDraft.edges.toList =
      (List.range draft.places.size).flatMap fun position =>
        draft.edges.toList.filter fun added => added.1.index = position := by
    rw [Blueprint.toDraft, Array.toList_flatten, Array.toList_mapIdx, List.flatMap_def]
    congr 1
    refine List.ext_getElem? fun position => ?_
    simp only [List.getElem?_map, List.getElem?_mapIdx, Array.getElem?_toList,
      getElem?_states_toBlueprint, filter_edges_eq]
    by_cases hposition : position < draft.places.size
    · simp [hposition]
    · simp [hposition]
  have hall : (draft.edges.toList.filter fun added => added.1.index < draft.places.size) =
      draft.edges.toList := by
    refine List.filter_eq_self.mpr fun added hadded => decide_eq_true ?_
    obtain ⟨origin, -, horigin, -⟩ := hsound added.1 added.2 (Array.mem_toList_iff.mp hadded)
    exact (Array.getElem?_eq_some_iff.mp horigin).1
  rw [hlisted]
  exact (flatMap_filter_perm _ _ _).trans (List.Perm.of_eq hall)

/-- The network has the states of the draft, each with the edges added to it in the order of
their addition, and all else as it is in the draft. -/
structure Freezes (draft : Draft) (network : Network) : Prop where
  states : ∀ position : ℕ, network.states[position]? = draft.places[position]?.map fun place =>
    { toPlace := place, edges := draft.edgesFrom position }
  edges : network.toBlueprint.toDraft.edges.toList.Perm draft.edges.toList
  rules : network.rules = draft.rules
  vocabulary : network.vocabulary = draft.vocabulary

theorem freezes_of_build (hbuild : draft.build = .ok network) : draft.Freezes network := by
  have hedges := edges_toDraft_perm hbuild
  obtain ⟨-, rfl⟩ := build_eq_ok_iff.mp hbuild
  exact ⟨getElem?_states_toBlueprint draft, hedges, rfl, rfl⟩

/-- A draft is built exactly if it is well formed, and then frozen as it is. Of any other
draft the defect that comes first is reported. -/
theorem build_decides (draft : Draft) :
    ((∃ network, draft.build = .ok network) ↔ draft.WellFormed) ∧
      (∀ network, draft.build = .ok network → draft.Freezes network) ∧
      ∀ defect, draft.build = .error defect ↔ draft.FirstDefect defect := by
  refine ⟨?_, fun network => freezes_of_build, fun defect => ?_⟩
  · simp only [build_eq_ok_iff, exists_and_left, exists_eq, and_true]
    exact defect?_eq_none_iff_wellFormed
  · rw [build_eq_error_iff, defect?_eq_some_iff]

-- Of two edges with a defect the earlier one is reported.
example : ({ listDraft .any with
    edges := #[(⟨0⟩, ⟨.call ⟨7⟩, ⟨1⟩⟩), (⟨9⟩, ⟨.epsilon, ⟨1⟩⟩)] } : Draft).build =
      .error (.unknownRule ⟨0⟩ ⟨7⟩) := by
  decide +kernel

end Draft

end CodeCompletion
