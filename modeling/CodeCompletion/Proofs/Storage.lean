import CodeCompletion.Proofs.SetOrder
import Std.Data.ExtTreeMap.Lemmas

/-!
# Networks in store

A network is stored as its tables. What is derived from them, the nullable rules and the
index by which names are looked up, is derived again when the tables are loaded. A network that
was built or loaded comes back as it was, and tables that can be loaded are stored as they were.

Opening tables lists the edges of each state under the number of that state. States beyond the
last number share it, so this keeps edges apart only if the states that have edges can be
numbered. In a network that was built they can.

## Main definitions

* `Indexes`: an index that finds the first symbol registered under each name
* `Directory`: names with the indexes that are kept while names are registered
* `Directory.ofNames`: the indexes of stored names, made anew
* `Directory.FindsFirst`: every name finds the first symbol registered under it
* `Provenance.directory`: the indexes that come with a network
* `Blueprint.Addressable`: states that have edges can be numbered

## Main results

* `Indexes.insertIfNew`, `Directory.Indexed.add`: registering a name keeps the indexes right
* `Blueprint.toBlueprint_toDraft`: tables are put together as they were taken apart
* `Draft.WellFormed.toDraft_toBlueprint`: what was well formed stays so in store
* `Provenance.load_toBlueprint`: storing and loading undo each other
-/

set_option autoImplicit false

namespace CodeCompletion

/-! ## Indexes of names -/

section Indexes

variable {α : Type} {index index' : Std.ExtTreeMap String α} {number : ℕ → α}
  {names : Array String}

/-- The first place of a name among names. -/
def FirstUnder (names : Array String) (name : String) (position : ℕ) : Prop :=
  names[position]? = some name ∧ ∀ earlier < position, names[earlier]? ≠ some name

/-- The index finds the number of the first place of each name. -/
def Indexes (index : Std.ExtTreeMap String α) (number : ℕ → α) (names : Array String) : Prop :=
  ∀ name, index[name]? = (names.findIdx? (· == name)).map number

theorem indexes_empty : Indexes (∅ : Std.ExtTreeMap String α) number #[] := by
  intro name
  rw [Std.ExtTreeMap.getElem?_empty, Array.findIdx?_empty, Option.map_none]

theorem findIdx?_eq_some_iff_firstUnder {name : String} {position : ℕ} :
    names.findIdx? (· == name) = some position ↔ FirstUnder names name position := by
  rw [Array.findIdx?_eq_some_iff_getElem]
  constructor
  · rintro ⟨hlt, hname, hearlier⟩
    refine ⟨Array.getElem?_eq_some_iff.mpr ⟨hlt, eq_of_beq hname⟩, fun earlier hlt' hsame => ?_⟩
    obtain ⟨_, hsame⟩ := Array.getElem?_eq_some_iff.mp hsame
    exact hearlier earlier hlt' (beq_iff_eq.mpr hsame)
  · rintro ⟨hname, hearlier⟩
    obtain ⟨hlt, hname⟩ := Array.getElem?_eq_some_iff.mp hname
    refine ⟨hlt, beq_iff_eq.mpr hname, fun earlier hlt' hsame => hearlier earlier hlt' ?_⟩
    exact Array.getElem?_eq_some_iff.mpr ⟨hlt'.trans hlt, eq_of_beq hsame⟩

theorem Indexes.getElem?_eq_some_iff (h : Indexes index number names) {name : String} {id : α} :
    index[name]? = some id ↔ ∃ position, FirstUnder names name position ∧ number position = id := by
  simp only [h name, Option.map_eq_some_iff, findIdx?_eq_some_iff_firstUnder]

/-- One more name is registered. If the index knows the name it stays as it is. -/
theorem Indexes.insertIfNew (h : Indexes index number names) (name : String) :
    Indexes (index.insertIfNew name (number names.size)) number (names.push name) := by
  intro asked
  simp only [Std.ExtTreeMap.getElem?_insertIfNew, Std.LawfulEqCmp.compare_eq_iff_eq,
    Std.ExtTreeMap.mem_iff_isSome_getElem?, Array.findIdx?_push]
  by_cases hasked : name = asked
  · subst hasked
    rw [h name]
    cases names.findIdx? (· == name) with
    | none => simp
    | some first => simp
  · rw [if_neg fun hnew => hasked hnew.1, h asked, if_neg fun heq => hasked (eq_of_beq heq),
      Option.or_none]

/-- What an index finds is all there is to it. -/
theorem Indexes.eq (h : Indexes index number names) (h' : Indexes index' number names) :
    index = index' :=
  Std.ExtTreeMap.ext_getElem? fun name => (h name).trans (h' name).symm

end Indexes

/-! ## Directories -/

/-- Names together with the indexes that are kept while they are registered. -/
structure Directory where
  vocabulary : Vocabulary := {}
  terminals : Std.ExtTreeMap String TerminalId := ∅
  rules : Std.ExtTreeMap String RuleId := ∅

namespace Directory

variable {directory directory' : Directory}

/-- Register a terminal. A name that is known already keeps its terminal. -/
def addTerminal (directory : Directory) (name : String) : Directory :=
  let (terminal, vocabulary) := directory.vocabulary.addTerminal name
  { directory with vocabulary, terminals := directory.terminals.insertIfNew name terminal }

/-- Register a rule. A name that is known already keeps its rule. -/
def addRule (directory : Directory) (name : String) : Directory :=
  let (rule, vocabulary) := directory.vocabulary.addRule name
  { directory with vocabulary, rules := directory.rules.insertIfNew name rule }

/-- Register what an addition to a draft registers. -/
def add (directory : Directory) : Addition → Directory
  | .terminal name => directory.addTerminal name
  | .rule name => directory.addRule name
  | .state _ | .stop _ | .edge _ _ | .alternative _ _ => directory

/-- The directory of stored names: all of them are registered anew, the terminals first. -/
def ofNames (names : Vocabulary) : Directory :=
  names.rules.foldl addRule (names.terminals.foldl addTerminal {})

/-- The indexes are those of the names. -/
structure Indexed (directory : Directory) : Prop where
  terminals : Indexes directory.terminals .ofIndex directory.vocabulary.terminals
  rules : Indexes directory.rules .ofIndex directory.vocabulary.rules

theorem indexed_empty : ({} : Directory).Indexed := ⟨indexes_empty, indexes_empty⟩

theorem Indexed.addTerminal (h : directory.Indexed) (name : String) :
    (directory.addTerminal name).Indexed :=
  ⟨h.terminals.insertIfNew name, h.rules⟩

theorem Indexed.addRule (h : directory.Indexed) (name : String) :
    (directory.addRule name).Indexed :=
  ⟨h.terminals, h.rules.insertIfNew name⟩

theorem Indexed.add (h : directory.Indexed) (addition : Addition) :
    (directory.add addition).Indexed := by
  cases addition with
  | terminal name => exact h.addTerminal name
  | rule name => exact h.addRule name
  | state | stop | edge | alternative => exact h

/-- Every name finds the first symbol that was registered under it, in the directory as in the
vocabulary itself. -/
structure FindsFirst (directory : Directory) (vocabulary : Vocabulary) : Prop where
  terminal : ∀ name terminal, directory.terminals[name]? = some terminal ↔
    ∃ position, FirstUnder vocabulary.terminals name position ∧ .ofIndex position = terminal
  rule : ∀ name rule, directory.rules[name]? = some rule ↔
    ∃ position, FirstUnder vocabulary.rules name position ∧ .ofIndex position = rule
  terminalNamed? : ∀ name, vocabulary.terminalNamed? name = directory.terminals[name]?
  ruleNamed? : ∀ name, vocabulary.ruleNamed? name = directory.rules[name]?

theorem Indexed.findsFirst (h : directory.Indexed) : directory.FindsFirst directory.vocabulary where
  terminal _ _ := h.terminals.getElem?_eq_some_iff
  rule _ _ := h.rules.getElem?_eq_some_iff
  terminalNamed? name := (h.terminals name).symm
  ruleNamed? name := (h.rules name).symm

/-- Two directories of the same names are the same, whichever way the names were registered. -/
theorem Indexed.eq (h : directory.Indexed) (h' : directory'.Indexed)
    (hnames : directory.vocabulary = directory'.vocabulary) : directory = directory' := by
  obtain ⟨names, terminals, rules⟩ := directory
  obtain ⟨_, terminals', rules'⟩ := directory'
  obtain rfl : names = _ := hnames
  obtain rfl : terminals = terminals' := h.terminals.eq h'.terminals
  obtain rfl : rules = rules' := h.rules.eq h'.rules
  rfl

theorem foldl_addTerminal (directory : Directory) (names : List String) :
    (names.foldl addTerminal directory).vocabulary = { directory.vocabulary with
      terminals := directory.vocabulary.terminals ++ names } := by
  induction names generalizing directory with
  | nil => simp
  | cons name rest ih =>
    rw [List.foldl_cons, ih]
    simp [addTerminal, Vocabulary.addTerminal]

theorem foldl_addRule (directory : Directory) (names : List String) :
    (names.foldl addRule directory).vocabulary = { directory.vocabulary with
      rules := directory.vocabulary.rules ++ names } := by
  induction names generalizing directory with
  | nil => simp
  | cons name rest ih =>
    rw [List.foldl_cons, ih]
    simp [addRule, Vocabulary.addRule]

theorem vocabulary_ofNames (names : Vocabulary) : (ofNames names).vocabulary = names := by
  rw [ofNames, ← Array.foldl_toList, ← Array.foldl_toList, foldl_addRule, foldl_addTerminal]
  simp

theorem indexed_ofNames (names : Vocabulary) : (ofNames names).Indexed := by
  have hterminals : (names.terminals.foldl addTerminal {}).Indexed :=
    Array.foldl_induction (fun _ => Indexed) indexed_empty fun _ _ h => h.addTerminal _
  exact Array.foldl_induction (fun _ => Indexed) hterminals fun _ _ h => h.addRule _

end Directory

/-! ## Tables -/

theorem flatten_mapIdx_single {α β : Type} (items : List α) (place : ℕ) (f : α → List β) :
    (items.mapIdx fun position item => if position = place then f item else []).flatten =
      (items[place]?.map f).getD [] := by
  induction items generalizing place with
  | nil => simp
  | cons item rest ih =>
    rw [List.mapIdx_cons, List.flatten_cons]
    cases place with
    | zero => simp
    | succ place => simpa using ih place

namespace Blueprint

variable {blueprint : Blueprint}

/-- Every state that has edges has a number of its own. -/
def Addressable (blueprint : Blueprint) : Prop :=
  ∀ (position : ℕ) (state : State), blueprint.states[position]? = some state →
    state.edges ≠ [] → (StateId.ofIndex position).index = position

theorem Addressable.of_size_le (h : blueprint.states.size ≤ 4294967296) :
    blueprint.Addressable := by
  intro position state hstate _
  have hlt := (Array.getElem?_eq_some_iff.mp hstate).1
  rw [StateId.index_ofIndex]
  omega

/-- Of the edges that are listed for a state, those under a given number are all or none. -/
theorem Addressable.filter_listed (h : blueprint.Addressable) {place : ℕ} {state : State}
    (hstate : blueprint.states[place]? = some state) (position : ℕ) :
    ((state.edges.map fun edge => (StateId.ofIndex place, edge)).filter
      fun added => added.1.index = position) =
      if place = position then state.edges.map fun edge => (StateId.ofIndex position, edge)
      else [] := by
  by_cases hnil : state.edges = []
  · simp [hnil]
  · rw [List.filter_map, Function.comp_def]
    simp only [h place state hstate hnil]
    by_cases hplace : place = position <;> simp [hplace]

/-- The edges of each state are listed in their order. -/
theorem edgesFrom_toDraft (h : blueprint.Addressable) {position : ℕ} {state : State}
    (hstate : blueprint.states[position]? = some state) :
    blueprint.toDraft.edgesFrom position = state.edges := by
  have hlisted : (blueprint.toDraft.edges.toList.filter fun added => added.1.index = position) =
      state.edges.map fun edge => (StateId.ofIndex position, edge) := by
    calc
      _ = (blueprint.states.toList.mapIdx fun place state =>
            if place = position then state.edges.map fun edge => (StateId.ofIndex position, edge)
            else []).flatten := by
        rw [toDraft, Array.toList_flatten, Array.toList_mapIdx, List.filter_flatten]
        congr 1
        refine List.ext_getElem? fun place => ?_
        simp only [List.getElem?_map, List.getElem?_mapIdx, Array.getElem?_toList]
        cases hplace : blueprint.states[place]? with
        | none => rfl
        | some state => simpa using h.filter_listed hplace position
      _ = _ := by
        rw [flatten_mapIdx_single, Array.getElem?_toList, hstate]
        rfl
  rw [Draft.edgesFrom, hlisted, List.map_map]
  exact List.map_id _

/-- Tables are put together as they were taken apart. -/
theorem toBlueprint_toDraft (h : blueprint.Addressable) :
    blueprint.toDraft.toBlueprint = blueprint := by
  have hstates : blueprint.toDraft.toBlueprint.states = blueprint.states := by
    refine Array.ext_getElem? fun position => ?_
    rw [Draft.getElem?_states_toBlueprint, toDraft, Array.getElem?_map]
    cases hstate : blueprint.states[position]? with
    | none => rfl
    | some state =>
      rw [Option.map_some, Option.map_some, ← toDraft, edgesFrom_toDraft h hstate]
  exact congrArg (Blueprint.mk · blueprint.rules blueprint.vocabulary) hstates

end Blueprint

namespace Draft

variable {draft : Draft} {network : Network}

theorem addressable_toBlueprint (draft : Draft) : draft.toBlueprint.Addressable := by
  intro position state hstate hedges
  rw [getElem?_states_toBlueprint, Option.map_eq_some_iff] at hstate
  obtain ⟨place, -, rfl⟩ := hstate
  obtain ⟨edge, hedge⟩ := List.exists_mem_of_ne_nil _ hedges
  obtain ⟨source, -, rfl⟩ := mem_edgesFrom_iff.mp hedge
  rw [StateId.ofIndex_index]

theorem places_toDraft_toBlueprint (draft : Draft) :
    draft.toBlueprint.toDraft.places = draft.places := by
  refine Array.ext_getElem? fun position => ?_
  rw [Blueprint.toDraft, Array.getElem?_map, getElem?_states_toBlueprint, Option.map_map]
  exact Option.map_id_apply

/-- A well-formed draft is well formed when it is opened again. -/
theorem WellFormed.toDraft_toBlueprint (h : draft.WellFormed) :
    draft.toBlueprint.toDraft.WellFormed := by
  refine h.congr draft.places_toDraft_toBlueprint rfl rfl ?_
  rintro ⟨_, edge⟩ hadded
  obtain ⟨position, state, hstate, hedge, rfl⟩ := Blueprint.mem_edges_toDraft_iff.mp hadded
  rw [getElem?_states_toBlueprint, Option.map_eq_some_iff] at hstate
  obtain ⟨place, -, rfl⟩ := hstate
  obtain ⟨source, hmem, rfl⟩ := mem_edgesFrom_iff.mp hedge
  rwa [StateId.ofIndex_index]

/-- A network comes back from store as it was. -/
theorem load_toBlueprint_of_build (hbuild : draft.build = .ok network) :
    network.toBlueprint.load = .ok network := by
  have hwell := (wellFormed_of_build hbuild).toDraft_toBlueprint
  obtain ⟨-, rfl⟩ := build_eq_ok_iff.mp hbuild
  have hsame := Blueprint.toBlueprint_toDraft draft.addressable_toBlueprint
  refine build_eq_ok_iff.mpr ⟨defect?_eq_none_iff_wellFormed.mpr hwell, ?_⟩
  rw [hsame]

end Draft

/-! ## Storing and loading -/

namespace Draft

theorem vocabulary_link (draft : Draft) (source? target? : Option StateId) :
    (draft.link source? target?).vocabulary = draft.vocabulary := by
  unfold link
  split <;> rfl

theorem vocabulary_chain (draft : Draft) (rule : RuleId) (current : StateId)
    (elements : List Element) :
    (draft.chain rule current elements).2.vocabulary = draft.vocabulary := by
  induction elements generalizing draft current with
  | nil => rfl
  | cons element rest ih => exact ih _ _

theorem vocabulary_addAlternative (draft : Draft) (rule : RuleId) (elements : List Element) :
    (draft.addAlternative rule elements).2.vocabulary = draft.vocabulary := by
  rw [addAlternative, vocabulary_link, vocabulary_chain, vocabulary_link]
  rfl

end Draft

/-- A draft and a directory get the same names from an addition. -/
theorem Directory.vocabulary_add {directory : Directory} {draft : Draft}
    (h : directory.vocabulary = draft.vocabulary) (addition : Addition) :
    (directory.add addition).vocabulary = (draft.add addition).vocabulary := by
  cases addition with
  | terminal name => exact congrArg (fun names => (names.addTerminal name).2) h
  | rule name => exact congrArg (fun names => (names.addRule name).2) h
  | state | stop | edge => exact h
  | alternative rule elements => exact h.trans (draft.vocabulary_addAlternative _ _).symm

namespace Provenance

/-- The directory that comes with a network: it is kept while additions are made, and made anew
from stored names. -/
def directory : Provenance → Directory
  | assembled additions => additions.foldl Directory.add {}
  | stored blueprint => .ofNames blueprint.vocabulary

/-- The directory has the names of the draft and finds the first symbol of each. -/
theorem directory_of_draft (provenance : Provenance) :
    provenance.directory.vocabulary = provenance.draft.vocabulary ∧
      provenance.directory.Indexed := by
  cases provenance with
  | stored blueprint =>
    exact ⟨Directory.vocabulary_ofNames _, Directory.indexed_ofNames _⟩
  | assembled additions =>
    induction additions using List.reverseRecOn with
    | nil => exact ⟨rfl, Directory.indexed_empty⟩
    | append_singleton additions addition ih =>
      obtain ⟨hnames, hindexed⟩ := ih
      rw [draft, Draft.assemble_concat, directory, List.foldl_concat]
      exact ⟨Directory.vocabulary_add hnames addition, hindexed.add addition⟩

/-- A network that is stored and loaded comes back as it was, together with the directory that
came with it, in which every name finds the first symbol registered under it. Tables that were
loaded are stored as they were. -/
theorem load_toBlueprint {provenance : Provenance} {network : Network}
    (hbuild : provenance.build = .ok network) :
    network.toBlueprint.load = .ok network ∧
    Directory.ofNames network.vocabulary = provenance.directory ∧
    provenance.directory.FindsFirst network.vocabulary ∧
    ∀ blueprint, provenance = stored blueprint → blueprint.states.size ≤ 4294967296 →
      network.toBlueprint = blueprint := by
  rw [← build_draft] at hbuild
  obtain ⟨hnames, hindexed⟩ := provenance.directory_of_draft
  have hvocabulary : network.vocabulary = provenance.directory.vocabulary :=
    (Draft.freezes_of_build hbuild).vocabulary.trans hnames.symm
  refine ⟨Draft.load_toBlueprint_of_build hbuild, ?_, hvocabulary ▸ hindexed.findsFirst, ?_⟩
  · refine (Directory.indexed_ofNames _).eq hindexed ?_
    rw [Directory.vocabulary_ofNames, hvocabulary]
  · rintro blueprint rfl hsize
    obtain ⟨-, rfl⟩ := Draft.build_eq_ok_iff.mp hbuild
    exact Blueprint.toBlueprint_toDraft (.of_size_le hsize)

/-- Two terminals share a name, and both edges of a state lead to the same stop. -/
theorem load_toBlueprint_sameName :
    ∃ blueprint network,
      (assembled [.terminal "x", .terminal "x", .rule "a", .edge ⟨0⟩ ⟨.token ⟨1⟩, ⟨1⟩⟩,
        .edge ⟨0⟩ ⟨.oneOf ⟨#[⟨0⟩, ⟨1⟩]⟩, ⟨1⟩⟩]).build = .ok network ∧
      (stored blueprint).build = .ok network ∧ network.toBlueprint = blueprint ∧
      network.toBlueprint.load = .ok network ∧
      (Directory.ofNames network.vocabulary).terminals["x"]? = some ⟨0⟩ ∧
      network.vocabulary.terminalNamed? "x" = some ⟨0⟩ := by
  let blueprint : Blueprint :=
    { states := #[⟨⟨⟨0⟩, .entry⟩, [⟨.token ⟨1⟩, ⟨1⟩⟩, ⟨.oneOf ⟨#[⟨0⟩, ⟨1⟩]⟩, ⟨1⟩⟩]⟩,
        ⟨⟨⟨0⟩, .stop⟩, []⟩]
      rules := #[⟨⟨0⟩, [⟨1⟩]⟩]
      vocabulary := { terminals := #["x", "x"], rules := #["a"] } }
  have hassembled : (assembled [.terminal "x", .terminal "x", .rule "a",
      .edge ⟨0⟩ ⟨.token ⟨1⟩, ⟨1⟩⟩, .edge ⟨0⟩ ⟨.oneOf ⟨#[⟨0⟩, ⟨1⟩]⟩, ⟨1⟩⟩]).build =
      .ok { blueprint with nullable := #[false] } := by
    decide +kernel
  have hstored : (stored blueprint).build = .ok { blueprint with nullable := #[false] } := by
    decide +kernel
  obtain ⟨hload, hdirectory, hfinds, -⟩ := load_toBlueprint hassembled
  have hfirst : (Directory.ofNames blueprint.vocabulary).terminals["x"]? = some ⟨0⟩ := by
    rw [hdirectory]
    exact (hfinds.terminal "x" ⟨0⟩).mpr ⟨0, ⟨rfl, by simp⟩, rfl⟩
  refine ⟨blueprint, _, hassembled, hstored,
    (load_toBlueprint hstored).2.2.2 blueprint rfl (by decide), hload, hfirst, ?_⟩
  rw [hfinds.terminalNamed?, ← hdirectory]
  exact hfirst

end Provenance

end CodeCompletion
