import CodeCompletion.Proofs.Candidates

/-!
# Candidates as the join of facts

Candidates take in facts of three kinds: a terminal along a path, a rule along a path with a
start, and the start of an active rule. Paths are collected, and of several starts the latest
counts. So nothing but the set of the facts shows in the end, neither their order nor how often
each of them came in. What each single fact brought is told when it comes in: a terminal or a
rule along a path is new exactly if no earlier fact brought the same pair.

## Main definitions

* `Fact`, `Candidates.takeIn`, `Candidates.ofFacts`: facts, taken in one after the other
* `Candidates.Joins`: what candidates say of the facts that they come from

## Main results

* `Candidates.ofFacts_iff`: what holds of candidates exactly if some fact brings it
* `Candidates.joins_ofFacts`: candidates are the join of the facts that they have taken in
* `Candidates.Joins.eq`: the join of facts is determined by the set of these
* `Candidates.ofFacts_join`: the join, what is new in it, and when it is empty
-/

set_option autoImplicit false

namespace CodeCompletion

/-- Something that candidates take in. -/
inductive Fact where
  /-- The terminal is reached along the path. -/
  | token (terminal : TerminalId) (path : Path)
  /-- The rule is offered along the path, from the token `start` on. -/
  | rule (rule : RuleId) (start : ℕ) (path : Path)
  /-- A call of the rule from the token `start` on is open. -/
  | start (rule : RuleId) (start : ℕ)
deriving DecidableEq

namespace Candidates

variable {candidates candidates' : Candidates} {facts facts' : List Fact} {fact : Fact}
  {terminal : TerminalId} {rule : RuleId} {path : Path} {lower : ℕ}

/-- Take in one fact. -/
def takeIn (candidates : Candidates) : Fact → Candidates
  | .token terminal path => (candidates.addToken terminal path).2
  | .rule rule start path => (candidates.addRule rule start path).2
  | .start rule start => candidates.noteStart rule start

/-- The candidates that have taken in some facts, one after the other. -/
def ofFacts (facts : List Fact) : Candidates := facts.foldl takeIn {}

/-- The candidates say of each terminal and of each rule what the facts say together: all paths of
a terminal, if it has any, all paths of a rule with its latest start, and the latest start of an
active rule. -/
structure Joins (candidates : Candidates) (facts : List Fact) : Prop where
  tokens : ∀ terminal paths, candidates.paths? terminal = some paths ↔
    (∃ path, .token terminal path ∈ facts) ∧ ∀ path, path ∈ paths ↔ .token terminal path ∈ facts
  rules : ∀ rule known, candidates.rules[rule]? = some known ↔
    IsGreatest {start | ∃ path, .rule rule start path ∈ facts} known.start ∧
      ∀ path, path ∈ known.paths ↔ ∃ start, .rule rule start path ∈ facts
  starts : ∀ rule start, candidates.start? rule = some start ↔
    IsGreatest {start | .start rule start ∈ facts} start

/-! ## One fact -/

theorem hasToken_takeIn (candidates : Candidates) (fact : Fact) :
    (candidates.takeIn fact).hasToken terminal path ↔
      candidates.hasToken terminal path ∨ fact = .token terminal path := by
  cases fact with
  | token added along =>
    rw [takeIn, hasToken_addToken, eq_comm (a := terminal), eq_comm (a := path)]
    simp
  | rule added start along => simp [takeIn, addRule, hasToken]
  | start added start => simp [takeIn, noteStart, hasToken]

theorem hasRule_takeIn (candidates : Candidates) (fact : Fact) :
    (candidates.takeIn fact).hasRule rule path ↔
      candidates.hasRule rule path ∨ ∃ start, fact = .rule rule start path := by
  cases fact with
  | token added along => simp [takeIn, hasRule, addToken_eq]
  | rule added start along =>
    rw [takeIn, hasRule_addRule, eq_comm (a := rule), eq_comm (a := path)]
    simp
  | start added start => simp [takeIn, noteStart, hasRule]

theorem ruleFrom_takeIn (candidates : Candidates) (fact : Fact) :
    (candidates.takeIn fact).RuleFrom rule lower ↔ candidates.RuleFrom rule lower ∨
      ∃ start path, fact = .rule rule start path ∧ lower ≤ start := by
  cases fact with
  | token added along => simp [takeIn, RuleFrom, addToken_eq]
  | rule added start along =>
    rw [takeIn, ruleFrom_addRule, eq_comm (a := rule)]
    simp
  | start added start => simp [takeIn, noteStart, RuleFrom]

theorem notedFrom_takeIn (candidates : Candidates) (fact : Fact) :
    (candidates.takeIn fact).NotedFrom rule lower ↔ candidates.NotedFrom rule lower ∨
      ∃ start, fact = .start rule start ∧ lower ≤ start := by
  cases fact with
  | token added along => simp [takeIn, NotedFrom, start?, addToken_eq]
  | rule added start along => simp [takeIn, addRule, NotedFrom, start?]
  | start added start =>
    rw [takeIn, notedFrom_noteStart, eq_comm (a := rule)]
    simp

theorem Grounded.takeIn (h : candidates.Grounded) (fact : Fact) :
    (candidates.takeIn fact).Grounded := by
  cases fact with
  | token added along => exact h.addToken added along
  | rule | start => exact h

/-! ## All facts -/

/-- If each fact that is taken in adds what it brings, then in the end there is what some fact has
brought. -/
theorem ofFacts_iff (holds : Candidates → Prop) {brings : Fact → Prop} (hempty : ¬ holds {})
    (hstep : ∀ candidates fact, holds (takeIn candidates fact) ↔ holds candidates ∨ brings fact)
    (facts : List Fact) : holds (ofFacts facts) ↔ ∃ fact ∈ facts, brings fact := by
  have hfold : ∀ candidates, holds (facts.foldl takeIn candidates) ↔
      holds candidates ∨ ∃ fact ∈ facts, brings fact := by
    induction facts with
    | nil => simp
    | cons fact rest ih =>
      intro candidates
      rw [List.foldl_cons, ih, hstep, or_assoc]
      simp
  exact (hfold {}).trans (or_iff_right hempty)

theorem hasToken_ofFacts_iff :
    (ofFacts facts).hasToken terminal path ↔ .token terminal path ∈ facts := by
  rw [ofFacts_iff (fun candidates => candidates.hasToken terminal path) not_hasToken_empty
    hasToken_takeIn]
  simp

theorem hasRule_ofFacts_iff :
    (ofFacts facts).hasRule rule path ↔ ∃ start, .rule rule start path ∈ facts := by
  rw [ofFacts_iff (fun candidates => candidates.hasRule rule path) not_hasRule_empty
    hasRule_takeIn]
  constructor
  · rintro ⟨fact, hfact, start, rfl⟩
    exact ⟨start, hfact⟩
  · rintro ⟨start, hfact⟩
    exact ⟨_, hfact, start, rfl⟩

theorem ruleFrom_ofFacts_iff : (ofFacts facts).RuleFrom rule lower ↔
    ∃ start ∈ {start | ∃ path, .rule rule start path ∈ facts}, lower ≤ start := by
  rw [ofFacts_iff (fun candidates => candidates.RuleFrom rule lower) not_ruleFrom_empty
    ruleFrom_takeIn]
  constructor
  · rintro ⟨fact, hfact, start, path, rfl, hlower⟩
    exact ⟨start, ⟨path, hfact⟩, hlower⟩
  · rintro ⟨start, ⟨path, hfact⟩, hlower⟩
    exact ⟨_, hfact, start, path, rfl, hlower⟩

theorem notedFrom_ofFacts_iff : (ofFacts facts).NotedFrom rule lower ↔
    ∃ start ∈ {start | .start rule start ∈ facts}, lower ≤ start := by
  rw [ofFacts_iff (fun candidates => candidates.NotedFrom rule lower)
    (by simp [NotedFrom, start?]) notedFrom_takeIn]
  constructor
  · rintro ⟨fact, hfact, start, rfl, hlower⟩
    exact ⟨start, hfact, hlower⟩
  · rintro ⟨start, hfact, hlower⟩
    exact ⟨_, hfact, start, rfl, hlower⟩

theorem grounded_ofFacts (facts : List Fact) : (ofFacts facts).Grounded := by
  have hfold : ∀ candidates : Candidates, candidates.Grounded →
      (facts.foldl takeIn candidates).Grounded := by
    induction facts with
    | nil => exact fun _ h => h
    | cons fact rest ih => exact fun candidates h => ih _ (h.takeIn fact)
  exact hfold {} grounded_empty

/-! ## The join -/

/-- Candidates are the join of the facts that they have taken in. -/
theorem joins_ofFacts (facts : List Fact) : (ofFacts facts).Joins facts where
  tokens terminal paths := by
    have hpaths : ∀ {known}, (ofFacts facts).paths? terminal = some known → ∀ path,
        path ∈ known ↔ .token terminal path ∈ facts := by
      intro known hknown path
      rw [← hasToken_ofFacts_iff, hasToken, ← paths?, hknown]
      simp
    constructor
    · intro hknown
      obtain ⟨path, hpath⟩ := grounded_ofFacts facts terminal paths hknown
      exact ⟨⟨path, (hpaths hknown path).mp hpath⟩, hpaths hknown⟩
    · rintro ⟨⟨path, hpath⟩, hall⟩
      obtain ⟨known, hknown, -⟩ := hasToken_iff.mp (hasToken_ofFacts_iff.mpr hpath)
      have hsame : known = paths := by
        apply Std.ExtTreeSet.ext_mem
        intro path
        rw [hpaths hknown, hall]
      rwa [← hsame]
  rules rule known := by
    have hpaths : ∀ {known}, (ofFacts facts).rules[rule]? = some known → ∀ path,
        path ∈ known.paths ↔ ∃ start, .rule rule start path ∈ facts := by
      intro known hknown path
      rw [← hasRule_ofFacts_iff, hasRule, hknown]
      simp
    constructor
    · intro hknown
      exact ⟨isGreatest_of_ruleFrom hknown fun lower => ruleFrom_ofFacts_iff, hpaths hknown⟩
    · rintro ⟨hstart, hall⟩
      obtain ⟨known', hknown', -⟩ := ruleFrom_ofFacts_iff.mpr ⟨_, hstart.1, Nat.le_refl _⟩
      have hsame : known'.start = known.start :=
        (isGreatest_of_ruleFrom hknown' fun lower => ruleFrom_ofFacts_iff).unique hstart
      have hsame' : known'.paths = known.paths := by
        apply Std.ExtTreeSet.ext_mem
        intro path
        rw [hpaths hknown', hall]
      rw [hknown']
      cases known'
      cases known
      simp_all
  starts rule start := start?_eq_some_iff_isGreatest fun lower => notedFrom_ofFacts_iff

/-- The join of facts is determined by the set of these. -/
theorem Joins.eq (h : candidates.Joins facts) (h' : candidates'.Joins facts')
    (hfacts : ∀ fact, fact ∈ facts ↔ fact ∈ facts') : candidates = candidates' := by
  have htokens : candidates.tokens = candidates'.tokens := by
    refine Std.ExtTreeMap.ext_getElem? fun terminal => Option.ext fun paths => ?_
    refine (h.tokens terminal paths).trans (Iff.trans ?_ (h'.tokens terminal paths).symm)
    simp only [hfacts]
  have hrules : candidates.rules = candidates'.rules := by
    refine Std.ExtTreeMap.ext_getElem? fun rule => Option.ext fun known => ?_
    simp only [h.rules, h'.rules, hfacts]
  have hstarts : candidates.starts = candidates'.starts := by
    refine Std.ExtTreeMap.ext_getElem? fun rule => Option.ext fun start => ?_
    refine (h.starts rule start).trans (Iff.trans ?_ (h'.starts rule start).symm)
    simp only [hfacts]
  cases candidates
  cases candidates'
  simp_all

theorem isEmpty_ofFacts_iff :
    (ofFacts facts).isEmpty ↔ ∀ fact ∈ facts, ∃ rule start, fact = .start rule start := by
  rw [(grounded_ofFacts facts).isEmpty_iff]
  simp only [hasToken_ofFacts_iff, ruleFrom_ofFacts_iff]
  constructor
  · rintro ⟨htokens, hrules⟩ fact hfact
    cases fact with
    | token terminal path => exact absurd hfact (htokens terminal path)
    | rule rule start path => exact absurd ⟨start, ⟨path, hfact⟩, Nat.zero_le _⟩ (hrules rule)
    | start rule start => exact ⟨rule, start, rfl⟩
  · intro hstarts
    refine ⟨fun terminal path hfact => ?_, fun rule => ?_⟩
    · obtain ⟨rule, start, heq⟩ := hstarts _ hfact
      cases heq
    · rintro ⟨start, ⟨path, hfact⟩, -⟩
      obtain ⟨rule, start, heq⟩ := hstarts _ hfact
      cases heq

/-- Candidates are the join of the facts that they have taken in. A terminal or a rule along a path
is told to be new exactly if no fact has brought it before. Facts that come in another order or
several times lead to the same candidates, and these are empty exactly if nothing but starts of
active rules came in. -/
theorem ofFacts_join (facts : List Fact) :
    (ofFacts facts).Joins facts ∧
    (∀ terminal path, ((ofFacts facts).addToken terminal path).1 ↔ .token terminal path ∉ facts) ∧
    (∀ rule start path, ((ofFacts facts).addRule rule start path).1 ↔
      ∀ earlier, .rule rule earlier path ∉ facts) ∧
    (∀ facts', facts' ⊆ facts → facts ⊆ facts' → ofFacts facts' = ofFacts facts) ∧
    ((ofFacts facts).isEmpty ↔ ∀ fact ∈ facts, ∃ rule start, fact = .start rule start) := by
  refine ⟨joins_ofFacts facts, fun terminal path => ?_, fun rule start path => ?_,
    fun facts' hsub hsup => ?_, isEmpty_ofFacts_iff⟩
  · rw [addToken_isNew_eq, Bool.not_eq_true', ← hasToken_ofFacts_iff, Bool.not_eq_true]
  · rw [addRule, Bool.not_eq_true', ← not_exists, ← hasRule_ofFacts_iff, Bool.not_eq_true]
  · exact (joins_ofFacts facts').eq (joins_ofFacts facts) fun fact => ⟨@hsub fact, @hsup fact⟩

/-- A rule that comes in again along its path, from a later token on, is not new, but its start
moves on. Whichever of the two comes in first, and however often, the later start stays. -/
theorem ofFacts_join_later_start :
    let early : Fact := .rule ⟨1⟩ 2 [⟨0⟩]
    let late : Fact := .rule ⟨1⟩ 5 [⟨0⟩]
    let candidates := Candidates.ofFacts [early, .start ⟨0⟩ 4, late]
    ((Candidates.ofFacts [early, .start ⟨0⟩ 4]).addRule ⟨1⟩ 5 [⟨0⟩]).1 = false ∧
      (candidates.rules[(⟨1⟩ : RuleId)]?.map (·.start)) = some 5 ∧
      Candidates.ofFacts [late, early, .start ⟨0⟩ 4, early, .start ⟨0⟩ 4] = candidates ∧
      ¬ candidates.isEmpty := by
  intro early late candidates
  obtain ⟨-, -, hnew, -⟩ := ofFacts_join [early, .start ⟨0⟩ 4]
  obtain ⟨hjoins, -, -, hsame, hempty⟩ := ofFacts_join [early, .start ⟨0⟩ 4, late]
  refine ⟨?_, ?_, hsame _ (by decide) (by decide), fun h => ?_⟩
  · rw [← Bool.not_eq_true, hnew]
    exact fun hnone => hnone 2 (by decide)
  · decide +kernel
  · obtain ⟨rule, start, heq⟩ := hempty.mp h early (by decide)
    simp [early] at heq

end Candidates

end CodeCompletion
