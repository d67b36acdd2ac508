import CodeCompletion.Candidates.Basic
import Mathlib.Order.Bounds.Basic
import Mathlib.Order.MinMax
import Mathlib.Tactic.Common

/-!
# What has been recorded

The pairs of a terminal or a rule with a path that recorded findings leave behind. A
pair is present exactly if some finding brought it; the order of the findings and their
repetition do not show. The same holds of the start of a rule, once it is asked for by
lower bounds. The starts of active rules are different: they are noted with a finding that
is new, and what is new depends on what came before.

## Main definitions

* `Finding.BringsToken`, `Finding.BringsRule`: the pairs that a finding brings
* `Finding.BringsRuleFrom`, `Candidates.RuleFrom`: lower bounds of the start of a rule
* `CallStack.OpenFrom`, `Candidates.NotedFrom`: lower bounds of the start of an active rule
* `Candidates.Lacks`: a finding brings something new
* `Candidates.Grounded`: every terminal that is offered has a path

## Main results

* `Candidates.hasToken_foldl_record`, `Candidates.hasRule_foldl_record`,
  `Candidates.ruleFrom_foldl_record`: what a list of findings leaves behind
* `Candidates.notedFrom_record`, `Candidates.notedFrom_foldl_record`: which starts are noted
* `Candidates.mem_terminals_of_hasToken`: a terminal with a path is a candidate
* `Candidates.Grounded.tokens_eq`, `Candidates.rules_eq_of_hasRule_iff`: candidates with the
  same pairs and starts are the same
-/

set_option autoImplicit false

namespace CodeCompletion

namespace Finding

/-- The finding offers `terminal` along `path`. -/
def BringsToken (finding : Finding) (terminal : TerminalId) (path : Path) : Prop :=
  finding.path = path ∧
    ∃ terminals, finding.offer = .terminals terminals ∧ terminal ∈ terminals

/-- The finding offers `rule` along `path`. -/
def BringsRule (finding : Finding) (rule : RuleId) (path : Path) : Prop :=
  finding.path = path ∧ ∃ start, finding.offer = .rule rule start

/-- The finding offers `rule` from the token `start` on, or from a later one. -/
def BringsRuleFrom (finding : Finding) (rule : RuleId) (start : ℕ) : Prop :=
  ∃ late, finding.offer = .rule rule late ∧ start ≤ late

end Finding

/-- A call of the rule is open that begins at `start` or later. -/
def CallStack.OpenFrom (stack : CallStack) (rule : RuleId) (start : ℕ) : Prop :=
  ∃ frame ∈ stack, frame.rule = rule ∧ start ≤ frame.start

theorem CallStack.mem_path_iff {stack : CallStack} {rule : RuleId} :
    rule ∈ stack.path ↔ ∃ frame ∈ stack, frame.rule = rule := by
  simp [path]

/-- A number that is known by its lower bounds is the greatest of those that give the bounds. -/
theorem eq_some_iff_isGreatest {known? : Option ℕ} {numbers : Set ℕ} {number : ℕ}
    (h : ∀ lower, (∃ known, known? = some known ∧ lower ≤ known) ↔ ∃ late ∈ numbers, lower ≤ late) :
    known? = some number ↔ IsGreatest numbers number := by
  constructor
  · intro hnumber
    have hupper : number ∈ upperBounds numbers := by
      intro late hlate
      obtain ⟨known, hknown, hle⟩ := (h late).mpr ⟨late, hlate, Nat.le_refl _⟩
      rwa [Option.some.inj (hnumber.symm.trans hknown)]
    obtain ⟨late, hlate, hle⟩ := (h number).mp ⟨number, hnumber, Nat.le_refl _⟩
    exact ⟨Nat.le_antisymm hle (hupper hlate) ▸ hlate, hupper⟩
  · rintro ⟨hmem, hupper⟩
    obtain ⟨known, hknown, hle⟩ := (h number).mpr ⟨number, hmem, Nat.le_refl _⟩
    obtain ⟨late, hlate, hbound⟩ := (h known).mp ⟨known, hknown, Nat.le_refl _⟩
    rw [hknown, Nat.le_antisymm (Nat.le_trans hbound (hupper hlate)) hle]

namespace Candidates

variable {candidates : Candidates} {terminal : TerminalId} {rule : RuleId} {path : Path}

theorem hasToken_iff : candidates.hasToken terminal path ↔
    ∃ paths, candidates.tokens[terminal]? = some paths ∧ path ∈ paths := by
  simp [hasToken, Option.any_eq_true]

theorem hasRule_iff : candidates.hasRule rule path ↔
    ∃ known, candidates.rules[rule]? = some known ∧ path ∈ known.paths := by
  simp [hasRule, Option.any_eq_true]

theorem hasToken_addToken (added : TerminalId) (along : Path) :
    (candidates.addToken added along).2.hasToken terminal path ↔
      candidates.hasToken terminal path ∨ terminal = added ∧ path = along := by
  unfold addToken
  split
  -- A pair that is there already changes nothing.
  · next hold =>
    constructor
    · exact Or.inl
    · rintro (h | ⟨rfl, rfl⟩)
      · exact h
      · exact hold
  -- Otherwise the paths of one terminal grow, and all others keep theirs.
  · rw [hasToken_iff, Std.ExtTreeMap.getElem?_alter, hasToken_iff]
    by_cases hsame : added = terminal
    · subst hsame
      cases candidates.tokens[added]? <;> simp [or_comm, eq_comm (a := along)]
    · simp [hsame, Ne.symm hsame]

theorem hasRule_addRule (added : RuleId) (start : ℕ) (along : Path) :
    (candidates.addRule added start along).2.hasRule rule path ↔
      candidates.hasRule rule path ∨ rule = added ∧ path = along := by
  rw [addRule, hasRule_iff, Std.ExtTreeMap.getElem?_alter, hasRule_iff]
  by_cases hsame : added = rule
  · subst hsame
    cases candidates.rules[added]? <;> simp [RuleCandidate.join, or_comm, eq_comm (a := along)]
  · simp [hsame, Ne.symm hsame]

theorem hasToken_addTokens (terminals : List TerminalId) (along : Path) :
    (candidates.addTokens terminals along).2.hasToken terminal path ↔
      candidates.hasToken terminal path ∨ terminal ∈ terminals ∧ path = along := by
  induction terminals generalizing candidates with
  | nil => simp [addTokens]
  | cons added rest ih =>
    rw [addTokens, ih, hasToken_addToken, List.mem_cons]
    tauto

/-- Adding a terminal touches neither rules nor starts. -/
theorem addToken_eq (candidates : Candidates) (added : TerminalId) (along : Path) :
    (candidates.addToken added along).2.rules = candidates.rules ∧
      (candidates.addToken added along).2.starts = candidates.starts := by
  unfold addToken
  split <;> exact ⟨rfl, rfl⟩

theorem rules_addTokens (candidates : Candidates) (terminals : List TerminalId) (along : Path) :
    (candidates.addTokens terminals along).2.rules = candidates.rules := by
  induction terminals generalizing candidates with
  | nil => rfl
  | cons added rest ih => rw [addTokens, ih, (addToken_eq _ _ _).1]

theorem noteStarts_eq (candidates : Candidates) (stack : CallStack) :
    (candidates.noteStarts stack).tokens = candidates.tokens ∧
      (candidates.noteStarts stack).rules = candidates.rules := by
  unfold noteStarts
  induction stack generalizing candidates with
  | nil => exact ⟨rfl, rfl⟩
  | cons frame rest ih => exact ih _

/-- Noting starts touches neither terminals nor rules, so a record leaves of these what the
offer leaves. -/
theorem record_eq (candidates : Candidates) (finding : Finding) :
    (candidates.record finding).tokens =
        (candidates.addOffer finding.path finding.offer).2.tokens ∧
      (candidates.record finding).rules =
        (candidates.addOffer finding.path finding.offer).2.rules := by
  unfold record
  dsimp only
  split
  · exact noteStarts_eq _ _
  · exact ⟨rfl, rfl⟩

theorem hasToken_record (finding : Finding) :
    (candidates.record finding).hasToken terminal path ↔
      candidates.hasToken terminal path ∨ finding.BringsToken terminal path := by
  have htokens : (candidates.record finding).hasToken terminal path =
      (candidates.addOffer finding.path finding.offer).2.hasToken terminal path := by
    rw [hasToken, hasToken, (record_eq candidates finding).1]
  rw [htokens, Finding.BringsToken]
  cases hoffer : finding.offer with
  | terminals terminals =>
    rw [addOffer, hasToken_addTokens, and_comm, eq_comm (a := path)]
    simp
  | rule offered start => simp [addOffer, addRule, hasToken]

theorem hasRule_record (finding : Finding) :
    (candidates.record finding).hasRule rule path ↔
      candidates.hasRule rule path ∨ finding.BringsRule rule path := by
  have hrules : (candidates.record finding).hasRule rule path =
      (candidates.addOffer finding.path finding.offer).2.hasRule rule path := by
    rw [hasRule, hasRule, (record_eq candidates finding).2]
  rw [hrules, Finding.BringsRule]
  cases hoffer : finding.offer with
  | terminals terminals => simp [addOffer, hasRule, rules_addTokens]
  | rule offered start =>
    rw [addOffer, hasRule_addRule, and_comm, eq_comm (a := path), eq_comm (a := rule)]
    simp

theorem hasToken_foldl_record (findings : List Finding) :
    (findings.foldl record candidates).hasToken terminal path ↔
      candidates.hasToken terminal path ∨
        ∃ finding ∈ findings, finding.BringsToken terminal path := by
  induction findings generalizing candidates with
  | nil => simp
  | cons finding rest ih =>
    rw [List.foldl_cons, ih, hasToken_record, or_assoc]
    simp

theorem hasRule_foldl_record (findings : List Finding) :
    (findings.foldl record candidates).hasRule rule path ↔
      candidates.hasRule rule path ∨
        ∃ finding ∈ findings, finding.BringsRule rule path := by
  induction findings generalizing candidates with
  | nil => simp
  | cons finding rest ih =>
    rw [List.foldl_cons, ih, hasRule_record, or_assoc]
    simp

theorem not_hasToken_empty : ¬ ({} : Candidates).hasToken terminal path := by
  simp [hasToken]

theorem not_hasRule_empty : ¬ ({} : Candidates).hasRule rule path := by
  simp [hasRule]

theorem mem_terminals_iff : terminal ∈ candidates.terminals ↔
    ∃ paths, candidates.tokens[terminal]? = some paths := by
  rw [terminals, Std.ExtTreeMap.mem_keys, Std.ExtTreeMap.mem_iff_isSome_getElem?,
    Option.isSome_iff_exists]

/-- A terminal that is reached along some path is a candidate. -/
theorem mem_terminals_of_hasToken (h : candidates.hasToken terminal path) :
    terminal ∈ candidates.terminals := by
  obtain ⟨paths, hpaths, -⟩ := hasToken_iff.mp h
  exact mem_terminals_iff.mpr ⟨paths, hpaths⟩

/-! ## Starts of rules -/

/-- The rule is offered, and its latest start is `start` or later. -/
def RuleFrom (candidates : Candidates) (rule : RuleId) (start : ℕ) : Prop :=
  ∃ known, candidates.rules[rule]? = some known ∧ start ≤ known.start

theorem ruleFrom_addRule {start : ℕ} (added : RuleId) (late : ℕ) (along : Path) :
    (candidates.addRule added late along).2.RuleFrom rule start ↔
      candidates.RuleFrom rule start ∨ rule = added ∧ start ≤ late := by
  rw [addRule, RuleFrom, Std.ExtTreeMap.getElem?_alter, RuleFrom]
  by_cases hsame : added = rule
  · subst hsame
    cases candidates.rules[added]? <;> simp [RuleCandidate.join]
  · simp [hsame, Ne.symm hsame]

theorem ruleFrom_record {start : ℕ} (finding : Finding) :
    (candidates.record finding).RuleFrom rule start ↔
      candidates.RuleFrom rule start ∨ finding.BringsRuleFrom rule start := by
  rw [RuleFrom, (record_eq candidates finding).2, Finding.BringsRuleFrom]
  cases hoffer : finding.offer with
  | terminals terminals => simp [addOffer, rules_addTokens, RuleFrom]
  | rule offered late =>
    rw [addOffer, ← RuleFrom, ruleFrom_addRule, eq_comm (a := rule)]
    simp

theorem ruleFrom_foldl_record {start : ℕ} (findings : List Finding) :
    (findings.foldl record candidates).RuleFrom rule start ↔
      candidates.RuleFrom rule start ∨
        ∃ finding ∈ findings, finding.BringsRuleFrom rule start := by
  induction findings generalizing candidates with
  | nil => simp
  | cons finding rest ih =>
    rw [List.foldl_cons, ih, ruleFrom_record, or_assoc]
    simp

theorem not_ruleFrom_empty {start : ℕ} : ¬ ({} : Candidates).RuleFrom rule start := by
  simp [RuleFrom]

theorem mem_rules_iff : rule ∈ candidates.rules ↔ candidates.RuleFrom rule 0 := by
  rw [Std.ExtTreeMap.mem_iff_isSome_getElem?, Option.isSome_iff_exists]
  simp only [RuleFrom, Nat.zero_le, and_true]

/-- A start of which the lower bounds are known is the greatest of those that give them. -/
theorem isGreatest_of_ruleFrom {known : RuleCandidate} {starts : Set ℕ}
    (hknown : candidates.rules[rule]? = some known)
    (h : ∀ lower, candidates.RuleFrom rule lower ↔ ∃ late ∈ starts, lower ≤ late) :
    IsGreatest starts known.start := by
  have hstart : candidates.rules[rule]?.map RuleCandidate.start = some known.start :=
    congrArg (Option.map RuleCandidate.start) hknown
  refine (eq_some_iff_isGreatest fun lower => ?_).mp hstart
  rw [← h, RuleFrom]
  simp

/-! ## Starts of active rules -/

/-- The rule is noted as active, and its latest start is `start` or later. -/
def NotedFrom (candidates : Candidates) (rule : RuleId) (start : ℕ) : Prop :=
  ∃ known, candidates.start? rule = some known ∧ start ≤ known

theorem mem_starts_iff : rule ∈ candidates.starts ↔ candidates.NotedFrom rule 0 := by
  rw [Std.ExtTreeMap.mem_iff_isSome_getElem?, Option.isSome_iff_exists]
  simp only [NotedFrom, start?, Nat.zero_le, and_true]

theorem start?_eq_some_iff_isGreatest {starts : Set ℕ} {start : ℕ}
    (h : ∀ lower, candidates.NotedFrom rule lower ↔ ∃ late ∈ starts, lower ≤ late) :
    candidates.start? rule = some start ↔ IsGreatest starts start :=
  eq_some_iff_isGreatest h

/-- The finding brings a pair that is not there yet. -/
def Lacks (candidates : Candidates) (finding : Finding) : Prop :=
  (∃ terminal path, finding.BringsToken terminal path ∧ ¬ candidates.hasToken terminal path) ∨
    ∃ rule path, finding.BringsRule rule path ∧ ¬ candidates.hasRule rule path

theorem notedFrom_noteStart {start : ℕ} (added : RuleId) (late : ℕ) :
    (candidates.noteStart added late).NotedFrom rule start ↔
      candidates.NotedFrom rule start ∨ rule = added ∧ start ≤ late := by
  rw [NotedFrom, start?, noteStart, Std.ExtTreeMap.getElem?_alter, NotedFrom, start?]
  by_cases hsame : added = rule
  · subst hsame
    cases candidates.starts[added]? <;> simp
  · simp [hsame, Ne.symm hsame]

theorem notedFrom_noteStarts {start : ℕ} (stack : CallStack) :
    (candidates.noteStarts stack).NotedFrom rule start ↔
      candidates.NotedFrom rule start ∨ stack.OpenFrom rule start := by
  unfold noteStarts CallStack.OpenFrom
  induction stack generalizing candidates with
  | nil => simp
  | cons frame outer ih =>
    rw [List.foldl_cons, ih, notedFrom_noteStart, or_assoc]
    simp [eq_comm (a := rule)]

theorem starts_addTokens (candidates : Candidates) (terminals : List TerminalId) (along : Path) :
    (candidates.addTokens terminals along).2.starts = candidates.starts := by
  induction terminals generalizing candidates with
  | nil => rfl
  | cons added rest ih => rw [addTokens, ih, (addToken_eq _ _ _).2]

theorem addToken_isNew_eq (added : TerminalId) (along : Path) :
    (candidates.addToken added along).1 = !candidates.hasToken added along := by
  unfold addToken
  split <;> simp_all

theorem addTokens_isNew_iff (terminals : List TerminalId) (along : Path) :
    (candidates.addTokens terminals along).1 ↔
      ∃ terminal ∈ terminals, ¬ candidates.hasToken terminal along := by
  induction terminals generalizing candidates with
  | nil => simp [addTokens]
  | cons added rest ih =>
    rw [addTokens, Bool.or_eq_true, ih, addToken_isNew_eq]
    -- If the first terminal is not new, recording it changes nothing.
    by_cases hold : candidates.hasToken added along
    · have hsame : (candidates.addToken added along).2 = candidates := by
        rw [addToken, if_pos hold]
      simp [hsame, hold]
    · simp [hold]

/-- An offer is new exactly if it brings a pair that is not there yet. -/
theorem addOffer_isNew_iff (finding : Finding) :
    (candidates.addOffer finding.path finding.offer).1 ↔ candidates.Lacks finding := by
  unfold Lacks Finding.BringsToken Finding.BringsRule
  cases hoffer : finding.offer with
  | terminals terminals =>
    rw [addOffer, addTokens_isNew_iff]
    simp
  | rule offered start => simp [addOffer, addRule]

theorem notedFrom_record {start : ℕ} (finding : Finding) :
    (candidates.record finding).NotedFrom rule start ↔ candidates.NotedFrom rule start ∨
      candidates.Lacks finding ∧ finding.active.OpenFrom rule start := by
  have hstarts : (candidates.addOffer finding.path finding.offer).2.starts = candidates.starts := by
    cases finding.offer with
    | terminals terminals => exact starts_addTokens _ _ _
    | rule offered late => rfl
  have hsame : (candidates.addOffer finding.path finding.offer).2.NotedFrom rule start ↔
      candidates.NotedFrom rule start := by
    rw [NotedFrom, start?, hstarts, NotedFrom, start?]
  unfold record
  dsimp only
  split
  · next hnew =>
    rw [notedFrom_noteStarts, hsame]
    simp [(addOffer_isNew_iff finding).mp hnew]
  · next hold =>
    rw [hsame]
    simp [mt (addOffer_isNew_iff finding).mpr hold]

/-- What is new stays new after another finding, unless that one brings it as well. -/
theorem Lacks.record_or {other : Finding} (h : candidates.Lacks other) (finding : Finding) :
    (candidates.record finding).Lacks other ∨ candidates.Lacks finding := by
  rcases h with ⟨terminal, path, hbrings, hlacks⟩ | ⟨rule, path, hbrings, hlacks⟩
  · by_cases hsame : finding.BringsToken terminal path
    · exact Or.inr (Or.inl ⟨terminal, path, hsame, hlacks⟩)
    · exact Or.inl (Or.inl ⟨terminal, path, hbrings, by simp [hasToken_record, hlacks, hsame]⟩)
  · by_cases hsame : finding.BringsRule rule path
    · exact Or.inr (Or.inr ⟨rule, path, hsame, hlacks⟩)
    · exact Or.inl (Or.inr ⟨rule, path, hbrings, by simp [hasRule_record, hlacks, hsame]⟩)

theorem Lacks.of_record {finding other : Finding} (h : (candidates.record finding).Lacks other) :
    candidates.Lacks other := by
  rcases h with ⟨terminal, path, hbrings, hlacks⟩ | ⟨rule, path, hbrings, hlacks⟩
  · refine Or.inl ⟨terminal, path, hbrings, fun hold => hlacks ?_⟩
    exact (hasToken_record finding).mpr (Or.inl hold)
  · refine Or.inr ⟨rule, path, hbrings, fun hold => hlacks ?_⟩
    exact (hasRule_record finding).mpr (Or.inl hold)

/-- Findings under one stack note its calls exactly if one of them is new. -/
theorem notedFrom_foldl_record {start : ℕ} {stack : CallStack} (findings : List Finding)
    (hactive : ∀ finding ∈ findings, finding.active = stack) :
    (findings.foldl record candidates).NotedFrom rule start ↔ candidates.NotedFrom rule start ∨
      (∃ finding ∈ findings, candidates.Lacks finding) ∧ stack.OpenFrom rule start := by
  induction findings generalizing candidates with
  | nil => simp
  | cons finding rest ih =>
    have hhead : finding.active = stack := hactive finding List.mem_cons_self
    rw [List.foldl_cons, ih fun other hother => hactive other (List.mem_cons_of_mem _ hother),
      notedFrom_record, hhead, or_assoc, ← or_and_right]
    refine or_congr_right (and_congr_left' ?_)
    constructor
    · rintro (hnew | ⟨other, hother, hnew⟩)
      · exact ⟨finding, List.mem_cons_self, hnew⟩
      · exact ⟨other, List.mem_cons_of_mem _ hother, hnew.of_record⟩
    · rintro ⟨other, hother, hnew⟩
      rcases List.mem_cons.mp hother with rfl | hother
      · exact Or.inl hnew
      · rcases hnew.record_or finding with hlater | hnow
        · exact Or.inr ⟨other, hother, hlater⟩
        · exact Or.inl hnow

/-! ## Candidates as sets of pairs -/

/-- Every terminal that is offered has a path. -/
def Grounded (candidates : Candidates) : Prop :=
  ∀ (terminal : TerminalId) (paths : PathSet),
    candidates.tokens[terminal]? = some paths → ∃ path, path ∈ paths

theorem grounded_empty : ({} : Candidates).Grounded := by
  intro terminal paths hpaths
  simp at hpaths

theorem Grounded.addToken (h : candidates.Grounded) (added : TerminalId) (along : Path) :
    (candidates.addToken added along).2.Grounded := by
  unfold Candidates.addToken
  split
  · exact h
  · intro terminal paths hpaths
    rw [Std.ExtTreeMap.getElem?_alter] at hpaths
    split at hpaths
    · obtain rfl := Option.some.inj hpaths
      exact ⟨along, Std.ExtTreeSet.mem_insert_self⟩
    · exact h terminal paths hpaths

theorem Grounded.addTokens (h : candidates.Grounded) (terminals : List TerminalId)
    (along : Path) : (candidates.addTokens terminals along).2.Grounded := by
  induction terminals generalizing candidates with
  | nil => exact h
  | cons added rest ih => exact ih (h.addToken added along)

theorem Grounded.foldl_record (h : candidates.Grounded) (findings : List Finding) :
    (findings.foldl record candidates).Grounded := by
  induction findings generalizing candidates with
  | nil => exact h
  | cons finding rest ih =>
    apply ih
    rw [Grounded, (record_eq candidates finding).1]
    cases finding.offer with
    | terminals terminals => exact h.addTokens terminals finding.path
    | rule offered start => exact h

theorem Grounded.mem_terminals_iff (h : candidates.Grounded) :
    terminal ∈ candidates.terminals ↔ ∃ path, candidates.hasToken terminal path := by
  constructor
  · intro hmem
    obtain ⟨paths, hpaths⟩ := Candidates.mem_terminals_iff.mp hmem
    obtain ⟨path, hpath⟩ := h terminal paths hpaths
    exact ⟨path, hasToken_iff.mpr ⟨paths, hpaths, hpath⟩⟩
  · rintro ⟨path, hpath⟩
    exact mem_terminals_of_hasToken hpath

/-- Nothing is offered exactly if no terminal is reached along a path and no rule has a start. -/
theorem Grounded.isEmpty_iff (h : candidates.Grounded) : candidates.isEmpty ↔
    (∀ terminal path, ¬ candidates.hasToken terminal path) ∧
      ∀ rule, ¬ candidates.RuleFrom rule 0 := by
  rw [isEmpty, Bool.and_eq_true, Std.ExtTreeMap.isEmpty_iff, Std.ExtTreeMap.isEmpty_iff,
    Std.ExtTreeMap.eq_empty_iff_forall_not_mem, Std.ExtTreeMap.eq_empty_iff_forall_not_mem]
  refine and_congr (forall_congr' fun terminal => ?_) (forall_congr' fun rule => ?_)
  · rw [← Std.ExtTreeMap.mem_keys, ← terminals, h.mem_terminals_iff, not_exists]
  · rw [mem_rules_iff]

variable {candidates' : Candidates}

/-- Candidates in which the same terminals are reached along the same paths have the same
terminals. -/
theorem Grounded.tokens_eq (h : candidates.Grounded) (h' : candidates'.Grounded)
    (hsame : ∀ terminal path, candidates.hasToken terminal path ↔
      candidates'.hasToken terminal path) : candidates.tokens = candidates'.tokens := by
  apply Std.ExtTreeMap.ext_getElem?
  intro terminal
  -- A terminal in one of them has a path there, hence it is in the other one.
  have hmem : terminal ∈ candidates.terminals ↔ terminal ∈ candidates'.terminals := by
    simp only [h.mem_terminals_iff, h'.mem_terminals_iff, hsame]
  simp only [Candidates.mem_terminals_iff] at hmem
  cases hpaths : candidates.tokens[terminal]? with
  | none =>
    cases hpaths' : candidates'.tokens[terminal]? with
    | none => rfl
    | some paths' => simp [hpaths, hpaths'] at hmem
  | some paths =>
    obtain ⟨paths', hpaths'⟩ := hmem.mp ⟨paths, hpaths⟩
    rw [hpaths']
    congr 1
    apply Std.ExtTreeSet.ext_mem
    intro path
    simpa [hasToken_iff, hpaths, hpaths'] using hsame terminal path

/-- Candidates in which the same rules are offered along the same paths, from the same tokens
on, have the same rules. -/
theorem rules_eq_of_hasRule_iff
    (hsame : ∀ rule path, candidates.hasRule rule path ↔ candidates'.hasRule rule path)
    (hstart : ∀ rule start, candidates.RuleFrom rule start ↔ candidates'.RuleFrom rule start) :
    candidates.rules = candidates'.rules := by
  apply Std.ExtTreeMap.ext_getElem?
  intro rule
  have hmem : (∃ known, candidates.rules[rule]? = some known) ↔
      ∃ known, candidates'.rules[rule]? = some known := by
    simpa [RuleFrom] using hstart rule 0
  cases hknown : candidates.rules[rule]? with
  | none =>
    cases hknown' : candidates'.rules[rule]? with
    | none => rfl
    | some known' => simp [hknown, hknown'] at hmem
  | some known =>
    obtain ⟨known', hknown'⟩ := hmem.mp ⟨known, hknown⟩
    rw [hknown']
    have hpaths : known.paths = known'.paths := by
      apply Std.ExtTreeSet.ext_mem
      intro path
      simpa [hasRule_iff, hknown, hknown'] using hsame rule path
    -- Numbers with the same lower bounds are the same.
    have hbounds : ∀ start, start ≤ known.start ↔ start ≤ known'.start := by
      intro start
      simpa [RuleFrom, hknown, hknown'] using hstart rule start
    have hstarts : known.start = known'.start :=
      Nat.le_antisymm ((hbounds _).mp (Nat.le_refl _)) ((hbounds _).mpr (Nat.le_refl _))
    cases known
    cases known'
    simp_all

end Candidates

end CodeCompletion
