import CodeCompletion.Proofs.Preference

/-!
# Starts of the rules on paths

Starts are noted where something new is found, for the calls that are open there. These are the
calls along the path of the finding, and the call of the rule itself where the outermost preferred
rule is offered for what lies beneath it. What is found again brings nothing and notes nothing,
but then its path has been there before, and with it the starts.

So starts are known for the rules on the paths that are reported, and for no others than these and
the rules that are offered. The outermost call of a request stays open as long as the walk lasts.
Hence it has a start as soon as anything is reported.

## Main definitions

* `Finding.BringsPath`, `Candidates.HasPath`: paths to a terminal or to a rule
* `Finding.Framed`: a finding inside a call of some rule, with the calls around it
* `Candidates.Covers`: starts for the rules on all paths, otherwise only for rules that are offered
* `Query.outermostRule?`: the rule of the outermost call of a request

## Main results

* `Candidates.Covers.record`, `Candidates.Covers.foldl_record`: findings keep the starts complete
* `Query.Reaches.getLast?_stack`: the outermost call stays open
* `Query.Reports.framed`: whatever is found, the calls along its path are noted with it
* `Query.answer_starts_cover`: the rules of which an answer gives the start
-/

set_option autoImplicit false

namespace CodeCompletion

/-! ## Calls around a finding -/

namespace CallStack

variable {chosen : RuleId → Bool} {stack found : CallStack} {rule : RuleId}

theorem openFrom_zero_iff : stack.OpenFrom rule 0 ↔ rule ∈ stack.path := by
  simp only [OpenFrom, mem_path_iff, Nat.zero_le, and_true]

theorem rule_mem_path_of_getLast? {frame : Frame} (h : stack.getLast? = some frame) :
    frame.rule ∈ stack.path :=
  mem_path_iff.mpr ⟨frame, List.mem_of_getLast? h, rfl⟩

/-- The outermost chosen call lies inside the outermost call of all. -/
theorem getLast?_of_outermost? (h : stack.outermost? chosen = some found) :
    found.getLast? = stack.getLast? := by
  induction stack with
  | nil => cases h
  | cons frame outer ih =>
    rw [outermost?] at h
    cases houter : outermost? chosen outer with
    | some found' =>
      rw [houter] at h
      obtain ⟨_, _, rfl⟩ := List.exists_cons_of_ne_nil
        (fun hnil : outer = [] => by simp [hnil, outermost?] at houter)
      rw [ih (houter.trans h), List.getLast?_cons_cons]
    | none =>
      rw [houter] at h
      obtain ⟨-, hfound⟩ := Option.ite_none_right_eq_some.mp h
      rw [← Option.some.inj hfound]

end CallStack

namespace Finding

/-- The finding offers something along `path`. -/
def BringsPath (finding : Finding) (path : Path) : Prop :=
  (∃ terminal, finding.BringsToken terminal path) ∨ ∃ rule, finding.BringsRule rule path

theorem BringsPath.path_eq {finding : Finding} {path : Path} (h : finding.BringsPath path) :
    finding.path = path := by
  rcases h with ⟨_, hpath, -⟩ | ⟨_, hpath, -⟩
  · exact hpath
  · exact hpath

/-- The calls that are noted with the finding are those along its path, with one of `root` among
them; only a rule that is offered may be noted as well. -/
structure Framed (finding : Finding) (root : RuleId) : Prop where
  noted : ∀ rule ∈ root :: finding.path, rule ∈ finding.active.path
  only : ∀ rule ∈ finding.active.path,
    rule ∈ finding.path ∨ ∃ start, finding.offer = .rule rule start

end Finding

/-! ## Records -/

namespace Candidates

variable {candidates : Candidates} {finding : Finding} {root rule : RuleId} {path : Path}

/-- Something is offered along `path`. -/
def HasPath (candidates : Candidates) (path : Path) : Prop :=
  (∃ terminal, candidates.hasToken terminal path) ∨ ∃ rule, candidates.hasRule rule path

/-- The rules on all paths have starts, and `root` has one if there are any paths. No other rules
have starts than those on paths and those that are offered. -/
structure Covers (candidates : Candidates) (root : RuleId) : Prop where
  noted : ∀ path, candidates.HasPath path → ∀ rule ∈ root :: path, rule ∈ candidates.starts
  only : ∀ rule ∈ candidates.starts,
    (∃ path, candidates.HasPath path ∧ rule ∈ path) ∨ rule ∈ candidates.rules

theorem hasPath_record (finding : Finding) :
    (candidates.record finding).HasPath path ↔
      candidates.HasPath path ∨ finding.BringsPath path := by
  simp only [HasPath, Finding.BringsPath, hasToken_record, hasRule_record, exists_or]
  exact or_or_or_comm

theorem mem_starts_record (finding : Finding) :
    rule ∈ (candidates.record finding).starts ↔
      rule ∈ candidates.starts ∨ candidates.Lacks finding ∧ rule ∈ finding.active.path := by
  rw [mem_starts_iff, notedFrom_record, ← mem_starts_iff, CallStack.openFrom_zero_iff]

theorem mem_rules_record (finding : Finding) :
    rule ∈ (candidates.record finding).rules ↔
      rule ∈ candidates.rules ∨ ∃ start, finding.offer = .rule rule start := by
  rw [mem_rules_iff, ruleFrom_record, ← mem_rules_iff]
  simp only [Finding.BringsRuleFrom, Nat.zero_le, and_true]

/-- What is new comes along the path of the finding. -/
theorem Lacks.bringsPath (h : candidates.Lacks finding) : finding.BringsPath finding.path := by
  rcases h with ⟨terminal, _, ⟨rfl, hoffer⟩, -⟩ | ⟨rule, _, ⟨rfl, hoffer⟩, -⟩
  · exact Or.inl ⟨terminal, rfl, hoffer⟩
  · exact Or.inr ⟨rule, rfl, hoffer⟩

/-- What is not new is there along the same path. -/
theorem lacks_or_hasPath (h : finding.BringsPath path) :
    candidates.Lacks finding ∨ candidates.HasPath path := by
  rcases h with ⟨terminal, hbrings⟩ | ⟨rule, hbrings⟩
  · by_cases hold : candidates.hasToken terminal path
    · exact Or.inr (Or.inl ⟨terminal, hold⟩)
    · exact Or.inl (Or.inl ⟨terminal, path, hbrings, hold⟩)
  · by_cases hold : candidates.hasRule rule path
    · exact Or.inr (Or.inr ⟨rule, hold⟩)
    · exact Or.inl (Or.inr ⟨rule, path, hbrings, hold⟩)

theorem covers_empty (root : RuleId) : ({} : Candidates).Covers root where
  noted path hpath := by
    rcases hpath with ⟨_, htoken⟩ | ⟨_, hrule⟩
    · exact absurd htoken not_hasToken_empty
    · exact absurd hrule not_hasRule_empty
  only rule hrule := absurd hrule Std.ExtTreeMap.not_mem_empty

theorem Covers.record (h : candidates.Covers root) (hframed : finding.Framed root) :
    (candidates.record finding).Covers root where
  noted path hpath rule hrule := by
    rw [mem_starts_record]
    rcases (hasPath_record finding).mp hpath with hold | hbrings
    · exact Or.inl (h.noted path hold rule hrule)
    · rcases lacks_or_hasPath hbrings with hlacks | hold
      · exact Or.inr ⟨hlacks, hframed.noted rule (hbrings.path_eq ▸ hrule)⟩
      · exact Or.inl (h.noted path hold rule hrule)
  only rule hrule := by
    rcases (mem_starts_record finding).mp hrule with hold | ⟨hlacks, hactive⟩
    · rcases h.only rule hold with ⟨path, hpath, hmem⟩ | hoffered
      · exact Or.inl ⟨path, (hasPath_record finding).mpr (Or.inl hpath), hmem⟩
      · exact Or.inr ((mem_rules_record finding).mpr (Or.inl hoffered))
    · rcases hframed.only rule hactive with hmem | hoffer
      · exact Or.inl ⟨finding.path, (hasPath_record finding).mpr (Or.inr hlacks.bringsPath), hmem⟩
      · exact Or.inr ((mem_rules_record finding).mpr (Or.inr hoffer))

theorem Covers.foldl_record (h : candidates.Covers root) (findings : List Finding)
    (hframed : ∀ finding ∈ findings, finding.Framed root) :
    (findings.foldl Candidates.record candidates).Covers root := by
  induction findings generalizing candidates with
  | nil => exact h
  | cons finding rest ih =>
    obtain ⟨hfinding, hrest⟩ := List.forall_mem_cons.mp hframed
    exact ih (h.record hfinding) hrest

end Candidates

namespace Query

variable {query : Query} {caret : ℕ} {first config config' : Config} {finding : Finding}
  {stack : CallStack} {outermost : Frame} {request : Request} {outcome : Outcome}

/-! ## The outermost call -/

/-- No step closes the outermost call. -/
theorem Leads.getLast?_stack (h : query.Leads caret config config')
    (houtermost : config.stack.getLast? = some outermost) :
    config'.stack.getLast? = some outermost := by
  obtain ⟨move, hmove, rfl⟩ := h
  cases Moves.of_mem_step hmove with
  | pass | advance | skip => exact houtermost
  | enter => rw [Config.after, List.getLast?_cons, houtermost, Option.getD_some]
  | leave _ hstack =>
    rw [hstack, List.getLast?_cons_cons] at houtermost
    rw [Config.after, hstack, List.tail_cons, houtermost]

theorem Reaches.getLast?_stack (h : query.Reaches caret first config)
    (houtermost : first.stack.getLast? = some outermost) :
    config.stack.getLast? = some outermost := by
  induction h with
  | refl => exact houtermost
  | tail _ hleads ih => exact hleads.getLast?_stack ih

theorem framed_finding (houtermost : stack.getLast? = some outermost) (offer : Offer) :
    (query.finding stack offer).Framed outermost.rule := by
  unfold finding enclosing?
  cases hfound : stack.outermost? fun rule => rule ∈ query.options.preferred with
  | none =>
    exact ⟨List.forall_mem_cons.mpr ⟨CallStack.rule_mem_path_of_getLast? houtermost,
      fun _ hrule => hrule⟩, fun _ => Or.inl⟩
  | some found =>
    have hlast := (CallStack.getLast?_of_outermost? hfound).trans houtermost
    obtain ⟨frame, outer, rfl, -⟩ := CallStack.exists_of_outermost?_eq_some hfound
    have hpath : CallStack.path (frame :: outer) = CallStack.path outer ++ [frame.rule] :=
      CallStack.path_append_cons [] outer frame
    -- The preferred rule is offered along the calls around it, and noted together with these.
    change Finding.Framed ⟨.rule frame.rule frame.start, CallStack.path outer, frame :: outer⟩ _
    refine ⟨List.forall_mem_cons.mpr ⟨CallStack.rule_mem_path_of_getLast? hlast, ?_⟩, ?_⟩
    · intro rule hrule
      exact hpath ▸ List.mem_append_left _ hrule
    · intro rule hrule
      rcases List.mem_append.mp (hpath ▸ hrule) with houter | hframe
      · exact Or.inl houter
      · exact Or.inr ⟨frame.start, by rw [List.mem_singleton.mp hframe]⟩

/-- Whatever is found, the calls along its path are noted with it, the outermost call among
them. -/
theorem Reports.framed (h : query.Reports caret config finding)
    (houtermost : config.stack.getLast? = some outermost) : finding.Framed outermost.rule := by
  cases h with
  | terminals | rule => exact framed_finding houtermost _

theorem covers_walk (caret : ℕ) (hindex : first.index ≤ query.tokens.size)
    (hstack : first.stack ≠ []) (houtermost : first.stack.getLast? = some outermost) :
    (query.walk caret first hindex).candidates.Covers outermost.rule := by
  obtain ⟨explored, -, hreach, hcandidates, -⟩ := exists_explored caret hindex hstack
  rw [hcandidates]
  refine (Candidates.covers_empty _).foldl_record _ fun finding hfinding => ?_
  obtain ⟨config, hexplored, hreport⟩ := mem_findings_iff.mp hfinding
  exact (Reports.of_mem_step hreport).framed
    (((hreach config).mp hexplored).getLast?_stack houtermost)

/-- A walk is empty exactly if nothing is offered along any path. -/
theorem isEmpty_walk_iff (hindex : first.index ≤ query.tokens.size) (hstack : first.stack ≠ []) :
    (query.walk caret first hindex).candidates.isEmpty ↔
      ∀ path, ¬ (query.walk caret first hindex).candidates.HasPath path := by
  rw [(grounded_walk hindex hstack).isEmpty_iff]
  constructor
  · rintro ⟨htokens, hrules⟩ path (⟨terminal, htoken⟩ | ⟨rule, hrule⟩)
    · exact htokens terminal path htoken
    · obtain ⟨known, hknown, -⟩ := Candidates.hasRule_iff.mp hrule
      exact hrules rule ⟨known, hknown, Nat.zero_le _⟩
  · intro hnone
    refine ⟨fun terminal path htoken => hnone path (Or.inl ⟨terminal, htoken⟩), ?_⟩
    intro rule hrule
    obtain ⟨finding, hfinds, start, hoffer, -⟩ := (ruleFrom_walk_iff hindex hstack).mp hrule
    exact hnone finding.path (Or.inr ⟨rule, (hasRule_walk_iff hindex hstack).mpr
      ⟨finding, hfinds, rfl, start, hoffer⟩⟩)

/-! ## Answers -/

/-- The rule of the outermost call that a request begins with. A parser that names no calls has
entered the rule of its state. -/
def outermostRule? (query : Query) : Request → Option RuleId
  | .parser start [] _ => (query.network.state? start).map fun state => state.rule
  | .parser _ (outermost :: _) _ => some outermost.rule
  | .replay rule _ _ => some rule

theorem exists_getLast?_of_first? (h : query.first? request = some first) :
    ∃ outermost, first.stack.getLast? = some outermost ∧
      query.outermostRule? request = some outermost.rule := by
  cases request with
  | parser start calls index =>
    obtain ⟨state, hstate, rfl⟩ := Option.map_eq_some_iff.mp h
    cases calls with
    | nil => exact ⟨_, rfl, by rw [outermostRule?, hstate]; rfl⟩
    | cons outermost inner => exact ⟨_, List.getLast?_concat, rfl⟩
  | replay rule start caret =>
    obtain ⟨entry, -, rfl⟩ := Option.map_eq_some_iff.mp h
    exact ⟨_, rfl, rfl⟩

/-- An answer gives starts for all rules on the paths to its terminals and to its rules. A rule
with a start is on such a path or is offered itself. The rule of the outermost call has a start
exactly if anything is offered. -/
theorem answer_starts_cover (hanswer : query.answer request = .ok outcome) :
    (∀ terminal path, outcome.candidates.hasToken terminal path →
        ∀ rule ∈ path, rule ∈ outcome.candidates.starts) ∧
      (∀ offered path, outcome.candidates.hasRule offered path →
        ∀ rule ∈ path, rule ∈ outcome.candidates.starts) ∧
      (∀ rule ∈ outcome.candidates.starts,
        (∃ terminal path, outcome.candidates.hasToken terminal path ∧ rule ∈ path) ∨
        (∃ offered path, outcome.candidates.hasRule offered path ∧ rule ∈ path) ∨
        rule ∈ outcome.candidates.rules) ∧
      ∃ root, query.outermostRule? request = some root ∧
        (root ∈ outcome.candidates.starts ↔ ¬ outcome.candidates.isEmpty) := by
  obtain ⟨first, hindex, hfirst, hstack, -, rfl⟩ := exists_walk_of_answer hanswer
  obtain ⟨outermost, houtermost, hroot⟩ := exists_getLast?_of_first? hfirst
  have hcovers := covers_walk request.caret hindex hstack houtermost
  refine ⟨fun terminal path htoken rule hrule => ?_, fun offered path hoffered rule hrule => ?_,
    fun rule hrule => ?_, outermost.rule, hroot, ?_⟩
  · exact hcovers.noted path (Or.inl ⟨terminal, htoken⟩) rule (List.mem_cons_of_mem _ hrule)
  · exact hcovers.noted path (Or.inr ⟨offered, hoffered⟩) rule (List.mem_cons_of_mem _ hrule)
  · rcases hcovers.only rule hrule with ⟨path, ⟨terminal, htoken⟩ | ⟨other, hother⟩, hmem⟩ | hmem
    · exact Or.inl ⟨terminal, path, htoken, hmem⟩
    · exact Or.inr (Or.inl ⟨other, path, hother, hmem⟩)
    · exact Or.inr (Or.inr hmem)
  · constructor
    · intro hstart hempty
      rcases hcovers.only _ hstart with ⟨path, hpath, -⟩ | hmem
      · exact (isEmpty_walk_iff hindex hstack).mp hempty path hpath
      · exact ((grounded_walk hindex hstack).isEmpty_iff.mp hempty).2 _
          (Candidates.mem_rules_iff.mp hmem)
    · intro hsome
      rw [isEmpty_walk_iff hindex hstack, not_forall_not] at hsome
      obtain ⟨path, hpath⟩ := hsome
      exact hcovers.noted path hpath _ List.mem_cons_self

/-- At the beginning of a phrase its first item is offered, and the preferred pair that it may
begin with instead. The phrase has a start. The pair is offered but not entered, and has none. -/
theorem answer_starts_cover_phrase :
    let query := { phraseQuery ⟨.token ⟨0⟩, ⟨4⟩⟩ ⟨.call ⟨1⟩, ⟨1⟩⟩ with
      options := ({} : Options).preferring [⟨1⟩] }
    ∃ outcome, query.answer (.replay ⟨0⟩ 0 0) = .ok outcome ∧
      query.outermostRule? (.replay ⟨0⟩ 0 0) = some ⟨0⟩ ∧
      outcome.candidates.hasRule ⟨1⟩ [⟨0⟩] ∧ ¬ outcome.candidates.isEmpty ∧
      ⟨0⟩ ∈ outcome.candidates.starts ∧ ⟨1⟩ ∉ outcome.candidates.starts := by
  intro query
  let first : Config := ⟨⟨0⟩, 0, [⟨⟨0⟩, 0, none⟩]⟩
  have hok : query.answer (.replay ⟨0⟩ 0 0) = .ok (query.outcomeAfter 0 first 1) :=
    answer_replay_eq_outcome (by decide) (by decide) (by decide +kernel) rfl (by decide +kernel)
  have hpair : (query.outcomeAfter 0 first 1).candidates.hasRule ⟨1⟩ [⟨0⟩] := by
    decide +kernel
  obtain ⟨-, hrules, -, root, hroot, hstart⟩ := answer_starts_cover hok
  obtain rfl : ⟨0⟩ = root := Option.some.inj hroot
  have hphrase := hrules ⟨1⟩ [⟨0⟩] hpair ⟨0⟩ List.mem_cons_self
  exact ⟨_, hok, hroot, hpair, hstart.mp hphrase, hphrase, by decide +kernel⟩

end Query

end CodeCompletion
