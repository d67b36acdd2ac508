import CodeCompletion.Proofs.Build
import CodeCompletion.Proofs.Requests

/-!
# Which requests are refused

What may be wrong with a request is listed here fault by fault, each for itself and with its
rank. A request is refused exactly if it has a fault, and then the fault of the lowest rank is
reported: first what concerns the tokens, then the preferred rules, then the place that the
request names, and of a parser's calls the outermost first.

## Main definitions

* `Earliest`, `Decides`: an error that no other one precedes, and checks that report it
* `Query.CallFault`: what may be wrong with the calls of a parser
* `Query.Fault`: what may be wrong with a request

## Main results

* `Query.CallFault.unique`, `Query.Fault.unique`: faults of one rank are the same
* `Query.decides_openCalls`, `Query.decides_answer`: what is checked call by call, and of a request
* `Query.answer_eq_error_iff_earliest`: which requests are refused, and for what
-/

set_option autoImplicit false

namespace CodeCompletion

/-! ## First faults -/

/-- The error is that of a fault which no other one precedes. -/
def Earliest (fault : ℕ → RequestError → Prop) (error : RequestError) : Prop :=
  ∃ rank, fault rank error ∧ ∀ other error', fault other error' → rank ≤ other

/-- A check passes if there is no fault, and otherwise reports the first one. -/
def Decides {α : Type} (fault : ℕ → RequestError → Prop) : Except RequestError α → Prop
  | .ok _ => ∀ rank error, ¬ fault rank error
  | .error error => Earliest fault error

namespace Decides

variable {α : Type} {fault fault' : ℕ → RequestError → Prop} {result : Except RequestError α}

/-- The same is decided if all ranks are raised alike. -/
theorem shift (h : Decides fault result) (step : ℕ)
    (hshift : ∀ rank error, fault' rank error ↔ ∃ low, rank = low + step ∧ fault low error) :
    Decides fault' result := by
  cases result with
  | ok value =>
    intro rank error hfault
    obtain ⟨low, -, hlow⟩ := (hshift rank error).mp hfault
    exact h low error hlow
  | error error =>
    obtain ⟨rank, hfault, hfirst⟩ := h
    refine ⟨rank + step, (hshift _ _).mpr ⟨rank, rfl, hfault⟩, fun other error' hother => ?_⟩
    obtain ⟨low, rfl, hlow⟩ := (hshift _ _).mp hother
    exact Nat.add_le_add_right (hfirst low error' hlow) step

theorem exists_error_iff (h : Decides fault result) :
    (∃ error, result = .error error) ↔ ∃ rank error, fault rank error := by
  cases result with
  | ok value =>
    refine iff_of_false (fun ⟨_, herror⟩ => by cases herror) ?_
    rintro ⟨rank, error, hfault⟩
    exact h rank error hfault
  | error error =>
    obtain ⟨rank, hfault, -⟩ := h
    exact iff_of_true ⟨error, rfl⟩ ⟨rank, error, hfault⟩

/-- If faults of one rank are the same, the error is determined by the faults. -/
theorem eq_error_iff (h : Decides fault result)
    (hunique : ∀ rank error error', fault rank error → fault rank error' → error = error')
    (error : RequestError) : result = .error error ↔ Earliest fault error := by
  constructor
  · rintro rfl
    exact h
  · rintro ⟨rank, hfault, hfirst⟩
    cases result with
    | ok value => exact absurd hfault (h rank error)
    | error other =>
      obtain ⟨rank', hfault', hfirst'⟩ := h
      obtain rfl := Nat.le_antisymm (hfirst _ _ hfault') (hfirst' _ _ hfault)
      rw [hunique _ _ _ hfault hfault']

end Decides

namespace RuleId

theorem compare_eq_lt_iff {a b : RuleId} : compare a b = .lt ↔ a.index < b.index := by
  change compare a.raw b.raw = .lt ↔ a.raw.toNat < b.raw.toNat
  rw [Std.compare_eq_lt, UInt32.lt_iff_toNat_lt]

theorem index_injective {a b : RuleId} (h : a.index = b.index) : a = b :=
  RuleId.ext (UInt32.toNat_inj.mp h)

end RuleId

theorem Network.entry?_eq_none_iff {network : Network} {rule : RuleId} :
    network.entry? rule = none ↔ ¬ network.hasRule rule := by
  unfold entry? rule? hasRule
  simp

namespace Query

variable {query : Query} {caller? : Option RuleId} {calls : List Frame} {rank : ℕ}
  {error error' : RequestError} {request : Request} {outcome : Outcome}

/-! ## Faults -/

/-- A preferred rule that is unknown, with the smallest number of these. -/
structure LeastUnknown (query : Query) (rule : RuleId) : Prop where
  preferred : rule ∈ query.options.preferred
  unknown : ¬ query.network.hasRule rule
  least : ∀ other ∈ query.options.preferred, ¬ query.network.hasRule other →
    rule.index ≤ other.index

/-- What is wrong with calls, listed from the outermost inwards, inside a call of `caller?` or
inside none. Every call has two ranks: the rule comes before the state that it returns to. -/
inductive CallFault (query : Query) : Option RuleId → List Frame → ℕ → RequestError → Prop
  /-- The outermost call is of a rule that is not in the network. -/
  | unknownRule {caller? : Option RuleId} {frame : Frame} {rest : List Frame}
      (hunknown : ¬ query.network.hasRule frame.rule) :
      CallFault query caller? (frame :: rest) 0 (.unknownRule frame.rule)
  /-- It is inside another call and does not say where it returns to. -/
  | missingReturn {caller : RuleId} {frame : Frame} {rest : List Frame}
      (hmissing : frame.resume? = none) :
      CallFault query (some caller) (frame :: rest) 1 (.missingReturnState frame.rule)
  /-- It returns to a state that is not in the network. -/
  | unknownReturn {caller : RuleId} {frame : Frame} {rest : List Frame} {resume : StateId}
      (hresume : frame.resume? = some resume) (hunknown : query.network.state? resume = none) :
      CallFault query (some caller) (frame :: rest) 1 (.unknownState resume)
  /-- It returns to a state of another rule than the call around it is of. -/
  | strayReturn {caller : RuleId} {frame : Frame} {rest : List Frame} {resume : StateId}
      {state : State} (hresume : frame.resume? = some resume)
      (hstate : query.network.state? resume = some state) (hstray : state.rule ≠ caller) :
      CallFault query (some caller) (frame :: rest) 1
        (.returnStateOutsideCaller frame.rule resume caller)
  /-- Something is wrong with the calls inside it. -/
  | inner {caller? : Option RuleId} {frame : Frame} {rest : List Frame} {rank : ℕ}
      {error : RequestError} (hinner : CallFault query (some frame.rule) rest rank error) :
      CallFault query caller? (frame :: rest) (rank + 2) error

/-- What is wrong with a request. -/
inductive Fault (query : Query) : Request → ℕ → RequestError → Prop
  /-- The parser has read more tokens than there are. -/
  | indexBeyond {start : StateId} {calls : List Frame} {index : ℕ}
      (hbeyond : query.tokens.size < index) :
      Fault query (.parser start calls index) 0 (.tokenIndexOutOfRange index query.tokens.size)
  /-- A preferred rule is not in the network. -/
  | unknownPreferred {start : StateId} {calls : List Frame} {index : ℕ} {rule : RuleId}
      (hleast : query.LeastUnknown rule) :
      Fault query (.parser start calls index) 1 (.unknownRule rule)
  /-- The parser is in a state that is not in the network. -/
  | unknownStart {start : StateId} {calls : List Frame} {index : ℕ}
      (hunknown : query.network.state? start = none) :
      Fault query (.parser start calls index) 2 (.unknownState start)
  /-- Something is wrong with the parser's calls. -/
  | calls {start : StateId} {calls : List Frame} {index rank : ℕ} {error : RequestError}
      (hcalls : query.CallFault none calls rank error) :
      Fault query (.parser start calls index) (rank + 3) error
  /-- The parser's state is of another rule than its innermost call. -/
  | strayStart {start : StateId} {calls : List Frame} {index : ℕ} {state : State}
      {innermost : Frame} (hstate : query.network.state? start = some state)
      (hinnermost : calls.getLast? = some innermost) (hstray : innermost.rule ≠ state.rule) :
      Fault query (.parser start calls index) (2 * calls.length + 3)
        (.startStateOutsideFrame start state.rule innermost.rule)
  /-- The caret of a replay lies beyond the tokens. -/
  | caretBeyond {rule : RuleId} {start caret : ℕ} (hbeyond : query.tokens.size < caret) :
      Fault query (.replay rule start caret) 0 (.tokenIndexOutOfRange caret query.tokens.size)
  /-- The replay would begin after the caret. -/
  | startAfter {rule : RuleId} {start caret : ℕ} (hafter : caret < start) :
      Fault query (.replay rule start caret) 1 (.startAfterCaret start caret)
  /-- A preferred rule is not in the network. -/
  | unknownPreferredInReplay {rule unknown : RuleId} {start caret : ℕ}
      (hleast : query.LeastUnknown unknown) :
      Fault query (.replay rule start caret) 2 (.unknownRule unknown)
  /-- The rule to be replayed is not in the network. -/
  | unknownRule {rule : RuleId} {start caret : ℕ} (hunknown : ¬ query.network.hasRule rule) :
      Fault query (.replay rule start caret) 3 (.unknownRule rule)

/-! ## Faults of one rank -/

theorem LeastUnknown.unique {rule other : RuleId} (h : query.LeastUnknown rule)
    (h' : query.LeastUnknown other) : rule = other :=
  RuleId.index_injective <| Nat.le_antisymm (h.least other h'.preferred h'.unknown)
    (h'.least rule h.preferred h.unknown)

/-- Every call has two ranks. -/
theorem CallFault.rank_lt (h : query.CallFault caller? calls rank error) :
    rank < 2 * calls.length := by
  induction h with
  | unknownRule _ | missingReturn _ | unknownReturn _ _ | strayReturn _ _ _ =>
    rw [List.length_cons]
    omega
  | inner _ ih =>
    rw [List.length_cons]
    omega

theorem CallFault.unique (h : query.CallFault caller? calls rank error)
    (h' : query.CallFault caller? calls rank error') : error = error' := by
  induction h with
  | unknownRule _ =>
    cases h' with
    | unknownRule _ => rfl
  | missingReturn hmissing =>
    cases h' with
    | missingReturn _ => rfl
    | unknownReturn hresume _ => simp [hmissing] at hresume
    | strayReturn hresume _ _ => simp [hmissing] at hresume
  | unknownReturn hresume hunknown =>
    cases h' with
    | missingReturn hmissing => simp [hmissing] at hresume
    | unknownReturn hresume' _ =>
      obtain rfl := Option.some.inj (hresume.symm.trans hresume')
      rfl
    | strayReturn hresume' hstate _ =>
      obtain rfl := Option.some.inj (hresume.symm.trans hresume')
      simp [hunknown] at hstate
  | strayReturn hresume hstate _ =>
    cases h' with
    | missingReturn hmissing => simp [hmissing] at hresume
    | unknownReturn hresume' hunknown =>
      obtain rfl := Option.some.inj (hresume.symm.trans hresume')
      simp [hunknown] at hstate
    | strayReturn hresume' _ _ =>
      obtain rfl := Option.some.inj (hresume.symm.trans hresume')
      rfl
  | inner _ ih =>
    cases h' with
    | inner hinner => exact ih hinner

theorem Fault.unique (h : query.Fault request rank error)
    (h' : query.Fault request rank error') : error = error' := by
  cases h with
  | indexBeyond _ =>
    cases h' with
    | indexBeyond _ => rfl
  | unknownPreferred hleast =>
    cases h' with
    | unknownPreferred hleast' => rw [hleast.unique hleast']
  | unknownStart _ =>
    cases h' with
    | unknownStart _ => rfl
  | calls hcalls =>
    cases h' with
    | calls hcalls' => exact hcalls.unique hcalls'
    | strayStart => exact absurd hcalls.rank_lt (Nat.lt_irrefl _)
  | strayStart hstate hinnermost _ =>
    cases h' with
    | calls hcalls => exact absurd hcalls.rank_lt (Nat.lt_irrefl _)
    | strayStart hstate' hinnermost' _ =>
      obtain rfl := Option.some.inj (hstate.symm.trans hstate')
      obtain rfl := Option.some.inj (hinnermost.symm.trans hinnermost')
      rfl
  | caretBeyond _ =>
    cases h' with
    | caretBeyond _ => rfl
  | startAfter _ =>
    cases h' with
    | startAfter _ => rfl
  | unknownPreferredInReplay hleast =>
    cases h' with
    | unknownPreferredInReplay hleast' => rw [hleast.unique hleast']
  | unknownRule _ =>
    cases h' with
    | unknownRule _ => rfl

/-! ## The preferred rules -/

theorem checkPreferred_cases (query : Query) :
    (query.checkPreferred = .ok () ∧
      ∀ rule ∈ query.options.preferred, query.network.hasRule rule) ∨
    ∃ rule, query.checkPreferred = .error (.unknownRule rule) ∧ query.LeastUnknown rule := by
  unfold checkPreferred
  cases hfind : query.options.preferred.toList.find? fun rule => !query.network.hasRule rule with
  | none =>
    refine Or.inl ⟨rfl, fun rule hpreferred => ?_⟩
    have hknown := List.find?_eq_none.mp hfind rule (Std.ExtTreeSet.mem_toList.mpr hpreferred)
    simpa using hknown
  | some rule =>
    obtain ⟨hunknown, before, after, hsplit, hbefore⟩ := List.find?_eq_some_iff_append.mp hfind
    refine Or.inr ⟨rule, rfl, ?_, by simpa using hunknown, fun other hother hnot => ?_⟩
    · exact Std.ExtTreeSet.mem_toList.mp (hsplit ▸ by simp)
    · -- What stands before is known, and what stands after is larger.
      have hordered : query.options.preferred.toList.Pairwise fun a b => compare a b = .lt :=
        Std.ExtTreeSet.ordered_toList
      have hmem := Std.ExtTreeSet.mem_toList.mpr hother
      rw [hsplit] at hordered hmem
      rcases List.mem_append.mp hmem with hmem | hmem
      · exact absurd (by simpa using hbefore other hmem) hnot
      · rcases List.mem_cons.mp hmem with rfl | hmem
        · exact Nat.le_refl _
        · have hlater := (List.pairwise_cons.mp (List.pairwise_append.mp hordered).2.1).1 other hmem
          exact Nat.le_of_lt (RuleId.compare_eq_lt_iff.mp hlater)

theorem exists_leastUnknown_iff (query : Query) : (∃ rule, query.LeastUnknown rule) ↔
    ∃ rule ∈ query.options.preferred, ¬ query.network.hasRule rule := by
  constructor
  · rintro ⟨rule, hleast⟩
    exact ⟨rule, hleast.preferred, hleast.unknown⟩
  · rintro ⟨rule, hpreferred, hunknown⟩
    rcases query.checkPreferred_cases with ⟨-, hknown⟩ | ⟨least, -, hleast⟩
    · exact absurd (hknown rule hpreferred) hunknown
    · exact ⟨least, hleast⟩

/-! ## The calls of a parser -/

theorem callFault_one_iff {caller : RuleId} {frame : Frame} {rest : List Frame} :
    query.CallFault (some caller) (frame :: rest) 1 error ↔
      query.checkReturn caller frame = .error error := by
  unfold checkReturn
  constructor
  · intro h
    cases h with
    | missingReturn hmissing => rw [hmissing]
    | unknownReturn hresume hunknown => simp only [hresume, hunknown]
    | strayReturn hresume hstate hstray => simp only [hresume, hstate, if_neg hstray]
  · intro h
    split at h
    · next hmissing =>
      cases h
      exact .missingReturn hmissing
    · next resume hresume =>
      split at h
      · next hunknown =>
        cases h
        exact .unknownReturn hresume hunknown
      · next state hstate =>
        split at h
        · cases h
        · next hstray =>
          cases h
          exact .strayReturn hresume hstate hstray

/-- If nothing is wrong with the outermost call, all faults are those of the calls inside it. -/
theorem callFault_cons_iff {frame : Frame} {rest : List Frame}
    (hrule : query.network.hasRule frame.rule)
    (hreturn : ∀ caller, caller? = some caller → query.checkReturn caller frame = .ok ())
    (rank : ℕ) (error : RequestError) :
    query.CallFault caller? (frame :: rest) rank error ↔
      ∃ low, rank = low + 2 ∧ query.CallFault (some frame.rule) rest low error := by
  constructor
  · intro h
    match rank with
    | 0 =>
      cases h with
      | unknownRule hunknown => exact absurd hrule hunknown
    | 1 =>
      cases caller? with
      | none => cases h
      | some caller =>
        have hcheck := hreturn caller rfl
        rw [callFault_one_iff.mp h] at hcheck
        cases hcheck
    | low + 2 =>
      cases h with
      | inner hinner => exact ⟨low, rfl, hinner⟩
  · rintro ⟨low, rfl, hinner⟩
    exact .inner hinner

/-- Calls are put on a stack if they have no fault, and otherwise the first one is reported. -/
theorem decides_openCalls (query : Query) (stack : CallStack) (calls : List Frame) :
    Decides (query.CallFault (stack.head?.map Frame.rule) calls) (query.openCalls stack calls) := by
  induction calls generalizing stack with
  | nil =>
    intro rank error hfault
    generalize stack.head?.map Frame.rule = caller? at hfault
    cases hfault
  | cons frame rest ih =>
    unfold openCalls
    by_cases hrule : query.network.hasRule frame.rule
    · rw [if_pos hrule]
      -- A call that fits is put on the stack, and the calls inside it decide.
      cases stack with
      | nil => exact (ih _).shift 2 (callFault_cons_iff hrule (by simp))
      | cons caller outer =>
        dsimp only
        cases hcheck : query.checkReturn caller.rule frame with
        | ok _ => exact (ih _).shift 2 (callFault_cons_iff hrule (by simpa using hcheck))
        | error error =>
          refine ⟨1, callFault_one_iff.mpr hcheck, fun other error' hother => ?_⟩
          refine Nat.one_le_iff_ne_zero.mpr ?_
          rintro rfl
          cases hother with
          | unknownRule hunknown => exact hunknown hrule
    · rw [if_neg hrule]
      exact ⟨0, .unknownRule hrule, fun _ _ _ => Nat.zero_le _⟩

/-- The innermost call on the stack is of the rule of the last call given. -/
theorem getLast?_of_openCalls {stack : CallStack} (h : query.openCalls [] calls = .ok stack) :
    calls.getLast?.map Frame.rule = stack.head?.map Frame.rule := by
  cases calls with
  | nil =>
    obtain rfl := Except.ok.inj h
    rfl
  | cons outermost inner =>
    unfold openCalls at h
    split at h
    · rw [openCalls_eq_of_ne_nil h]
      rcases inner.eq_nil_or_concat' with rfl | ⟨between, innermost, rfl⟩
      · rfl
      · rw [← List.cons_append, List.getLast?_concat, List.reverse_append]
        rfl
    · cases h

/-! ## Requests -/

section Parser

variable {start : StateId} {index : ℕ} {state : State}
  (hwithin : ¬ query.tokens.size < index)
  (hknown : ∀ rule ∈ query.options.preferred, query.network.hasRule rule)
  (hstate : query.network.state? start = some state)
include hwithin hknown hstate

/-- What else may be wrong concerns the calls. -/
theorem Fault.calls_or_strayStart (h : query.Fault (.parser start calls index) rank error) :
    (∃ low, rank = low + 3 ∧ query.CallFault none calls low error) ∨
      rank = 2 * calls.length + 3 ∧ ∃ innermost, calls.getLast? = some innermost ∧
        innermost.rule ≠ state.rule := by
  cases h with
  | indexBeyond hbeyond => exact absurd hbeyond hwithin
  | unknownPreferred hleast => exact absurd (hknown _ hleast.preferred) hleast.unknown
  | unknownStart hunknown => simp [hunknown] at hstate
  | calls hcalls => exact Or.inl ⟨_, rfl, hcalls⟩
  | strayStart hstate' hinnermost hstray =>
    obtain rfl := Option.some.inj (hstate.symm.trans hstate')
    exact Or.inr ⟨rfl, _, hinnermost, hstray⟩

theorem decides_parserStack {α : Type} (f : CallStack → α) :
    Decides (query.Fault (.parser start calls index))
      (query.parserStack start state.rule calls >>= fun stack => .ok (f stack)) := by
  have hcalls := query.decides_openCalls [] calls
  unfold parserStack
  cases hopen : query.openCalls [] calls with
  | error error =>
    rw [hopen] at hcalls
    obtain ⟨rank, hfault, hfirst⟩ := hcalls
    refine ⟨rank + 3, .calls hfault, fun other error' hother => ?_⟩
    rcases hother.calls_or_strayStart hwithin hknown hstate with ⟨low, rfl, hlow⟩ | ⟨rfl, -⟩
    · exact Nat.add_le_add_right (hfirst low error' hlow) 3
    · have hlt := hfault.rank_lt
      omega
  | ok stack =>
    rw [hopen] at hcalls
    have hlast := getLast?_of_openCalls hopen
    cases stack with
    | nil =>
      intro rank error hfault
      rcases hfault.calls_or_strayStart hwithin hknown hstate with
        ⟨low, -, hlow⟩ | ⟨-, innermost, hinnermost, -⟩
      · exact hcalls low error hlow
      · simp [hinnermost] at hlast
    | cons innermost outer =>
      obtain ⟨frame, hframe, hrule⟩ := Option.map_eq_some_iff.mp hlast
      dsimp only
      by_cases hsame : innermost.rule = state.rule
      · rw [if_pos hsame]
        intro rank error hfault
        rcases hfault.calls_or_strayStart hwithin hknown hstate with
          ⟨low, -, hlow⟩ | ⟨-, other, hother, hstray⟩
        · exact hcalls low error hlow
        · obtain rfl := Option.some.inj (hframe.symm.trans hother)
          exact hstray (hrule.trans hsame)
      · rw [if_neg hsame]
        refine ⟨2 * calls.length + 3, ?_, fun other error hother => ?_⟩
        · rw [← hrule] at hsame ⊢
          exact .strayStart hstate hframe hsame
        · rcases hother.calls_or_strayStart hwithin hknown hstate with ⟨low, -, hlow⟩ | ⟨rfl, -⟩
          · exact absurd hlow (hcalls low error)
          · exact Nat.le_refl _

end Parser

theorem decides_collect (query : Query) (start : StateId) (calls : List Frame) (index : ℕ) :
    Decides (query.Fault (.parser start calls index)) (query.collect start calls index) := by
  unfold collect
  by_cases hindex : index ≤ query.tokens.size
  · rw [dif_pos hindex]
    have hwithin := Nat.not_lt.mpr hindex
    rcases query.checkPreferred_cases with ⟨hcheck, hknown⟩ | ⟨rule, hcheck, hleast⟩
    · rw [hcheck]
      cases hstate : query.network.state? start with
      | none =>
        refine ⟨2, .unknownStart hstate, fun other error hother => ?_⟩
        cases hother with
        | indexBeyond hbeyond => exact absurd hbeyond hwithin
        | unknownPreferred hleast => exact absurd (hknown _ hleast.preferred) hleast.unknown
        | unknownStart _ | calls _ | strayStart _ _ _ => omega
      | some state =>
        exact decides_parserStack hwithin hknown hstate _
    · rw [hcheck]
      refine ⟨1, .unknownPreferred hleast, fun other error hother => ?_⟩
      cases hother with
      | indexBeyond hbeyond => exact absurd hbeyond hwithin
      | unknownPreferred _ | unknownStart _ | calls _ | strayStart _ _ _ => omega
  · rw [dif_neg hindex]
    exact ⟨0, .indexBeyond (Nat.not_le.mp hindex), fun _ _ _ => Nat.zero_le _⟩

theorem decides_collectFromRule (query : Query) (rule : RuleId) (start caret : ℕ) :
    Decides (query.Fault (.replay rule start caret)) (query.collectFromRule rule start caret) := by
  unfold collectFromRule
  by_cases hcaret : caret ≤ query.tokens.size
  · rw [dif_pos hcaret]
    have hwithin := Nat.not_lt.mpr hcaret
    by_cases hstart : start ≤ caret
    · rw [dif_pos hstart]
      have hbefore := Nat.not_lt.mpr hstart
      rcases query.checkPreferred_cases with ⟨hcheck, hknown⟩ | ⟨unknown, hcheck, hleast⟩
      · rw [hcheck]
        cases hentry : query.network.entry? rule with
        | none =>
          have hunknown := Network.entry?_eq_none_iff.mp hentry
          refine ⟨3, .unknownRule hunknown, fun other error hother => ?_⟩
          cases hother with
          | caretBeyond hbeyond => exact absurd hbeyond hwithin
          | startAfter hafter => exact absurd hafter hbefore
          | unknownPreferredInReplay hleast =>
            exact absurd (hknown _ hleast.preferred) hleast.unknown
          | unknownRule _ => exact Nat.le_refl _
        | some entry =>
          intro rank error hfault
          cases hfault with
          | caretBeyond hbeyond => exact hwithin hbeyond
          | startAfter hafter => exact hbefore hafter
          | unknownPreferredInReplay hleast => exact hleast.unknown (hknown _ hleast.preferred)
          | unknownRule hunknown => simp [Network.entry?_eq_none_iff.mpr hunknown] at hentry
      · rw [hcheck]
        refine ⟨2, .unknownPreferredInReplay hleast, fun other error hother => ?_⟩
        cases hother with
        | caretBeyond hbeyond => exact absurd hbeyond hwithin
        | startAfter hafter => exact absurd hafter hbefore
        | unknownPreferredInReplay _ | unknownRule _ => omega
    · rw [dif_neg hstart]
      refine ⟨1, .startAfter (Nat.not_le.mp hstart), fun other error hother => ?_⟩
      cases hother with
      | caretBeyond hbeyond => exact absurd hbeyond hwithin
      | startAfter _ | unknownPreferredInReplay _ | unknownRule _ => omega
  · rw [dif_neg hcaret]
    exact ⟨0, .caretBeyond (Nat.not_le.mp hcaret), fun _ _ _ => Nat.zero_le _⟩

theorem decides_answer (query : Query) (request : Request) :
    Decides (query.Fault request) (query.answer request) := by
  cases request with
  | parser start calls index => exact query.decides_collect start calls index
  | replay rule start caret => exact query.decides_collectFromRule rule start caret

/-- A request is refused exactly if something is wrong with it, and the error is that of the fault
which comes first. One of the preferred rules is at fault as soon as any of them is unknown. Where
the outermost call of a parser returns to makes no difference. -/
theorem answer_eq_error_iff_earliest (query : Query) (request : Request) :
    ((∃ error, query.answer request = .error error) ↔
      ∃ rank error, query.Fault request rank error) ∧
    (∀ error, query.answer request = .error error ↔ Earliest (query.Fault request) error) ∧
    ((∃ rule, query.LeastUnknown rule) ↔
      ∃ rule ∈ query.options.preferred, ¬ query.network.hasRule rule) ∧
    ∀ start outermost inner index resume?,
      query.answer (.parser start ({ outermost with resume? } :: inner) index) =
        query.answer (.parser start (outermost :: inner) index) := by
  have hdecides := query.decides_answer request
  refine ⟨hdecides.exists_error_iff, hdecides.eq_error_iff fun _ _ _ => Fault.unique,
    query.exists_leastUnknown_iff, ?_⟩
  -- The outermost call loses its return as it is put on the empty stack, and nothing reads it
  -- before.
  intro start outermost inner index resume?
  rfl

-- The outermost call may return anywhere. Of the two others the outer one is reported, and its
-- rule before its return.
example : (itemQuery {}).collect ⟨0⟩ [⟨⟨0⟩, 0, some ⟨9⟩⟩, ⟨⟨7⟩, 0, none⟩, ⟨⟨8⟩, 0, none⟩] 0 =
    .error (.unknownRule ⟨7⟩) := by
  decide +kernel

end Query

end CodeCompletion
