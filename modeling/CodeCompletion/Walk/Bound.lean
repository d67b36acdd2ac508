import CodeCompletion.FinitelyMany
import CodeCompletion.Walk.Progress

/-!
# Why walks end

Between two calls of a rule from the same token on, a walk has to consume input before
the caret. The stacks that a walk can build are therefore limited: a rule is open from a
token on no more often than in the stack that the walk began with, or one more time than
there are tokens from there to the caret. With finitely many rules and tokens there are
finitely many such stacks, hence finitely many configurations.

## Main definitions

* `Admissible`: the stacks that a walk can build
* `Query.Fits`: the moves that keep a stack admissible and the index within the tokens

## Main results

* `finitelyMany_admissible`: there are finitely many admissible stacks
* `Query.fits_of_mem_step`: a step only makes moves that fit
* `exists_visit_bound`: a walk visits a bounded number of configurations
-/

set_option autoImplicit false

namespace CodeCompletion

/-- The stacks that a walk to `caret` over `size` tokens can build from `seed`. -/
structure Admissible (size caret : Nat) (seed stack : CallStack) : Prop where
  start_le : ∀ frame ∈ stack, frame ∈ seed ∨ frame.start ≤ size
  openCount_le : ∀ rule start,
    stack.openCount rule start ≤ max (seed.openCount rule start) (caret - start + 1)

namespace Admissible

variable {size caret : Nat} {seed stack : CallStack}

/-- What is left of the first stack after returns is admissible. -/
theorem of_suffix (h : stack <:+ seed) : Admissible size caret seed stack where
  start_le _ hf := .inl (h.subset hf)
  openCount_le _ _ := Nat.le_trans (List.Sublist.countP_le h.sublist) (Nat.le_max_left _ _)

/-- A call that the tokens before the caret can feed keeps a stack admissible. -/
theorem cons (h : Admissible size caret seed stack) (frame : Frame)
    (hstart : frame.start ≤ size)
    (hcount : stack.openCount frame.rule frame.start ≤ caret - frame.start) :
    Admissible size caret seed (frame :: stack) where
  start_le other hother := by
    rcases List.mem_cons.1 hother with rfl | hother
    · exact .inr hstart
    · exact h.start_le other hother
  openCount_le rule start := by
    have hold := h.openCount_le rule start
    simp only [CallStack.openCount, List.countP_cons] at hold hcount ⊢
    split
    -- Only the count of the new frame's own rule and token rises.
    · next heq =>
      obtain ⟨rfl, rfl⟩ := of_decide_eq_true heq
      exact Nat.le_trans (Nat.succ_le_succ hcount) (Nat.le_max_right _ _)
    · simpa using hold

end Admissible

/-- The rule and the first token of a call. -/
def Frame.key (frame : Frame) : RuleId × Nat := (frame.rule, frame.start)

theorem CallStack.openCount_eq (stack : CallStack) (rule : RuleId) (start : Nat) :
    stack.openCount rule start = stack.countP fun frame => frame.key = (rule, start) := by
  simp only [openCount, Frame.key, Prod.mk.injEq]

theorem finitelyMany_stateId : FinitelyMany fun _ : StateId => True :=
  (FinitelyMany.word.map StateId.mk).mono fun state _ => ⟨state.raw, trivial, rfl⟩

theorem finitelyMany_ruleId : FinitelyMany fun _ : RuleId => True :=
  (FinitelyMany.word.map RuleId.mk).mono fun rule _ => ⟨rule.raw, trivial, rfl⟩

/-- There are finitely many calls that start within the tokens. -/
theorem finitelyMany_frame (size : Nat) : FinitelyMany fun frame : Frame => frame.start ≤ size := by
  refine ((finitelyMany_ruleId.prod (.prod (.nat_le size) (finitelyMany_stateId.option))).map
    fun c => Frame.mk c.1 c.2.1 c.2.2).mono fun frame h => ?_
  exact ⟨(frame.rule, frame.start, frame.resume?), ⟨trivial, h, fun _ _ => trivial⟩, rfl⟩

/-- There are finitely many admissible stacks. -/
theorem finitelyMany_admissible (size caret : Nat) (seed : CallStack) :
    FinitelyMany (Admissible size caret seed) := by
  have hframe := (FinitelyMany.mem seed).or (finitelyMany_frame size)
  obtain ⟨keys, hkeys⟩ := hframe.map Frame.key
  -- Finitely many rules and tokens, each open a bounded number of times: stacks are short.
  refine (hframe.list (keys.length * max seed.length (caret + 1))).mono fun stack h =>
    ⟨?_, h.start_le⟩
  refine length_le_of_countP_le Frame.key keys _ (fun frame hf => ?_) fun (rule, start) => ?_
  · exact hkeys _ ⟨frame, h.start_le frame hf, rfl⟩
  · have hcount := h.openCount_le rule start
    have hseed : seed.openCount rule start ≤ seed.length := List.countP_le_length
    rw [CallStack.openCount_eq stack] at hcount
    omega

namespace Query

/-- The moves that keep the stack admissible and the index within the tokens. -/
def Fits (query : Query) (caret : Nat) (config : Config) : Move → Prop
  | .goto _ | .leave _ => True
  | .advance _ => config.index < query.tokens.size
  | .enter _ frame => frame.start = config.index ∧
    config.stack.openCount frame.rule frame.start ≤ caret - frame.start

variable {query : Query} {caret : Nat} {config : Config} {move : Move}

theorem fits_of_mem_call {rule : RuleId} {target : StateId}
    (h : .move move ∈ query.call caret config rule target) : query.Fits caret config move := by
  unfold call at h
  split at h
  · simp at h
  · dsimp only at h
    split at h
    · simp at h
    · split at h
      · simp at h
      · split at h
        · split at h
          · simp only [List.mem_cons, reduceCtorEq, Effect.move.injEq, List.not_mem_nil,
              or_false, false_or] at h
            subst h
            trivial
          · simp at h
        · next hcount =>
          simp only [List.mem_cons, Effect.move.injEq, List.not_mem_nil, or_false] at h
          subst h
          exact ⟨rfl, Nat.le_of_not_lt hcount⟩

theorem fits_of_mem_consume {label : Label} {target : StateId}
    (h : .move move ∈ query.consume caret config label target) :
    query.Fits caret config move := by
  unfold consume at h
  split at h
  · next token htoken =>
    have hlt : config.index < query.tokens.size := by
      obtain ⟨hget, -⟩ := Option.filter_eq_some_iff.1 htoken
      exact (Array.getElem?_eq_some_iff.1 hget).1
    split at h
    · simp only [List.mem_cons, Effect.move.injEq, List.not_mem_nil, or_false] at h
      subst h
      exact hlt
    · split at h
      · simp only [List.mem_cons, reduceCtorEq, Effect.move.injEq, List.not_mem_nil,
          or_false, false_or] at h
        subst h
        exact hlt
      · simp at h
  · split at h <;> simp at h

theorem fits_of_mem_follow {edge : Edge} (h : .move move ∈ query.follow caret config edge) :
    query.Fits caret config move := by
  unfold follow at h
  split at h
  · simp only [List.mem_cons, Effect.move.injEq, List.not_mem_nil, or_false] at h
    subst h
    trivial
  · split at h
    · simp only [List.mem_cons, Effect.move.injEq, List.not_mem_nil, or_false] at h
      subst h
      trivial
    · simp at h
  · exact fits_of_mem_call h
  · exact fits_of_mem_consume h

theorem fits_of_mem_finish {stack : CallStack} (h : .move move ∈ finish stack) :
    query.Fits caret config move := by
  unfold finish at h
  split at h
  · simp only [List.mem_cons, Effect.move.injEq, List.not_mem_nil, or_false] at h
    subst h
    trivial
  · simp at h
  · simp at h

/-- A step only makes moves that fit. -/
theorem fits_of_mem_step (h : .move move ∈ query.step caret config) :
    query.Fits caret config move := by
  unfold step at h
  split at h
  · simp at h
  · split at h
    · exact fits_of_mem_finish h
    · obtain ⟨edge, -, hedge⟩ := List.mem_flatMap.1 h
      exact fits_of_mem_follow hedge

end Query

namespace StackTable

/-- Every stack in the table is admissible. -/
def AllAdmissible (table : StackTable) (size caret : Nat) (seed : CallStack) : Prop :=
  ∀ (number : Nat) (entry : StackEntry), table.entries[number]? = some entry →
    Admissible size caret seed entry.stack

theorem Valid.nodup_stacks {table : StackTable} (h : table.Valid) :
    (table.entries.toList.map StackEntry.stack).Nodup := by
  refine List.pairwise_map.2 (List.pairwise_iff_getElem.2 fun i j hi hj hij heq => ?_)
  simp only [Array.length_toList] at hi hj
  have := h.stack_injective (Array.getElem?_eq_getElem hi) (Array.getElem?_eq_getElem hj)
    (by simpa using heq)
  omega

end StackTable

/-- A walk visits a bounded number of configurations. -/
theorem exists_visit_bound (size caret : Nat) (seed : CallStack) :
    ∃ bound, ∀ (table : StackTable) (visits : List Visit), table.Valid →
      table.AllAdmissible size caret seed → visits.Nodup →
      (∀ visit ∈ visits, visit.stack < table.size ∧ visit.index ≤ size) →
      visits.length ≤ bound := by
  obtain ⟨count, hcount⟩ := (finitelyMany_admissible size caret seed).length_le
  have hvisits : FinitelyMany fun visit : Visit => visit.stack ≤ count ∧ visit.index ≤ size := by
    refine ((finitelyMany_stateId.prod (.prod (.nat_le size) (.nat_le count))).map
      fun c => Visit.mk c.1 c.2.1 c.2.2).mono fun visit h => ?_
    exact ⟨(visit.state, visit.index, visit.stack), ⟨trivial, h.2, h.1⟩, rfl⟩
  obtain ⟨bound, hbound⟩ := hvisits.length_le
  refine ⟨bound, fun table visits hvalid hadm hnodup hall => ?_⟩
  refine hbound visits hnodup fun visit hv => ⟨?_, (hall visit hv).2⟩
  -- Different numbers denote different stacks, so the table has no more than there are.
  have hsize : table.size ≤ count := by
    have := hcount _ hvalid.nodup_stacks fun stack hs => by
      obtain ⟨entry, he, rfl⟩ := List.mem_map.1 hs
      obtain ⟨number, hn⟩ := List.mem_iff_getElem?.1 he
      exact hadm number entry (by simpa using hn)
    simpa [StackTable.size] using this
  have := (hall visit hv).1
  omega

end CodeCompletion
