import CodeCompletion.Proofs.Build

/-!
# Nullable rules are the silent ones

The marks that decide which rules are nullable are compared with silent passes: ways to
finish a rule along epsilon edges, guards of any kind, and calls that are themselves
passed in silence. Every mark stands for such a way, and once a sweep adds no mark, no
way is missed.

## Main definitions

* `Network.SilentFinish`: the rule of a state can be finished from it without a token
* `Network.SoundMarks`, `Network.ClosedMarks`: marks that stand for silent passes, and marks
  to which none can be added

## Main results

* `Network.isMarked_silentStates_iff`: the marks are right when no sweep adds any
* `Network.isNullable_iff`: a rule of a built network is nullable exactly if its entry can
  be finished in silence
-/

set_option autoImplicit false

namespace CodeCompletion

/-- The label takes no token and calls no rule. -/
def Label.IsSilent : Label → Prop
  | epsilon | guard _ => True
  | token _ | oneOf _ | noneOf _ | any | call _ => False

/-- What is passed by a walk is passed in silence. -/
theorem Query.Passes.isSilent {query : Query} {label : Label} (h : query.Passes label) :
    label.IsSilent := by
  cases label with
  | epsilon | guard _ => trivial
  | token _ | oneOf _ | noneOf _ | any | call _ => exact h

/-! ## Marks -/

/-- Setting one mark leaves the marks as they are, or one fewer place is without a mark. -/
theorem setMark_eq_or_count_lt (position : ℕ) (marks : Array Bool) :
    marks.setIfInBounds position true = marks ∨
      (marks.setIfInBounds position true).count false < marks.count false := by
  by_cases hsize : position < marks.size
  · cases hmark : marks[position] with
    | true =>
      -- The mark is there already.
      left
      rw [Array.setIfInBounds_def, dif_pos hsize, ← hmark, Array.set_getElem_self]
    | false =>
      -- A new mark: one place fewer is without.
      right
      have hpos : 0 < marks.count false :=
        Array.count_pos_iff.mpr (hmark ▸ Array.getElem_mem hsize)
      rw [Array.setIfInBounds_def, dif_pos hsize, Array.count_set, hmark,
        if_pos (beq_self_eq_true false)]
      exact Nat.sub_lt hpos Nat.one_pos
  · left
    exact Array.setIfInBounds_eq_of_size_le (Nat.not_lt.mp hsize)

/-- If at every position marks stay as they are or fewer places are without, the same holds of
all positions together, and marks that stay as they are do so at each of them. -/
theorem foldr_mark_eq_or_count_lt {mark : ℕ → Array Bool → Array Bool}
    (hmark : ∀ position marks, mark position marks = marks ∨
      (mark position marks).count false < marks.count false)
    (positions : List ℕ) (marks : Array Bool) :
    (positions.foldr mark marks = marks ∧ ∀ position ∈ positions, mark position marks = marks) ∨
      (positions.foldr mark marks).count false < marks.count false := by
  induction positions with
  | nil => exact Or.inl ⟨rfl, by simp⟩
  | cons position rest ih =>
    rw [List.foldr_cons]
    -- Once the count has fallen it does not rise again.
    rcases ih with ⟨hrest, hfixed⟩ | hlt
    · rw [hrest]
      refine (hmark position marks).imp_left fun hhead => ⟨hhead, ?_⟩
      intro other hother
      rcases List.mem_cons.mp hother with rfl | hother
      · exact hhead
      · exact hfixed other hother
    · right
      rcases hmark position (rest.foldr mark marks) with heq | hless
      · rwa [heq]
      · exact Nat.lt_trans hless hlt

namespace Network

variable {network : Network} {marks : Array Bool} {state : StateId}

/-! ## Silent passes -/

/-- The rule of a state can be finished from it without a token, if every guard is open. -/
inductive SilentFinish (network : Network) : StateId → Prop
  | stop {state : StateId} (hstop : network.IsStop state) : SilentFinish network state
  | pass {state target : StateId} {label : Label} (hedge : network.HasEdge state label target)
      (hsilent : label.IsSilent) (htarget : SilentFinish network target) :
      SilentFinish network state
  | call {state target entry : StateId} {rule : RuleId}
      (hedge : network.HasEdge state (.call rule) target)
      (hentry : network.entry? rule = some entry) (hcalled : SilentFinish network entry)
      (htarget : SilentFinish network target) : SilentFinish network state

/-- Every mark stands for a silent pass. -/
def SoundMarks (network : Network) (marks : Array Bool) : Prop :=
  ∀ state, isMarked marks state → network.SilentFinish state

/-- No state without a mark deserves one. -/
def ClosedMarks (network : Network) (marks : Array Bool) : Prop :=
  ∀ id state, network.state? id = some state →
    network.finishesSilently marks state → isMarked marks id

theorem isSilent_iff {label : Label} : network.isSilent marks label ↔
    label.IsSilent ∨ ∃ rule entry, label = .call rule ∧ network.entry? rule = some entry ∧
      isMarked marks entry := by
  cases label with
  | call rule =>
    cases hrule : network.rules[rule.index]? with
    | none => simp [Blueprint.isSilent, Label.IsSilent, entry?, rule?, hrule]
    | some called => simp [Blueprint.isSilent, Label.IsSilent, entry?, rule?, hrule]
  | _ => simp [Blueprint.isSilent, Label.IsSilent]

theorem SoundMarks.silentFinish (h : network.SoundMarks marks) {known : State}
    (hstate : network.state? state = some known)
    (hfinishes : network.finishesSilently marks known) : network.SilentFinish state := by
  rw [Blueprint.finishesSilently, Bool.or_eq_true, List.any_eq_true] at hfinishes
  rcases hfinishes with hstop | ⟨⟨label, target⟩, hmem, hedge⟩
  · exact .stop ⟨known, hstate, hstop⟩
  · rw [Bool.and_eq_true, isSilent_iff] at hedge
    have htarget := h target hedge.1
    rcases hedge.2 with hsilent | ⟨rule, entry, rfl, hentry, hmark⟩
    · exact .pass ⟨known, hstate, hmem⟩ hsilent htarget
    · exact .call ⟨known, hstate, hmem⟩ hentry (h entry hmark) htarget

/-- Closed marks miss no silent pass. -/
theorem ClosedMarks.isMarked (h : network.ClosedMarks marks)
    (hfinish : network.SilentFinish state) : isMarked marks state := by
  have hedges : ∀ {source label target}, network.HasEdge source label target →
      CodeCompletion.isMarked marks target → network.isSilent marks label →
      CodeCompletion.isMarked marks source := by
    rintro source label target ⟨known, hstate, hmem⟩ htarget hsilent
    refine h source known hstate ?_
    rw [Blueprint.finishesSilently, Bool.or_eq_true, List.any_eq_true]
    exact Or.inr ⟨_, hmem, by simp [htarget, hsilent]⟩
  -- Along the pass, each state is marked because its target is.
  induction hfinish with
  | stop hstop =>
    obtain ⟨known, hstate, hstop⟩ := hstop
    exact h _ known hstate (by simp [Blueprint.finishesSilently, hstop])
  | pass hedge hsilent _ ih => exact hedges hedge ih (isSilent_iff.mpr (Or.inl hsilent))
  | call hedge hentry _ _ ihcalled ih =>
    exact hedges hedge ih (isSilent_iff.mpr (Or.inr ⟨_, _, rfl, hentry, ihcalled⟩))

/-! ## Sweeps -/

theorem size_markAt (position : ℕ) (marks : Array Bool) :
    (network.markAt position marks).size = marks.size := by
  unfold Blueprint.markAt
  split <;> simp

theorem SoundMarks.markAt (h : network.SoundMarks marks) (position : ℕ) :
    network.SoundMarks (network.markAt position marks) := by
  unfold Blueprint.markAt
  split
  · next hdeserved =>
    intro state hmark
    by_cases hsame : state.index = position
    · subst hsame
      obtain ⟨known, hstate, hfinishes⟩ := (Option.any_eq_true _ _).mp hdeserved
      exact h.silentFinish hstate hfinishes
    · refine h state ?_
      rwa [isMarked, Array.getElem?_setIfInBounds_ne (Ne.symm hsame)] at hmark
  · exact h

theorem markAt_eq_or_count_lt (network : Network) (position : ℕ) (marks : Array Bool) :
    network.markAt position marks = marks ∨
      (network.markAt position marks).count false < marks.count false := by
  unfold Blueprint.markAt
  split
  · exact setMark_eq_or_count_lt position marks
  · exact Or.inl rfl

theorem sweep_induction {P : Array Bool → Prop} (hstart : P marks)
    (hmark : ∀ position marks, P marks → P (network.markAt position marks)) :
    P (network.sweep marks) := by
  unfold Blueprint.sweep
  induction List.range network.states.size with
  | nil => exact hstart
  | cons position rest ih => exact hmark position _ ih

theorem closedMarks_of_fixed (hsize : marks.size = network.states.size)
    (hfixed : ∀ position ∈ List.range network.states.size,
      network.markAt position marks = marks) : network.ClosedMarks marks := by
  intro id state hstate hfinishes
  have hlt : id.index < network.states.size := (Array.getElem?_eq_some_iff.mp hstate).1
  have hmarked := hfixed id.index (List.mem_range.mpr hlt)
  have hdeserved : network.states[id.index]?.any (network.finishesSilently marks) := by
    rw [show network.states[id.index]? = some state from hstate]
    exact hfinishes
  rw [Blueprint.markAt, if_pos hdeserved] at hmarked
  rw [isMarked, ← hmarked, Array.getElem?_setIfInBounds_self_of_lt (hsize ▸ hlt)]
  rfl

/-- Sweeping until nothing changes ends with sound and closed marks. -/
theorem saturate_spec (h : network.SoundMarks marks) (hsize : marks.size = network.states.size) :
    network.SoundMarks (network.saturate marks) ∧
      network.ClosedMarks (network.saturate marks) := by
  have hsound : ∀ marks, network.SoundMarks marks → network.SoundMarks (network.sweep marks) :=
    fun _ h => sweep_induction h fun position _ h => h.markAt position
  have hsizes : ∀ marks : Array Bool, marks.size = network.states.size →
      (network.sweep marks).size = network.states.size :=
    fun _ h => sweep_induction (P := fun marks => marks.size = network.states.size) h
      fun position marks h => (size_markAt position marks).trans h
  -- Sound marks of the right size go into every sweep. The last one changes no mark, so
  -- its marks are closed.
  fun_induction Blueprint.saturate network.toBlueprint marks with
  | case1 marks swept hless ih => exact ih (hsound _ h) (hsizes _ hsize)
  | case2 marks swept hdone =>
    rcases foldr_mark_eq_or_count_lt network.markAt_eq_or_count_lt
      (List.range network.states.size) marks with ⟨hsame, hfixed⟩ | hlt
    · have hswept : swept = marks := hsame
      rw [hswept]
      exact ⟨h, closedMarks_of_fixed hsize hfixed⟩
    · exact absurd hlt hdone

/-- A state is marked in the end exactly if its rule can be finished from it in silence. -/
theorem isMarked_silentStates_iff :
    isMarked network.silentStates state ↔ network.SilentFinish state := by
  have hnone : network.SoundMarks (Array.replicate network.states.size false) := by
    intro state hmark
    rw [isMarked, Array.getElem?_replicate] at hmark
    split at hmark <;> simp at hmark
  obtain ⟨hsound, hclosed⟩ := saturate_spec hnone Array.size_replicate
  exact ⟨hsound state, hclosed.isMarked⟩

theorem nullable_of_build {draft : Draft} (hbuild : draft.build = .ok network) :
    network.nullable = network.toBlueprint.nullable := by
  obtain ⟨-, rfl⟩ := Draft.build_eq_ok_iff.mp hbuild
  rfl

/-- A rule of a built network is nullable exactly if its entry can be finished in silence. -/
theorem isNullable_iff {draft : Draft} (hbuild : draft.build = .ok network) {rule : RuleId} :
    network.isNullable rule ↔
      ∃ entry, network.entry? rule = some entry ∧ network.SilentFinish entry := by
  rw [isNullable, nullable_of_build hbuild, Blueprint.nullable, entry?, rule?]
  cases hrule : network.rules[rule.index]? with
  | none => simp [hrule]
  | some known => simp [hrule, isMarked_silentStates_iff]

end Network

end CodeCompletion
