import CodeCompletion.Walk.Bound

/-!
# What holds all through a walk

The numbers of waiting configurations denote their stacks, all stacks in the table are
admissible, and what has been visited lies within the table and the tokens. By this
invariant a walk visits a bounded number of configurations, and every round brings it
nearer to its end.

## Main definitions

* `Progress.Sound`: the invariant
* `Progress.remaining`: what falls in every round

## Main results

* `Progress.sound_start`, `Progress.Sound.round`: the invariant holds at first, and every
  round keeps it
* `Progress.Sound.remaining_lt`: every round lowers what remains
-/

set_option autoImplicit false

namespace CodeCompletion

/-- The number of a waiting configuration denotes its stack, and its index lies within
the tokens. -/
structure Pending.Known (pending : Pending) (table : StackTable) (size : Nat) : Prop where
  stack_eq : ∃ entry, table.entries[pending.number]? = some entry ∧
    entry.stack = pending.config.stack
  index_le : pending.config.index ≤ size

theorem Pending.Known.push {pending : Pending} {table : StackTable} {size : Nat}
    (h : pending.Known table size) (outer? : Option Nat) (frame : Frame) :
    pending.Known (table.push outer? frame).2 size where
  stack_eq := h.stack_eq.imp fun _ he => ⟨StackTable.entries_push_of_eq_some he.1, he.2⟩
  index_le := h.index_le

theorem StackTable.AllAdmissible.push {table : StackTable} {size caret : Nat}
    {seed : CallStack} (h : table.AllAdmissible size caret seed) {outer? : Option Nat}
    {frame : Frame} (hnew : Admissible size caret seed (frame :: table.stackOf outer?)) :
    (table.push outer? frame).2.AllAdmissible size caret seed := by
  intro number entry he
  unfold StackTable.push at he
  split at he
  · exact h number entry he
  · dsimp only at he
    rw [Array.getElem?_push] at he
    split at he
    · obtain rfl := Option.some.inj he
      exact hnew
    · exact h number entry he

namespace Progress

/-- What holds all through a walk from `seed` to `caret` over `size` tokens. -/
structure Sound (progress : Progress) (size caret : Nat) (seed : CallStack) : Prop where
  valid : progress.table.Valid
  admissible : progress.table.AllAdmissible size caret seed
  pending : ∀ pending ∈ progress.pending, pending.Known progress.table size
  visited : ∀ visit ∈ progress.visited,
    visit.stack < progress.table.size ∧ visit.index ≤ size

variable {query : Query} {caret size : Nat} {seed : CallStack} {progress : Progress}
  {origin : Pending} {rest : List Pending}

theorem Sound.drop (h : progress.Sound size caret seed) (hp : progress.pending = origin :: rest) :
    (progress.drop rest).Sound size caret seed where
  valid := h.valid
  admissible := h.admissible
  pending _ hm := h.pending _ (hp ▸ List.mem_cons_of_mem _ hm)
  visited := h.visited

/-- Waiting for one more known configuration keeps a walk sound. -/
theorem Sound.wait (h : progress.Sound size caret seed) {pending : Pending}
    (hk : pending.Known progress.table size) :
    { progress with pending := pending :: progress.pending }.Sound size caret seed where
  valid := h.valid
  admissible := h.admissible
  pending _ hm := by
    rcases List.mem_cons.1 hm with rfl | hm
    · exact hk
    · exact h.pending _ hm
  visited := h.visited

/-- Putting one more admissible stack into the table keeps a walk sound. -/
theorem Sound.push (h : progress.Sound size caret seed) (outer? : Option Nat) (frame : Frame)
    (ho : progress.table.Knows outer?)
    (hnew : Admissible size caret seed (frame :: progress.table.stackOf outer?)) :
    { progress with table := (progress.table.push outer? frame).2 }.Sound size caret seed where
  valid := h.valid.push ho frame
  admissible := h.admissible.push hnew
  pending _ hm := (h.pending _ hm).push outer? frame
  visited _ hm :=
    have hv := h.visited _ hm
    ⟨Nat.lt_of_lt_of_le hv.1 (progress.table.size_le_push outer? frame), hv.2⟩

/-- A move that fits keeps a walk sound, and its origin known. -/
theorem Sound.move (h : progress.Sound query.tokens.size caret seed)
    (horigin : origin.Known progress.table query.tokens.size) {move : Move}
    (hfits : query.Fits caret origin.config move) :
    (progress.move origin move).Sound query.tokens.size caret seed ∧
      origin.Known (progress.move origin move).table query.tokens.size := by
  obtain ⟨⟨entry, he, hs⟩, hi⟩ := horigin
  cases move with
  | goto state => exact ⟨h.wait ⟨⟨entry, he, hs⟩, hi⟩, ⟨entry, he, hs⟩, hi⟩
  | advance state => exact ⟨h.wait ⟨⟨entry, he, hs⟩, hfits⟩, ⟨entry, he, hs⟩, hi⟩
  | enter state frame =>
    obtain ⟨hstart, hcount⟩ := hfits
    have hstack := StackTable.stackOf_some he
    have hadm := (h.admissible _ _ he).cons frame (hstart ▸ hi) (hs ▸ hcount)
    have hpush := h.push (some origin.number) frame
      (fun _ ho => Option.some.inj ho ▸ StackTable.lt_size he) (hstack ▸ hadm)
    refine ⟨hpush.wait ⟨?_, hi⟩, ⟨entry, StackTable.entries_push_of_eq_some he, hs⟩, hi⟩
    exact ⟨_, h.valid.entry_push (some origin.number) frame, by
      simp only [hstack, hs, Config.after]⟩
  | leave state =>
    unfold Progress.move
    dsimp only
    split
    · next number hnumber =>
      refine ⟨h.wait ⟨?_, hi⟩, ⟨entry, he, hs⟩, hi⟩
      simp only [StackTable.outer?, he, Option.bind_some] at hnumber
      -- The number of the outer stack denotes what is left after the return.
      rcases h.valid.stack_cases he with ⟨ho, -⟩ | ⟨outer, below, ho, -, hb, hstack⟩
      · simp [ho] at hnumber
      · obtain rfl := Option.some.inj (ho.symm.trans hnumber)
        exact ⟨below, hb, by simp [Config.after, ← hs, hstack]⟩
    · exact ⟨h, ⟨entry, he, hs⟩, hi⟩

/-- Effects whose moves fit keep a walk sound. -/
theorem Sound.foldl_apply {effects : List Effect}
    (h : progress.Sound query.tokens.size caret seed)
    (horigin : origin.Known progress.table query.tokens.size)
    (hfits : ∀ move, .move move ∈ effects → query.Fits caret origin.config move) :
    (effects.foldl (apply origin) progress).Sound query.tokens.size caret seed := by
  induction effects generalizing progress with
  | nil => exact h
  | cons effect effects ih =>
    have hrest : ∀ move, .move move ∈ effects → query.Fits caret origin.config move :=
      fun move hm => hfits move (List.mem_cons_of_mem _ hm)
    rw [List.foldl_cons]
    cases effect with
    | move move =>
      obtain ⟨hsound, hknown⟩ := h.move horigin (hfits move List.mem_cons_self)
      exact ih hsound hknown hrest
    | report finding =>
      exact ih ⟨h.valid, h.admissible, h.pending, h.visited⟩ horigin hrest
    | event event =>
      exact ih ⟨h.valid, h.admissible, h.pending, h.visited⟩ horigin hrest

/-- Marking the next configuration as visited, so that it no longer waits, keeps a walk
sound. -/
theorem Sound.mark (h : progress.Sound size caret seed) (hp : progress.pending = origin :: rest) :
    { progress with
      pending := rest, visited := progress.visited.insert origin.visit }.Sound size caret seed where
  valid := h.valid
  admissible := h.admissible
  pending _ hm := h.pending _ (hp ▸ List.mem_cons_of_mem _ hm)
  visited visit hv := by
    have horigin := h.pending origin (hp ▸ List.mem_cons_self)
    rcases Std.ExtTreeSet.mem_insert.1 hv with hv | hv
    · obtain rfl := Std.LawfulEqOrd.eq_of_compare hv
      obtain ⟨entry, he, -⟩ := horigin.stack_eq
      exact ⟨StackTable.lt_size he, horigin.index_le⟩
    · exact h.visited visit hv

/-- Exploring the next configuration keeps a walk sound. -/
theorem Sound.explore (h : progress.Sound query.tokens.size caret seed)
    (hp : progress.pending = origin :: rest) :
    (progress.explore query caret origin rest).Sound query.tokens.size caret seed :=
  (h.mark hp).foldl_apply (h.pending origin (hp ▸ List.mem_cons_self))
    fun _ => Query.fits_of_mem_step

theorem visited_apply (origin : Pending) (progress : Progress) (effect : Effect) :
    (apply origin progress effect).visited = progress.visited := by
  cases effect with
  | move move =>
    cases move with
    | leave state =>
      simp only [apply, Progress.move]
      split <;> rfl
    | _ => rfl
  | _ => rfl

theorem visited_foldl_apply (origin : Pending) (effects : List Effect) (progress : Progress) :
    (effects.foldl (apply origin) progress).visited = progress.visited := by
  induction effects generalizing progress with
  | nil => rfl
  | cons effect effects ih => rw [List.foldl_cons, ih, visited_apply]

/-- Exploring a configuration adds it to the visited ones and adds nothing else. -/
theorem visited_explore (query : Query) (caret : Nat) (progress : Progress) (origin : Pending)
    (rest : List Pending) :
    (progress.explore query caret origin rest).visited = progress.visited.insert origin.visit :=
  visited_foldl_apply origin _ _

theorem size_visited_explore (hnew : origin.visit ∉ progress.visited) :
    (progress.explore query caret origin rest).visited.size = progress.visited.size + 1 := by
  rw [← Std.ExtTreeSet.contains_iff_mem] at hnew
  rw [visited_explore, Std.ExtTreeSet.size_insert, if_neg hnew]

/-- Every round keeps a walk sound. -/
theorem Sound.round (h : progress.Sound query.tokens.size caret seed) :
    (progress.round query caret).Sound query.tokens.size caret seed := by
  unfold Progress.round
  split
  · exact h
  · next hp =>
    split
    · exact h.drop hp
    · exact h.explore hp

/-- A bound on the number of configurations that a walk visits. -/
noncomputable def visitBound (size caret : Nat) (seed : CallStack) : Nat :=
  (exists_visit_bound size caret seed).choose

theorem Sound.size_visited_le (h : progress.Sound size caret seed) :
    progress.visited.size ≤ visitBound size caret seed := by
  rw [← Std.ExtTreeSet.length_toList]
  refine (exists_visit_bound size caret seed).choose_spec progress.table _ h.valid h.admissible
    ?_ fun visit hv => h.visited visit (Std.ExtTreeSet.mem_toList.1 hv)
  exact Std.ExtTreeSet.distinct_toList.imp fun hab heq => hab (by simp [heq])

/-- What falls in every round: the number of configurations that can still be visited, or
else the number of those that wait. -/
noncomputable def remaining (size caret : Nat) (seed : CallStack) (progress : Progress) :
    Nat × Nat :=
  (visitBound size caret seed - progress.visited.size, progress.pending.length)

theorem Sound.remaining_lt (h : progress.Sound query.tokens.size caret seed)
    (hp : progress.pending = origin :: rest) :
    Prod.Lex (· < ·) (· < ·)
      (remaining query.tokens.size caret seed (progress.round query caret))
      (remaining query.tokens.size caret seed progress) := by
  -- A configuration that came up again leaves one fewer waiting, a new one is one more visit.
  have hle := h.round.size_visited_le
  simp only [Progress.round, hp] at hle ⊢
  split at hle
  · next hold =>
    rw [if_pos hold]
    exact Prod.Lex.right _ (by simp [Progress.drop, hp])
  · next hnew =>
    rw [if_neg hnew]
    rw [size_visited_explore hnew] at hle
    refine Prod.Lex.left _ _ ?_
    rw [size_visited_explore hnew]
    omega

end Progress

/-- Numbering the frames of `seed` from the outermost inwards gives `seed` its number and
puts only what is left of `seed` after returns into the table. -/
theorem StackTable.valid_pushAll (size caret : Nat) (seed : CallStack) (frames : List Frame)
    (table : StackTable) (outer? : Option Nat) (hvalid : table.Valid)
    (hadm : table.AllAdmissible size caret seed) (ho : table.Knows outer?)
    (hseed : frames.reverse ++ table.stackOf outer? = seed) :
    (table.pushAll outer? frames).2.Valid ∧
      (table.pushAll outer? frames).2.AllAdmissible size caret seed ∧
      (table.pushAll outer? frames).2.Knows (table.pushAll outer? frames).1 ∧
      (table.pushAll outer? frames).2.stackOf (table.pushAll outer? frames).1 = seed := by
  induction frames generalizing table outer? with
  | nil => exact ⟨hvalid, hadm, ho, hseed⟩
  | cons frame rest ih =>
    have hstack := hvalid.stackOf_push outer? frame
    have hcons : rest.reverse ++ (frame :: table.stackOf outer?) = seed := by
      simpa using hseed
    refine ih (table.push outer? frame).2 (some (table.push outer? frame).1)
      (hvalid.push ho frame) (hadm.push (.of_suffix ⟨rest.reverse, hcons⟩)) ?_
      (by rw [hstack, hcons])
    exact fun _ hn =>
      Option.some.inj hn ▸ StackTable.lt_size (hvalid.entry_push outer? frame)

theorem Progress.sound_start {config : Config} {size : Nat} (caret : Nat)
    (h : config.index ≤ size) : (start config).Sound size caret config.stack := by
  obtain ⟨hvalid, hadm, hknows, hstack⟩ := StackTable.valid_pushAll size caret config.stack
    config.stack.reverse {} none
    StackTable.valid_empty (fun _ _ he => by simp at he)
    (fun _ hn => by simp at hn) (by simp [StackTable.stackOf])
  refine ⟨hvalid, hadm, fun pending hm => ?_, fun _ hv => by simp [start] at hv⟩
  simp only [start, Option.mem_toList, Option.map_eq_some_iff] at hm
  obtain ⟨number, hn, rfl⟩ := hm
  rw [hn] at hknows hstack
  have hget := Array.getElem?_eq_getElem (hknows number rfl)
  exact ⟨⟨_, hget, (StackTable.stackOf_some hget).symm.trans hstack⟩, h⟩

end CodeCompletion
