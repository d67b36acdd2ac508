import CodeCompletion.Proofs.Termination

/-!
# What a walk counts

A walk reports how many configurations it took up, how many came up again, and how many
call stacks it built. These numbers do not depend on the order in which the walk proceeds:
every configuration within reach is taken up once, whatever else is put forward comes up
again, and the stacks are those of the configurations within reach, together with what is
left of the first stack after returns.

## Main definitions

* `Search.taking?`, `Progress.taking?`: what the next round takes up
* `StackTable.Holds`: a stack has a number
* `Progress.Tallies`: the counts of a walk, read off the search that it mirrors
* `Query.Explores`: a walk takes up a configuration in some round

## Main results

* `Search.existsUnique_taking`: an item is taken up in one round only
* `Query.tallies_rounds`: the counts of a walk in every round
* `Query.explores_iff`, `Query.existsUnique_taking`: a walk explores what can be reached, each
  configuration in one round
* `Query.holds_iff_of_done`: the stacks that a walk has built in the end
* `Query.exists_tally`: the counts of a walk in the end
-/

set_option autoImplicit false

namespace CodeCompletion

/-! ## Searches -/

namespace Search

universe u

variable {α : Type u} [DecidableEq α] {next : α → List α} {first : α} {search : Search α}

/-- The item that the next round takes up, if it takes up any. -/
def taking? (search : Search α) : Option α :=
  match search.waiting with
  | [] => none
  | item :: _ => if item ∈ search.taken then none else some item

theorem taken_round (search : Search α) :
    (search.round next).taken = search.taken ++ search.taking?.toList := by
  unfold round taking?
  cases search.waiting with
  | nil => simp
  | cons item rest =>
    dsimp only
    split <;> simp

theorem not_mem_taken_of_taking {item : α} (h : search.taking? = some item) :
    item ∉ search.taken := by
  unfold taking? at h
  split at h
  · cases h
  · split at h
    · cases h
    · next hnew => exact Option.some.inj h ▸ hnew

theorem mem_taken_iterate_iff (next : α → List α) (first : α) (n : ℕ) {item : α} :
    item ∈ ((round next)^[n] (start first)).taken ↔
      ∃ k < n, ((round next)^[k] (start first)).taking? = some item := by
  induction n with
  | zero => simp [start]
  | succ n ih =>
    rw [Function.iterate_succ_apply', taken_round, List.mem_append, ih, Option.mem_toList]
    constructor
    · rintro (⟨k, hk, htaking⟩ | htaking)
      · exact ⟨k, Nat.lt_succ_of_lt hk, htaking⟩
      · exact ⟨n, Nat.lt_succ_self n, htaking⟩
    · rintro ⟨k, hk, htaking⟩
      rcases Nat.lt_succ_iff_lt_or_eq.mp hk with hk | rfl
      · exact Or.inl ⟨k, hk, htaking⟩
      · exact Or.inr htaking

/-- An item that has been taken up was taken up in one round only. -/
theorem existsUnique_taking {n : ℕ} {item : α}
    (h : item ∈ ((round next)^[n] (start first)).taken) :
    ∃! k, ((round next)^[k] (start first)).taking? = some item := by
  -- Whatever has been taken up by a round is not taken up in it.
  have horder : ∀ i j, ((round next)^[i] (start first)).taking? = some item →
      ((round next)^[j] (start first)).taking? = some item → ¬ i < j := by
    intro i j hi hj hlt
    exact not_mem_taken_of_taking hj ((mem_taken_iterate_iff next first j).mpr ⟨i, hlt, hi⟩)
  obtain ⟨k, -, hk⟩ := (mem_taken_iterate_iff next first n).mp h
  refine ⟨k, hk, fun j hj => ?_⟩
  exact Nat.le_antisymm (Nat.not_lt.mp (horder k j hk hj)) (Nat.not_lt.mp (horder j k hj hk))

end Search

/-! ## Stacks with a number -/

namespace StackTable

variable {table table' : StackTable} {stack : CallStack}

/-- The stack has a number in the table. -/
def Holds (table : StackTable) (stack : CallStack) : Prop :=
  ∃ (number : ℕ) (entry : StackEntry),
    table.entries[number]? = some entry ∧ entry.stack = stack

theorem Holds.mono (hext : table'.Extends table) (h : table.Holds stack) :
    table'.Holds stack := by
  obtain ⟨number, entry, hentry, hstack⟩ := h
  exact ⟨number, entry, hext number entry hentry, hstack⟩

/-- What is found under a number after a push was there before, or has been pushed. -/
theorem Valid.entries_push_cases (hvalid : table.Valid) {outer? : Option ℕ} {frame : Frame}
    {number : ℕ} {entry : StackEntry}
    (h : (table.push outer? frame).2.entries[number]? = some entry) :
    table.entries[number]? = some entry ∨
      number = (table.push outer? frame).1 ∧ entry.stack = frame :: table.stackOf outer? := by
  by_cases hnumber : number = (table.push outer? frame).1
  · rw [hnumber, hvalid.entry_push] at h
    exact Or.inr ⟨hnumber, by rw [← Option.some.inj h]⟩
  · left
    unfold StackTable.push at h hnumber
    split at h
    · exact h
    · next hnone =>
      simp only [hnone] at hnumber
      rwa [Array.getElem?_push, if_neg hnumber] at h

theorem holds_push_iff (hvalid : table.Valid) (outer? : Option ℕ) (frame : Frame) :
    (table.push outer? frame).2.Holds stack ↔
      table.Holds stack ∨ stack = frame :: table.stackOf outer? := by
  constructor
  · rintro ⟨number, entry, hentry, rfl⟩
    rcases hvalid.entries_push_cases hentry with hold | ⟨-, hstack⟩
    · exact Or.inl ⟨number, entry, hold, rfl⟩
    · exact Or.inr hstack
  · rintro (hold | rfl)
    · exact hold.mono (extends_push table outer? frame)
    · exact ⟨_, _, hvalid.entry_push outer? frame, rfl⟩

/-- Stacks built from the outermost frame inwards: what lies between the first and the last
of them. -/
theorem holds_pushAll_iff (hvalid : table.Valid) {outer? : Option ℕ} (hknows : table.Knows outer?)
    (frames : List Frame) :
    (table.pushAll outer? frames).2.Holds stack ↔ table.Holds stack ∨
      stack <:+ frames.reverse ++ table.stackOf outer? ∧
        (table.stackOf outer?).length < stack.length := by
  induction frames generalizing table outer? with
  | nil =>
    refine ⟨Or.inl, ?_⟩
    rintro (hold | ⟨hsuffix, hlonger⟩)
    · exact hold
    · exact absurd hsuffix.length_le (Nat.not_le.mpr hlonger)
  | cons frame rest ih =>
    have hpush := hvalid.stackOf_push outer? frame
    have hnumber : (table.push outer? frame).2.Knows (some (table.push outer? frame).1) :=
      fun _ hn => Option.some.inj hn ▸ lt_size (hvalid.entry_push outer? frame)
    rw [pushAll, ih (hvalid.push hknows frame) hnumber, hpush, holds_push_iff hvalid, or_assoc,
      List.reverse_cons, List.append_assoc, List.singleton_append, List.length_cons]
    refine or_congr_right ?_
    constructor
    · rintro (rfl | ⟨hsuffix, hlonger⟩)
      · exact ⟨List.suffix_append _ _, Nat.lt_succ_self _⟩
      · exact ⟨hsuffix, Nat.lt_of_succ_lt hlonger⟩
    · rintro ⟨hsuffix, hlonger⟩
      rcases Nat.lt_or_eq_of_le (Nat.succ_le_of_lt hlonger) with hlonger | hlength
      · exact Or.inr ⟨hsuffix, hlonger⟩
      -- Of one length there is one suffix.
      · left
        have hbase : frame :: table.stackOf outer? <:+ rest.reverse ++ frame ::
            table.stackOf outer? := List.suffix_append _ _
        exact (List.suffix_of_suffix_length_le hsuffix hbase
          (Nat.le_of_eq hlength.symm)).eq_of_length hlength.symm

theorem mem_map_stack_iff :
    stack ∈ table.entries.toList.map StackEntry.stack ↔ table.Holds stack := by
  simp only [List.mem_map, Array.mem_toList_iff, Array.mem_iff_getElem?, Holds]
  constructor
  · rintro ⟨entry, ⟨number, hentry⟩, hstack⟩
    exact ⟨number, entry, hentry, hstack⟩
  · rintro ⟨number, entry, hentry, hstack⟩
    exact ⟨entry, ⟨number, hentry⟩, hstack⟩

end StackTable

/-! ## Walks -/

namespace Progress

variable {query : Query} {caret size : ℕ} {seed stack : CallStack} {origin : Pending}
  {progress : Progress} {search : Search Config} {rest : List Pending} {first : Config}

/-- The configuration that the next round takes up, if it takes up any. -/
def taking? (progress : Progress) : Option Config :=
  match progress.pending with
  | [] => none
  | origin :: _ => if origin.visit ∈ progress.visited then none else some origin.config

theorem Mirrors.taking?_eq (h : Mirrors query caret progress search)
    (hsound : progress.Sound query.tokens.size caret seed) :
    progress.taking? = search.taking? := by
  unfold taking? Search.taking?
  cases hpending : progress.pending with
  | nil => rw [← h.pending, hpending, List.map_nil]
  | cons origin rest =>
    have horigin := hsound.pending origin (hpending ▸ List.mem_cons_self)
    rw [← h.pending, hpending, List.map_cons]
    simp only [h.visited_iff hsound.valid horigin]

theorem Mirrors.explored_iff (h : Mirrors query caret progress search) {config : Config} :
    progress.Explored config ↔ config ∈ search.taken := by
  constructor
  · rintro ⟨visit, hvisit, hdenotes⟩
    obtain ⟨other, htaken, hother⟩ := h.taken_of_visited visit hvisit
    rwa [hdenotes.config_eq hother]
  · exact h.visited_of_taken config

/-- One effect of `origin` gives a number at most to the stack that it moves to. -/
theorem holds_of_apply (hvalid : progress.table.Valid)
    (horigin : origin.Known progress.table size) {effect : Effect}
    (h : (progress.apply origin effect).table.Holds stack) :
    progress.table.Holds stack ∨
      ∃ move, effect = .move move ∧ (origin.config.after move).stack = stack := by
  cases effect with
  | report finding => exact Or.inl h
  | event event => exact Or.inl h
  | move move =>
    cases move with
    | goto state => exact Or.inl h
    | advance state => exact Or.inl h
    | enter state frame =>
      refine ((StackTable.holds_push_iff hvalid _ _).mp h).imp_right fun hstack => ?_
      obtain ⟨entry, hentry, horigin⟩ := horigin.stack_eq
      rw [StackTable.stackOf_some hentry, horigin] at hstack
      exact ⟨_, rfl, hstack.symm⟩
    | leave state =>
      simp only [apply, Progress.move] at h
      split at h <;> exact Or.inl h

theorem holds_of_foldl_apply {effects : List Effect}
    (hsound : progress.Sound query.tokens.size caret seed)
    (horigin : origin.Known progress.table query.tokens.size)
    (hfits : ∀ move, .move move ∈ effects → query.Fits caret origin.config move)
    (h : (effects.foldl (apply origin) progress).table.Holds stack) :
    progress.table.Holds stack ∨
      ∃ move, .move move ∈ effects ∧ (origin.config.after move).stack = stack := by
  induction effects generalizing progress with
  | nil => exact Or.inl h
  | cons effect effects ih =>
    -- After the first effect the walk is sound and knows `origin`, as before.
    have hnext : (progress.apply origin effect).Sound query.tokens.size caret seed ∧
        origin.Known (progress.apply origin effect).table query.tokens.size := by
      cases effect with
      | move move => exact hsound.move horigin (hfits move List.mem_cons_self)
      | report finding =>
        exact ⟨⟨hsound.valid, hsound.admissible, hsound.pending, hsound.visited⟩, horigin⟩
      | event event =>
        exact ⟨⟨hsound.valid, hsound.admissible, hsound.pending, hsound.visited⟩, horigin⟩
    rcases ih hnext.1 hnext.2 (fun move hm => hfits move (List.mem_cons_of_mem _ hm)) h with
      h | ⟨move, hmove, hstack⟩
    · refine (holds_of_apply hsound.valid horigin h).imp_right ?_
      rintro ⟨move, rfl, hstack⟩
      exact ⟨move, List.mem_cons_self, hstack⟩
    · exact Or.inr ⟨move, List.mem_cons_of_mem _ hmove, hstack⟩

/-- What a walk from `first` has counted, read off the search that it mirrors: what has been
taken up, what came up again among all that was put forward, and the stacks that have been
built. -/
structure Tallies (query : Query) (caret : ℕ) (first : Config) (progress : Progress)
    (search : Search Config) : Prop where
  explored : progress.visited.size = search.taken.length
  revisited : search.taken.length + progress.revisited + search.waiting.length =
    (search.taken.flatMap (query.next caret)).length + 1
  seeded : ∀ stack, stack ≠ [] → stack <:+ first.stack → progress.table.Holds stack
  built : ∀ stack, progress.table.Holds stack → stack ≠ [] ∧
    (stack <:+ first.stack ∨ ∃ config, search.Met config ∧ config.stack = stack)

theorem revisited_foldl_apply (origin : Pending) (effects : List Effect) (progress : Progress) :
    (effects.foldl (apply origin) progress).revisited = progress.revisited := by
  have happly : ∀ (progress : Progress) (effect : Effect),
      (progress.apply origin effect).revisited = progress.revisited := by
    rintro progress (⟨_ | _ | _ | _⟩ | _ | _) <;> try rfl
    simp only [apply, Progress.move]
    split <;> rfl
  induction effects generalizing progress with
  | nil => rfl
  | cons effect effects ih => rw [List.foldl_cons, ih, happly]

theorem tallies_start (query : Query) (caret : ℕ) (first : Config) :
    Tallies query caret first (start first) (Search.start first) := by
  have hholds : ∀ stack, (start first).table.Holds stack ↔ stack ≠ [] ∧ stack <:+ first.stack := by
    intro stack
    have hnone : ¬ ({} : StackTable).Holds stack := by simp [StackTable.Holds]
    have hknows : ({} : StackTable).Knows none := fun _ h => by cases h
    rw [start, StackTable.holds_pushAll_iff StackTable.valid_empty hknows, or_iff_right hnone,
      List.reverse_reverse]
    simp [StackTable.stackOf, List.length_pos_iff, and_comm]
  refine ⟨rfl, rfl, fun stack hne hsuffix => (hholds stack).mpr ⟨hne, hsuffix⟩, ?_⟩
  intro stack hstack
  exact ⟨((hholds stack).mp hstack).1, Or.inl ((hholds stack).mp hstack).2⟩

theorem Tallies.drop {config : Config} {waiting : List Config}
    (h : Tallies query caret first progress search) (hwaiting : search.waiting = config :: waiting)
    (htaken : config ∈ search.taken) :
    Tallies query caret first (progress.drop rest) { search with waiting } where
  explored := h.explored
  revisited := by
    have hcount := h.revisited
    rw [hwaiting, List.length_cons] at hcount
    simp only [Progress.drop]
    omega
  seeded := h.seeded
  built stack hstack := by
    refine (h.built stack hstack).imp_right (Or.imp_right ?_)
    rintro ⟨other, hmet, hother⟩
    exact ⟨other, hmet.drop hwaiting htaken, hother⟩

theorem Tallies.explore (h : Tallies query caret first progress search)
    (hsound : progress.Sound query.tokens.size caret seed)
    (hpending : progress.pending = origin :: rest) (hnew : origin.visit ∉ progress.visited)
    {waiting : List Config} (hwaiting : search.waiting = origin.config :: waiting) :
    Tallies query caret first (progress.explore query caret origin rest)
      ⟨search.taken ++ [origin.config], query.next caret origin.config ++ waiting⟩ := by
  have horigin := hsound.pending origin (hpending ▸ List.mem_cons_self)
  refine ⟨?_, ?_, ?_, ?_⟩
  · rw [size_visited_explore hnew, h.explored, List.length_append, List.length_singleton]
  · have hcount := h.revisited
    have hsame : (progress.explore query caret origin rest).revisited = progress.revisited :=
      revisited_foldl_apply _ _ _
    rw [hwaiting, List.length_cons] at hcount
    simp only [hsame, List.length_append, List.flatMap_append, List.flatMap_singleton,
      List.length_singleton]
    omega
  · intro stack hne hsuffix
    exact (h.seeded stack hne hsuffix).mono (follows_foldl_apply (hsound.mark hpending) horigin
      (fun _ => Query.fits_of_mem_step) fun _ => Query.two_le_length_of_leave).table
  · intro stack hstack
    rcases holds_of_foldl_apply (hsound.mark hpending) horigin
      (fun _ => Query.fits_of_mem_step) hstack with hold | ⟨move, hmove, hmoved⟩
    · refine (h.built stack hold).imp_right (Or.imp_right ?_)
      rintro ⟨other, hmet, hother⟩
      exact ⟨other, hmet.take hwaiting _, hother⟩
    -- A new stack is that of a configuration which now waits.
    · have hnext : origin.config.after move ∈ query.next caret origin.config :=
        Query.mem_next_iff.mpr ⟨move, hmove, rfl⟩
      refine ⟨?_, Or.inr ⟨_, Or.inr (List.mem_append_left _ hnext), hmoved⟩⟩
      obtain ⟨number, entry, hentry, hstack⟩ := hstack
      exact hstack ▸ (hsound.explore hpending).valid.stack_ne_nil hentry

theorem Tallies.round (h : Tallies query caret first progress search)
    (hsound : progress.Sound query.tokens.size caret seed)
    (hmirrors : Mirrors query caret progress search) :
    Tallies query caret first (progress.round query caret) (search.round (query.next caret)) := by
  cases hpending : progress.pending with
  | nil =>
    have hwaiting : search.waiting = [] := by rw [← hmirrors.pending, hpending, List.map_nil]
    simp only [Progress.round, Search.round, hpending, hwaiting]
    exact h
  | cons origin rest =>
    have hwaiting : search.waiting = origin.config :: rest.map Pending.config := by
      rw [← hmirrors.pending, hpending, List.map_cons]
    have hvisited := hmirrors.visited_iff hsound.valid
      (hsound.pending origin (hpending ▸ List.mem_cons_self))
    simp only [Progress.round, Search.round, hpending, hwaiting]
    by_cases htaken : origin.config ∈ search.taken
    · rw [if_pos htaken, if_pos (hvisited.mpr htaken)]
      exact h.drop hwaiting htaken
    · rw [if_neg htaken, if_neg (mt hvisited.mp htaken)]
      exact h.explore hsound hpending (mt hvisited.mp htaken) hwaiting

end Progress

namespace Query

variable {query : Query} {caret : ℕ} {first config : Config}

theorem tallies_rounds (caret : ℕ) (hindex : first.index ≤ query.tokens.size)
    (hstack : first.stack ≠ []) (n : ℕ) :
    Progress.Tallies query caret first (query.rounds caret first n)
      (query.searched caret first n) := by
  induction n with
  | zero => exact Progress.tallies_start query caret first
  | succ n ih =>
    rw [rounds_succ, searched, Function.iterate_succ_apply']
    exact ih.round (sound_rounds caret hindex n) (mirrors_rounds caret hindex hstack n)

/-- A walk from `first` to `caret` takes up the configuration in some round. -/
def Explores (query : Query) (caret : ℕ) (first config : Config) : Prop :=
  ∃ n, (query.rounds caret first n).Explored config

section

variable (hindex : first.index ≤ query.tokens.size) (hstack : first.stack ≠ [])
include hindex hstack

theorem mem_taken_iff_of_done {n : ℕ} (hdone : (query.rounds caret first n).pending = []) :
    config ∈ (query.searched caret first n).taken ↔ query.Reaches caret first config := by
  have hwaiting : (query.searched caret first n).waiting = [] := by
    rw [← (mirrors_rounds caret hindex hstack n).pending, hdone, List.map_nil]
  rw [Reaches, leads_eq]
  exact (Search.covers_iterate (query.next caret) first n).mem_taken_iff hwaiting config

/-- In the end a walk has explored exactly what can be reached. -/
theorem explored_iff_of_done {n : ℕ} (hdone : (query.rounds caret first n).pending = []) :
    (query.rounds caret first n).Explored config ↔ query.Reaches caret first config := by
  rw [(mirrors_rounds caret hindex hstack n).explored_iff]
  exact mem_taken_iff_of_done hindex hstack hdone

/-- A walk explores what can be reached. -/
theorem explores_iff : query.Explores caret first config ↔ query.Reaches caret first config := by
  constructor
  · rintro ⟨n, hexplored⟩
    rw [(mirrors_rounds caret hindex hstack n).explored_iff] at hexplored
    rw [Reaches, leads_eq]
    exact (Search.covers_iterate (query.next caret) first n).reached config (Or.inl hexplored)
  · intro hreach
    obtain ⟨n, hdone, -⟩ := exists_walk_eq caret hindex
    exact ⟨n, (explored_iff_of_done hindex hstack hdone).mpr hreach⟩

theorem taking?_rounds (n : ℕ) :
    (query.rounds caret first n).taking? = (query.searched caret first n).taking? :=
  (mirrors_rounds caret hindex hstack n).taking?_eq (sound_rounds caret hindex n)

theorem explores_of_taking {n : ℕ} (h : (query.rounds caret first n).taking? = some config) :
    query.Explores caret first config := by
  refine ⟨n + 1, (mirrors_rounds caret hindex hstack (n + 1)).explored_iff.mpr ?_⟩
  rw [taking?_rounds hindex hstack] at h
  exact (Search.mem_taken_iterate_iff _ _ _).mpr ⟨n, Nat.lt_succ_self n, h⟩

/-- What a walk explores it takes up in one round only. -/
theorem existsUnique_taking (h : query.Explores caret first config) :
    ∃! n, (query.rounds caret first n).taking? = some config := by
  obtain ⟨n, hexplored⟩ := h
  rw [(mirrors_rounds caret hindex hstack n).explored_iff] at hexplored
  simp only [taking?_rounds hindex hstack]
  exact Search.existsUnique_taking hexplored

/-- The stacks that a walk has built in the end. -/
theorem holds_iff_of_done {n : ℕ} (hdone : (query.rounds caret first n).pending = [])
    {stack : CallStack} :
    (query.rounds caret first n).table.Holds stack ↔ stack ≠ [] ∧
      (stack <:+ first.stack ∨ ∃ config, query.Reaches caret first config ∧
        config.stack = stack) := by
  have hmirrors := mirrors_rounds caret hindex hstack n
  have htallies := tallies_rounds caret hindex hstack n
  have hwaiting : (query.searched caret first n).waiting = [] := by
    rw [← hmirrors.pending, hdone, List.map_nil]
  constructor
  · intro hholds
    refine (htallies.built stack hholds).imp_right (Or.imp_right ?_)
    -- With nothing waiting, what has been met has been taken up.
    rintro ⟨config, htaken | hwaits, hconfig⟩
    · exact ⟨config, (mem_taken_iff_of_done hindex hstack hdone).mp htaken, hconfig⟩
    · rw [hwaiting] at hwaits
      exact absurd hwaits List.not_mem_nil
  · rintro ⟨hne, hsuffix | ⟨config, hreach, rfl⟩⟩
    · exact htallies.seeded stack hne hsuffix
    · obtain ⟨visit, -, -, -, entry, hentry, hconfig⟩ :=
        (explored_iff_of_done hindex hstack hdone).mpr hreach
      exact ⟨visit.stack, entry, hentry, hconfig⟩

/-- What a walk has counted in the end, read off the configurations that can be reached. -/
theorem exists_tally : ∃ (explored : List Config) (built : List CallStack),
    explored.Nodup ∧ (∀ config, config ∈ explored ↔ query.Reaches caret first config) ∧
    built.Nodup ∧ (∀ stack, stack ∈ built ↔ stack ≠ [] ∧
      (stack <:+ first.stack ∨ ∃ config ∈ explored, config.stack = stack)) ∧
    (query.walk caret first hindex).trace.toList = query.events caret explored ∧
    (query.walk caret first hindex).explored = explored.length ∧
    explored.length + (query.walk caret first hindex).revisited =
      (explored.flatMap (query.next caret)).length + 1 ∧
    (query.walk caret first hindex).stackCount = built.length := by
  obtain ⟨n, hdone, hwalk⟩ := exists_walk_eq caret hindex
  have hmirrors := mirrors_rounds caret hindex hstack n
  have htallies := tallies_rounds caret hindex hstack n
  have htaken : ∀ config, config ∈ (query.searched caret first n).taken ↔
      query.Reaches caret first config := fun _ => mem_taken_iff_of_done hindex hstack hdone
  have hrevisited := htallies.revisited
  rw [← hmirrors.pending, hdone] at hrevisited
  rw [hwalk]
  refine ⟨(query.searched caret first n).taken,
    (query.rounds caret first n).table.entries.toList.map StackEntry.stack,
    (Search.covers_iterate (query.next caret) first n).nodup, htaken,
    (sound_rounds caret hindex n).valid.nodup_stacks, ?_, hmirrors.trace, htallies.explored,
    hrevisited, ?_⟩
  · intro stack
    rw [StackTable.mem_map_stack_iff, holds_iff_of_done hindex hstack hdone]
    simp only [htaken]
  · rw [List.length_map, Array.length_toList]
    rfl

end

end Query

end CodeCompletion
