import CodeCompletion.Proofs.Search
import CodeCompletion.Proofs.Steps
import CodeCompletion.Walk.Run

/-!
# What a walk explores

A walk numbers its stacks, marks what it has visited, and records findings and events as
it goes. Behind this bookkeeping it is a plain search over configurations: round by round
it mirrors `Search.round`. So a walk visits exactly the configurations that can be reached
from its first one, each of them once, and what it yields is read off these configurations
alone.

## Main definitions

* `Query.Leads`, `Query.Reaches`: steps of a walk from configuration to configuration
* `Query.findings`, `Query.events`: what configurations contribute, in order
* `Progress.Mirrors`: a walk and a search are at the same point
* `Query.rounds`, `Query.outcomeAfter`: a walk after some rounds, and what it yields

## Main results

* `Query.mirrors_rounds`: a walk and the search of its configurations stay together
* `Query.exists_walk_eq`, `Query.walk_eq_outcome`: a walk ends, and its outcome is that of
  its last round
* `Query.exists_explored`: the outcome of a walk in terms of what can be reached
* `Query.candidates_walk_congr`: walks with the same moves and findings yield the same
-/

set_option autoImplicit false

namespace CodeCompletion

namespace Effect

/-- The move that an effect consists in, if it is one. -/
def move? : Effect → Option Move
  | .move way => some way
  | .report _ | .event _ => none

/-- The finding that an effect reports, if any. -/
def finding? : Effect → Option Finding
  | .report finding => some finding
  | .move _ | .event _ => none

/-- The event that an effect is, if it is one. -/
def event? : Effect → Option Event
  | .event news => some news
  | .move _ | .report _ => none

@[simp] theorem move?_eq_some_iff {effect : Effect} {move : Move} :
    effect.move? = some move ↔ effect = .move move := by
  cases effect <;> simp [move?]

@[simp] theorem finding?_eq_some_iff {effect : Effect} {finding : Finding} :
    effect.finding? = some finding ↔ effect = .report finding := by
  cases effect <;> simp [finding?]

@[simp] theorem event?_eq_some_iff {effect : Effect} {event : Event} :
    effect.event? = some event ↔ effect = .event event := by
  cases effect <;> simp [event?]

end Effect

namespace Query

variable {query : Query} {caret : ℕ}

/-- A step of a walk to `caret` leads from one configuration to another. -/
def Leads (query : Query) (caret : ℕ) (config config' : Config) : Prop :=
  ∃ move, .move move ∈ query.step caret config ∧ config.after move = config'

/-- A walk to `caret` gets from one configuration to another. -/
def Reaches (query : Query) (caret : ℕ) : Config → Config → Prop :=
  Relation.ReflTransGen (query.Leads caret)

/-- The configurations that a step leads to, in the order in which they are taken up. -/
def next (query : Query) (caret : ℕ) (config : Config) : List Config :=
  (((query.step caret config).filterMap Effect.move?).map config.after).reverse

theorem mem_next_iff {config config' : Config} :
    config' ∈ query.next caret config ↔ query.Leads caret config config' := by
  simp [next, Leads]

theorem leads_eq (query : Query) (caret : ℕ) :
    query.Leads caret = fun config config' => config' ∈ query.next caret config := by
  funext config config'
  rw [mem_next_iff]

/-- What is found at configurations, in order. -/
def findings (query : Query) (caret : ℕ) (configs : List Config) : List Finding :=
  (configs.flatMap (query.step caret)).filterMap Effect.finding?

/-- The events of configurations, in order. -/
def events (query : Query) (caret : ℕ) (configs : List Config) : List Event :=
  (configs.flatMap (query.step caret)).filterMap Effect.event?

theorem mem_findings_iff {configs : List Config} {finding : Finding} :
    finding ∈ query.findings caret configs ↔
      ∃ config ∈ configs, .report finding ∈ query.step caret config := by
  simp [findings]

theorem mem_events_iff {configs : List Config} {event : Event} :
    event ∈ query.events caret configs ↔
      ∃ config ∈ configs, .event event ∈ query.step caret config := by
  simp [events]

theorem findings_concat (configs : List Config) (config : Config) :
    query.findings caret (configs ++ [config]) =
      query.findings caret configs ++ (query.step caret config).filterMap Effect.finding? := by
  simp [findings]

theorem events_concat (configs : List Config) (config : Config) :
    query.events caret (configs ++ [config]) =
      query.events caret configs ++ (query.step caret config).filterMap Effect.event? := by
  simp [events]

/-- Only a call inside another call returns. -/
theorem two_le_length_of_leave {config : Config} {state : StateId}
    (h : .move (.leave state) ∈ query.step caret config) : 2 ≤ config.stack.length := by
  cases Moves.of_mem_step h with
  | leave _ hstack =>
    rw [hstack, List.length_cons, List.length_cons]
    exact Nat.le_add_left 2 _

end Query

/-! ## Numbered stacks -/

namespace StackTable

/-- Every number of the old table denotes the same stack in the new one. -/
def Extends (new old : StackTable) : Prop :=
  ∀ (number : ℕ) (entry : StackEntry),
    old.entries[number]? = some entry → new.entries[number]? = some entry

theorem Extends.refl (table : StackTable) : table.Extends table := fun _ _ h => h

theorem Extends.trans {old mid new : StackTable} (h : new.Extends mid) (h' : mid.Extends old) :
    new.Extends old := fun number entry he => h number entry (h' number entry he)

theorem extends_push (table : StackTable) (outer? : Option ℕ) (frame : Frame) :
    (table.push outer? frame).2.Extends table :=
  fun _ _ he => entries_push_of_eq_some he

/-- A visit stands for a configuration: its number denotes the stack. -/
def Denotes (table : StackTable) (visit : Visit) (config : Config) : Prop :=
  visit.state = config.state ∧ visit.index = config.index ∧
    ∃ entry, table.entries[visit.stack]? = some entry ∧ entry.stack = config.stack

theorem Denotes.mono {old new : StackTable} {visit : Visit} {config : Config}
    (h : old.Denotes visit config) (hext : new.Extends old) : new.Denotes visit config := by
  obtain ⟨hstate, hindex, entry, he, hs⟩ := h
  exact ⟨hstate, hindex, entry, hext _ _ he, hs⟩

theorem Denotes.config_eq {table : StackTable} {visit : Visit} {config config' : Config}
    (h : table.Denotes visit config) (h' : table.Denotes visit config') : config = config' := by
  obtain ⟨hstate, hindex, entry, he, hs⟩ := h
  obtain ⟨hstate', hindex', entry', he', hs'⟩ := h'
  obtain rfl : entry = entry' := Option.some.inj (he.symm.trans he')
  cases config
  cases config'
  simp_all

theorem Valid.visit_eq {table : StackTable} (hvalid : table.Valid) {visit visit' : Visit}
    {config : Config} (h : table.Denotes visit config) (h' : table.Denotes visit' config) :
    visit = visit' := by
  obtain ⟨hstate, hindex, entry, he, hs⟩ := h
  obtain ⟨hstate', hindex', entry', he', hs'⟩ := h'
  exact Visit.ext (hstate.trans hstate'.symm) (hindex.trans hindex'.symm)
    (hvalid.stack_injective he he' (hs.trans hs'.symm))

end StackTable

theorem Pending.Known.denotes {pending : Pending} {table : StackTable} {size : ℕ}
    (h : pending.Known table size) : table.Denotes pending.visit pending.config :=
  ⟨rfl, rfl, h.stack_eq⟩

/-! ## Effects, one after the other -/

namespace Progress

variable {query : Query} {caret size : ℕ} {seed : CallStack} {origin : Pending}

/-- What a list of effects of `origin` makes of the bookkeeping of a walk. -/
structure Follows (origin : Config) (effects : List Effect) (old new : Progress) : Prop where
  table : new.table.Extends old.table
  pending : new.pending.map Pending.config =
    ((effects.filterMap Effect.move?).map origin.after).reverse ++
      old.pending.map Pending.config
  candidates : new.candidates =
    (effects.filterMap Effect.finding?).foldl Candidates.record old.candidates
  trace : new.trace.toList = old.trace.toList ++ effects.filterMap Effect.event?

theorem Follows.refl (config : Config) (progress : Progress) :
    Follows config [] progress progress where
  table := .refl _
  pending := by simp
  candidates := rfl
  trace := by simp

theorem Follows.cons {config : Config} {effect : Effect} {effects : List Effect}
    {old mid new : Progress} (h : Follows config [effect] old mid)
    (h' : Follows config effects mid new) : Follows config (effect :: effects) old new where
  table := h'.table.trans h.table
  pending := by
    -- What is put last waits first, so the moves come out in reverse.
    have happend : effect :: effects = [effect] ++ effects := rfl
    rw [h'.pending, h.pending, happend, List.filterMap_append]
    simp
  candidates := by
    rw [h'.candidates, h.candidates, ← List.foldl_append, ← List.filterMap_append]
    rfl
  trace := by
    rw [h'.trace, h.trace, List.append_assoc, ← List.filterMap_append]
    rfl

/-- The number of a stack with two frames knows the number of the stack around it. -/
theorem exists_outer {table : StackTable} (hvalid : table.Valid)
    (horigin : origin.Known table size) (htwo : 2 ≤ origin.config.stack.length) :
    ∃ number, table.outer? origin.number = some number := by
  obtain ⟨entry, he, hs⟩ := horigin.stack_eq
  rcases hvalid.stack_cases he with ⟨-, hone⟩ | ⟨outer, -, ho, -⟩
  · rw [← hs, hone] at htwo
    simp at htwo
  · exact ⟨outer, by simp [StackTable.outer?, he, ho]⟩

theorem follows_apply {progress : Progress} (hvalid : progress.table.Valid)
    (horigin : origin.Known progress.table size) {effect : Effect}
    (hleave : ∀ state, effect = .move (.leave state) → 2 ≤ origin.config.stack.length) :
    Follows origin.config [effect] progress (progress.apply origin effect) := by
  cases effect with
  | report finding => exact ⟨.refl _, rfl, rfl, by simp [apply, Effect.event?]⟩
  | event event => exact ⟨.refl _, rfl, rfl, by simp [apply, Effect.event?]⟩
  | move move =>
    cases move with
    | goto state => exact ⟨.refl _, rfl, rfl, by simp [apply, Progress.move, Effect.event?]⟩
    | advance state => exact ⟨.refl _, rfl, rfl, by simp [apply, Progress.move, Effect.event?]⟩
    | enter state frame =>
      exact ⟨StackTable.extends_push _ _ _, rfl, rfl,
        by simp [apply, Progress.move, Effect.event?]⟩
    | leave state =>
      -- The table is asked for the stack around; it knows one, for two calls are open.
      obtain ⟨number, hnumber⟩ := exists_outer hvalid horigin (hleave state rfl)
      simp only [apply, Progress.move, hnumber]
      exact ⟨.refl _, rfl, rfl, by simp [Effect.event?]⟩

theorem follows_foldl_apply {effects : List Effect} {progress : Progress}
    (hsound : progress.Sound query.tokens.size caret seed)
    (horigin : origin.Known progress.table query.tokens.size)
    (hfits : ∀ move, .move move ∈ effects → query.Fits caret origin.config move)
    (hleave : ∀ state, .move (.leave state) ∈ effects → 2 ≤ origin.config.stack.length) :
    Follows origin.config effects progress (effects.foldl (apply origin) progress) := by
  -- On the effects, with any walk that knows `origin`: each effect leaves it known.
  induction effects generalizing progress with
  | nil => exact .refl _ _
  | cons effect effects ih =>
    have hhead : Follows origin.config [effect] progress (progress.apply origin effect) :=
      follows_apply hsound.valid horigin fun state hstate =>
        hleave state (hstate ▸ List.mem_cons_self)
    have hnext : ([effect].foldl (apply origin) progress).Sound query.tokens.size caret seed :=
      hsound.foldl_apply horigin fun move hmove =>
        hfits move (List.mem_singleton.mp hmove ▸ List.mem_cons_self)
    have hknown : origin.Known (progress.apply origin effect).table query.tokens.size :=
      ⟨horigin.stack_eq.imp fun entry he => ⟨hhead.table _ _ he.1, he.2⟩, horigin.index_le⟩
    rw [List.foldl_cons]
    exact hhead.cons (ih hnext hknown (fun move hm => hfits move (List.mem_cons_of_mem _ hm))
      fun state hm => hleave state (List.mem_cons_of_mem _ hm))

/-! ## Walks and searches side by side -/

/-- A walk and a search are at the same point: the same configurations wait, the same have
been taken up, and what the walk has recorded is what these contribute. -/
structure Mirrors (query : Query) (caret : ℕ) (progress : Progress) (search : Search Config) :
    Prop where
  pending : progress.pending.map Pending.config = search.waiting
  taken_of_visited : ∀ visit ∈ progress.visited,
    ∃ config ∈ search.taken, progress.table.Denotes visit config
  visited_of_taken : ∀ config ∈ search.taken,
    ∃ visit ∈ progress.visited, progress.table.Denotes visit config
  candidates : progress.candidates =
    (query.findings caret search.taken).foldl Candidates.record {}
  trace : progress.trace.toList = query.events caret search.taken

variable {progress : Progress} {search : Search Config} {rest : List Pending}

theorem Mirrors.visited_iff (h : Mirrors query caret progress search)
    (hvalid : progress.table.Valid) (horigin : origin.Known progress.table size) :
    origin.visit ∈ progress.visited ↔ origin.config ∈ search.taken := by
  constructor
  · intro hvisit
    obtain ⟨config, htaken, hdenotes⟩ := h.taken_of_visited _ hvisit
    rwa [horigin.denotes.config_eq hdenotes]
  · intro htaken
    obtain ⟨visit, hvisit, hdenotes⟩ := h.visited_of_taken _ htaken
    rwa [hvalid.visit_eq horigin.denotes hdenotes]

/-- Exploring `origin` carries out its effects on a walk in which it no longer waits and counts
as visited. -/
theorem Sound.follows_explore (hsound : progress.Sound query.tokens.size caret seed)
    (hpending : progress.pending = origin :: rest) :
    Follows origin.config (query.step caret origin.config)
      { progress with pending := rest, visited := progress.visited.insert origin.visit }
      (progress.explore query caret origin rest) :=
  follows_foldl_apply (hsound.mark hpending)
    (hsound.pending origin (hpending ▸ List.mem_cons_self))
    (fun _ => Query.fits_of_mem_step) fun _ => Query.two_le_length_of_leave

theorem Mirrors.explore (h : Mirrors query caret progress search)
    (hsound : progress.Sound query.tokens.size caret seed)
    (hpending : progress.pending = origin :: rest) :
    Mirrors query caret (progress.explore query caret origin rest)
      ⟨search.taken ++ [origin.config],
        query.next caret origin.config ++ rest.map Pending.config⟩ := by
  have horigin := hsound.pending origin (hpending ▸ List.mem_cons_self)
  have hfollows := hsound.follows_explore hpending
  refine ⟨hfollows.pending, ?_, ?_, ?_, ?_⟩
  -- Marks and configurations correspond as before, with `origin` new on both sides. The
  -- table has grown, which changes the meaning of no number.
  · intro visit hv
    rw [visited_explore] at hv
    rcases Std.ExtTreeSet.mem_insert.mp hv with hv | hv
    · obtain rfl := Std.LawfulEqOrd.eq_of_compare hv
      exact ⟨origin.config, by simp, horigin.denotes.mono hfollows.table⟩
    · obtain ⟨config, htaken, hdenotes⟩ := h.taken_of_visited visit hv
      exact ⟨config, List.mem_append_left _ htaken, hdenotes.mono hfollows.table⟩
  · intro config htaken
    rw [visited_explore]
    rcases List.mem_append.mp htaken with htaken | htaken
    · obtain ⟨visit, hv, hdenotes⟩ := h.visited_of_taken config htaken
      exact ⟨visit, Std.ExtTreeSet.mem_insert.mpr (Or.inr hv), hdenotes.mono hfollows.table⟩
    · rw [List.mem_singleton.mp htaken]
      exact ⟨origin.visit, Std.ExtTreeSet.mem_insert_self, horigin.denotes.mono hfollows.table⟩
  · rw [Query.findings_concat, List.foldl_append, ← h.candidates]
    exact hfollows.candidates
  · rw [Query.events_concat, ← h.trace]
    exact hfollows.trace

theorem Mirrors.round (h : Mirrors query caret progress search)
    (hsound : progress.Sound query.tokens.size caret seed) :
    Mirrors query caret (progress.round query caret) (search.round (query.next caret)) := by
  cases hpending : progress.pending with
  | nil =>
    have hwaiting : search.waiting = [] := by rw [← h.pending, hpending, List.map_nil]
    simp only [Progress.round, Search.round, hpending, hwaiting]
    exact h
  | cons origin rest =>
    have hwaiting : search.waiting = origin.config :: rest.map Pending.config := by
      rw [← h.pending, hpending, List.map_cons]
    -- The walk asks its marks, the search its list: these agree.
    have hvisited := h.visited_iff hsound.valid
      (hsound.pending origin (hpending ▸ List.mem_cons_self))
    simp only [Progress.round, Search.round, hpending, hwaiting]
    by_cases htaken : origin.config ∈ search.taken
    · rw [if_pos htaken, if_pos (hvisited.mpr htaken)]
      exact ⟨rfl, h.taken_of_visited, h.visited_of_taken, h.candidates, h.trace⟩
    · rw [if_neg htaken, if_neg (mt hvisited.mp htaken)]
      exact h.explore hsound hpending

theorem mirrors_start (query : Query) (caret : ℕ) {first : Config} (hstack : first.stack ≠ []) :
    Mirrors query caret (start first) (Search.start first) := by
  have hsome : ∀ (table : StackTable) (outer? : Option ℕ) (frames : List Frame),
      (outer?.isSome ∨ frames ≠ []) → (table.pushAll outer? frames).1.isSome := by
    intro table outer? frames
    induction frames generalizing table outer? with
    | nil => simp [StackTable.pushAll]
    | cons frame frames ih =>
      intro _
      exact ih _ _ (Or.inl rfl)
  -- So a stack with a frame has a number, and one configuration waits.
  obtain ⟨number, hnumber⟩ := Option.isSome_iff_exists.mp
    (hsome {} none first.stack.reverse (Or.inr (by simpa using hstack)))
  exact ⟨by simp [start, Search.start, hnumber], by simp [start], by simp [Search.start],
    rfl, rfl⟩

end Progress

/-! ## Whole walks -/

namespace Query

variable {query : Query} {caret : ℕ} {first : Config}

/-- A walk from `first` to `caret` after `n` rounds. -/
def rounds (query : Query) (caret : ℕ) (first : Config) (n : ℕ) : Progress :=
  (Progress.round query caret)^[n] (.start first)

/-- What a walk from `first` to `caret` yields after `n` rounds. -/
def outcomeAfter (query : Query) (caret : ℕ) (first : Config) (n : ℕ) : Outcome :=
  query.outcome (query.rounds caret first n)

/-- The search over configurations that a walk from `first` to `caret` mirrors. -/
def searched (query : Query) (caret : ℕ) (first : Config) (n : ℕ) : Search Config :=
  (Search.round (query.next caret))^[n] (.start first)

theorem rounds_succ (n : ℕ) :
    query.rounds caret first (n + 1) = (query.rounds caret first n).round query caret :=
  Function.iterate_succ_apply' _ _ _

theorem sound_rounds (caret : ℕ) (hindex : first.index ≤ query.tokens.size) (n : ℕ) :
    (query.rounds caret first n).Sound query.tokens.size caret first.stack := by
  induction n with
  | zero => exact Progress.sound_start caret hindex
  | succ n ih =>
    rw [rounds_succ]
    exact ih.round

theorem mirrors_rounds (caret : ℕ) (hindex : first.index ≤ query.tokens.size)
    (hstack : first.stack ≠ []) (n : ℕ) :
    Progress.Mirrors query caret (query.rounds caret first n) (query.searched caret first n) := by
  induction n with
  | zero => exact Progress.mirrors_start query caret hstack
  | succ n ih =>
    rw [rounds_succ, searched, Function.iterate_succ_apply']
    exact ih.round (sound_rounds caret hindex n)

theorem exists_run_eq (seed : CallStack) (progress : Progress)
    (h : progress.Sound query.tokens.size caret seed) :
    ∃ n, ((Progress.round query caret)^[n] progress).pending = [] ∧
      progress.run query caret seed h = (Progress.round query caret)^[n] progress := by
  fun_induction Progress.run query caret seed progress h with
  | case1 progress h hpending => exact ⟨0, hpending, rfl⟩
  | case2 progress h origin rest hpending ih =>
    obtain ⟨n, hdone, hrun⟩ := ih
    exact ⟨n + 1, hdone, hrun⟩

/-- A walk ends: after some round nothing waits, and its outcome is read off there. -/
theorem exists_walk_eq (caret : ℕ) (hindex : first.index ≤ query.tokens.size) :
    ∃ n, (query.rounds caret first n).pending = [] ∧
      query.walk caret first hindex = query.outcomeAfter caret first n := by
  obtain ⟨n, hdone, hrun⟩ := exists_run_eq first.stack (.start first)
    (Progress.sound_start caret hindex)
  exact ⟨n, hdone, by rw [walk, hrun]; rfl⟩

/-- Once nothing waits, further rounds change nothing. -/
theorem rounds_add_eq {n : ℕ} (hdone : (query.rounds caret first n).pending = []) (k : ℕ) :
    query.rounds caret first (n + k) = query.rounds caret first n := by
  induction k with
  | zero => rfl
  | succ k ih =>
    rw [← Nat.add_assoc, rounds_succ, ih, Progress.round, hdone]

theorem walk_eq_outcome (hindex : first.index ≤ query.tokens.size) {n : ℕ}
    (hdone : (query.rounds caret first n).pending = []) :
    query.walk caret first hindex = query.outcomeAfter caret first n := by
  obtain ⟨m, hlast, hwalk⟩ := exists_walk_eq caret hindex
  rw [hwalk]
  -- Whichever round comes later, nothing changes between the two.
  rcases Nat.le_total n m with h | h
  · obtain ⟨k, rfl⟩ := Nat.exists_eq_add_of_le h
    rw [outcomeAfter, outcomeAfter, rounds_add_eq hdone]
  · obtain ⟨k, rfl⟩ := Nat.exists_eq_add_of_le h
    rw [outcomeAfter, outcomeAfter, rounds_add_eq hlast]

/-- The outcome of a walk is read off the configurations that can be reached from its first
one, each explored once. -/
theorem exists_explored (caret : ℕ) (hindex : first.index ≤ query.tokens.size)
    (hstack : first.stack ≠ []) :
    ∃ explored : List Config, explored.Nodup ∧
      (∀ config, config ∈ explored ↔ query.Reaches caret first config) ∧
      (query.walk caret first hindex).candidates =
        (query.findings caret explored).foldl Candidates.record {} ∧
      (query.walk caret first hindex).trace.toList = query.events caret explored := by
  obtain ⟨n, hdone, hwalk⟩ := exists_walk_eq caret hindex
  have hmirrors := mirrors_rounds caret hindex hstack n
  have hcovers := Search.covers_iterate (query.next caret) first n
  have hwaiting : (query.searched caret first n).waiting = [] := by
    rw [← hmirrors.pending, hdone, List.map_nil]
  refine ⟨(query.searched caret first n).taken, hcovers.nodup, ?_, ?_, ?_⟩
  · intro config
    rw [Reaches, leads_eq]
    exact hcovers.mem_taken_iff hwaiting config
  · rw [hwalk]
    exact hmirrors.candidates
  · rw [hwalk]
    exact hmirrors.trace

/-- Walks that go the same ways and find the same, wherever the first one gets, yield the same
candidates. -/
theorem candidates_walk_congr {query' : Query} (hindex : first.index ≤ query.tokens.size)
    (hindex' : first.index ≤ query'.tokens.size) (hstack : first.stack ≠ [])
    (hmoves : ∀ config, query.Reaches caret first config →
      (query.step caret config).filterMap Effect.move? =
        (query'.step caret config).filterMap Effect.move?)
    (hfindings : ∀ config, query.Reaches caret first config →
      (query.step caret config).filterMap Effect.finding? =
        (query'.step caret config).filterMap Effect.finding?) :
    (query.walk caret first hindex).candidates = (query'.walk caret first hindex').candidates := by
  obtain ⟨n, hdone, hwalk⟩ := exists_walk_eq caret hindex
  have hmirrors := mirrors_rounds caret hindex hstack n
  have hmirrors' := mirrors_rounds caret hindex' hstack n
  -- The searches behind the walks are the same, so both walks are done after `n` rounds.
  have hsearched : query.searched caret first n = query'.searched caret first n := by
    apply Search.iterate_round_congr
    intro config hreach
    rw [next, next, hmoves config (by rwa [Reaches, leads_eq])]
  have hdone' : (query'.rounds caret first n).pending = [] := by
    rw [← List.map_eq_nil_iff, hmirrors'.pending, ← hsearched, ← hmirrors.pending, hdone,
      List.map_nil]
  have htaken : ∀ config ∈ (query.searched caret first n).taken,
      query.Reaches caret first config := by
    intro config hconfig
    rw [Reaches, leads_eq]
    exact (Search.covers_iterate (query.next caret) first n).reached config (Or.inl hconfig)
  calc (query.walk caret first hindex).candidates
      = (query.findings caret (query.searched caret first n).taken).foldl Candidates.record {} := by
        rw [hwalk]
        exact hmirrors.candidates
    _ = (query'.findings caret (query.searched caret first n).taken).foldl
          Candidates.record {} := by
        rw [findings, findings, List.filterMap_flatMap, List.filterMap_flatMap,
          List.flatMap_congr fun config hconfig => hfindings config (htaken config hconfig)]
    _ = (query'.walk caret first hindex').candidates := by
        rw [walk_eq_outcome hindex' hdone', hsearched]
        exact hmirrors'.candidates.symm

theorem mem_trace_walk_iff (hindex : first.index ≤ query.tokens.size) (hstack : first.stack ≠ [])
    {event : Event} :
    event ∈ (query.walk caret first hindex).trace ↔
      ∃ config, query.Reaches caret first config ∧ .event event ∈ query.step caret config := by
  obtain ⟨explored, -, hreach, -, htrace⟩ := exists_explored caret hindex hstack
  rw [← Array.mem_toList_iff, htrace, mem_events_iff]
  simp only [hreach]

end Query

end CodeCompletion
