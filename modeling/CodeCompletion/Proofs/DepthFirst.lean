import CodeCompletion.Proofs.Tally

/-!
# Walks as recursion

A walk keeps what waits on a stack of its own, where each edge of a state puts what it leads to
before all the rest. It marks a configuration when it takes it up, so that a configuration may
wait several times while others are explored. It is nevertheless depth-first search in the plain
sense. To visit a configuration is to let the edges of its state take effect, the last edge first,
and then to visit what they lead to, from the first edge on, each with everything behind it.

## Main definitions

* `Ledger`: what depth-first search keeps, which is a walk without what waits
* `Ledger.carry`, `Ledger.passEdges`, `Ledger.explore`: the effects of one edge, of the edges of a
  state and of a configuration, and what they lead to
* `Ledger.visit`, `Ledger.visitEach`, `Query.depthFirst`: depth-first search by recursion
* `Progress.taken`, `Progress.Runs`: rounds of a walk, and the configurations that they take up

## Main results

* `Query.length_moves_follow_le`: an edge leads to one configuration at most
* `Ledger.explore_progress`: what the edges of a state lead to waits in their order
* `Ledger.runs_visits`: what the recursion does, rounds do, whatever else waits
* `Query.answer_eq_depthFirst`: an answer is what the recursion yields
-/

set_option autoImplicit false

namespace CodeCompletion

/-! ## One configuration -/

/-- What depth-first search keeps: all of a walk but what waits. -/
structure Ledger where
  table : StackTable
  visited : Std.ExtTreeSet Visit
  revisited : ℕ
  candidates : Candidates
  trace : Array Event

/-- What a walk keeps apart from what waits. -/
def Progress.ledger (progress : Progress) : Ledger :=
  ⟨progress.table, progress.visited, progress.revisited, progress.candidates, progress.trace⟩

namespace Ledger

/-- The walk that keeps as much, with `waiting` to be taken up. -/
def progress (ledger : Ledger) (waiting : List Pending) : Progress :=
  ⟨ledger.table, waiting, ledger.visited, ledger.revisited, ledger.candidates, ledger.trace⟩

/-- Make a move from `origin`. What it leads to is given with the number of its stack, and a stack
that is new is numbered. -/
def move (ledger : Ledger) (origin : Pending) (way : Move) : Ledger × Option Pending :=
  let config := origin.config.after way
  match way with
  | .goto _ | .advance _ => (ledger, some ⟨config, origin.number⟩)
  | .enter _ frame =>
    let (number, table) := ledger.table.push (some origin.number) frame
    ({ ledger with table }, some ⟨config, number⟩)
  | .leave _ => (ledger, (ledger.table.outer? origin.number).map fun number => ⟨config, number⟩)

/-- Let effects of `origin` happen one after the other, and list what they lead to. -/
def carry (origin : Pending) : Ledger → List Effect → Ledger × List Pending
  | ledger, [] => (ledger, [])
  | ledger, .move way :: effects =>
    let here := ledger.move origin way
    let later := carry origin here.1 effects
    (later.1, here.2.toList ++ later.2)
  | ledger, .report finding :: effects =>
    carry origin { ledger with candidates := ledger.candidates.record finding } effects
  | ledger, .event news :: effects =>
    carry origin { ledger with trace := ledger.trace.push news } effects

/-- Let the edges of a state take effect, the last one first, and list what they lead to, from the
first one on. -/
def passEdges (query : Query) (caret : ℕ) (origin : Pending) (ledger : Ledger) :
    List Edge → Ledger × List Pending
  | [] => (ledger, [])
  | edge :: edges =>
    let later := passEdges query caret origin ledger edges
    let here := carry origin later.1 (query.follow caret origin.config edge)
    (here.1, here.2 ++ later.2)

/-- Mark a configuration and let it take effect: in a stop state the rule ends, in any other state
its edges are passed. -/
def explore (query : Query) (caret : ℕ) (ledger : Ledger) (origin : Pending) :
    Ledger × List Pending :=
  let marked : Ledger := { ledger with visited := ledger.visited.insert origin.visit }
  match query.network.state? origin.config.state with
  | none => (marked, [])
  | some state =>
    if state.isStop then carry origin marked (Query.finish origin.config.stack)
    else passEdges query caret origin marked state.edges

end Ledger

/-! ## One configuration of a walk -/

namespace Query

variable {query : Query} {caret : ℕ} {config : Config}

/-- An edge leads to one configuration at most. -/
theorem length_moves_follow_le (edge : Edge) :
    ((query.follow caret config edge).filterMap Effect.move?).length ≤ 1 := by
  obtain ⟨label, target⟩ := edge
  rcases query.follow_cases caret config label target with
    hpasses | ⟨predicate, hrejected⟩ | ⟨rule, rfl⟩ | hconsumes
  · rw [follow_of_passes hpasses]
    exact Nat.le_refl 1
  · rw [hrejected]
    exact Nat.zero_le 1
  · change ((query.call caret config rule target).filterMap Effect.move?).length ≤ 1
    unfold call
    split
    · exact Nat.zero_le 1
    · dsimp only
      split_ifs <;> simp [List.filterMap_cons, Effect.move?]
  · rw [follow_of_consumes hconsumes]
    unfold consume
    split <;> split_ifs <;> simp [List.filterMap_cons, Effect.move?]

/-- At the end of a rule there is one place to return to at most. -/
theorem length_moves_finish_le (stack : CallStack) :
    ((finish stack).filterMap Effect.move?).length ≤ 1 := by
  unfold finish
  split <;> simp [List.filterMap_cons, Effect.move?]

end Query

namespace Ledger

variable {query : Query} {caret : ℕ} {origin : Pending}

/-- A walk makes the same move, and puts what it leads to before all that waits. -/
theorem move_progress (ledger : Ledger) (waiting : List Pending) (way : Move) :
    (ledger.progress waiting).move origin way =
      (ledger.move origin way).1.progress ((ledger.move origin way).2.toList ++ waiting) := by
  cases way with
  | goto state | advance state | enter state frame => rfl
  | leave state =>
    have htable : (ledger.progress waiting).table = ledger.table := rfl
    simp only [Progress.move, move, htable]
    cases ledger.table.outer? origin.number with
    | none => rfl
    | some number => rfl

/-- What waits is a stack, so what effects lead to comes out in reverse. -/
theorem foldl_apply_progress (ledger : Ledger) (waiting : List Pending) (effects : List Effect) :
    effects.foldl (Progress.apply origin) (ledger.progress waiting) =
      (carry origin ledger effects).1.progress
        ((carry origin ledger effects).2.reverse ++ waiting) := by
  induction effects generalizing ledger waiting with
  | nil => rfl
  | cons effect effects ih =>
    rw [List.foldl_cons]
    cases effect with
    | report finding =>
      exact ih { ledger with candidates := ledger.candidates.record finding } waiting
    | event news => exact ih { ledger with trace := ledger.trace.push news } waiting
    | move way =>
      -- A single move leads to one configuration at most, so there is nothing to reverse.
      have hone : (ledger.move origin way).2.toList.reverse =
          (ledger.move origin way).2.toList := by
        cases (ledger.move origin way).2 <;> rfl
      simp only [Progress.apply, move_progress, ih, carry, List.reverse_append, hone,
        List.append_assoc]

theorem length_carry_le (origin : Pending) (ledger : Ledger) (effects : List Effect) :
    (carry origin ledger effects).2.length ≤ (effects.filterMap Effect.move?).length := by
  induction effects generalizing ledger with
  | nil => exact Nat.le_refl 0
  | cons effect effects ih =>
    cases effect with
    | report finding => exact ih _
    | event news => exact ih _
    | move way =>
      have hone : (ledger.move origin way).2.toList.length ≤ 1 := Option.length_toList_le
      have hlater := ih (ledger.move origin way).1
      simp only [carry, List.length_append, List.filterMap_cons, Effect.move?, List.length_cons]
      omega

/-- Effects that lead to one configuration at most put it before all that waits. -/
theorem foldl_apply_progress_of_le (ledger : Ledger) (waiting : List Pending)
    {effects : List Effect} (hone : (effects.filterMap Effect.move?).length ≤ 1) :
    effects.foldl (Progress.apply origin) (ledger.progress waiting) =
      (carry origin ledger effects).1.progress ((carry origin ledger effects).2 ++ waiting) := by
  have hlength := Nat.le_trans (length_carry_le origin ledger effects) hone
  have hreverse : (carry origin ledger effects).2.reverse = (carry origin ledger effects).2 := by
    match hnext : (carry origin ledger effects).2 with
    | [] | [only] => rfl
    | first :: second :: others => simp [hnext] at hlength
  rw [foldl_apply_progress, hreverse]

/-- A step lists the effects of the edges from the last one on. What they lead to is put on the
stack in this order, so that it waits in the order of the edges. -/
theorem foldl_follow_progress (ledger : Ledger) (waiting : List Pending) (edges : List Edge) :
    (edges.reverse.flatMap (query.follow caret origin.config)).foldl (Progress.apply origin)
        (ledger.progress waiting) =
      (passEdges query caret origin ledger edges).1.progress
        ((passEdges query caret origin ledger edges).2 ++ waiting) := by
  induction edges with
  | nil => rfl
  | cons edge edges ih =>
    rw [List.reverse_cons, List.flatMap_append, List.foldl_append, ih, List.flatMap_singleton,
      foldl_apply_progress_of_le _ _ (Query.length_moves_follow_le edge), passEdges,
      List.append_assoc]

/-- Exploring `origin` in a walk marks it, lets it take effect, and puts what its edges lead to
before the rest, in the order of the edges. -/
theorem explore_progress (query : Query) (caret : ℕ) (ledger : Ledger) (origin : Pending)
    (waiting rest : List Pending) :
    (ledger.progress waiting).explore query caret origin rest =
      (ledger.explore query caret origin).1.progress
        ((ledger.explore query caret origin).2 ++ rest) := by
  let marked : Ledger := { ledger with visited := ledger.visited.insert origin.visit }
  change (query.step caret origin.config).foldl (Progress.apply origin) (marked.progress rest) = _
  unfold Query.step explore
  cases query.network.state? origin.config.state with
  | none => rfl
  | some state =>
    dsimp only
    split
    · exact foldl_apply_progress_of_le marked rest (Query.length_moves_finish_le _)
    · exact marked.foldl_follow_progress rest state.edges

/-! ## The recursion -/

variable {size : ℕ} {seed : CallStack} {ledger : Ledger} {rest waiting : List Pending}

/-- A walk is sound with anything else waiting that its table knows. -/
theorem sound_progress (h : (ledger.progress waiting).Sound size caret seed) (rest : List Pending)
    (hknown : ∀ pending ∈ rest, pending.Known ledger.table size) :
    (ledger.progress rest).Sound size caret seed :=
  ⟨h.valid, h.admissible, hknown, h.visited⟩

theorem sound_first (h : (ledger.progress (origin :: rest)).Sound size caret seed) :
    (ledger.progress [origin]).Sound size caret seed :=
  sound_progress h [origin] fun _ hpending =>
    h.pending _ (List.mem_singleton.mp hpending ▸ List.mem_cons_self)

theorem sound_drop (h : (ledger.progress [origin]).Sound size caret seed) :
    ({ ledger with revisited := ledger.revisited + 1 }.progress []).Sound size caret seed :=
  h.drop rfl

theorem sound_explore (h : (ledger.progress [origin]).Sound query.tokens.size caret seed) :
    ((ledger.explore query caret origin).1.progress
      (ledger.explore query caret origin).2).Sound query.tokens.size caret seed := by
  have hexplore := h.explore rfl
  rwa [explore_progress, List.append_nil] at hexplore

theorem table_explore (h : (ledger.progress [origin]).Sound query.tokens.size caret seed) :
    (ledger.explore query caret origin).1.table.Extends ledger.table := by
  have hfollows := (h.follows_explore rfl).table
  rwa [explore_progress] at hfollows

theorem size_visited_explore (hnew : origin.visit ∉ ledger.visited) :
    (ledger.explore query caret origin).1.visited.size = ledger.visited.size + 1 := by
  have hsize : ((ledger.progress []).explore query caret origin []).visited.size = _ :=
    Progress.size_visited_explore hnew
  rwa [explore_progress] at hsize

/-- What visiting makes of what is kept: the configurations that it takes up, in order, and what is
kept afterwards, with all numbers and marks from before. -/
structure Visiting (query : Query) (caret : ℕ) (seed : CallStack) (before : Ledger) where
  order : List Config
  after : Ledger
  sound : (after.progress []).Sound query.tokens.size caret seed
  table : after.table.Extends before.table
  size_le : before.visited.size ≤ after.visited.size

theorem Visiting.resume (visiting : Visiting query caret seed ledger)
    (h : (ledger.progress (origin :: rest)).Sound query.tokens.size caret seed) :
    (visiting.after.progress rest).Sound query.tokens.size caret seed := by
  refine sound_progress visiting.sound rest fun pending hpending => ?_
  obtain ⟨hstack, hindex⟩ := h.pending pending (List.mem_cons_of_mem _ hpending)
  exact ⟨hstack.imp fun entry hentry => ⟨visiting.table _ _ hentry.1, hentry.2⟩, hindex⟩

mutual

/-- Visit a configuration. If it has been taken up before, this is counted and nothing else
happens. Otherwise it is marked, its edges take effect, the last one first, and then all that they
lead to is visited, from the first one on. -/
def visit (query : Query) (caret : ℕ) (seed : CallStack) (ledger : Ledger) (origin : Pending)
    (h : (ledger.progress [origin]).Sound query.tokens.size caret seed) :
    Visiting query caret seed ledger :=
  if hold : origin.visit ∈ ledger.visited then
    ⟨[], { ledger with revisited := ledger.revisited + 1 }, sound_drop h, .refl _, Nat.le_refl _⟩
  else
    let found := ledger.explore query caret origin
    have hfound : (found.1.progress found.2).Sound query.tokens.size caret seed := sound_explore h
    let inner := visitEach query caret seed found.1 found.2 hfound
    ⟨origin.config :: inner.order, inner.after, inner.sound, inner.table.trans (table_explore h),
      Nat.le_trans (Nat.le_of_lt (size_visited_explore hold ▸ Nat.lt_succ_self _)) inner.size_le⟩
termination_by (Progress.visitBound query.tokens.size caret seed - ledger.visited.size, 0)
decreasing_by
  -- One more configuration is marked, and there is a bound to how many can be.
  have hle : found.1.visited.size ≤ _ := hfound.size_visited_le
  have hsize : found.1.visited.size = ledger.visited.size + 1 := size_visited_explore hold
  exact Prod.Lex.left _ _ (by rw [hsize] at hle ⊢; omega)

/-- Visit configurations one after the other, each with all that lies behind it. -/
def visitEach (query : Query) (caret : ℕ) (seed : CallStack) (ledger : Ledger)
    (origins : List Pending)
    (h : (ledger.progress origins).Sound query.tokens.size caret seed) :
    Visiting query caret seed ledger :=
  match origins with
  | [] => ⟨[], ledger, h, .refl _, Nat.le_refl _⟩
  | origin :: rest =>
    let here := visit query caret seed ledger origin (sound_first h)
    let later := visitEach query caret seed here.after rest (here.resume h)
    ⟨here.order ++ later.order, later.after, later.sound, later.table.trans here.table,
      Nat.le_trans here.size_le later.size_le⟩
termination_by
  (Progress.visitBound query.tokens.size caret seed - ledger.visited.size, origins.length + 1)
decreasing_by
  · exact Prod.Lex.right _ (Nat.succ_pos _)
  · exact Prod.Lex.right' _ (Nat.sub_le_sub_left here.size_le _) (Nat.lt_succ_self _)

end

end Ledger

/-! ## Rounds -/

namespace Progress

variable {query : Query} {caret : ℕ} {progress before mid after : Progress}

/-- The configurations that the next `n` rounds take up, in order. -/
def taken (query : Query) (caret : ℕ) (progress : Progress) (n : ℕ) : List Config :=
  (List.range n).filterMap fun k => ((round query caret)^[k] progress).taking?

/-- Some rounds lead from one walk to the other, and they take up the given configurations. -/
def Runs (query : Query) (caret : ℕ) (before : Progress) (order : List Config)
    (after : Progress) : Prop :=
  ∃ n, (round query caret)^[n] before = after ∧ taken query caret before n = order

theorem Runs.refl (progress : Progress) : Runs query caret progress [] progress :=
  ⟨0, rfl, rfl⟩

theorem runs_round (query : Query) (caret : ℕ) (progress : Progress) :
    Runs query caret progress progress.taking?.toList (progress.round query caret) := by
  refine ⟨1, rfl, ?_⟩
  cases htaking : progress.taking? <;> simp [taken, htaking]

theorem taken_add (n m : ℕ) :
    taken query caret progress (n + m) =
      taken query caret progress n ++ taken query caret ((round query caret)^[n] progress) m := by
  rw [taken, List.range_add, List.filterMap_append, List.filterMap_map]
  refine congrArg (_ ++ ·) (List.filterMap_congr fun k _ => ?_)
  rw [Function.comp_apply, Nat.add_comm n k, Function.iterate_add_apply]

theorem Runs.trans {order order' : List Config} (h : Runs query caret before order mid)
    (h' : Runs query caret mid order' after) :
    Runs query caret before (order ++ order') after := by
  obtain ⟨n, rfl, rfl⟩ := h
  obtain ⟨m, rfl, rfl⟩ := h'
  exact ⟨n + m, by rw [Nat.add_comm, Function.iterate_add_apply], taken_add n m⟩

/-- Where nothing waits, further rounds change nothing and take up nothing. -/
theorem rounds_of_done (query : Query) (caret : ℕ) (hdone : progress.pending = []) (n : ℕ) :
    (round query caret)^[n] progress = progress ∧ taken query caret progress n = [] := by
  have hround : progress.round query caret = progress := by rw [round, hdone]
  have hiterate : ∀ k, (round query caret)^[k] progress = progress := Function.iterate_fixed hround
  have htaking : progress.taking? = none := by rw [taking?, hdone]
  refine ⟨hiterate n, List.filterMap_eq_nil_iff.mpr fun k _ => ?_⟩
  rw [hiterate, htaking]

/-- All rounds after which nothing waits come to the same. -/
theorem Runs.of_done {order : List Config} (h : Runs query caret before order after)
    (hafter : after.pending = []) {n : ℕ}
    (hdone : ((round query caret)^[n] before).pending = []) :
    (round query caret)^[n] before = after ∧ taken query caret before n = order := by
  obtain ⟨m, rfl, rfl⟩ := h
  -- Whichever round comes later, nothing happens between the two.
  rcases Nat.le_total n m with hle | hle
  · obtain ⟨k, rfl⟩ := Nat.exists_eq_add_of_le hle
    obtain ⟨hsame, hnone⟩ := rounds_of_done query caret hdone k
    rw [taken_add, hnone, List.append_nil, Nat.add_comm, Function.iterate_add_apply, hsame]
    exact ⟨rfl, rfl⟩
  · obtain ⟨k, rfl⟩ := Nat.exists_eq_add_of_le hle
    obtain ⟨hsame, hnone⟩ := rounds_of_done query caret hafter k
    rw [taken_add, hnone, List.append_nil, Nat.add_comm, Function.iterate_add_apply, hsame]
    exact ⟨rfl, rfl⟩

end Progress

/-! ## The recursion as rounds -/

namespace Ledger

variable {query : Query} {caret : ℕ} {ledger : Ledger} {origin : Pending}

theorem runs_drop (hold : origin.visit ∈ ledger.visited) (rest : List Pending) :
    Progress.Runs query caret (ledger.progress (origin :: rest)) []
      ({ ledger with revisited := ledger.revisited + 1 }.progress rest) := by
  have htaking : (ledger.progress (origin :: rest)).taking? = none := if_pos hold
  have hround : (ledger.progress (origin :: rest)).round query caret =
      { ledger with revisited := ledger.revisited + 1 }.progress rest := if_pos hold
  have hruns := Progress.runs_round query caret (ledger.progress (origin :: rest))
  rwa [htaking, hround] at hruns

theorem runs_explore (hnew : origin.visit ∉ ledger.visited) (rest : List Pending) :
    Progress.Runs query caret (ledger.progress (origin :: rest)) [origin.config]
      ((ledger.explore query caret origin).1.progress
        ((ledger.explore query caret origin).2 ++ rest)) := by
  have htaking : (ledger.progress (origin :: rest)).taking? = some origin.config := if_neg hnew
  have hround : (ledger.progress (origin :: rest)).round query caret =
      (ledger.progress (origin :: rest)).explore query caret origin rest := if_neg hnew
  have hruns := Progress.runs_round query caret (ledger.progress (origin :: rest))
  rwa [htaking, hround, explore_progress] at hruns

/-- Whatever else waits, rounds visit what waits first, with all that lies behind it, before they
come to the rest. -/
theorem runs_visits (query : Query) (caret : ℕ) (seed : CallStack) :
    (∀ (ledger : Ledger) (origin : Pending)
      (h : (ledger.progress [origin]).Sound query.tokens.size caret seed) (rest : List Pending),
      Progress.Runs query caret (ledger.progress (origin :: rest))
        (visit query caret seed ledger origin h).order
        ((visit query caret seed ledger origin h).after.progress rest)) ∧
    ∀ (ledger : Ledger) (origins : List Pending)
      (h : (ledger.progress origins).Sound query.tokens.size caret seed) (rest : List Pending),
      Progress.Runs query caret (ledger.progress (origins ++ rest))
        (visitEach query caret seed ledger origins h).order
        ((visitEach query caret seed ledger origins h).after.progress rest) := by
  apply visit.mutual_induct
  · intro ledger origin h hold rest
    rw [visit, dif_pos hold]
    exact runs_drop hold rest
  · -- The first round explores `origin`; what its edges lead to then waits before all the rest.
    intro ledger origin h hnew found hfound hinner _ rest
    rw [visit, dif_neg hnew]
    exact (runs_explore hnew rest).trans (hinner rest)
  · intro ledger h _ rest
    rw [visitEach]
    exact .refl _
  · intro ledger origin others h here _ hhere _ hlater _ rest
    rw [visitEach]
    exact (hhere (others ++ rest)).trans (hlater rest)

end Ledger

namespace Query

variable {query : Query} {request : Request} {outcome : Outcome}

/-- Depth-first search by recursion from `first` to `caret`. -/
def depthFirst (query : Query) (caret : ℕ) (first : Config)
    (hindex : first.index ≤ query.tokens.size) :
    Ledger.Visiting query caret first.stack (Progress.start first).ledger :=
  Ledger.visitEach query caret first.stack (Progress.start first).ledger
    (Progress.start first).pending (sound_rounds caret hindex 0)

theorem runs_depthFirst (query : Query) (caret : ℕ) (first : Config)
    (hindex : first.index ≤ query.tokens.size) :
    Progress.Runs query caret (.start first) (query.depthFirst caret first hindex).order
      ((query.depthFirst caret first hindex).after.progress []) := by
  have hruns := (Ledger.runs_visits query caret first.stack).2 (Progress.start first).ledger
    (Progress.start first).pending (sound_rounds caret hindex 0) []
  rw [List.append_nil] at hruns
  exact hruns

/-- The walk of an accepted request ends. It has then taken up the same configurations in the same
order as the recursion does from the request's first configuration, and everything is as the
recursion leaves it: numbers, marks, counts, candidates and events. -/
theorem answer_eq_depthFirst (hanswer : query.answer request = .ok outcome) :
    ∃ (first : Config) (hindex : first.index ≤ query.tokens.size),
      query.first? request = some first ∧
      (Progress.start first).pending.map Pending.config = [first] ∧
      (∃ n, (query.rounds request.caret first n).pending = []) ∧
      (∀ n, (query.rounds request.caret first n).pending = [] →
        query.rounds request.caret first n =
          (query.depthFirst request.caret first hindex).after.progress [] ∧
        Progress.taken query request.caret (.start first) n =
          (query.depthFirst request.caret first hindex).order) ∧
      outcome = query.outcome
        ((query.depthFirst request.caret first hindex).after.progress []) := by
  obtain ⟨first, hindex, hfirst, hstack, -, rfl⟩ := exists_walk_of_answer hanswer
  have hruns := runs_depthFirst query request.caret first hindex
  obtain ⟨n, hdone, hwalk⟩ := exists_walk_eq request.caret hindex
  refine ⟨first, hindex, hfirst, (Progress.mirrors_start query request.caret hstack).pending,
    ⟨n, hdone⟩, fun m hm => hruns.of_done rfl hm, ?_⟩
  rw [hwalk, outcomeAfter, rounds, (hruns.of_done rfl hdone).1]

/-- A phrase may begin with an item or with a pair, and there are guards before and behind. No
guard is open, which is noted of the last one first. Then the item is read, with the pair behind
it, before the pair is begun at the first token, so that the later start of the pair is given. What
follows the item waits twice, is explored once, and is counted when it comes up again. -/
theorem answer_eq_depthFirst_phrase :
    let phrase := phraseDraft ⟨.guard ⟨0⟩, ⟨1⟩⟩ ⟨.token ⟨0⟩, ⟨4⟩⟩
    let draft : Draft := { phrase with edges := phrase.edges ++ #[(⟨0⟩, ⟨.call ⟨1⟩, ⟨1⟩⟩),
      (⟨0⟩, ⟨.token ⟨0⟩, ⟨4⟩⟩), (⟨0⟩, ⟨.guard ⟨1⟩, ⟨1⟩⟩)] }
    let query : Query :=
      { network := { toBlueprint := draft.toBlueprint, nullable := #[true, false] }
        tokens := #[⟨0⟩]
        consents := fun _ => false }
    let stack : CallStack := [⟨⟨0⟩, 0, none⟩]
    draft.build = .ok query.network ∧
    ∃ (outcome : Outcome) (hindex : 0 ≤ query.tokens.size),
      query.answer (.replay ⟨0⟩ 0 1) = .ok outcome ∧
      outcome.trace = #[.predicateRejected ⟨1⟩, .predicateRejected ⟨0⟩] ∧
      outcome.revisited = 1 ∧ outcome.candidates.start? ⟨1⟩ = some 1 ∧
      (query.depthFirst 1 ⟨⟨0⟩, 0, stack⟩ hindex).order =
        [⟨⟨0⟩, 0, stack⟩, ⟨⟨4⟩, 1, stack⟩, ⟨⟨2⟩, 1, ⟨⟨1⟩, 1, some ⟨1⟩⟩ :: stack⟩,
          ⟨⟨2⟩, 0, ⟨⟨1⟩, 0, some ⟨1⟩⟩ :: stack⟩, ⟨⟨5⟩, 1, ⟨⟨1⟩, 0, some ⟨1⟩⟩ :: stack⟩] ∧
      outcome = query.outcome
        ((query.depthFirst 1 ⟨⟨0⟩, 0, stack⟩ hindex).after.progress []) := by
  intro phrase draft query stack
  have hdone : (query.rounds 1 ⟨⟨0⟩, 0, stack⟩ 6).pending = [] := by decide +kernel
  have hok : query.answer (.replay ⟨0⟩ 0 1) = .ok (query.outcomeAfter 1 ⟨⟨0⟩, 0, stack⟩ 6) :=
    answer_replay_eq_outcome (by decide) (by decide) rfl rfl hdone
  obtain ⟨first, hindex, hfirst, -, -, hrounds, houtcome⟩ := answer_eq_depthFirst hok
  obtain rfl : ⟨⟨0⟩, 0, stack⟩ = first := Option.some.inj hfirst
  refine ⟨by decide +kernel, _, hindex, hok, by decide +kernel, by decide +kernel,
    by decide +kernel, ?_, houtcome⟩
  exact (hrounds 6 hdone).2.symm.trans (by decide +kernel)

end Query

end CodeCompletion
