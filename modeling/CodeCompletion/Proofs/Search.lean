import Mathlib.Data.List.Nodup
import Mathlib.Logic.Function.Iterate
import Mathlib.Logic.Relation

/-!
# Depth-first search

A search takes up one item at a time, the one that was put before it last. An item that
has been taken up before is dropped; any other item puts its successors before all that
wait. The search is stated for items of any type, without numbering and without effects,
so that what a walk visits can be read off it.

## Main definitions

* `Search`: what has been taken up, in order, and what waits
* `Search.round`: one round of a search
* `Search.Covers`: what holds all through a search from `first`

## Main results

* `Search.covers_iterate`: `Covers` holds after any number of rounds
* `Search.Covers.mem_taken_iff`: once nothing waits, exactly the items that can be reached
  have been taken up
* `Search.iterate_round_congr`: a search depends on the successors of what it reaches alone
-/

set_option autoImplicit false

namespace CodeCompletion

universe u

/-- What a search has taken up, the first item first, and what waits, the next item
first. -/
structure Search (α : Type u) where
  taken : List α := []
  waiting : List α := []

namespace Search

variable {α : Type u} {next : α → List α} {first : α} {search : Search α}

/-- One round: the item that waits first is taken up, or dropped if it was taken up
before. -/
def round [DecidableEq α] (next : α → List α) (search : Search α) : Search α :=
  match search.waiting with
  | [] => search
  | item :: rest =>
    if item ∈ search.taken then { search with waiting := rest }
    else ⟨search.taken ++ [item], next item ++ rest⟩

/-- A search before its first round. -/
def start (first : α) : Search α := ⟨[], [first]⟩

/-- Taken up, or bound to be. -/
def Met (search : Search α) (item : α) : Prop :=
  item ∈ search.taken ∨ item ∈ search.waiting

/-- Dropping loses nothing: the dropped item is still met, since it was taken up. -/
theorem Met.drop {item other : α} {rest : List α} (hwaiting : search.waiting = item :: rest)
    (htaken : item ∈ search.taken) (h : search.Met other) :
    Met { search with waiting := rest } other := by
  rcases h with h | h
  · exact Or.inl h
  · rw [hwaiting] at h
    rcases List.mem_cons.mp h with rfl | h
    · exact Or.inl htaken
    · exact Or.inr h

/-- Taking up loses nothing: the item itself moves from one list to the other. -/
theorem Met.take {item other : α} {rest : List α} (hwaiting : search.waiting = item :: rest)
    (successors : List α) (h : search.Met other) :
    Met ⟨search.taken ++ [item], successors ++ rest⟩ other := by
  rcases h with h | h
  · exact Or.inl (List.mem_append_left _ h)
  · rw [hwaiting] at h
    rcases List.mem_cons.mp h with rfl | h
    · exact Or.inl (List.mem_append_right _ (List.mem_singleton.mpr rfl))
    · exact Or.inr (List.mem_append_right _ h)

/-- What holds all through a search from `first`: nothing is taken up twice, nothing out
of reach is met, and the successors of what was taken up are met as well. -/
structure Covers (next : α → List α) (first : α) (search : Search α) : Prop where
  nodup : search.taken.Nodup
  reached : ∀ item, search.Met item → Relation.ReflTransGen (fun a b => b ∈ next a) first item
  met_first : search.Met first
  met_next : ∀ item ∈ search.taken, ∀ successor ∈ next item, search.Met successor

theorem covers_start (next : α → List α) (first : α) : Covers next first (start first) where
  nodup := List.nodup_nil
  reached item hmet := by
    rcases hmet with h | h
    · exact absurd h List.not_mem_nil
    · rw [List.mem_singleton.mp h]
  met_first := Or.inr (List.mem_singleton.mpr rfl)
  met_next item h := absurd h List.not_mem_nil

theorem Covers.drop {item : α} {rest : List α} (h : search.Covers next first)
    (hwaiting : search.waiting = item :: rest) (htaken : item ∈ search.taken) :
    Covers next first { search with waiting := rest } := by
  have hmet : ∀ other, search.Met other → Met { search with waiting := rest } other :=
    fun _ => Met.drop hwaiting htaken
  refine ⟨h.nodup, fun other hother => h.reached other ?_, hmet _ h.met_first,
    fun other hother successor hs => hmet _ (h.met_next other hother successor hs)⟩
  exact hother.imp_right fun hmem => hwaiting ▸ List.mem_cons_of_mem _ hmem

theorem Covers.take {item : α} {rest : List α} (h : search.Covers next first)
    (hwaiting : search.waiting = item :: rest) (hnew : item ∉ search.taken) :
    Covers next first ⟨search.taken ++ [item], next item ++ rest⟩ := by
  have hitem : Relation.ReflTransGen (fun a b => b ∈ next a) first item :=
    h.reached item (Or.inr (hwaiting ▸ List.mem_cons_self))
  have hmet : ∀ other, search.Met other →
      Met ⟨search.taken ++ [item], next item ++ rest⟩ other :=
    fun _ => Met.take hwaiting (next item)
  refine ⟨?_, ?_, hmet _ h.met_first, ?_⟩
  · exact List.nodup_append_comm.mp (List.nodup_cons.mpr ⟨hnew, h.nodup⟩)
  · intro other hother
    rcases hother with hother | hother
    · rcases List.mem_append.mp hother with hother | hother
      · exact h.reached other (Or.inl hother)
      · rwa [List.mem_singleton.mp hother]
    · rcases List.mem_append.mp hother with hother | hother
      · exact hitem.tail hother
      · exact h.reached other (Or.inr (hwaiting ▸ List.mem_cons_of_mem _ hother))
  · intro other hother successor hs
    rcases List.mem_append.mp hother with hother | hother
    · exact hmet _ (h.met_next other hother successor hs)
    · rw [List.mem_singleton.mp hother] at hs
      exact Or.inr (List.mem_append_left _ hs)

theorem Covers.round [DecidableEq α] (h : search.Covers next first) :
    (search.round next).Covers next first := by
  unfold Search.round
  split
  · exact h
  · next item rest hwaiting =>
    split
    · next htaken => exact h.drop hwaiting htaken
    · next hnew => exact h.take hwaiting hnew

theorem covers_iterate [DecidableEq α] (next : α → List α) (first : α) (n : ℕ) :
    Covers next first ((round next)^[n] (start first)) := by
  induction n with
  | zero => exact covers_start next first
  | succ n ih =>
    rw [Function.iterate_succ_apply']
    exact ih.round

/-- Once nothing waits, exactly the items that can be reached have been taken up. -/
theorem Covers.mem_taken_iff (h : search.Covers next first) (hdone : search.waiting = [])
    (item : α) :
    item ∈ search.taken ↔ Relation.ReflTransGen (fun a b => b ∈ next a) first item := by
  -- With nothing waiting, to be met is to be taken up.
  have htaken : ∀ other, search.Met other → other ∈ search.taken := by
    intro other hother
    rcases hother with hother | hother
    · exact hother
    · rw [hdone] at hother
      exact absurd hother List.not_mem_nil
  constructor
  · exact fun hmem => h.reached item (Or.inl hmem)
  · intro hreach
    induction hreach with
    | refl => exact htaken _ h.met_first
    | tail _ hstep ih => exact htaken _ (h.met_next _ ih _ hstep)

/-- Two searches with the same successors wherever the first one gets stay together. -/
theorem iterate_round_congr [DecidableEq α] {next' : α → List α}
    (h : ∀ item, Relation.ReflTransGen (fun a b => b ∈ next a) first item →
      next item = next' item) (n : ℕ) :
    (round next)^[n] (start first) = (round next')^[n] (start first) := by
  induction n with
  | zero => rfl
  | succ n ih =>
    rw [Function.iterate_succ_apply', Function.iterate_succ_apply', ← ih]
    have hcovers := covers_iterate next first n
    unfold round
    split
    · rfl
    · next item rest hwaiting =>
      -- The round asks for the successors of `item` only, which is within reach.
      rw [h item (hcovers.reached item (Or.inr (hwaiting ▸ List.mem_cons_self)))]

end Search

end CodeCompletion
