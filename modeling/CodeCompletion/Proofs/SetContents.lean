import CodeCompletion.Proofs.TerminalSet
import Mathlib.Data.Finset.Lattice.Lemmas
import Mathlib.Data.List.Destutter

/-!
# What sets of terminals hold

A set of terminals stands for a finite set. It is made from a list, either by putting in one
terminal after the other or at once, by sorting the list and dropping repeats, and it grows by
insertion. Since the items are kept in order, the way in which a set was made does not show: it
is determined by the terminals that went into it.

## Main definitions

* `TerminalSet.contents`: the finite set that a set of terminals stands for
* `TerminalSet.gather`: the set of a list, made at once
* `TerminalSet.insertEach`: insertions one after the other

## Main results

* `TerminalSet.Ordered.eq_iff_contents`: ordered sets with the same contents are the same
* `TerminalSet.Ordered.insert_isNew_iff`, `TerminalSet.Ordered.insert_eq_self_iff`: insertion
  tells whether the terminal was absent, and changes the set only then
* `TerminalSet.gather_eq_ofList`: sorting a list and inserting its terminals lead to the same
* `TerminalSet.insertEach_gather`: sets that are made and grow, as finite sets
-/

set_option autoImplicit false

namespace CodeCompletion

theorem TerminalId.isLE_compare_eq (a b : TerminalId) :
    (compare a b).isLE = decide (a.index ≤ b.index) := by
  rw [Bool.eq_iff_iff, decide_eq_true_iff, ← Nat.not_lt, ← compare_eq_lt_iff]
  constructor
  · exact Std.OrientedCmp.not_lt_of_isLE
  · intro hlt
    by_contra hle
    exact hlt (Std.OrientedCmp.lt_of_not_isLE hle)

namespace TerminalSet

variable {set set' : TerminalSet} {terminal : TerminalId}

/-- The terminals of the set, apart from their order. -/
def contents (set : TerminalSet) : Finset TerminalId := set.toList.toFinset

/-- The set of the given terminals, made at once: they are sorted, and of equal neighbours one
is kept. -/
def gather (terminals : List TerminalId) : TerminalSet :=
  ⟨((terminals.mergeSort fun a b => (compare a b).isLE).destutter (· ≠ ·)).toArray⟩

/-- Terminals put in one after the other. -/
def insertEach (set : TerminalSet) (terminals : List TerminalId) : TerminalSet :=
  terminals.foldl (fun set terminal => (set.insert terminal).2) set

theorem mem_contents_iff : terminal ∈ set.contents ↔ terminal ∈ set.toList := List.mem_toFinset

theorem Ordered.eq_iff_contents (h : set.Ordered) (h' : set'.Ordered) :
    set = set' ↔ set.contents = set'.contents := by
  constructor
  · exact congrArg contents
  · intro hcontents
    refine h.eq_of_items h' fun item => ?_
    rw [← mem_contents_iff, hcontents, mem_contents_iff]

/-! ## Insertion -/

theorem Ordered.contains_iff (h : set.Ordered) : set.contains terminal ↔ terminal ∈ set.contents :=
  h.ascending.contains_iff.trans mem_contents_iff.symm

theorem Ordered.contents_insert (h : set.Ordered) (terminal : TerminalId) :
    (set.insert terminal).2.contents = Insert.insert terminal set.contents := by
  ext item
  rw [mem_contents_iff, h.ascending.mem_insert_iff, Finset.mem_insert, mem_contents_iff]

theorem Ordered.insert_isNew_iff (h : set.Ordered) :
    (set.insert terminal).1 ↔ terminal ∉ set.contents := by
  rw [← h.contains_iff]
  unfold TerminalSet.insert contains
  cases set.search terminal with
  | ok position => simp [Except.isOk, Except.toBool]
  | error position => simp [Except.isOk, Except.toBool]

theorem Ordered.insert_eq_self_iff (h : set.Ordered) :
    (set.insert terminal).2 = set ↔ terminal ∈ set.contents := by
  rw [(h.insert terminal).eq_iff_contents h, h.contents_insert, Finset.insert_eq_self]

theorem Ordered.insertEach (h : set.Ordered) (terminals : List TerminalId) :
    (set.insertEach terminals).Ordered :=
  (h.foldl_insert terminals).1

theorem Ordered.contents_insertEach (h : set.Ordered) (terminals : List TerminalId) :
    (set.insertEach terminals).contents = set.contents ∪ terminals.toFinset := by
  ext item
  rw [mem_contents_iff, TerminalSet.insertEach, (h.foldl_insert terminals).2, Finset.mem_union,
    mem_contents_iff, List.mem_toFinset, or_comm]

/-! ## Lists sorted at once -/

theorem pairwise_index_mergeSort (terminals : List TerminalId) :
    (terminals.mergeSort fun a b => (compare a b).isLE).Pairwise fun a b => a.index ≤ b.index := by
  simp only [TerminalId.isLE_compare_eq]
  refine (List.pairwise_mergeSort ?_ ?_ terminals).imp of_decide_eq_true
  · simpa using fun a b c => Nat.le_trans
  · simpa using fun a b => Nat.le_total _ _

/-- In a sorted list equal items are neighbours, so dropping these leaves no repeat at all. -/
theorem toList_gather (terminals : List TerminalId) : (gather terminals).toList =
    (terminals.mergeSort fun a b => (compare a b).isLE).dedup := by
  have hantisymm : Std.Antisymm fun a b : TerminalId => a.index ≤ b.index :=
    ⟨fun _ _ hle hge => TerminalId.index_injective (Nat.le_antisymm hle hge)⟩
  exact (pairwise_index_mergeSort terminals).destutter_eq_dedup

theorem ordered_gather (terminals : List TerminalId) : (gather terminals).Ordered := by
  have hsorted := (pairwise_index_mergeSort terminals).sublist (List.dedup_sublist _)
  rw [Ordered, toList_gather]
  refine (hsorted.and (List.nodup_dedup _)).imp ?_
  rintro a b ⟨hle, hne⟩
  exact Nat.lt_of_le_of_ne hle fun hsame => hne (TerminalId.index_injective hsame)

theorem contents_gather (terminals : List TerminalId) :
    (gather terminals).contents = terminals.toFinset := by
  ext item
  rw [mem_contents_iff, toList_gather, List.mem_dedup, List.mem_mergeSort, List.mem_toFinset]

/-- Sorting a list at once and inserting its terminals lead to the same set. -/
theorem gather_eq_ofList (terminals : List TerminalId) : gather terminals = ofList terminals := by
  refine (ordered_gather terminals).eq_of_items (ordered_ofList terminals) fun item => ?_
  rw [← mem_contents_iff, contents_gather, List.mem_toFinset, mem_ofList_iff]

/-! ## Sets that are made and grow -/

/-- A set that is made from a list, which may be empty, and grows by insertion has its items in
order, holds exactly the terminals that went into it, and finds them. A further insertion tells
whether the terminal was absent, and changes the set only then. Two such sets are the same exactly
if the same terminals went into them. The set of a list is also made by insertion alone. -/
theorem insertEach_gather (collected inserted : List TerminalId) :
    let set := (gather collected).insertEach inserted
    let terminals := collected.toFinset ∪ inserted.toFinset
    set.Ordered ∧ set.contents = terminals ∧
    (∀ terminal, set.contains terminal ↔ terminal ∈ terminals) ∧
    (∀ terminal, ((set.insert terminal).1 ↔ terminal ∉ terminals) ∧
      ((set.insert terminal).2 = set ↔ terminal ∈ terminals)) ∧
    (∀ collected' inserted', set = (gather collected').insertEach inserted' ↔
      terminals = collected'.toFinset ∪ inserted'.toFinset) ∧
    gather collected = ofList collected := by
  have hordered : ∀ collected inserted, ((gather collected).insertEach inserted).Ordered :=
    fun collected inserted => (ordered_gather collected).insertEach inserted
  have hcontents : ∀ collected inserted, ((gather collected).insertEach inserted).contents =
      collected.toFinset ∪ inserted.toFinset := by
    intro collected inserted
    rw [(ordered_gather collected).contents_insertEach, contents_gather]
  intro set terminals
  have hset : set.Ordered := hordered collected inserted
  have hterminals : set.contents = terminals := hcontents collected inserted
  refine ⟨hset, hterminals, fun terminal => ?_, fun terminal => ⟨?_, ?_⟩,
    fun collected' inserted' => ?_, gather_eq_ofList collected⟩
  · rw [hset.contains_iff, hterminals]
  · rw [hset.insert_isNew_iff, hterminals]
  · rw [hset.insert_eq_self_iff, hterminals]
  · rw [hset.eq_iff_contents (hordered collected' inserted'), hterminals, hcontents]

-- New terminals come before, between and after those that are there.
example : ((gather [⟨7⟩, ⟨3⟩, ⟨7⟩]).insertEach [.wildcard, ⟨0⟩, ⟨5⟩, ⟨3⟩]).items =
    #[⟨0⟩, ⟨3⟩, ⟨5⟩, ⟨7⟩, .wildcard] := by
  rw [gather_eq_ofList]
  decide +kernel

end TerminalSet

end CodeCompletion
