import CodeCompletion.TerminalSet
import Mathlib.Data.List.Sort
import Mathlib.Tactic.Common

/-!
# Ascending sets of terminals

Membership of a set is found by bisection, which is right as long as the items ascend.
Repeated items do no harm. Sets that are made from the empty set by insertion, or from a list,
have no repeated items either.

## Main definitions

* `TerminalSet.Ascending`, `TerminalSet.Ordered`: items in order, with repeats or without
* `TerminalSet.Brackets`: what bisection knows at each of its steps
* `TerminalSet.Belongs`: the place of a terminal that is absent
* `TerminalSet.Made`: sets that are made from the empty set or from a list

## Main results

* `TerminalSet.Brackets.bisect`: what bisection knows at its end
* `TerminalSet.Ascending.contains_iff`: in an ascending set bisection finds exactly the
  items
* `TerminalSet.Ordered.insert`, `TerminalSet.Ascending.mem_insert_iff`: insertion keeps order and
  adds the terminal
* `TerminalSet.Ordered.eq_of_items`: ordered sets are determined by their items
* `TerminalSet.made_iff_ordered`: exactly the ordered sets can be made
-/

set_option autoImplicit false

namespace CodeCompletion

namespace TerminalId

theorem compare_eq_lt_iff {a b : TerminalId} : compare a b = .lt ↔ a.index < b.index := by
  change compare a.raw b.raw = .lt ↔ a.raw.toNat < b.raw.toNat
  rw [Std.compare_eq_lt, UInt32.lt_iff_toNat_lt]

theorem compare_eq_gt_iff {a b : TerminalId} : compare a b = .gt ↔ b.index < a.index := by
  rw [Std.OrientedCmp.gt_iff_lt, compare_eq_lt_iff]

theorem index_injective {a b : TerminalId} (h : a.index = b.index) : a = b :=
  TerminalId.ext (UInt32.toNat_inj.mp h)

end TerminalId

namespace TerminalSet

variable {set : TerminalSet} {terminal : TerminalId} {base size : ℕ}

/-- No item stands before a smaller one. -/
def Ascending (set : TerminalSet) : Prop :=
  set.toList.Pairwise fun a b => a.index ≤ b.index

instance (set : TerminalSet) : Decidable set.Ascending :=
  inferInstanceAs (Decidable (List.Pairwise _ _))

theorem Ascending.index_le (h : set.Ascending) {i j : ℕ} {a b : TerminalId} (hij : i ≤ j)
    (ha : set.items[i]? = some a) (hb : set.items[j]? = some b) : a.index ≤ b.index := by
  rcases Nat.eq_or_lt_of_le hij with rfl | hlt
  · obtain rfl := Option.some.inj (ha.symm.trans hb)
    exact Nat.le_refl _
  · obtain ⟨hi, rfl⟩ := Array.getElem?_eq_some_iff.mp ha
    obtain ⟨hj, rfl⟩ := Array.getElem?_eq_some_iff.mp hb
    have hpair := List.pairwise_iff_getElem.mp h i j (by simpa [toList] using hi)
      (by simpa [toList] using hj) hlt
    simpa [toList] using hpair

/-- What bisection knows of the items outside the `size` items from `base` on. -/
structure Brackets (set : TerminalSet) (terminal : TerminalId) (base size : ℕ) : Prop where
  le : base + size ≤ set.size
  base_eq : size = 0 → base = 0
  upto : ∀ i item, set.items[i]? = some item → i ≤ base → 0 < base → item.index ≤ terminal.index
  beyond : ∀ i item, set.items[i]? = some item → base + size ≤ i → terminal.index < item.index

theorem brackets_all (set : TerminalSet) (terminal : TerminalId) :
    set.Brackets terminal 0 set.size where
  le := Nat.le_of_eq (Nat.zero_add _)
  base_eq _ := rfl
  upto _ _ _ _ hpos := absurd hpos (Nat.lt_irrefl 0)
  beyond i item hitem hi := by
    have hlt : i < set.items.size := (Array.getElem?_eq_some_iff.mp hitem).1
    rw [Nat.zero_add] at hi
    exact absurd hlt (Nat.not_lt.mpr hi)

theorem Brackets.exists_middle (h : set.Brackets terminal base size) (hsize : 1 < size) :
    ∃ item, set.items[base + size / 2]? = some item := by
  have hmiddle : base + size / 2 < set.items.size := Nat.lt_of_lt_of_le (by omega) h.le
  exact ⟨_, Array.getElem?_eq_getElem hmiddle⟩

theorem Brackets.bisect (h : set.Brackets terminal base size) (hset : set.Ascending) :
    set.Brackets terminal (set.bisect terminal base size) (min size 1) := by
  fun_induction TerminalSet.bisect set terminal base size with
  | case1 base size hsize half middle hgreater ih =>
    -- The middle item lies after the terminal, and with it all items from there on.
    obtain ⟨item, hitem⟩ := h.exists_middle hsize
    rw [hitem, Option.any_some, decide_eq_true_eq, TerminalId.compare_eq_gt_iff] at hgreater
    have hle := h.le
    have hone : min size 1 = min (size - half) 1 := by omega
    rw [hone]
    refine ih ⟨by omega, by omega, h.upto, ?_⟩
    intro i other hother hi
    exact Nat.lt_of_lt_of_le hgreater (hset.index_le (by omega) hitem hother)
  | case2 base size hsize half middle hgreater ih =>
    -- The middle item does not lie after the terminal, and with it no item before.
    obtain ⟨item, hitem⟩ := h.exists_middle hsize
    rw [hitem, Option.any_some, decide_eq_true_eq, TerminalId.compare_eq_gt_iff,
      Nat.not_lt] at hgreater
    have hle := h.le
    have hone : min size 1 = min (size - half) 1 := by omega
    rw [hone]
    refine ih ⟨by omega, by omega, ?_, ?_⟩
    · intro i other hother hi _
      exact Nat.le_trans (hset.index_le hi hother hitem) hgreater
    · intro i other hother hi
      exact h.beyond i other hother (by omega)
  | case3 base size hsize =>
    rwa [Nat.min_eq_left (Nat.not_lt.mp hsize)]

/-- The item at which bisection ends decides what is found. -/
theorem search_cases (set : TerminalSet) (terminal : TerminalId) {last : ℕ}
    (hlast : set.bisect terminal 0 set.size = last) :
    (set.items[last]? = none ∧ set.search terminal = .error last) ∨
    ∃ item, set.items[last]? = some item ∧
      ((item.index < terminal.index ∧ set.search terminal = .error (last + 1)) ∨
      (item = terminal ∧ set.search terminal = .ok last) ∨
      (terminal.index < item.index ∧ set.search terminal = .error last)) := by
  simp only [search, hlast]
  cases hitem : set.items[last]? with
  | none => exact Or.inl ⟨rfl, rfl⟩
  | some item =>
    refine Or.inr ⟨item, rfl, ?_⟩
    cases hcompare : compare item terminal with
    | lt => exact Or.inl ⟨TerminalId.compare_eq_lt_iff.mp hcompare, by simp only [hcompare]⟩
    | eq =>
      exact Or.inr (Or.inl ⟨Std.LawfulEqOrd.eq_of_compare hcompare, by simp only [hcompare]⟩)
    | gt =>
      exact Or.inr (Or.inr ⟨TerminalId.compare_eq_gt_iff.mp hcompare, by simp only [hcompare]⟩)

/-- Bisection finds only what is there, whether the items ascend or not. -/
theorem mem_of_search {position : ℕ} (h : set.search terminal = .ok position) :
    terminal ∈ set.toList := by
  obtain ⟨-, hsearch⟩ | ⟨item, hitem, ⟨-, hsearch⟩ | ⟨rfl, hsearch⟩ | ⟨-, hsearch⟩⟩ :=
    search_cases set terminal rfl
  · cases h.symm.trans hsearch
  · cases h.symm.trans hsearch
  · exact Array.mem_toList_iff.mpr (Array.mem_of_getElem? hitem)
  · cases h.symm.trans hsearch

/-- An absent terminal belongs to a position: the items before it are smaller, and those from there
on are greater. -/
structure Belongs (set : TerminalSet) (terminal : TerminalId) (position : ℕ) : Prop where
  le : position ≤ set.size
  before : ∀ i item, set.items[i]? = some item → i < position → item.index < terminal.index
  after : ∀ i item, set.items[i]? = some item → position ≤ i → terminal.index < item.index

theorem Ascending.belongs_of_search (h : set.Ascending) {position : ℕ}
    (hsearch : set.search terminal = .error position) : set.Belongs terminal position := by
  have hends := (set.brackets_all terminal).bisect h
  generalize hlast : set.bisect terminal 0 set.size = last at hends
  obtain ⟨hnone, hfound⟩ | ⟨item, hitem, hcases⟩ := search_cases set terminal hlast
  · -- Bisection ends at an item unless there is none at all.
    obtain rfl := Except.error.inj (hsearch.symm.trans hfound)
    have hsize : set.size ≤ position := Array.getElem?_eq_none_iff.mp hnone
    have hle := hends.le
    have hempty := hends.base_eq
    refine ⟨by omega, fun i item _ hi => by omega, fun i item hitem _ => ?_⟩
    have hlt : i < set.size := (Array.getElem?_eq_some_iff.mp hitem).1
    omega
  · have hlt : last < set.size := (Array.getElem?_eq_some_iff.mp hitem).1
    obtain ⟨hless, hfound⟩ | ⟨-, hfound⟩ | ⟨hgreater, hfound⟩ := hcases
    · obtain rfl := Except.error.inj (hsearch.symm.trans hfound)
      refine ⟨hlt, fun i other hother hi => ?_, fun i other hother hi => ?_⟩
      · exact Nat.lt_of_le_of_lt (h.index_le (Nat.le_of_lt_succ hi) hother hitem) hless
      · exact hends.beyond i other hother (by omega)
    · cases hsearch.symm.trans hfound
    · -- Bisection does not move on to a greater item, so this is the first.
      obtain rfl := Except.error.inj (hsearch.symm.trans hfound)
      refine ⟨Nat.le_of_lt hlt, fun i other _ hi => ?_, fun i other hother hi => ?_⟩
      · exact absurd (hends.upto _ item hitem (Nat.le_refl _) (Nat.zero_lt_of_lt hi))
          (Nat.not_le.mpr hgreater)
      · exact Nat.lt_of_lt_of_le hgreater (h.index_le hi hitem hother)

/-- In any set bisection finds nothing but items. -/
theorem mem_of_contains (h : set.contains terminal) : terminal ∈ set.toList := by
  unfold contains at h
  cases hsearch : set.search terminal with
  | error position =>
    rw [hsearch] at h
    cases h
  | ok position => exact mem_of_search hsearch

/-- In an ascending set bisection finds exactly the items. -/
theorem Ascending.contains_iff (h : set.Ascending) :
    set.contains terminal ↔ terminal ∈ set.toList := by
  constructor
  · exact mem_of_contains
  · intro hmem
    rw [toList, Array.mem_toList_iff] at hmem
    obtain ⟨i, hi⟩ := Array.mem_iff_getElem?.mp hmem
    unfold contains
    cases hsearch : set.search terminal with
    | ok position => rfl
    | error position =>
      -- The terminal would stand before or after the place where it belongs.
      have hbelongs := h.belongs_of_search hsearch
      rcases Nat.lt_or_ge i position with hlt | hge
      · exact absurd (hbelongs.before i terminal hi hlt) (Nat.lt_irrefl _)
      · exact absurd (hbelongs.after i terminal hi hge) (Nat.lt_irrefl _)

/-- Where the items do not ascend, bisection may miss one of them. -/
example :
    let set : TerminalSet := ⟨#[⟨1⟩, ⟨0⟩]⟩
    set.contains ⟨0⟩ ∧ ¬ set.contains ⟨1⟩ := by
  decide +kernel

/-! ## Sets without repeats -/

/-- Every item stands before the greater ones, and none stands there twice. -/
def Ordered (set : TerminalSet) : Prop :=
  set.toList.Pairwise fun a b => a.index < b.index

instance (set : TerminalSet) : Decidable set.Ordered :=
  inferInstanceAs (Decidable (List.Pairwise _ _))

theorem Ordered.ascending (h : set.Ordered) : set.Ascending :=
  h.imp Nat.le_of_lt

theorem ordered_empty : (∅ : TerminalSet).Ordered := List.Pairwise.nil

theorem insertIdx_eq_append (items : List TerminalId) {position : ℕ} (terminal : TerminalId)
    (h : position ≤ items.length) :
    items.insertIdx position terminal = items.take position ++ terminal :: items.drop position := by
  induction items generalizing position with
  | nil => simp_all
  | cons item items ih =>
    cases position with
    | zero => rfl
    | succ position => simp_all

/-- A terminal that is absent goes between what lies before and after it. -/
theorem Belongs.toList_insertIdx {position : ℕ} (h : set.Belongs terminal position) :
    (set.items.insertIdxIfInBounds position terminal).toList =
      set.toList.take position ++ terminal :: set.toList.drop position := by
  have hle : position ≤ set.items.size := h.le
  rw [Array.insertIdxIfInBounds, dif_pos hle, Array.toList_insertIdx,
    insertIdx_eq_append _ _ (by simpa using hle), toList]

theorem Ascending.mem_insert_iff (h : set.Ascending) {item : TerminalId} :
    item ∈ (set.insert terminal).2.toList ↔ item = terminal ∨ item ∈ set.toList := by
  unfold TerminalSet.insert
  cases hsearch : set.search terminal with
  | ok position =>
    have hmem := mem_of_search hsearch
    refine ⟨Or.inr, ?_⟩
    rintro (rfl | hitem)
    · exact hmem
    · exact hitem
  | error position =>
    change item ∈ (set.items.insertIdxIfInBounds position terminal).toList ↔ _
    rw [(h.belongs_of_search hsearch).toList_insertIdx, List.mem_append, List.mem_cons,
      or_left_comm, ← List.mem_append, List.take_append_drop]

theorem Ordered.insert (h : set.Ordered) (terminal : TerminalId) :
    (set.insert terminal).2.Ordered := by
  unfold TerminalSet.insert
  cases hsearch : set.search terminal with
  | ok position => exact h
  | error position =>
    have hbelongs := h.ascending.belongs_of_search hsearch
    have hbefore : ∀ item ∈ set.toList.take position, item.index < terminal.index := by
      intro item hitem
      obtain ⟨i, hi, hget⟩ := List.mem_take_iff_getElem.mp hitem
      have hat : set.toList[i]? = some item := List.getElem?_eq_some_iff.mpr ⟨by omega, hget⟩
      exact hbelongs.before i item (Array.getElem?_toList.symm.trans hat) (by omega)
    have hafter : ∀ item ∈ set.toList.drop position, terminal.index < item.index := by
      intro item hitem
      obtain ⟨i, hi, hget⟩ := List.mem_drop_iff_getElem.mp hitem
      have hat : set.toList[position + i]? = some item :=
        List.getElem?_eq_some_iff.mpr ⟨by omega, hget⟩
      exact hbelongs.after _ item (Array.getElem?_toList.symm.trans hat) (Nat.le_add_right _ i)
    change (set.items.insertIdxIfInBounds position terminal).toList.Pairwise _
    rw [hbelongs.toList_insertIdx, List.pairwise_append, List.pairwise_cons]
    refine ⟨h.sublist (List.take_sublist _ _), ⟨hafter, h.sublist (List.drop_sublist _ _)⟩, ?_⟩
    intro item hitem other hother
    rcases List.mem_cons.mp hother with rfl | hother
    · exact hbefore item hitem
    · exact Nat.lt_trans (hbefore item hitem) (hafter other hother)

theorem Ordered.foldl_insert (h : set.Ordered) (terminals : List TerminalId) :
    (terminals.foldl (fun set terminal => (set.insert terminal).2) set).Ordered ∧
      ∀ item, item ∈ (terminals.foldl (fun set terminal => (set.insert terminal).2) set).toList ↔
        item ∈ terminals ∨ item ∈ set.toList := by
  induction terminals generalizing set with
  | nil => simpa using h
  | cons terminal rest ih =>
    obtain ⟨hordered, hmem⟩ := ih (h.insert terminal)
    refine ⟨hordered, fun item => ?_⟩
    rw [List.foldl_cons, hmem, h.ascending.mem_insert_iff, List.mem_cons, or_left_comm, or_assoc]

theorem ordered_ofList (terminals : List TerminalId) : (ofList terminals).Ordered :=
  (ordered_empty.foldl_insert terminals).1

theorem mem_ofList_iff {terminals : List TerminalId} :
    terminal ∈ (ofList terminals).toList ↔ terminal ∈ terminals := by
  refine ((ordered_empty.foldl_insert terminals).2 terminal).trans (or_iff_left ?_)
  exact List.not_mem_nil

/-- Ordered sets with the same items are the same. -/
theorem Ordered.eq_of_items {set' : TerminalSet} (h : set.Ordered) (h' : set'.Ordered)
    (hitems : ∀ item, item ∈ set.toList ↔ item ∈ set'.toList) : set = set' := by
  have hirrefl : Std.Irrefl fun a b : TerminalId => a.index < b.index :=
    ⟨fun _ => Nat.lt_irrefl _⟩
  have hantisymm : Std.Antisymm fun a b : TerminalId => a.index < b.index :=
    ⟨fun _ _ hlt hgt => absurd hlt (Nat.lt_asymm hgt)⟩
  have hlists : set.toList = set'.toList := List.Pairwise.eq_of_mem_iff h h' hitems
  exact congrArg TerminalSet.mk (Array.toList_inj.mp hlists)

/-- An ordered set is the set of its items. -/
theorem Ordered.ofList_toList (h : set.Ordered) : ofList set.toList = set :=
  (ordered_ofList set.toList).eq_of_items h fun _ => mem_ofList_iff

/-- The sets that can be made: the empty one, that of a list, and each of these with further
terminals put in. -/
inductive Made : TerminalSet → Prop
  | empty : Made ∅
  | ofList (terminals : List TerminalId) : Made (TerminalSet.ofList terminals)
  | insert {set : TerminalSet} (hset : Made set) (terminal : TerminalId) :
      Made (set.insert terminal).2

/-- Exactly the ordered sets can be made. -/
theorem made_iff_ordered : set.Made ↔ set.Ordered := by
  constructor
  · intro hmade
    induction hmade with
    | empty => exact ordered_empty
    | ofList terminals => exact ordered_ofList terminals
    | insert _ terminal ih => exact ih.insert terminal
  · intro hordered
    exact hordered.ofList_toList ▸ .ofList set.toList

end TerminalSet

end CodeCompletion
