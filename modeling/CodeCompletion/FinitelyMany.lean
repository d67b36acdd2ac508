/-!
# Predicates with finitely many values

A predicate has finitely many values if some list has them all. Such a predicate bounds
the length of every list without repetitions whose items satisfy it.

## Main results

* `FinitelyMany.length_le`: the bound on lists without repetitions
* `FinitelyMany.prod`, `FinitelyMany.option`, `FinitelyMany.list`: pairs, optional values,
  and lists of bounded length
* `length_le_of_countP_le`: a list is bounded if each of finitely many keys occurs in it
  a bounded number of times
-/

set_option autoImplicit false

namespace CodeCompletion

universe u v

/-- Some list has all values of which `P` holds. -/
def FinitelyMany {α : Type u} (P : α → Prop) : Prop :=
  ∃ values : List α, ∀ a, P a → a ∈ values

/-- A list without repetitions is no longer than a list that has all its items. -/
theorem length_le_of_nodup_of_subset {α : Type u} [DecidableEq α] {l m : List α}
    (hl : l.Nodup) (h : ∀ a ∈ l, a ∈ m) : l.length ≤ m.length := by
  induction l generalizing m with
  | nil => simp
  | cons a rest ih =>
    obtain ⟨ha, hrest⟩ := List.nodup_cons.1 hl
    have hm := h a List.mem_cons_self
    -- The rest does not repeat `a`, so it lies in `m` without `a`.
    have := ih hrest (m := m.erase a) fun b hb => by
      have hba : b ≠ a := fun hba => ha (hba ▸ hb)
      exact (List.mem_erase_of_ne hba).2 (h b (List.mem_cons_of_mem _ hb))
    rw [List.length_erase_of_mem hm] at this
    have := List.length_pos_of_mem hm
    simp only [List.length_cons]
    omega

namespace FinitelyMany

variable {α : Type u} {β : Type v}

theorem length_le [DecidableEq α] {P : α → Prop} (h : FinitelyMany P) :
    ∃ bound, ∀ l : List α, l.Nodup → (∀ a ∈ l, P a) → l.length ≤ bound := by
  obtain ⟨values, hv⟩ := h
  exact ⟨values.length, fun l hl hP =>
    length_le_of_nodup_of_subset hl fun a ha => hv a (hP a ha)⟩

theorem mono {P Q : α → Prop} (h : FinitelyMany Q) (hPQ : ∀ a, P a → Q a) : FinitelyMany P :=
  h.imp fun _ hv a ha => hv a (hPQ a ha)

theorem mem (l : List α) : FinitelyMany (· ∈ l) := ⟨l, fun _ h => h⟩

theorem or {P Q : α → Prop} (hP : FinitelyMany P) (hQ : FinitelyMany Q) :
    FinitelyMany fun a => P a ∨ Q a := by
  obtain ⟨l, hl⟩ := hP
  obtain ⟨m, hm⟩ := hQ
  exact ⟨l ++ m, fun a ha => List.mem_append.2 (ha.imp (hl a) (hm a))⟩

/-- Values of a function are finite in number if its arguments are. -/
theorem map {P : α → Prop} (h : FinitelyMany P) (f : α → β) :
    FinitelyMany fun b => ∃ a, P a ∧ f a = b := by
  obtain ⟨l, hl⟩ := h
  exact ⟨l.map f, fun b ⟨a, ha, hb⟩ => List.mem_map.2 ⟨a, hl a ha, hb⟩⟩

theorem prod {P : α → Prop} {Q : β → Prop} (hP : FinitelyMany P) (hQ : FinitelyMany Q) :
    FinitelyMany fun c : α × β => P c.1 ∧ Q c.2 := by
  obtain ⟨l, hl⟩ := hP
  obtain ⟨m, hm⟩ := hQ
  refine ⟨l.flatMap fun a => m.map fun b => (a, b), fun c hc => ?_⟩
  exact List.mem_flatMap.2 ⟨c.1, hl _ hc.1, List.mem_map.2 ⟨c.2, hm _ hc.2, rfl⟩⟩

theorem option {P : α → Prop} (h : FinitelyMany P) :
    FinitelyMany fun o : Option α => ∀ a, o = some a → P a := by
  obtain ⟨l, hl⟩ := h
  refine ⟨none :: l.map some, fun o ho => ?_⟩
  cases o with
  | none => exact List.mem_cons_self
  | some a => exact List.mem_cons_of_mem _ (List.mem_map.2 ⟨a, hl a (ho a rfl), rfl⟩)

theorem list {P : α → Prop} (h : FinitelyMany P) (bound : Nat) :
    FinitelyMany fun l : List α => l.length ≤ bound ∧ ∀ a ∈ l, P a := by
  obtain ⟨items, hi⟩ := h
  induction bound with
  | zero => exact ⟨[[]], fun l hl => by simp [List.length_eq_zero_iff.1 (Nat.le_zero.1 hl.1)]⟩
  | succ bound ih =>
    obtain ⟨lists, hlists⟩ := ih
    refine ⟨[] :: items.flatMap fun a => lists.map fun l => a :: l, fun l hl => ?_⟩
    cases l with
    | nil => exact List.mem_cons_self
    | cons a rest =>
      refine List.mem_cons_of_mem _ (List.mem_flatMap.2 ⟨a, hi a (hl.2 a List.mem_cons_self), ?_⟩)
      refine List.mem_map.2 ⟨rest, hlists rest ⟨?_, fun b hb => ?_⟩, rfl⟩
      · have := hl.1
        simp only [List.length_cons] at this
        omega
      · exact hl.2 b (List.mem_cons_of_mem _ hb)

/-- There are finitely many numbers up to a bound. -/
theorem nat_le (bound : Nat) : FinitelyMany fun n => n ≤ bound :=
  ⟨List.range (bound + 1), fun _ hn => List.mem_range.2 (Nat.lt_succ_of_le hn)⟩

/-- There are finitely many 32-bit words. -/
theorem word : FinitelyMany fun _ : UInt32 => True := by
  refine ((nat_le UInt32.size).map UInt32.ofNat).mono fun w _ => ⟨w.toNat, ?_, ?_⟩
  · exact Nat.le_of_lt w.toNat_lt
  · exact UInt32.ofNat_toNat

end FinitelyMany

/-- If the keys of a list are among `keys` and each occurs at most `bound` times, then the
list is at most `keys.length * bound` long. -/
theorem length_le_of_countP_le {α : Type u} {κ : Type v} [DecidableEq κ] (key : α → κ)
    (keys : List κ) (bound : Nat) {l : List α} (hkeys : ∀ a ∈ l, key a ∈ keys)
    (hcount : ∀ k, l.countP (fun a => key a = k) ≤ bound) : l.length ≤ keys.length * bound := by
  induction keys generalizing l with
  | nil =>
    cases l with
    | nil => simp
    | cons a rest => exact absurd (hkeys a List.mem_cons_self) List.not_mem_nil
  | cons k keys ih =>
    -- Items with the key `k` are few, and the others have fewer keys.
    have hrest : (l.filter fun a => ¬ key a = k).length ≤ keys.length * bound := by
      refine ih (fun a ha => ?_) fun q => ?_
      · obtain ⟨ha, hk⟩ := List.mem_filter.1 ha
        rcases List.mem_cons.1 (hkeys a ha) with h | h
        · simp [h] at hk
        · exact h
      · exact Nat.le_trans (List.Sublist.countP_le List.filter_sublist) (hcount q)
    have hsplit := List.length_eq_countP_add_countP (fun a => decide (key a = k)) (l := l)
    rw [← List.countP_eq_length_filter] at hrest
    have hk := hcount k
    simp only [List.length_cons, Nat.succ_mul]
    simp only [decide_not] at hrest
    have hneg : l.countP (fun a => decide (¬ decide (key a = k) = true)) =
        l.countP (fun a => !decide (key a = k)) := by
      congr 1
      funext a
      simp
    omega

end CodeCompletion
