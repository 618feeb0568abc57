import Mathlib.Data.List.Perm.Subperm
import Mathlib.Data.List.Nodup
import Mathlib.Data.List.Range
import Std.Data.String.ToNat
import FinitePlanning.Atom
import FinitePlanning.Names

/-!
Fresh names are fresh: among the numbered candidates for a name there is always
one that is not taken.
-/

namespace FinitePlanning

theorem toString_injective : Function.Injective (toString : Nat → String) := by
  intro m n h
  have hm := Nat.toNat?_repr m
  have hn := Nat.toNat?_repr n
  rw [show Nat.repr m = Nat.repr n from h, hn] at hm
  exact (Option.some.inj hm).symm

theorem numbered_injective (base : String) :
    Function.Injective (fun i : Nat => base ++ toString i) := fun _ _ h =>
  toString_injective ((String.append_right_inj base).mp h)

/-- More candidates than names that are taken. -/
theorem exists_not_mem_of_length_lt {α : Type} (taken : List α) {l : List α} (hl : l.Nodup)
    (h : taken.length < l.length) : ∃ a ∈ l, a ∉ taken := by
  by_contra hall
  push Not at hall
  exact Nat.not_le_of_lt h (List.subperm_of_subset hl hall).length_le

/-- At least as many elements are left as there are more than those to be removed. -/
theorem le_length_filter_not_mem {α : Type} [DecidableEq α] (taken : List α) (n : Nat)
    {l : List α} (hl : l.Nodup) (h : n + taken.length ≤ l.length) :
    n ≤ (l.filter (· ∉ taken)).length := by
  have hsplit : (l.filter (· ∈ taken)).length + (l.filter (· ∉ taken)).length = l.length := by
    simpa using List.length_eq_length_filter_add (l := l) (· ∈ taken) |>.symm
  have hsub : (l.filter (· ∈ taken)).length ≤ taken.length :=
    (List.subperm_of_subset (hl.filter _) fun a ha => by
      simpa using (List.mem_filter.mp ha).2).length_le
  omega

theorem firstFree_not_mem {taken : List String} {candidate : Nat → String}
    (h : Function.Injective candidate) (start : Nat) :
    (firstFree taken candidate start).2 ∉ taken := by
  have hnumbers : ((List.range (taken.length + 1)).map (start + ·)).Nodup :=
    List.Nodup.map (fun _ _ h => Nat.add_left_cancel h) List.nodup_range
  obtain ⟨name, hname, hfree⟩ := exists_not_mem_of_length_lt taken
    (List.Nodup.map h hnumbers) (by simp)
  obtain ⟨number, hnumber, rfl⟩ := List.mem_map.mp hname
  rw [firstFree]
  cases hf : ((List.range (taken.length + 1)).map (start + ·)).find? (candidate · ∉ taken) with
  | none => exact absurd (List.find?_eq_none.mp hf number hnumber) (by simpa using hfree)
  | some n => simpa using List.find?_some hf

theorem isVariable_append {a b : String} (h : isVariable a = true) :
    isVariable (a ++ b) = true := by
  simp only [isVariable, String.toList_append, List.head?_append, beq_iff_eq] at h ⊢
  simp [h]

namespace VariableNames

variable {names : VariableNames} {base : String}

theorem fresh_not_mem : (names.fresh base).1 ∉ names.used := by
  simp only [fresh]
  split
  next => exact firstFree_not_mem (numbered_injective base) 1
  next h => exact h

@[simp] theorem fresh_used :
    (names.fresh base).2.used = (names.fresh base).1 :: names.used := rfl

theorem fresh_isVariable (h : isVariable base = true) :
    isVariable (names.fresh base).1 = true := by
  simp only [fresh]
  split
  next => exact isVariable_append h
  next => exact h

end VariableNames
end FinitePlanning
