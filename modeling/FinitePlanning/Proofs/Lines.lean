import Std.Data.String.ToInt
import FinitePlanning.Proofs.Names

/-!
Texts made of lines, and lines made of words. A text determines its lines if the mark that ends
a line occurs in none of them, and items that are written one after the other are determined if
each of them can be told apart from what follows it.
-/

namespace FinitePlanning

section Marks

variable {α : Type} {mark : α} {v w r s : List α}

/-- What stands before the first mark and what stands after it are determined. -/
theorem firstMark_inj (hv : mark ∉ v) (hw : mark ∉ w) (h : v ++ mark :: r = w ++ mark :: s) :
    v = w ∧ r = s := by
  induction v generalizing w with
  | nil =>
      cases w with
      | nil => exact ⟨rfl, (List.cons.inj h).2⟩
      | cons d w => exact absurd ((List.cons.inj h).1 ▸ List.mem_cons_self) hw
  | cons d v ih =>
      cases w with
      | nil => exact absurd ((List.cons.inj h).1 ▸ List.mem_cons_self) hv
      | cons e w =>
          obtain ⟨rfl, hrest⟩ := List.cons.inj h
          obtain ⟨rfl, rfl⟩ := ih (List.not_mem_of_not_mem_cons hv)
            (List.not_mem_of_not_mem_cons hw) hrest
          exact ⟨rfl, rfl⟩

/-- The same for the last mark. -/
theorem lastMark_inj (hr : mark ∉ r) (hs : mark ∉ s) (h : v ++ mark :: r = w ++ mark :: s) :
    v = w ∧ r = s := by
  have hreverse : r.reverse ++ mark :: v.reverse = s.reverse ++ mark :: w.reverse := by
    simpa using congrArg List.reverse h
  obtain ⟨hrest, hfirst⟩ := firstMark_inj (by simpa using hr) (by simpa using hs) hreverse
  exact ⟨List.reverse_injective hfirst, List.reverse_injective hrest⟩

end Marks

section Separated

variable {c : Char}

/-- Lines that end with a mark can be recovered from the text they make up. -/
theorem terminated_inj {lines lines' : List String} (hl : ∀ l ∈ lines, c ∉ l.toList)
    (hl' : ∀ l ∈ lines', c ∉ l.toList)
    (h : lines.flatMap (fun l => l.toList ++ [c]) = lines'.flatMap (fun l => l.toList ++ [c])) :
    lines = lines' := by
  induction lines generalizing lines' with
  | nil =>
      cases lines' with
      | nil => rfl
      | cons l lines' => simp at h
  | cons l lines ih =>
      cases lines' with
      | nil => simp at h
      | cons l' lines' =>
          simp only [List.flatMap_cons, List.append_assoc, List.singleton_append] at h
          obtain ⟨hline, hrest⟩ := firstMark_inj (hl l List.mem_cons_self)
            (hl' l' List.mem_cons_self) h
          rw [String.toList_inj.mp hline, ih (fun m hm => hl m (List.mem_cons_of_mem _ hm))
            (fun m hm => hl' m (List.mem_cons_of_mem _ hm)) hrest]

/-- Words between which a mark stands can be recovered from the line they make up. -/
theorem intercalate_inj {words words' : List String} (hne : words ≠ []) (hne' : words' ≠ [])
    (hw : ∀ w ∈ words, c ∉ w.toList) (hw' : ∀ w ∈ words', c ∉ w.toList)
    (h : (String.singleton c).intercalate words = (String.singleton c).intercalate words') :
    words = words' := by
  have hchars := String.toList_inj.mpr h
  simp only [String.toList_intercalate, String.toList_singleton] at hchars
  have hsplit := congrArg (List.splitOn c) hchars
  rw [List.splitOn_intercalate c (by simpa using hw) (by simpa using hne),
    List.splitOn_intercalate c (by simpa using hw') (by simpa using hne')] at hsplit
  exact List.map_injective_iff.mpr (fun _ _ => String.toList_inj.mp) hsplit

end Separated

/-- Groups of words make up the same line as all of their words. -/
theorem intercalate_map_append {α : Type} {sep : String} {words : α → List String}
    (hne : ∀ a, words a ≠ []) (items : List α) {rest : List String} (hrest : rest ≠ []) :
    sep.intercalate (items.map (fun a => sep.intercalate (words a)) ++ rest)
      = sep.intercalate (items.flatMap words ++ rest) := by
  induction items with
  | nil => rfl
  | cons a items ih =>
      rw [List.map_cons, List.cons_append, List.flatMap_cons, List.append_assoc,
        String.intercalate_cons_of_ne_nil (List.append_ne_nil_of_right_ne_nil _ hrest), ih,
        String.intercalate_append_of_ne_nil (hne a) (List.append_ne_nil_of_right_ne_nil _ hrest)]

section Numbers

theorem isDigit_of_mem_toString {n : Nat} {c : Char} (h : c ∈ (toString n).toList) :
    c.isDigit = true :=
  Nat.isDigit_of_mem_toDigits (by decide) (by decide) (Nat.toList_repr ▸ h)

variable {c : Char}

theorem not_mem_toString (hc : c.isDigit = false) (n : Nat) : c ∉ (toString n).toList :=
  fun h => Bool.false_ne_true (hc ▸ isDigit_of_mem_toString h)

theorem not_mem_toString_int (hc : c.isDigit = false) (hminus : c ≠ '-') (n : Int) :
    c ∉ (toString n).toList := by
  cases n with
  | ofNat n => exact not_mem_toString hc n
  | negSucc n =>
      rw [show toString (Int.negSucc n) = "-" ++ toString (n + 1) from rfl,
        String.toList_append, List.mem_append, not_or]
      exact ⟨fun h => hminus (List.mem_singleton.mp h), not_mem_toString hc _⟩

theorem toString_int_injective : Function.Injective (toString : Int → String) :=
  fun _ _ h => Int.repr_injective h

end Numbers

/-- Items that satisfy a condition are written so that each can be told apart from what follows. -/
def IsCode {α : Type} (P : α → Prop) (write : α → List String) : Prop :=
  ∀ ⦃a b : α⦄ ⦃r s : List String⦄, P a → P b → write a ++ r = write b ++ s → a = b ∧ r = s

section Codes

variable {α : Type} {P : α → Prop} {write : α → List String} {items items' : List α}
  {r s : List String}

/-- As many items of a code can be told apart from what follows. -/
theorem IsCode.flatMap_inj (hcode : IsCode P write) (hlength : items.length = items'.length)
    (hitems : ∀ a ∈ items, P a) (hitems' : ∀ a ∈ items', P a)
    (h : items.flatMap write ++ r = items'.flatMap write ++ s) : items = items' ∧ r = s := by
  induction items generalizing items' with
  | nil =>
      cases List.length_eq_zero_iff.mp hlength.symm
      exact ⟨rfl, h⟩
  | cons a items ih =>
      cases items' with
      | nil => cases hlength
      | cons b items' =>
          rw [List.flatMap_cons, List.append_assoc, List.flatMap_cons, List.append_assoc] at h
          obtain ⟨rfl, hrest⟩ := hcode (hitems a List.mem_cons_self) (hitems' b List.mem_cons_self) h
          obtain ⟨rfl, rfl⟩ := ih (Nat.succ.inj hlength)
            (fun c hc => hitems c (List.mem_cons_of_mem _ hc))
            (fun c hc => hitems' c (List.mem_cons_of_mem _ hc)) hrest
          exact ⟨rfl, rfl⟩

/-- As many items that take one line each can be told apart from what follows. -/
theorem map_append_inj {line : α → String} (hline : Function.Injective line)
    (hlength : items.length = items'.length) (h : items.map line ++ r = items'.map line ++ s) :
    items = items' ∧ r = s := by
  obtain ⟨hmap, hrest⟩ := List.append_inj h (by simpa using hlength)
  exact ⟨List.map_injective_iff.mpr hline hmap, hrest⟩

end Codes
end FinitePlanning
