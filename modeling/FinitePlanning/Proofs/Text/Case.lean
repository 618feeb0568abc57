import FinitePlanning.Text.Case

/-!
Lower casing is idempotent, and the characters that it creates are letters or marks, none of which
separates words. Both follow from the table of the case mapping, row by row.
-/

namespace FinitePlanning
namespace Text

/-! ### Rows of the table -/

namespace LowerRow

/-- The code point that a row maps a code point to. -/
def image (row : LowerRow) (code : Nat) : Nat :=
  (code + row.offset).toNat

/-- The code points that a row maps. -/
def codes (row : LowerRow) : List Nat :=
  (List.range ((row.last - row.first) / row.step + 1)).map fun k => row.first + row.step * k

/-- Whether an inclusive range lies before or after all that a row maps to. -/
def avoids (row : LowerRow) (range : Nat × Nat) : Bool :=
  Nat.blt range.2 (row.image row.first) || Nat.blt (row.image row.last) range.1

/-- Whether the first row maps to code points only that the second one leaves alone. -/
def isLeftBy (a b : LowerRow) : Bool :=
  a.avoids (b.first, b.last) || a.codes.all fun code => (b.lower? (a.image code)).isNone

variable {row a b : LowerRow} {code result : Nat} {range : Nat × Nat}

theorem lower?_eq_some_iff : row.lower? code = some result ↔
    (row.first ≤ code ∧ code ≤ row.last) ∧ (code - row.first) % row.step = 0 ∧
      row.image code = result := by
  rw [lower?]
  split
  next h =>
    simp only [Bool.and_eq_true, decide_eq_true_eq, beq_iff_eq] at h
    rw [Option.some.injEq, image, and_iff_right h.1, and_iff_right h.2]
  next h =>
    simp only [Bool.and_eq_true, decide_eq_true_eq, beq_iff_eq] at h
    exact iff_of_false nofun fun hall => h ⟨hall.1, hall.2.1⟩

theorem bounds_of_lower? (h : row.lower? code = some result) :
    row.image row.first ≤ result ∧ result ≤ row.image row.last := by
  obtain ⟨⟨hfirst, hlast⟩, -, rfl⟩ := lower?_eq_some_iff.mp h
  rw [image, image, image]
  omega

theorem mem_codes_of_lower? (h : row.lower? code = some result) : code ∈ row.codes := by
  obtain ⟨⟨hfirst, hlast⟩, hmod, -⟩ := lower?_eq_some_iff.mp h
  refine List.mem_map.mpr ⟨(code - row.first) / row.step, ?_, ?_⟩
  · exact List.mem_range.mpr (Nat.lt_succ_of_le (Nat.div_le_div_right (by omega)))
  · have hdiv := Nat.div_add_mod (code - row.first) row.step
    omega

theorem not_mem_range_of_avoids (h : row.lower? code = some result)
    (havoids : row.avoids range = true) : ¬(range.1 ≤ result ∧ result ≤ range.2) := by
  have hbounds := bounds_of_lower? h
  rw [avoids, Bool.or_eq_true, Nat.blt_eq, Nat.blt_eq] at havoids
  omega

theorem lower?_eq_none_of_isLeftBy (h : a.lower? code = some result)
    (hleft : a.isLeftBy b = true) : b.lower? result = none := by
  rw [isLeftBy, Bool.or_eq_true] at hleft
  rcases hleft with havoids | hcodes
  · refine Option.eq_none_iff_forall_ne_some.mpr fun _ hb => ?_
    exact not_mem_range_of_avoids h havoids (lower?_eq_some_iff.mp hb).1
  · have hnone := List.all_eq_true.mp hcodes code (mem_codes_of_lower? h)
    rw [(lower?_eq_some_iff.mp h).2.2] at hnone
    exact Option.isNone_iff_eq_none.mp hnone

end LowerRow

/-- Code points that no row maps to: those before the small letters, the dotted capital I, the
capital sigma, those that are no characters, and blanks. -/
def reservedRanges : List (Nat × Nat) :=
  (0, 0x60) :: (0x130, 0x130) :: (0x3A3, 0x3A3) :: (0xD800, 0xDFFF) :: blankRanges

theorem avoids_of_mem_reservedRanges {row : LowerRow} {range : Nat × Nat}
    (hrow : row ∈ lowerRows) (hrange : range ∈ reservedRanges) : row.avoids range = true := by
  have hall : (lowerRows.all fun row => reservedRanges.all row.avoids) = true := by decide +kernel
  exact List.all_eq_true.mp (List.all_eq_true.mp hall row hrow) range hrange

theorem image_last_lt {row : LowerRow} (hrow : row ∈ lowerRows) :
    row.image row.last < 0x110000 := by
  have hall : (lowerRows.all fun row => Nat.blt (row.image row.last) 0x110000) = true := by
    decide +kernel
  exact Nat.blt_eq.mp (List.all_eq_true.mp hall row hrow)

theorem isLeftBy_of_mem_lowerRows {a b : LowerRow} (ha : a ∈ lowerRows) (hb : b ∈ lowerRows) :
    a.isLeftBy b = true := by
  have hall : (lowerRows.all fun a => lowerRows.all a.isLeftBy) = true := by decide +kernel
  exact List.all_eq_true.mp (List.all_eq_true.mp hall a ha) b hb

/-! ### Characters -/

/-- A character that is its own lower case form wherever it stands. -/
structure IsLower (c : Char) : Prop where
  lowerChar_eq : lowerChar c = [c]
  ne_sigma : c ≠ capitalSigma

/-- A character that is no blank and does not come before the small letters. -/
structure IsLowered (c : Char) : Prop where
  le : 0x61 ≤ c.toNat
  not_blank : isBlank c = false

variable {c d : Char} {before word : List Char}

theorem inRanges_eq_false {ranges : List (Nat × Nat)} {code : Nat}
    (h : ∀ r ∈ ranges, ¬(r.1 ≤ code ∧ code ≤ r.2)) : inRanges ranges code = false := by
  refine Bool.eq_false_iff.mpr fun hany => ?_
  obtain ⟨r, hr, hin⟩ := List.any_eq_true.mp hany
  exact h r hr (by simpa using hin)

/-- A small letter that the table makes is left alone by the table. -/
theorem isLower_of_lower? {row : LowerRow} {code result : Nat} (hrow : row ∈ lowerRows)
    (h : row.lower? code = some result) :
    IsLower (Char.ofNat result) ∧ IsLowered (Char.ofNat result) := by
  have hfree : ∀ r ∈ reservedRanges, ¬(r.1 ≤ result ∧ result ≤ r.2) := fun r hr =>
    LowerRow.not_mem_range_of_avoids h (avoids_of_mem_reservedRanges hrow hr)
  have hnone : lowerRows.findSome? (·.lower? result) = none :=
    List.findSome?_eq_none_iff.mpr fun b hb =>
      LowerRow.lower?_eq_none_of_isLeftBy h (isLeftBy_of_mem_lowerRows hrow hb)
  simp only [reservedRanges, List.forall_mem_cons] at hfree
  obtain ⟨hsmall, hdotted, hsigma, hchar, hblank⟩ := hfree
  have hlt : result < 0x110000 :=
    Nat.lt_of_le_of_lt (LowerRow.bounds_of_lower? h).2 (image_last_lt hrow)
  have hvalid : result.isValidChar := by
    rw [Nat.isValidChar]
    omega
  have hcode : (Char.ofNat result).toNat = result := by
    rw [Char.ofNat, dif_pos hvalid]
    rfl
  refine ⟨⟨?_, fun heq => hsigma ?_⟩, ⟨by omega, ?_⟩⟩
  · rw [lowerChar, hcode, if_neg (by omega), hnone]
  · rw [← hcode, heq]
    decide
  · rw [isBlank, hcode]
    exact inRanges_eq_false hblank

/-- The lower case form of a character is the character itself, or it is made of new ones. -/
theorem isLower_of_mem_lowerChar (hc : c ≠ capitalSigma) (hd : d ∈ lowerChar c) :
    IsLower d ∧ (lowerChar c = [c] ∧ d = c ∨ IsLowered d) := by
  rw [lowerChar] at hd
  split at hd
  next =>
    simp only [List.mem_cons, List.not_mem_nil, or_false] at hd
    rcases hd with rfl | rfl
    · exact ⟨⟨by decide +kernel, by decide⟩, .inr ⟨by decide, by decide⟩⟩
    · exact ⟨⟨by decide +kernel, by decide⟩, .inr ⟨by decide, by decide⟩⟩
  next hdotted =>
    split at hd
    next code hcode =>
      obtain rfl := List.mem_singleton.mp hd
      obtain ⟨row, hrow, hlower⟩ := List.exists_of_findSome?_eq_some hcode
      obtain ⟨hsettled, hnew⟩ := isLower_of_lower? hrow hlower
      exact ⟨hsettled, .inr hnew⟩
    next hnone =>
      obtain rfl := List.mem_singleton.mp hd
      have hself : lowerChar d = [d] := by rw [lowerChar, if_neg hdotted, hnone]
      exact ⟨⟨hself, hc⟩, .inl ⟨hself, rfl⟩⟩

theorem lowerChar_ne_nil (c : Char) : lowerChar c ≠ [] := by
  rw [lowerChar]
  split
  · exact List.cons_ne_nil _ _
  · split
    · exact List.cons_ne_nil _ _
    · exact List.cons_ne_nil _ _

/-! ### Words -/

/-- The lower case form of a character after the characters `before`, given in reverse, and before
the characters `rest`. -/
theorem exists_lowercaseAfter_cons (before : List Char) (c : Char) (rest : List Char) :
    ∃ lowered, lowercaseAfter before (c :: rest) = lowered ++ lowercaseAfter (c :: before) rest ∧
      lowered ≠ [] ∧ (IsLower c → lowered = [c]) ∧
        ∀ d ∈ lowered, IsLower d ∧ (lowered = [c] ∧ d = c ∨ IsLowered d) := by
  refine ⟨_, by rw [lowercaseAfter], ?_⟩
  by_cases hc : c = capitalSigma
  · rw [if_pos hc]
    have hsmall : ∀ {e}, e = 'ς' ∨ e = 'σ' → IsLower e ∧ IsLowered e := by
      rintro e (rfl | rfl)
      · exact ⟨⟨by decide +kernel, by decide⟩, ⟨by decide, by decide⟩⟩
      · exact ⟨⟨by decide +kernel, by decide⟩, ⟨by decide, by decide⟩⟩
    split
    · refine ⟨List.cons_ne_nil _ _, fun h => absurd hc h.ne_sigma, fun d hd => ?_⟩
      exact (hsmall (.inl (List.mem_singleton.mp hd))).imp_right .inr
    · refine ⟨List.cons_ne_nil _ _, fun h => absurd hc h.ne_sigma, fun d hd => ?_⟩
      exact (hsmall (.inr (List.mem_singleton.mp hd))).imp_right .inr
  · rw [if_neg hc]
    exact ⟨lowerChar_ne_nil c, IsLower.lowerChar_eq, fun d hd => isLower_of_mem_lowerChar hc hd⟩

theorem isLower_of_mem_lowercaseAfter (hd : d ∈ lowercaseAfter before word) :
    IsLower d ∧ (d ∈ word ∨ IsLowered d) := by
  induction word generalizing before with
  | nil => cases hd
  | cons c word ih =>
      obtain ⟨lowered, heq, -, -, hlowered⟩ := exists_lowercaseAfter_cons before c word
      rw [heq] at hd
      rcases List.mem_append.mp hd with hd | hd
      · refine (hlowered d hd).imp_right fun h => h.imp_left fun hself => ?_
        exact List.mem_cons.mpr (.inl hself.2)
      · exact (ih hd).imp_right fun h => h.imp_left (List.mem_cons_of_mem c)

theorem lowercaseAfter_eq_self (h : ∀ d ∈ word, IsLower d) : lowercaseAfter before word = word := by
  induction word generalizing before with
  | nil => rfl
  | cons c word ih =>
      obtain ⟨hc, hword⟩ := List.forall_mem_cons.mp h
      obtain ⟨lowered, heq, -, hself, -⟩ := exists_lowercaseAfter_cons before c word
      rw [heq, hself hc, ih hword]
      rfl

/-- Lower casing is idempotent. -/
theorem lowercase_lowercase (word : List Char) : lowercase (lowercase word) = lowercase word :=
  lowercaseAfter_eq_self fun _ hd => (isLower_of_mem_lowercaseAfter hd).1

end Text
end FinitePlanning
