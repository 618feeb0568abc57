import FinitePlanning.Proofs.Sexpr.Reader
import FinitePlanning.Proofs.Text.Case

/-!
The words of a text that is split into tokens. They are in lower case already, and a question mark
can only be the first character of one. A word is nothing but a question mark if and only if the
text has two question marks in a row.
-/

namespace FinitePlanning
namespace Sexpr

/-! ### Words -/

/-- A word that a text can have, in lower case: a question mark is its first character or none. -/
inductive IsWord : List Char → Prop
  | mk {c : Char} {rest : List Char} (hfirst : isDelimiter c = false)
      (hrest : ∀ d ∈ rest, continuesWord d = true)
      (hlower : Text.lowercase (c :: rest) = c :: rest) : IsWord (c :: rest)

/-- A question mark outside of comments stands directly before another one. -/
def HasDoubledMark (cs : List Char) : Prop :=
  ∃ before after, cs = before ++ '?' :: '?' :: after ∧ ¬ Separates before '?'

/-- A word that is nothing but a question mark. -/
def Token.IsBareMark (t : Token) : Prop :=
  t.kind = .word "?"

instance : DecidablePred Token.IsBareMark := fun t =>
  inferInstanceAs (Decidable (t.kind = .word "?"))

variable {offset : Nat} {c d : Char} {cs ds block rest word : List Char} {t : Token}
  {ts : List Token}

theorem isDelimiter_eq_false_iff :
    isDelimiter c = false ↔ c ≠ '(' ∧ c ≠ ')' ∧ c ≠ ';' ∧ Text.isBlank c = false := by
  simp [isDelimiter, and_assoc]

theorem continuesWord_iff : continuesWord c = true ↔ isDelimiter c = false ∧ c ≠ '?' := by
  simp [continuesWord]

theorem continuesWord_of_isLowered (h : Text.IsLowered c) : continuesWord c = true := by
  have hne : ∀ d : Char, d.toNat < 0x61 → c ≠ d := fun d hd he =>
    absurd h.le (Nat.not_le.mpr (he ▸ hd))
  rw [continuesWord_iff, isDelimiter_eq_false_iff]
  exact ⟨⟨hne '(' (by decide), hne ')' (by decide), hne ';' (by decide), h.not_blank⟩,
    hne '?' (by decide)⟩

/-- Lower casing keeps the form of a word. Only a single question mark becomes one. -/
theorem isWord_lowercase (hc : isDelimiter c = false)
    (hword : ∀ d ∈ word, continuesWord d = true) :
    IsWord (Text.lowercase (c :: word)) ∧
      (Text.lowercase (c :: word) = ['?'] ↔ c :: word = ['?']) := by
  obtain ⟨lowered, heq, hne, hself, hlowered⟩ := Text.exists_lowercaseAfter_cons [] c word
  have heq : Text.lowercase (c :: word) = lowered ++ Text.lowercaseAfter [c] word := heq
  have htail : ∀ d ∈ Text.lowercaseAfter [c] word, continuesWord d = true := fun d hd =>
    (Text.isLower_of_mem_lowercaseAfter hd).2.elim (hword d) continuesWord_of_isLowered
  have hfix := Text.lowercase_lowercase (c :: word)
  rw [heq] at hfix ⊢
  by_cases hsame : lowered = [c]
  · subst hsame
    refine ⟨.mk hc htail hfix, ?_⟩
    rw [List.singleton_append, List.cons.injEq, List.cons.injEq]
    refine and_congr_right fun _ => ?_
    cases word with
    | nil => exact iff_of_true rfl rfl
    | cons d word =>
        obtain ⟨_, hcons, hlow, -⟩ := Text.exists_lowercaseAfter_cons [c] d word
        rw [hcons]
        exact iff_of_false (fun hnil => hlow (List.append_eq_nil_iff.mp hnil).1)
          (List.cons_ne_nil _ _)
  · have hnew : ∀ d ∈ lowered, continuesWord d = true := fun d hd =>
      continuesWord_of_isLowered ((hlowered d hd).2.resolve_left fun h => hsame h.1)
    cases lowered with
    | nil => exact absurd rfl hne
    | cons e lowered =>
        obtain ⟨he, hlowered⟩ := List.forall_mem_cons.mp hnew
        obtain ⟨hdelimiter, hmark⟩ := continuesWord_iff.mp he
        refine ⟨.mk hdelimiter (List.forall_mem_append.mpr ⟨hlowered, htail⟩) hfix,
          iff_of_false (fun h => hmark (List.cons.inj h).1) fun h => ?_⟩
        obtain ⟨rfl, -⟩ := List.cons.inj h
        exact hsame (hself ⟨by decide +kernel, by decide⟩)

/-! ### Words of a text -/

theorem hasDoubledMark_gap (hgap : IsGap rest block) :
    HasDoubledMark (block ++ rest) ↔ HasDoubledMark rest := by
  constructor
  · rintro ⟨before, after, heq, hsep⟩
    rcases position_cases heq with ⟨between, hblock⟩ | ⟨between, rfl, hrest⟩
    · exact absurd (hgap.separates hblock) hsep
    · rw [separates_append (IsGap.newline_mem (hrest ▸ hgap))] at hsep
      exact ⟨between, after, hrest, hsep⟩
  · rintro ⟨before, after, rfl, hsep⟩
    refine ⟨block ++ before, after, by rw [List.append_assoc], ?_⟩
    rwa [separates_append hgap.newline_mem]

theorem hasDoubledMark_token {kind : TokenKind} (hspells : kind.Spells block) :
    HasDoubledMark (block ++ rest) ↔
      (∃ front back, block = front ++ '?' :: back ∧ (back ++ rest).head? = some '?') ∨
        HasDoubledMark rest := by
  have hopen : ∀ {before : List Char}, Separates (block ++ before) '?' ↔ Separates before '?' :=
    separates_append fun hopen => absurd hopen (not_endsInComment hspells.semicolon_notMem)
  constructor
  · rintro ⟨before, after, heq, hsep⟩
    rcases position_cases heq with ⟨between, rfl⟩ | ⟨between, rfl, hrest⟩
    · rw [List.append_assoc, List.append_cancel_left_eq, List.cons_append, List.cons.injEq] at heq
      exact .inl ⟨before, between, rfl, heq.2 ▸ rfl⟩
    · exact .inr ⟨between, after, hrest, fun h => hsep (hopen.mpr h)⟩
  · rintro (⟨front, back, rfl, hhead⟩ | ⟨before, after, rfl, hsep⟩)
    · obtain ⟨after, heq⟩ := List.head?_eq_some_iff.mp hhead
      refine ⟨front, after, ?_, hspells.not_separates⟩
      rw [List.append_assoc, List.cons_append, heq]
    · exact ⟨block ++ before, after, by rw [List.append_assoc], fun h => hsep (hopen.mp h)⟩

theorem hasDoubledMark_parenthesis {kind : TokenKind} (hspells : kind.Spells block)
    (h : '?' ∉ block) : HasDoubledMark (block ++ rest) ↔ HasDoubledMark rest := by
  rw [hasDoubledMark_token hspells, or_iff_right]
  rintro ⟨front, back, rfl, -⟩
  exact h (List.mem_append_right front List.mem_cons_self)

/-- A word and what follows it have a question mark before another one if the word is a bare one. -/
theorem exists_mark_iff (hc : isDelimiter c = false)
    (hname : ¬(c = '?' ∧ rest.head?.all isDelimiter = true)) :
    (∃ front back, c :: rest.takeWhile continuesWord = front ++ '?' :: back ∧
      (back ++ rest.dropWhile continuesWord).head? = some '?') ↔
        c :: rest.takeWhile continuesWord = ['?'] := by
  have hnot : ∀ d ∈ rest.takeWhile continuesWord, d ≠ '?' := fun d hd =>
    (continuesWord_iff.mp (List.mem_takeWhile_imp hd)).2
  constructor
  · rintro ⟨front, back, heq, hhead⟩
    cases front with
    | nil =>
        obtain ⟨rfl, hback⟩ := List.cons.inj heq
        cases back with
        | nil => rw [hback]
        | cons d back =>
            obtain rfl := Option.some.inj hhead
            exact absurd rfl (hnot '?' (hback ▸ List.mem_cons_self))
    | cons e front =>
        have hmem : '?' ∈ rest.takeWhile continuesWord :=
          (List.cons.inj heq).2 ▸ List.mem_append_right front List.mem_cons_self
        exact absurd rfl (hnot '?' hmem)
  · intro heq
    obtain ⟨rfl, hnil⟩ := List.cons.inj heq
    refine ⟨[], [], heq, ?_⟩
    cases rest with
    | nil => exact absurd ⟨rfl, rfl⟩ hname
    | cons d rest =>
        have hd : ¬ continuesWord d = true := fun hd => by
          rw [List.takeWhile_cons_of_pos hd] at hnil
          cases hnil
        have hdelimiter : isDelimiter d = false := Bool.eq_false_iff.mpr fun h => hname ⟨rfl, h⟩
        rw [continuesWord_iff, and_iff_right hdelimiter, not_not] at hd
        rw [List.dropWhile_cons_of_neg (by rw [hd]; decide), hd]
        rfl

/-- The words of a text have the form of words, and one of them is a bare question mark if and only
if two question marks stand together. -/
structure AreWordsOf (ts : List Token) (cs : List Char) : Prop where
  isWord : ∀ t ∈ ts, ∀ text, t.kind = .word text → IsWord text.toList
  bareMark_iff : (∃ t ∈ ts, t.IsBareMark) ↔ HasDoubledMark cs

theorem areWordsOf_nil : AreWordsOf [] [] where
  isWord := List.forall_mem_nil _
  bareMark_iff := by
    refine iff_of_false (by simp) ?_
    rintro ⟨before, after, heq, -⟩
    cases before <;> cases heq

theorem AreWordsOf.append_gap (h : AreWordsOf ts rest) (hgap : IsGap rest block) :
    AreWordsOf ts (block ++ rest) where
  isWord := h.isWord
  bareMark_iff := h.bareMark_iff.trans (hasDoubledMark_gap hgap).symm

theorem AreWordsOf.cons_parenthesis (h : AreWordsOf ts rest) (hspells : t.kind.Spells block)
    (hmark : '?' ∉ block) (hkind : ∀ text, t.kind ≠ .word text) :
    AreWordsOf (t :: ts) (block ++ rest) where
  isWord := List.forall_mem_cons.mpr ⟨fun text htext => absurd htext (hkind text), h.isWord⟩
  bareMark_iff := by
    have hbare : ¬ t.IsBareMark := hkind "?"
    simp only [List.mem_cons, exists_eq_or_imp]
    rw [or_iff_right hbare, h.bareMark_iff, hasDoubledMark_parenthesis hspells hmark]

theorem AreWordsOf.cons_word (h : AreWordsOf ts (rest.dropWhile continuesWord))
    (hc : isDelimiter c = false) (hname : ¬(c = '?' ∧ rest.head?.all isDelimiter = true)) :
    AreWordsOf (wordToken offset (c :: rest.takeWhile continuesWord) :: ts) (c :: rest) := by
  have hrest : ∀ d ∈ rest.takeWhile continuesWord, continuesWord d = true :=
    fun d hd => List.mem_takeWhile_imp hd
  obtain ⟨hword, hmark⟩ := isWord_lowercase hc hrest
  have hspells : (TokenKind.word (String.ofList
      (Text.lowercase (c :: rest.takeWhile continuesWord)))).Spells
        (c :: rest.takeWhile continuesWord) :=
    ⟨List.cons_ne_nil _ _, List.forall_mem_cons.mpr ⟨hc, fun d hd =>
      (continuesWord_iff.mp (hrest d hd)).1⟩, rfl⟩
  refine ⟨List.forall_mem_cons.mpr ⟨fun text htext => ?_, h.isWord⟩, ?_⟩
  · cases htext
    rwa [String.toList_ofList]
  · have hbare : (wordToken offset (c :: rest.takeWhile continuesWord)).IsBareMark ↔
        c :: rest.takeWhile continuesWord = ['?'] := by
      rw [← hmark, Token.IsBareMark, wordToken, TokenKind.word.injEq]
      exact (String.ofList_inj : String.ofList _ = String.ofList ['?'] ↔ _)
    have hsplit : c :: rest =
        c :: rest.takeWhile continuesWord ++ rest.dropWhile continuesWord := by
      rw [List.cons_append, List.takeWhile_append_dropWhile]
    simp only [List.mem_cons, exists_eq_or_imp]
    rw [hbare, h.bareMark_iff, hsplit, hasDoubledMark_token hspells, exists_mark_iff hc hname]

theorem isGap_comment (rest : List Char) :
    IsGap (rest.dropWhile (· != '\n')) (';' :: rest.takeWhile (· != '\n')) := by
  refine .comment (fun hmem => ?_) fun d hd => ?_
  · simpa using List.mem_takeWhile_imp hmem
  · simpa using List.find?_some ((List.find?_not_eq_head?_dropWhile _ _).trans hd)

theorem words_of_tokens (h : tokens offset cs = .ok ts) : AreWordsOf ts cs := by
  fun_induction tokens offset cs generalizing ts with
  | case1 =>
      cases h
      exact areWordsOf_nil
  | case2 offset rest comment =>
      rename_i ih
      have hwords := (ih h).append_gap (isGap_comment rest)
      rwa [List.cons_append, List.takeWhile_append_dropWhile] at hwords
  | case3 offset c rest hcomment hblank ih =>
      have hgap : IsGap rest [c] := .blank hblank
      exact (ih h).append_gap hgap
  | case4 offset rest hcomment hblank ih =>
      obtain ⟨us, hus, h⟩ := exists_of_bind_eq_ok h
      cases h
      have hspells : TokenKind.opening.Spells ['('] := rfl
      have hmark : '?' ∉ ['('] := by decide
      have hkind : ∀ text, TokenKind.opening ≠ .word text := fun _ => TokenKind.noConfusion
      exact (ih hus).cons_parenthesis (t := ⟨.opening, offset, offset⟩) hspells hmark hkind
  | case5 offset rest hcomment hblank hopening ih =>
      obtain ⟨us, hus, h⟩ := exists_of_bind_eq_ok h
      cases h
      have hspells : TokenKind.closing.Spells [')'] := rfl
      have hmark : '?' ∉ [')'] := by decide
      have hkind : ∀ text, TokenKind.closing ≠ .word text := fun _ => TokenKind.noConfusion
      exact (ih hus).cons_parenthesis (t := ⟨.closing, offset, offset⟩) hspells hmark hkind
  | case6 => cases h
  | case7 offset c rest hcomment hblank hopening hclosing hname word =>
      rename_i ih
      obtain ⟨us, hus, h⟩ := exists_of_bind_eq_ok h
      cases h
      exact (ih hus).cons_word (isDelimiter_eq_false_iff.mpr
        ⟨hopening, hclosing, hcomment, by simpa using hblank⟩) hname

end Sexpr
end FinitePlanning
