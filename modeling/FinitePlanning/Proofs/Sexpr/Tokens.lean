import Mathlib.Data.List.TakeWhile
import FinitePlanning.Proofs.Collections
import FinitePlanning.Sexpr.Reader

/-!
What the tokens of a text are: one token for every word and every parenthesis, in the order of the
text, each at the bytes of its own characters. Blanks and comments belong to no token.
-/

namespace FinitePlanning

/-! ### Bytes of characters -/

section Bytes

variable {start middle stop offset : Nat} {c : Char} {as bs cs : List Char}

@[simp] theorem byteLength_nil : byteLength [] = 0 := rfl

@[simp] theorem byteLength_cons : byteLength (c :: cs) = c.utf8Size + byteLength cs := rfl

@[simp] theorem byteLength_append : byteLength (as ++ bs) = byteLength as + byteLength bs := by
  simp [byteLength]

theorem byteLength_pos (h : cs ≠ []) : 0 < byteLength cs := by
  cases cs with
  | nil => exact absurd rfl h
  | cons c cs => exact Nat.add_pos_left c.utf8Size_pos _

theorem charsWithin_append :
    charsWithin start stop offset (as ++ bs) =
      charsWithin start stop offset as ++ charsWithin start stop (offset + byteLength as) bs := by
  induction as generalizing offset with
  | nil => rfl
  | cons a as ih =>
      simp only [List.cons_append, charsWithin, byteLength_cons, ih, Nat.add_assoc]
      split
      · rfl
      · rfl

theorem charsWithin_eq_self (hstart : start ≤ offset) (hstop : offset + byteLength cs ≤ stop) :
    charsWithin start stop offset cs = cs := by
  induction cs generalizing offset with
  | nil => rfl
  | cons c cs ih =>
      have hpos := c.utf8Size_pos
      rw [byteLength_cons] at hstop
      rw [charsWithin, ih (by omega) (by omega), if_pos ⟨hstart, by omega⟩]

theorem charsWithin_eq_nil (h : stop ≤ offset ∨ offset + byteLength cs ≤ start) :
    charsWithin start stop offset cs = [] := by
  induction cs generalizing offset with
  | nil => rfl
  | cons c cs ih =>
      have hpos := c.utf8Size_pos
      rw [byteLength_cons] at h
      rw [charsWithin, ih (by omega), if_neg (by omega)]

theorem charsWithin_append_charsWithin (hstart : start ≤ middle) (hstop : middle ≤ stop) :
    charsWithin start middle offset cs ++ charsWithin middle stop offset cs =
      charsWithin start stop offset cs := by
  induction cs generalizing offset with
  | nil => rfl
  | cons c cs ih =>
      simp only [charsWithin, ← ih]
      by_cases h : offset < middle
      · have hlt : offset < stop := Nat.lt_of_lt_of_le h hstop
        simp only [h, hlt, Nat.not_le_of_gt h, and_true, if_false]
        split
        · rfl
        · rfl
      · have hle : start ≤ offset := Nat.le_trans hstart (Nat.le_of_not_lt h)
        have hnil : charsWithin start middle (offset + c.utf8Size) cs = [] :=
          charsWithin_eq_nil (Or.inl (by omega))
        simp only [h, hnil, hle, Nat.le_of_not_lt h, true_and, and_false, if_false,
          List.nil_append]

end Bytes

namespace Sexpr

/-! ### Separators -/

/-- A semicolon on the last line makes a comment of all that follows it. -/
def EndsInComment (cs : List Char) : Prop :=
  ∃ earlier comment, cs = earlier ++ ';' :: comment ∧ '\n' ∉ comment

/-- Whether a character is a blank or in a comment, after the characters before it. -/
def Separates (before : List Char) (c : Char) : Prop :=
  Text.isBlank c = true ∨ EndsInComment (before ++ [c])

theorem not_endsInComment {cs : List Char} (h : ';' ∉ cs) : ¬ EndsInComment cs := by
  intro ⟨earlier, comment, heq, _⟩
  exact h (heq ▸ List.mem_append_right earlier List.mem_cons_self)

theorem endsInComment_append {before cs : List Char} :
    EndsInComment (before ++ cs) ↔ EndsInComment cs ∨ EndsInComment before ∧ '\n' ∉ cs := by
  constructor
  · intro ⟨earlier, comment, heq, hcomment⟩
    cases List.append_eq_append_iff.mp heq with
    | inl h =>
        obtain ⟨skipped, rfl, rfl⟩ := h
        exact Or.inl ⟨skipped, comment, rfl, hcomment⟩
    | inr h =>
        obtain ⟨begun, rfl, h⟩ := h
        cases begun with
        | nil => exact Or.inl ⟨[], comment, h.symm, hcomment⟩
        | cons d begun =>
            cases h
            have h : '\n' ∉ begun ++ cs := hcomment
            rw [List.mem_append, not_or] at h
            exact Or.inr ⟨⟨earlier, begun, rfl, h.1⟩, h.2⟩
  · intro h
    cases h with
    | inl h =>
        obtain ⟨earlier, comment, rfl, hcomment⟩ := h
        exact ⟨before ++ earlier, comment, by simp, hcomment⟩
    | inr h =>
        obtain ⟨⟨earlier, comment, rfl, hcomment⟩, hcs⟩ := h
        exact ⟨earlier, comment ++ cs, by simp, by simp [hcomment, hcs]⟩

/-! ### Scanning -/

/-- The characters that a token of the kind is made of. -/
def TokenKind.Spells : TokenKind → List Char → Prop
  | .opening, cs => cs = ['(']
  | .closing, cs => cs = [')']
  | .word text, cs =>
      cs ≠ [] ∧ (∀ c ∈ cs, isDelimiter c = false) ∧ text = String.ofList (Text.lowercase cs)

/-- Characters between two tokens: a blank, or a comment up to the end of its line. -/
inductive IsGap (rest : List Char) : List Char → Prop
  | blank {c : Char} (h : Text.isBlank c = true) : IsGap rest [c]
  | comment {cs : List Char} (hline : '\n' ∉ cs) (hend : ∀ d ∈ rest.head?, d = '\n') :
      IsGap rest (';' :: cs)

/-- A run of the tokenizer: it takes one gap or one token after the other. -/
inductive Scans : Nat → List Char → List Token → Prop
  | nil {offset : Nat} : Scans offset [] []
  | gap {offset : Nat} {block rest : List Char} {ts : List Token} (hgap : IsGap rest block)
      (hrest : Scans (offset + byteLength block) rest ts) : Scans offset (block ++ rest) ts
  | token {offset : Nat} {block rest : List Char} {kind : TokenKind} {ts : List Token}
      (hspells : kind.Spells block) (hrest : Scans (offset + byteLength block) rest ts) :
      Scans offset (block ++ rest) (⟨kind, offset, offset + byteLength block - 1⟩ :: ts)

variable {offset : Nat} {before block rest after cs : List Char} {c : Char} {t : Token}
  {ts : List Token} {kind : TokenKind}

theorem isDelimiter_eq_false_of_continuesWord (h : continuesWord c = true) :
    isDelimiter c = false := by
  rw [continuesWord, Bool.and_eq_true, Bool.not_eq_true'] at h
  exact h.1

theorem scans_of_tokens (h : tokens offset cs = .ok ts) : Scans offset cs ts := by
  fun_induction tokens offset cs generalizing ts with
  | case1 offset =>
      cases h
      exact .nil
  | case2 offset rest comment =>
      rename_i ih
      have hline : '\n' ∉ comment := fun hmem => by
        simpa using List.mem_takeWhile_imp hmem
      have hend : ∀ d ∈ (rest.dropWhile (· != '\n')).head?, d = '\n' := by
        intro d hd
        simpa using List.find?_some ((List.find?_not_eq_head?_dropWhile _ _).trans hd)
      have hscan := Scans.gap (.comment hline hend) (Nat.add_assoc .. ▸ ih h)
      rwa [List.cons_append, List.takeWhile_append_dropWhile] at hscan
  | case3 offset c rest hcomment hblank ih => exact .gap (.blank hblank) (ih h)
  | case4 offset rest hcomment hblank ih =>
      obtain ⟨us, hus, h⟩ := exists_of_bind_eq_ok h
      cases h
      have hspells : TokenKind.opening.Spells ['('] := rfl
      exact .token hspells (ih hus)
  | case5 offset rest hcomment hblank hopening ih =>
      obtain ⟨us, hus, h⟩ := exists_of_bind_eq_ok h
      cases h
      have hspells : TokenKind.closing.Spells [')'] := rfl
      exact .token hspells (ih hus)
  | case6 => cases h
  | case7 offset c rest hcomment hblank hopening hclosing hname word =>
      rename_i ih
      obtain ⟨us, hus, h⟩ := exists_of_bind_eq_ok h
      cases h
      have hword : ∀ d ∈ word, isDelimiter d = false := by
        refine List.forall_mem_cons.mpr ⟨?_, fun d hd => ?_⟩
        · simp [isDelimiter, hcomment, hblank, hopening, hclosing]
        · exact isDelimiter_eq_false_of_continuesWord (List.mem_takeWhile_imp hd)
      have hspells : (TokenKind.word (String.ofList (Text.lowercase word))).Spells word :=
        ⟨List.cons_ne_nil _ _, hword, rfl⟩
      have hscan := Scans.token hspells (ih hus)
      rwa [List.cons_append, List.takeWhile_append_dropWhile] at hscan

/-! ### Places of tokens -/

/-- Whether all bytes of the character that begins at `first` are bytes of a token. -/
def Token.Holds (t : Token) (first : Nat) (c : Char) : Prop :=
  t.first ≤ first ∧ first + c.utf8Size ≤ t.last + 1

/-- Whether some byte of the character that begins at `first` is a byte of a token. -/
def Token.Meets (t : Token) (first : Nat) (c : Char) : Prop :=
  t.first < first + c.utf8Size ∧ first ≤ t.last

theorem TokenKind.Spells.ne_nil (h : kind.Spells block) : block ≠ [] := by
  cases kind with
  | opening => exact h ▸ List.cons_ne_nil _ _
  | closing => exact h ▸ List.cons_ne_nil _ _
  | word text => exact h.1

theorem Scans.bounds (h : Scans offset cs ts) (ht : t ∈ ts) :
    offset ≤ t.first ∧ t.first ≤ t.last ∧ t.last < offset + byteLength cs := by
  induction h with
  | nil => cases ht
  | gap hgap hrest ih =>
      have hbounds := ih ht
      rw [byteLength_append]
      omega
  | token hspells hrest ih =>
      have hpos := byteLength_pos hspells.ne_nil
      rw [byteLength_append]
      cases ht with
      | head => exact ⟨Nat.le_refl _, by dsimp only; omega, by dsimp only; omega⟩
      | tail _ ht =>
          have hbounds := ih ht
          omega

/-- The tokens stand one after the other. -/
theorem Scans.pairwise (h : Scans offset cs ts) : ts.Pairwise (·.last < ·.first) := by
  induction h with
  | nil => exact .nil
  | gap hgap hrest ih => exact ih
  | token hspells hrest ih =>
      have hpos := byteLength_pos hspells.ne_nil
      refine .cons (fun t ht => ?_) ih
      have hbounds := hrest.bounds ht
      dsimp only
      omega

/-- The bytes of a token are those of the characters that it is made of. -/
theorem Scans.spells (h : Scans offset cs ts) (ht : t ∈ ts) :
    t.kind.Spells (charsWithin t.first (t.last + 1) offset cs) := by
  induction h with
  | nil => cases ht
  | gap hgap hrest ih =>
      have hbounds := hrest.bounds ht
      rw [charsWithin_append, charsWithin_eq_nil (Or.inr hbounds.1)]
      exact ih ht
  | @token offset block rest kind ts hspells hrest ih =>
      have hpos := byteLength_pos hspells.ne_nil
      rw [charsWithin_append]
      cases ht with
      | head =>
          have hlast : offset + byteLength block - 1 + 1 = offset + byteLength block := by omega
          dsimp only
          rw [hlast, charsWithin_eq_self (Nat.le_refl _) (Nat.le_refl _),
            charsWithin_eq_nil (Or.inl (Nat.le_refl _)), List.append_nil]
          exact hspells
      | tail _ ht =>
          have hbounds := hrest.bounds ht
          rw [charsWithin_eq_nil (Or.inr hbounds.1)]
          exact ih ht

/-- A parenthesis has one byte. -/
def Token.IsTight (t : Token) : Prop :=
  (∀ text, t.kind ≠ .word text) → t.last = t.first

theorem Scans.isTight (h : Scans offset cs ts) : ∀ t ∈ ts, t.IsTight := by
  intro t ht hkind
  induction h with
  | nil => cases ht
  | gap hgap hrest ih => exact ih ht
  | @token offset block rest kind ts hspells hrest ih =>
      cases ht with
      | head =>
          cases kind with
          | opening => exact hspells ▸ rfl
          | closing => exact hspells ▸ rfl
          | word text => exact absurd rfl (hkind text)
      | tail _ ht => exact ih ht

theorem Scans.exists_charsWithin_list {first last : Nat} (h : Scans offset cs ts)
    (hopening : ⟨.opening, first, first⟩ ∈ ts) (hclosing : ⟨.closing, last, last⟩ ∈ ts)
    (hlt : first < last) :
    ∃ inside, charsWithin first (last + 1) offset cs = '(' :: (inside ++ [')']) := by
  have hfirst : charsWithin first (first + 1) offset cs = ['('] := h.spells hopening
  have hlast : charsWithin last (last + 1) offset cs = [')'] := h.spells hclosing
  refine ⟨charsWithin (first + 1) last offset cs, ?_⟩
  rw [← charsWithin_append_charsWithin (Nat.le_succ first) (by omega), hfirst,
    ← charsWithin_append_charsWithin (Nat.succ_le_of_lt hlt) (Nat.le_succ last), hlast]
  rfl

/-! ### Characters between the tokens -/

theorem TokenKind.Spells.semicolon_notMem (h : kind.Spells block) : ';' ∉ block := by
  cases kind with
  | opening => exact h ▸ by decide
  | closing => exact h ▸ by decide
  | word text => exact fun hmem => absurd (h.2.1 _ hmem) (by decide)

theorem TokenKind.Spells.isBlank_eq_false (h : kind.Spells block) (hc : c ∈ block) :
    Text.isBlank c = false := by
  cases kind with
  | opening =>
      cases List.mem_singleton.mp (h ▸ hc)
      decide
  | closing =>
      cases List.mem_singleton.mp (h ▸ hc)
      decide
  | word text =>
      have hdelimiter := h.2.1 c hc
      rw [isDelimiter, Bool.or_eq_false_iff] at hdelimiter
      exact hdelimiter.2

/-- A position in a text lies in its first part or in its second. -/
theorem position_cases (h : block ++ rest = before ++ c :: after) :
    (∃ between, block = before ++ c :: between) ∨
      ∃ between, before = block ++ between ∧ rest = between ++ c :: after := by
  cases List.append_eq_append_iff.mp h with
  | inl h => exact Or.inr h
  | inr h =>
      obtain ⟨between, rfl, heq⟩ := h
      cases between with
      | nil => exact Or.inr ⟨[], by simp, heq.symm⟩
      | cons d between =>
          obtain ⟨rfl, -⟩ := List.cons.inj heq
          exact Or.inl ⟨between, rfl⟩

theorem separates_append (h : EndsInComment block → '\n' ∈ before ++ [c]) :
    Separates (block ++ before) c ↔ Separates before c := by
  rw [Separates, List.append_assoc, endsInComment_append]
  exact or_congr_right (or_iff_left fun hopen => hopen.2 (h hopen.1))

theorem TokenKind.Spells.not_separates {between : List Char}
    (h : kind.Spells (before ++ c :: between)) : ¬ Separates before c := by
  intro hsep
  cases hsep with
  | inl hblank =>
      rw [h.isBlank_eq_false (List.mem_append_right before List.mem_cons_self)] at hblank
      cases hblank
  | inr hcomment =>
      rw [List.append_cons] at h
      exact not_endsInComment (fun hmem => h.semicolon_notMem (List.mem_append_left _ hmem))
        hcomment

theorem IsGap.separates {between : List Char} (h : IsGap rest block)
    (hblock : block = before ++ c :: between) : Separates before c := by
  cases h with
  | blank hblank =>
      cases before with
      | nil =>
          cases hblock
          exact Or.inl hblank
      | cons d before => cases before <;> cases hblock
  | comment hline hend =>
      cases before with
      | nil =>
          cases hblock
          exact Or.inr ⟨[], [], rfl, List.not_mem_nil⟩
      | cons d before =>
          cases hblock
          have hline : '\n' ∉ before ++ c :: between := hline
          rw [List.append_cons, List.mem_append, not_or] at hline
          exact Or.inr ⟨[], before ++ [c], rfl, hline.1⟩

theorem IsGap.newline_mem (h : IsGap (before ++ c :: after) block) (hopen : EndsInComment block) :
    '\n' ∈ before ++ [c] := by
  cases h with
  | @blank d hblank =>
      refine absurd hopen (not_endsInComment fun hmem => ?_)
      cases List.mem_singleton.mp hmem
      exact absurd hblank (by decide)
  | comment hline hend =>
      cases before with
      | nil => exact List.mem_singleton.mpr (hend c rfl).symm
      | cons d before => exact hend d rfl ▸ List.mem_cons_self

theorem Scans.not_meets {first : Nat} (h : Scans offset cs ts) (ht : t ∈ ts)
    (hfirst : first + c.utf8Size ≤ offset) : ¬ t.Meets first c := by
  have hbounds := h.bounds ht
  rw [Token.Meets]
  omega

/-- No token has a byte of a separator. Any other character is in one token, and no other token has
a byte of it. -/
theorem Scans.character (h : Scans offset cs ts) (hcs : cs = before ++ c :: after) :
    (Separates before c → ∀ t ∈ ts, ¬ t.Meets (offset + byteLength before) c) ∧
      (¬ Separates before c → ∃ t ∈ ts, t.Holds (offset + byteLength before) c ∧
        ∀ u ∈ ts, u.Meets (offset + byteLength before) c → u = t) := by
  induction h generalizing before with
  | nil => cases before <;> cases hcs
  | gap hgap hrest ih =>
      cases position_cases hcs with
      | inl hblock =>
          obtain ⟨between, hblock⟩ := hblock
          have hlen := congrArg byteLength hblock
          rw [byteLength_append, byteLength_cons] at hlen
          exact ⟨fun _ t ht => hrest.not_meets ht (by omega),
            fun hsep => absurd (hgap.separates hblock) hsep⟩
      | inr hbetween =>
          obtain ⟨between, rfl, rfl⟩ := hbetween
          -- a comment ends before the next line, so that the block has no say in the rest
          rw [byteLength_append, ← Nat.add_assoc, separates_append hgap.newline_mem]
          exact ih rfl
  | @token offset block rest kind ts hspells hrest ih =>
      cases position_cases hcs with
      | inl hblock =>
          obtain ⟨between, rfl⟩ := hblock
          have hlen : byteLength (before ++ c :: between) =
              byteLength before + (c.utf8Size + byteLength between) := by simp
          refine ⟨fun hsep => absurd hsep hspells.not_separates,
            fun _ => ⟨_, List.mem_cons_self, ?_, fun u hu hmeets => ?_⟩⟩
          · rw [Token.Holds]
            dsimp only
            omega
          · cases hu with
            | head => rfl
            | tail _ hu => exact absurd hmeets (hrest.not_meets hu (by omega))
      | inr hbetween =>
          obtain ⟨between, rfl, rfl⟩ := hbetween
          have hhead : ¬ Token.Meets ⟨kind, offset, offset + byteLength block - 1⟩
              (offset + byteLength block + byteLength between) c := by
            have hpos := byteLength_pos hspells.ne_nil
            rw [Token.Meets]
            dsimp only
            omega
          rw [byteLength_append, ← Nat.add_assoc,
            separates_append fun hopen =>
              absurd hopen (not_endsInComment hspells.semicolon_notMem)]
          constructor
          · exact fun hsep => List.forall_mem_cons.mpr ⟨hhead, (ih rfl).1 hsep⟩
          · intro hsep
            obtain ⟨t, ht, hholds, huniq⟩ := (ih rfl).2 hsep
            exact ⟨t, List.mem_cons_of_mem _ ht, hholds,
              List.forall_mem_cons.mpr ⟨fun hmeets => absurd hmeets hhead, huniq⟩⟩

end Sexpr
end FinitePlanning
