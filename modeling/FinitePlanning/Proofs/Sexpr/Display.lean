import FinitePlanning.Proofs.Sexpr.Words

/-!
The displayed form of an expression that was read is read as the same tree, unless the text had two
question marks in a row. The first of these becomes a word of its own, which is refused where a
blank or a parenthesis follows it, as it does in the displayed form.
-/

namespace FinitePlanning
namespace Sexpr

/-- An expression without places. -/
inductive Tree where
  | leaf (name : String)
  | node (children : List Tree)

mutual

def tree : Sexpr → Tree
  | .atom symbol => .leaf symbol.name
  | .list elements _ => .node (treesOfAll elements)

def treesOfAll : List Sexpr → List Tree
  | [] => []
  | e :: rest => tree e :: treesOfAll rest

end

/-- No word goes on with the first of the characters. -/
def IsEnd (rest : List Char) : Prop :=
  ∀ d ∈ rest.head?, isDelimiter d = true

variable {source source' : Source} {outer outer' : List OpenList} {current current' : OpenList}
  {e : Sexpr} {es : List Sexpr} {offset : Nat} {c : Char} {cs ds rest word : List Char}
  {ts us trailing : List Token} {kinds more : List TokenKind}

theorem treesOfAll_eq_map (es : List Sexpr) : treesOfAll es = es.map tree := by
  induction es with
  | nil => rfl
  | cons e es ih => rw [treesOfAll, ih, List.map_cons]

/-! ### Readers of tokens of the same kinds -/

/-- Open lists with the same elements, wherever they stand. -/
def OpenList.IsLike (l l' : OpenList) : Prop :=
  l'.elements.map tree = l.elements.map tree

theorem OpenList.IsLike.add {l l' : OpenList} {e' : Sexpr} (h : l.IsLike l')
    (he : e'.tree = e.tree) : (l.add e).IsLike (l'.add e') := by
  rw [IsLike, OpenList.add, OpenList.add, List.map_cons, List.map_cons, he, h]

theorem OpenList.IsLike.tree_close {l l' : OpenList} {last last' : Nat} (h : l.IsLike l') :
    (l'.close source' last').tree = (l.close source last).tree := by
  rw [OpenList.close, OpenList.close, tree, tree, treesOfAll_eq_map, treesOfAll_eq_map,
    List.map_reverse, List.map_reverse, h]

/-- The kinds of the tokens decide what is read. -/
theorem exists_closeAll_of_kinds (source' : Source)
    (h : closeAll source outer current ts = .ok (e, trailing))
    (hkinds : us.map (·.kind) = ts.map (·.kind)) (hcurrent : current.IsLike current')
    (houter : List.Forall₂ OpenList.IsLike outer outer') :
    ∃ e' trailing', closeAll source' outer' current' us = .ok (e', trailing') ∧
      e'.tree = e.tree ∧ trailing'.map (·.kind) = trailing.map (·.kind) := by
  fun_induction closeAll source outer current ts generalizing us outer' current' with
  | case1 => cases h
  | case2 outer current token rest hkind ih =>
      obtain ⟨u, us, rfl, hu, hus⟩ := List.map_eq_cons_iff.mp hkinds
      simp only [closeAll, hu.trans hkind]
      exact ih h hus rfl (.cons hcurrent houter)
  | case3 outer current token rest text hkind symbol =>
      rename_i ih
      obtain ⟨u, us, rfl, hu, hus⟩ := List.map_eq_cons_iff.mp hkinds
      simp only [closeAll, hu.trans hkind]
      exact ih h hus (hcurrent.add rfl) houter
  | case4 current token rest hkind =>
      cases h
      cases houter
      obtain ⟨u, us, rfl, hu, hus⟩ := List.map_eq_cons_iff.mp hkinds
      simp only [closeAll, hu.trans hkind]
      exact ⟨_, _, rfl, hcurrent.tree_close, hus⟩
  | case5 current token rest parent outer hkind ih =>
      obtain ⟨u, us, rfl, hu, hus⟩ := List.map_eq_cons_iff.mp hkinds
      cases houter with
      | cons hparent houter =>
          simp only [closeAll, hu.trans hkind]
          exact ih h hus (hparent.add hcurrent.tree_close) houter

theorem exists_ofTokens_of_kinds (source' : Source) (h : ofTokens source ts = .ok e)
    (hkinds : us.map (·.kind) = ts.map (·.kind)) :
    ∃ e', ofTokens source' us = .ok e' ∧ e'.tree = e.tree := by
  obtain ⟨first, rest, rfl, hfirst, hclose⟩ := ofTokens_eq_ok_iff.mp h
  obtain ⟨u, us, rfl, hu, hus⟩ := List.map_eq_cons_iff.mp hkinds
  have hcurrent : OpenList.IsLike ⟨first.first, []⟩ ⟨u.first, []⟩ := rfl
  obtain ⟨e', trailing', hclose', htree, htrailing⟩ :=
    exists_closeAll_of_kinds source' hclose hus hcurrent .nil
  cases List.map_eq_nil_iff.mp htrailing
  exact ⟨e', ofTokens_eq_ok_iff.mpr ⟨u, us, rfl, hu.trans hfirst, hclose'⟩, htree⟩

/-! ### Steps of the tokenizer -/

theorem tokens_blank (h : Text.isBlank c = true) :
    tokens offset (c :: rest) = tokens (offset + c.utf8Size) rest := by
  have hne : c ≠ ';' := fun he => absurd h (he ▸ by decide)
  rw [tokens, if_neg hne, if_pos h]

theorem tokens_opening : tokens offset ('(' :: rest) =
    (⟨.opening, offset, offset⟩ :: ·) <$> tokens (offset + '('.utf8Size) rest := by
  rw [tokens, if_neg (by decide), if_neg (by decide), if_pos rfl]
  exact bind_pure_comp _ _

theorem tokens_closing : tokens offset (')' :: rest) =
    (⟨.closing, offset, offset⟩ :: ·) <$> tokens (offset + ')'.utf8Size) rest := by
  rw [tokens, if_neg (by decide), if_neg (by decide), if_neg (by decide), if_pos rfl]
  exact bind_pure_comp _ _

theorem tokens_bareMark (hrest : IsEnd rest) :
    tokens offset ('?' :: rest) = .error (.bareQuestionMark offset) := by
  rw [tokens, if_neg (by decide), if_neg (by decide), if_neg (by decide), if_neg (by decide),
    if_pos ⟨rfl, (Option.all_eq_true _ _).mpr hrest⟩]

theorem tokens_word (hc : isDelimiter c = false) (hword : ∀ d ∈ word, continuesWord d = true)
    (hmark : c :: word ≠ ['?']) (hrest : IsEnd rest) :
    tokens offset (c :: word ++ rest) =
      (wordToken offset (c :: word) :: ·) <$> tokens (offset + byteLength (c :: word)) rest := by
  obtain ⟨hopening, hclosing, hcomment, hblank⟩ := isDelimiter_eq_false_iff.mp hc
  have hnone : rest.takeWhile continuesWord = [] ∧ rest.dropWhile continuesWord = rest := by
    cases rest with
    | nil => exact ⟨rfl, rfl⟩
    | cons d rest =>
        have hd : ¬ continuesWord d = true := fun h => by
          rw [continuesWord_iff, hrest d rfl] at h
          cases h.1
        exact ⟨List.takeWhile_cons_of_neg hd, List.dropWhile_cons_of_neg hd⟩
  have hnext : ¬(c = '?' ∧ (word ++ rest).head?.all isDelimiter = true) := by
    rintro ⟨rfl, hall⟩
    cases word with
    | nil => exact hmark rfl
    | cons d word =>
        have hd := (continuesWord_iff.mp (hword d List.mem_cons_self)).1
        rw [List.cons_append, List.head?_cons, Option.all_some, hd] at hall
        cases hall
  rw [List.cons_append, tokens, if_neg hcomment, if_neg (by simp [hblank]), if_neg hopening,
    if_neg hclosing, if_neg hnext, List.takeWhile_append_of_pos hword, hnone.1,
    List.dropWhile_append_of_pos hword, hnone.2, List.append_nil]
  exact bind_pure_comp _ _

/-! ### Tokens of the displayed form -/

/-- The characters are split into tokens of some kinds, whatever follows them, provided that no word
goes on with it. -/
def HasKinds (cs : List Char) (kinds : List TokenKind) : Prop :=
  ∀ offset rest, IsEnd rest → ∃ ts : List Token, ts.map (·.kind) = kinds ∧
    tokens offset (cs ++ rest) = (ts ++ ·) <$> tokens (offset + byteLength cs) rest

/-- The characters are refused for a question mark without a name. -/
def IsRefused (cs : List Char) : Prop :=
  ∀ offset rest, IsEnd rest → ∃ place, tokens offset (cs ++ rest) = .error (.bareQuestionMark place)

theorem isEnd_append (hds : IsEnd ds) (hrest : IsEnd rest) : IsEnd (ds ++ rest) := by
  cases ds with
  | nil => exact hrest
  | cons d ds => exact hds

theorem isEnd_cons (h : isDelimiter c = true) : IsEnd (c :: rest) := by
  rintro d ⟨⟩
  exact h

theorem HasKinds.append (h : HasKinds cs kinds) (h' : HasKinds ds more) (hds : IsEnd ds) :
    HasKinds (cs ++ ds) (kinds ++ more) := by
  intro offset rest hrest
  obtain ⟨ts, hts, htokens⟩ := h offset (ds ++ rest) (isEnd_append hds hrest)
  obtain ⟨us, hus, htokens'⟩ := h' (offset + byteLength cs) rest hrest
  refine ⟨ts ++ us, by rw [List.map_append, hts, hus], ?_⟩
  rw [List.append_assoc, htokens, htokens', Functor.map_map, byteLength_append, ← Nat.add_assoc]
  simp only [List.append_assoc]

theorem HasKinds.refused_append (h : HasKinds cs kinds) (h' : IsRefused ds) (hds : IsEnd ds) :
    IsRefused (cs ++ ds) := by
  intro offset rest hrest
  obtain ⟨ts, -, htokens⟩ := h offset (ds ++ rest) (isEnd_append hds hrest)
  obtain ⟨place, htokens'⟩ := h' (offset + byteLength cs) rest hrest
  exact ⟨place, by rw [List.append_assoc, htokens, htokens']; rfl⟩

theorem IsRefused.append (h : IsRefused cs) (hds : IsEnd ds) : IsRefused (cs ++ ds) := by
  intro offset rest hrest
  rw [List.append_assoc]
  exact h offset (ds ++ rest) (isEnd_append hds hrest)

theorem hasKinds_nil : HasKinds [] [] := fun _ _ _ => ⟨[], rfl, (id_map _).symm⟩

theorem hasKinds_closing : HasKinds [')'] [.closing] := fun offset _ _ =>
  ⟨[⟨.closing, offset, offset⟩], rfl, tokens_closing⟩

theorem HasKinds.opening (h : HasKinds cs kinds) : HasKinds ('(' :: cs) (.opening :: kinds) := by
  intro offset rest hrest
  obtain ⟨ts, hts, htokens⟩ := h (offset + '('.utf8Size) rest hrest
  refine ⟨⟨.opening, offset, offset⟩ :: ts, by rw [List.map_cons, hts], ?_⟩
  rw [List.cons_append, tokens_opening, htokens, Functor.map_map, byteLength_cons, Nat.add_assoc]
  rfl

theorem IsRefused.opening (h : IsRefused cs) : IsRefused ('(' :: cs) := by
  intro offset rest hrest
  obtain ⟨place, htokens⟩ := h (offset + '('.utf8Size) rest hrest
  exact ⟨place, by rw [List.cons_append, tokens_opening, htokens]; rfl⟩

theorem HasKinds.blank (h : HasKinds cs kinds) : HasKinds (' ' :: cs) kinds := by
  intro offset rest hrest
  obtain ⟨ts, hts, htokens⟩ := h (offset + ' '.utf8Size) rest hrest
  refine ⟨ts, hts, ?_⟩
  rw [List.cons_append, tokens_blank (by decide), htokens, byteLength_cons, Nat.add_assoc]

theorem IsRefused.blank (h : IsRefused cs) : IsRefused (' ' :: cs) := by
  intro offset rest hrest
  obtain ⟨place, htokens⟩ := h (offset + ' '.utf8Size) rest hrest
  exact ⟨place, by rw [List.cons_append, tokens_blank (by decide), htokens]⟩

theorem hasKinds_word (h : IsWord cs) (hmark : cs ≠ ['?']) :
    HasKinds cs [.word (String.ofList cs)] := by
  cases h with
  | @mk c word hc hword hlower =>
      intro offset rest hrest
      refine ⟨[wordToken offset (c :: word)], ?_, tokens_word hc hword hmark hrest⟩
      rw [wordToken, hlower]
      rfl

theorem isRefused_bareMark : IsRefused ['?'] := fun offset _ hrest =>
  ⟨offset, tokens_bareMark hrest⟩

/-- How the characters of an expression are split into tokens. -/
structure IsDisplay (cs : List Char) (ts : List Token) : Prop where
  hasKinds : (∀ t ∈ ts, ¬ t.IsBareMark) → HasKinds cs (ts.map (·.kind))
  isRefused : (∃ t ∈ ts, t.IsBareMark) → IsRefused cs

theorem IsDisplay.append (h : IsDisplay cs ts) (h' : IsDisplay ds us) (hds : IsEnd ds) :
    IsDisplay (cs ++ ds) (ts ++ us) where
  hasKinds hall := by
    obtain ⟨hts, hus⟩ := List.forall_mem_append.mp hall
    rw [List.map_append]
    exact (h.hasKinds hts).append (h'.hasKinds hus) hds
  isRefused := by
    rintro ⟨t, ht, hmark⟩
    by_cases hts : ∃ t ∈ ts, t.IsBareMark
    · exact (h.isRefused hts).append hds
    · have ht : t ∈ us := (List.mem_append.mp ht).resolve_left fun ht => hts ⟨t, ht, hmark⟩
      have hkinds := h.hasKinds fun u hu hbare => hts ⟨u, hu, hbare⟩
      exact hkinds.refused_append (h'.isRefused ⟨t, ht, hmark⟩) hds

theorem IsDisplay.blank (h : IsDisplay cs ts) : IsDisplay (' ' :: cs) ts :=
  ⟨fun hall => (h.hasKinds hall).blank, fun hmark => (h.isRefused hmark).blank⟩

/-- The displayed form of a list, from those of its elements. -/
theorem isDisplay_elements (h : ∀ e ∈ es, IsDisplay e.text.toList e.flatten) :
    IsDisplay (textSeparated es).toList (flattenAll es) := by
  induction es with
  | nil => exact ⟨fun _ => hasKinds_nil, nofun⟩
  | cons e es ih =>
      obtain ⟨he, hes⟩ := List.forall_mem_cons.mp h
      cases es with
      | nil =>
          rw [textSeparated, flattenAll, flattenAll, List.append_nil]
          exact he
      | cons e' es =>
          rw [textSeparated, flattenAll, String.toList_append, String.toList_append,
            List.append_assoc]
          · exact he.append (ih hes).blank (isEnd_cons (by decide))
          · exact List.cons_ne_nil e' es

theorem isDisplay_text (h : ∀ t ∈ e.flatten, ∀ text, t.kind = .word text → IsWord text.toList) :
    IsDisplay e.text.toList e.flatten := by
  induction e using Sexpr.induction with
  | atom symbol =>
      obtain ⟨hword, -⟩ := List.forall_mem_cons.mp h
      refine ⟨fun hall => ?_, ?_⟩
      · have hmark : symbol.name.toList ≠ ['?'] := fun heq =>
          (List.forall_mem_cons.mp hall).1 (congrArg TokenKind.word (String.toList_inj.mp heq))
        have hkinds := hasKinds_word (hword symbol.name rfl) hmark
        rwa [String.ofList_toList] at hkinds
      · rintro ⟨t, ht, hmark⟩
        obtain rfl := List.mem_singleton.mp ht
        have hname : symbol.name = "?" := TokenKind.word.inj hmark
        rw [text, hname]
        exact isRefused_bareMark
  | list es span ih =>
      have hinner : IsDisplay (textSeparated es).toList (flattenAll es) :=
        isDisplay_elements fun e he => ih e he fun t ht =>
          h t (List.mem_cons_of_mem _ (List.mem_append_left _
            ((flatten_within_flattenAll he).subset ht)))
      have hclosing : IsDisplay [')'] [⟨.closing, span.stop - 1, span.stop - 1⟩] :=
        ⟨fun _ => hasKinds_closing, fun ⟨t, ht, hmark⟩ => by
          obtain rfl := List.mem_singleton.mp ht
          cases hmark⟩
      have hall := hinner.append hclosing (isEnd_cons (by decide))
      rw [text, flatten, String.toList_append, String.toList_append]
      refine ⟨fun hnone => ?_, ?_⟩
      · exact (hall.hasKinds (List.forall_mem_cons.mp hnone).2).opening
      · rintro ⟨t, ht, hmark⟩
        rcases List.mem_cons.mp ht with rfl | ht
        · cases hmark
        · exact (hall.isRefused ⟨t, ht, hmark⟩).opening

/-- The displayed form of what was read is read as the same tree, unless the text had two question
marks in a row outside of its comments. Then the displayed form is refused. -/
theorem read_text_iff (h : read source = .ok e) (path : Option String) :
    ((∃ e', read ⟨e.text, path⟩ = .ok e' ∧ e'.tree = e.tree) ↔
      ¬ HasDoubledMark source.text.toList) ∧
    (HasDoubledMark source.text.toList →
      ∃ place, read? ⟨e.text, path⟩ = .error (.bareQuestionMark place)) := by
  obtain ⟨ts, htokens, hread⟩ := read_eq_ok_iff.mp h
  have hflatten : e.flatten = ts := flatten_of_ofTokens hread (scans_of_tokens htokens).isTight
  obtain ⟨hwords, hmarks⟩ := words_of_tokens htokens
  rw [← hflatten] at hread hwords hmarks
  have hdisplay := isDisplay_text hwords
  have hrefused : HasDoubledMark source.text.toList →
      ∃ place, tokenize e.text = .error (.bareQuestionMark place) := fun hmark => by
    obtain ⟨place, hplace⟩ := hdisplay.isRefused (hmarks.mpr hmark) 0 [] nofun
    exact ⟨place, by rwa [List.append_nil] at hplace⟩
  refine ⟨⟨fun ⟨e', he', _⟩ hmark => ?_, fun hnone => ?_⟩, fun hmark => ?_⟩
  · obtain ⟨place, hplace⟩ := hrefused hmark
    obtain ⟨us, hus, -⟩ := read_eq_ok_iff.mp he'
    cases hplace.symm.trans hus
  · obtain ⟨us, hus, htokens'⟩ :=
      hdisplay.hasKinds (fun t ht hbare => hnone (hmarks.mp ⟨t, ht, hbare⟩)) 0 [] nofun
    rw [List.append_nil, tokens] at htokens'
    obtain ⟨e', hread', htree⟩ := exists_ofTokens_of_kinds ⟨e.text, path⟩ hread hus
    refine ⟨e', read_eq_ok_iff.mpr ⟨us, ?_, hread'⟩, htree⟩
    rw [tokenize, htokens']
    exact congrArg Except.ok (List.append_nil us)
  · obtain ⟨place, hplace⟩ := hrefused hmark
    refine ⟨place, ?_⟩
    rw [read?, hplace]
    rfl

private def commented : Source :=
  ⟨"(P a?B ;??\n (Q))", none⟩

private def query : Sexpr :=
  .list [.atom ⟨"p", some ⟨commented, 1, 2⟩⟩, .atom ⟨"a", some ⟨commented, 3, 4⟩⟩,
    .atom ⟨"?b", some ⟨commented, 4, 6⟩⟩,
    .list [.atom ⟨"q", some ⟨commented, 13, 14⟩⟩] ⟨commented, 12, 15⟩] ⟨commented, 0, 16⟩

private def doubled : Source :=
  ⟨"(??x)", none⟩

private def marked : Sexpr :=
  .list [.atom ⟨"?", some ⟨doubled, 1, 2⟩⟩, .atom ⟨"?x", some ⟨doubled, 2, 4⟩⟩] ⟨doubled, 0, 5⟩

/-- Question marks in a row do no harm in a comment. -/
theorem read_text_iff_commented :
    (read commented = .ok query ∧ ∃ e', read ⟨query.text, none⟩ = .ok e' ∧ e'.tree = query.tree) ∧
    (read doubled = .ok marked ∧
      ∃ place, read? ⟨marked.text, none⟩ = .error (.bareQuestionMark place)) := by
  have hquery : tokenize commented.text = .ok query.flatten := by decide +kernel
  have hmarked : tokenize doubled.text = .ok marked.flatten := by decide +kernel
  have hread : read commented = .ok query := read_eq_ok_iff.mpr ⟨query.flatten, hquery, rfl⟩
  have hread' : read doubled = .ok marked := read_eq_ok_iff.mpr ⟨marked.flatten, hmarked, rfl⟩
  have hnone : ¬ HasDoubledMark commented.text.toList := by
    rw [← (words_of_tokens hquery).2]
    decide
  have hsome : HasDoubledMark doubled.text.toList :=
    (words_of_tokens hmarked).2.mp ⟨⟨.word "?", 1, 1⟩, by decide, rfl⟩
  exact ⟨⟨hread, (read_text_iff hread none).1.mpr hnone⟩,
    hread', (read_text_iff hread' none).2 hsome⟩

end Sexpr
end FinitePlanning
