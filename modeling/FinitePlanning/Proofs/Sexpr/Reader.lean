import FinitePlanning.Proofs.Sexpr.Tokens
import FinitePlanning.Sexpr.Reader

/-!
The reader accepts the texts whose tokens form exactly one list, and what it reads holds every
token at its place.
-/

namespace FinitePlanning
namespace Sexpr

/-- Induction with a hypothesis for all elements of a list. -/
theorem induction {motive : Sexpr → Prop} (atom : ∀ symbol, motive (.atom symbol))
    (list : ∀ es span, (∀ e ∈ es, motive e) → motive (.list es span)) (e : Sexpr) : motive e :=
  Sexpr.rec (motive_1 := motive) (motive_2 := fun es => ∀ e ∈ es, motive e) atom
    (fun es span ih => list es span ih) (List.forall_mem_nil _)
    (fun _ _ ih ihs => List.forall_mem_cons.mpr ⟨ih, ihs⟩) e

/-! ### Tokens of an expression -/

mutual

/-- The tokens of an expression from left to right, at the places that its spans give them. -/
def flatten : Sexpr → List Token
  | .atom symbol =>
    let span := Located.span symbol
    [⟨.word symbol.name, span.start, span.stop - 1⟩]
  | .list elements span =>
    ⟨.opening, span.start, span.start⟩ ::
      (flattenAll elements ++ [⟨.closing, span.stop - 1, span.stop - 1⟩])

def flattenAll : List Sexpr → List Token
  | [] => []
  | e :: rest => flatten e ++ flattenAll rest

end

/-- The tokens of a list that is not closed yet. -/
def OpenList.flatten (l : OpenList) : List Token :=
  ⟨.opening, l.start, l.start⟩ :: flattenAll l.elements.reverse

/-- The tokens of the open lists, the innermost list given first. -/
def flattenOpen : List OpenList → List Token
  | [] => []
  | l :: outer => flattenOpen outer ++ l.flatten

variable {source : Source} {outer : List OpenList} {current l : OpenList} {e : Sexpr}
  {es : List Sexpr} {ts inner trailing : List Token} {t : Token} {depth : Nat}

@[simp] theorem flattenAll_append {as bs : List Sexpr} :
    flattenAll (as ++ bs) = flattenAll as ++ flattenAll bs := by
  induction as with
  | nil => rfl
  | cons a as ih => simp only [List.cons_append, flattenAll, ih, List.append_assoc]

@[simp] theorem OpenList.flatten_add : (l.add e).flatten = l.flatten ++ e.flatten := by
  simp [OpenList.flatten, OpenList.add, flattenAll]

@[simp] theorem OpenList.flatten_close {last : Nat} :
    (l.close source last).flatten = l.flatten ++ [⟨.closing, last, last⟩] := by
  simp [OpenList.flatten, OpenList.close, Sexpr.flatten, Span.ofBytes]

/-- What is read are the tokens of the lists that are open, followed by those read after them. -/
theorem flatten_of_closeAll (h : closeAll source outer current ts = .ok (e, trailing))
    (htight : ∀ t ∈ ts, t.IsTight) :
    flattenOpen (current :: outer) ++ ts = e.flatten ++ trailing := by
  fun_induction closeAll source outer current ts with
  | case1 => cases h
  | case2 outer current token rest hkind ih =>
      obtain ⟨kind, first, last⟩ := token
      cases hkind
      -- an open list knows the first byte of its parenthesis only
      obtain ⟨hlast, hrest⟩ := List.forall_mem_cons.mp htight
      cases hlast nofun
      simpa [flattenOpen, OpenList.flatten, flattenAll] using ih h hrest
  | case3 outer current token rest text hkind symbol =>
      rename_i ih
      obtain ⟨kind, first, last⟩ := token
      cases hkind
      have hrest := (List.forall_mem_cons.mp htight).2
      simpa [flattenOpen, Sexpr.flatten, Located.span, Located.span?, Span.ofBytes, symbol]
        using ih h hrest
  | case4 current token rest hkind =>
      obtain ⟨kind, first, last⟩ := token
      cases hkind
      cases (List.forall_mem_cons.mp htight).1 nofun
      cases h
      simp [flattenOpen]
  | case5 current token rest parent outer hkind ih =>
      obtain ⟨kind, first, last⟩ := token
      cases hkind
      obtain ⟨hlast, hrest⟩ := List.forall_mem_cons.mp htight
      cases hlast nofun
      simpa [flattenOpen] using ih h hrest

/-! ### Balanced tokens -/

def opened (ts : List Token) : Nat :=
  ts.countP (·.kind = .opening)

def closed (ts : List Token) : Nat :=
  ts.countP (·.kind = .closing)

/-- The tokens close every list that they open and `depth` lists that were open before them. They
never close more lists than are open. -/
structure Balances (depth : Nat) (ts : List Token) : Prop where
  closed_eq : closed ts = opened ts + depth
  closed_le : ∀ before, before <+: ts → closed before ≤ opened before + depth

/-- The tokens begin with an opening parenthesis, and the last one is the closing parenthesis that
matches it. -/
def FormsList (ts : List Token) : Prop :=
  ∃ first inner last, ts = first :: (inner ++ [last]) ∧ first.kind = .opening ∧
    last.kind = .closing ∧ Balances 0 inner

theorem opened_cons : opened (t :: ts) = opened [t] + opened ts := by
  rw [← List.singleton_append, opened, List.countP_append]
  rfl

theorem closed_cons : closed (t :: ts) = closed [t] + closed ts := by
  rw [← List.singleton_append, closed, List.countP_append]
  rfl

theorem balances_nil_iff : Balances depth [] ↔ depth = 0 := by
  constructor
  · intro h
    have heq : 0 = 0 + depth := h.closed_eq
    omega
  · rintro rfl
    exact ⟨rfl, fun before h => List.prefix_nil.mp h ▸ Nat.le_refl 0⟩

theorem balances_cons : Balances depth (t :: ts) ↔
    closed [t] ≤ opened [t] + depth ∧ Balances (opened [t] + depth - closed [t]) ts := by
  constructor
  · intro h
    have hle : closed [t] ≤ opened [t] + depth := h.closed_le [t] (List.prefix_append [t] ts)
    refine ⟨hle, ?_, fun before hbefore => ?_⟩
    · have heq := h.closed_eq
      rw [closed_cons, opened_cons] at heq
      omega
    · have hcons := h.closed_le (t :: before) (List.cons_prefix_cons.mpr ⟨rfl, hbefore⟩)
      rw [closed_cons, opened_cons] at hcons
      omega
  · intro ⟨hle, h⟩
    refine ⟨?_, fun before hbefore => ?_⟩
    · have heq := h.closed_eq
      rw [closed_cons, opened_cons]
      omega
    · cases before with
      | nil => exact Nat.zero_le _
      | cons u before =>
          obtain ⟨rfl, hrest⟩ := List.cons_prefix_cons.mp hbefore
          have hle' := h.closed_le before hrest
          rw [closed_cons, opened_cons]
          omega

theorem balances_cons_opening (h : t.kind = .opening) :
    Balances depth (t :: ts) ↔ Balances (depth + 1) ts := by
  rw [balances_cons]
  simp [opened, closed, h, Nat.add_comm]

theorem balances_cons_word {text : String} (h : t.kind = .word text) :
    Balances depth (t :: ts) ↔ Balances depth ts := by
  rw [balances_cons]
  simp [opened, closed, h]

theorem not_balances_zero_cons_closing (h : t.kind = .closing) : ¬ Balances 0 (t :: ts) := by
  rw [balances_cons]
  simp [opened, closed, h]

theorem balances_succ_cons_closing (h : t.kind = .closing) :
    Balances (depth + 1) (t :: ts) ↔ Balances depth ts := by
  rw [balances_cons]
  simp [opened, closed, h]

theorem balances_flattenAll_append
    (h : ∀ e ∈ es, ∀ {depth ts}, Balances depth (flatten e ++ ts) ↔ Balances depth ts) :
    Balances depth (flattenAll es ++ ts) ↔ Balances depth ts := by
  induction es with
  | nil => exact Iff.rfl
  | cons e es ih =>
      obtain ⟨he, hes⟩ := List.forall_mem_cons.mp h
      rw [flattenAll, List.append_assoc, he, ih hes]

/-- The tokens of an expression leave the lists around it as they are. -/
theorem balances_flatten_append :
    ∀ {depth : Nat} {ts : List Token}, Balances depth (e.flatten ++ ts) ↔ Balances depth ts := by
  induction e using Sexpr.induction with
  | atom symbol => exact balances_cons_word rfl
  | list es span ih =>
      intro depth ts
      rw [flatten, List.cons_append, balances_cons_opening rfl, List.append_assoc,
        balances_flattenAll_append ih]
      exact balances_succ_cons_closing rfl

theorem balances_flattenAll : Balances 0 (flattenAll es) := by
  rw [← List.append_nil (flattenAll es),
    balances_flattenAll_append fun e _ => balances_flatten_append]
  exact balances_nil_iff.mpr rfl

/-! ### Acceptance -/

/-- The reader stops at the token that closes the outermost open list. -/
theorem balances_of_closeAll (h : closeAll source outer current ts = .ok (e, trailing)) :
    ∃ inner last, ts = inner ++ last :: trailing ∧ last.kind = .closing ∧
      Balances outer.length inner := by
  fun_induction closeAll source outer current ts with
  | case1 => cases h
  | case2 outer current token rest hkind ih =>
      obtain ⟨inner, last, rfl, hlast, hinner⟩ := ih h
      exact ⟨token :: inner, last, rfl, hlast, (balances_cons_opening hkind).mpr hinner⟩
  | case3 outer current token rest text hkind symbol =>
      rename_i ih
      obtain ⟨inner, last, rfl, hlast, hinner⟩ := ih h
      exact ⟨token :: inner, last, rfl, hlast, (balances_cons_word hkind).mpr hinner⟩
  | case4 current token rest hkind =>
      cases h
      exact ⟨[], token, rfl, hkind, balances_nil_iff.mpr rfl⟩
  | case5 current token rest parent outer hkind ih =>
      obtain ⟨inner, last, rfl, hlast, hinner⟩ := ih h
      exact ⟨token :: inner, last, rfl, hlast, (balances_succ_cons_closing hkind).mpr hinner⟩

theorem exists_closeAll (hlast : t.kind = .closing) (h : Balances outer.length inner) :
    ∃ e, closeAll source outer current (inner ++ t :: trailing) = .ok (e, trailing) := by
  induction inner generalizing outer current with
  | nil =>
      cases List.eq_nil_of_length_eq_zero (balances_nil_iff.mp h)
      exact ⟨current.close source t.last, by simp only [List.nil_append, closeAll, hlast]⟩
  | cons u inner ih =>
      obtain ⟨kind, first, last⟩ := u
      cases kind with
      | opening => exact ih ((balances_cons_opening rfl).mp h)
      | word text => exact ih ((balances_cons_word rfl).mp h)
      | closing =>
          cases outer with
          | nil => exact absurd h (not_balances_zero_cons_closing rfl)
          | cons parent outer => exact ih ((balances_succ_cons_closing rfl).mp h)

theorem ofTokens_eq_ok_iff : ofTokens source ts = .ok e ↔ ∃ first rest, ts = first :: rest ∧
    first.kind = .opening ∧ closeAll source [] ⟨first.first, []⟩ rest = .ok (e, []) := by
  constructor
  · intro h
    cases ts with
    | nil => cases h
    | cons first rest =>
        rw [ofTokens] at h
        split at h
        · rename_i hfirst
          obtain ⟨⟨read, trailing⟩, hclose, h⟩ := exists_of_bind_eq_ok h
          cases trailing with
          | nil =>
              cases h
              exact ⟨first, rest, rfl, hfirst, hclose⟩
          | cons t trailing => nomatch h
        · cases h
  · intro ⟨first, rest, hts, hfirst, hclose⟩
    rw [hts, ofTokens, if_pos hfirst, hclose]
    rfl

theorem exists_ofTokens_iff : (∃ e, ofTokens source ts = .ok e) ↔ FormsList ts := by
  constructor
  · intro ⟨e, h⟩
    obtain ⟨first, rest, rfl, hfirst, hclose⟩ := ofTokens_eq_ok_iff.mp h
    obtain ⟨inner, last, rfl, hlast, hinner⟩ := balances_of_closeAll hclose
    exact ⟨first, inner, last, rfl, hfirst, hlast, hinner⟩
  · intro ⟨first, inner, last, hts, hfirst, hlast, hinner⟩
    obtain ⟨e, hclose⟩ : ∃ e, closeAll source [] ⟨first.first, []⟩ (inner ++ [last]) =
        .ok (e, []) := exists_closeAll hlast hinner
    exact ⟨e, ofTokens_eq_ok_iff.mpr ⟨first, inner ++ [last], hts, hfirst, hclose⟩⟩

theorem read_eq_ok_iff :
    read source = .ok e ↔ ∃ ts, tokenize source.text = .ok ts ∧ ofTokens source ts = .ok e := by
  have hread : read source = .ok e ↔ read? source = .ok e := by
    rw [read]
    cases read? source with
    | error fault => exact iff_of_false nofun nofun
    | ok read => simp only [Except.mapError, Except.ok.injEq]
  rw [hread]
  constructor
  · exact exists_of_bind_eq_ok
  · intro ⟨ts, htokens, h⟩
    rw [read?, htokens]
    exact h

/-! ### Parts of an expression -/

/-- The expressions that an expression consists of, itself among them. -/
inductive IsPart : Sexpr → Sexpr → Prop
  | self {e : Sexpr} : IsPart e e
  | element {part e : Sexpr} {es : List Sexpr} {span : Span} (he : e ∈ es)
      (hpart : IsPart part e) : IsPart part (.list es span)

theorem flatten_within_flattenAll (h : e ∈ es) : e.flatten <:+: flattenAll es := by
  obtain ⟨before, after, rfl⟩ := List.append_of_mem h
  rw [flattenAll_append, flattenAll]
  exact ⟨flattenAll before, flattenAll after, List.append_assoc ..⟩

theorem IsPart.flatten_within {part : Sexpr} (h : IsPart part e) : part.flatten <:+: e.flatten := by
  induction h with
  | self => exact List.infix_rfl
  | element he hpart ih => exact (ih.trans (flatten_within_flattenAll he)).trans ⟨[_], [_], rfl⟩

/-- Everything read has a place in the source. -/
def IsPlaced (source : Source) (e : Sexpr) : Prop :=
  ∀ part, IsPart part e → ∃ first last, Located.span? part = some (Span.ofBytes source first last)

theorem isPlaced_atom {symbol : Symbol} {first last : Nat}
    (h : symbol.origin = some (.ofBytes source first last)) : IsPlaced source (.atom symbol)
  | _, .self => ⟨first, last, h⟩

theorem isPlaced_list {first last : Nat} (h : ∀ e ∈ es, IsPlaced source e) :
    IsPlaced source (.list es (.ofBytes source first last))
  | _, .self => ⟨first, last, rfl⟩
  | part, .element he hpart => h _ he part hpart

theorem isPlaced_of_closeAll (h : closeAll source outer current ts = .ok (e, trailing))
    (houter : ∀ l ∈ current :: outer, ∀ e ∈ l.elements, IsPlaced source e) :
    IsPlaced source e := by
  fun_induction closeAll source outer current ts with
  | case1 => cases h
  | case2 outer current token rest hkind ih =>
      exact ih h (List.forall_mem_cons.mpr ⟨List.forall_mem_nil _, houter⟩)
  | case3 outer current token rest text hkind symbol =>
      rename_i ih
      obtain ⟨hcurrent, houter⟩ := List.forall_mem_cons.mp houter
      exact ih h (List.forall_mem_cons.mpr
        ⟨List.forall_mem_cons.mpr ⟨isPlaced_atom rfl, hcurrent⟩, houter⟩)
  | case4 current token rest hkind =>
      cases h
      exact isPlaced_list (by simpa using houter)
  | case5 current token rest parent outer hkind ih =>
      obtain ⟨hcurrent, houter⟩ := List.forall_mem_cons.mp houter
      obtain ⟨hparent, houter⟩ := List.forall_mem_cons.mp houter
      refine ih h (List.forall_mem_cons.mpr ⟨List.forall_mem_cons.mpr ⟨?_, hparent⟩, houter⟩)
      exact isPlaced_list (by simpa using hcurrent)

/-! ### What is read -/

/-- How an expression that was read stands in its source. -/
structure IsReading (source : Source) (e : Sexpr) : Prop where
  /-- Read from left to right, the expression has the tokens of the text. -/
  tokenize_eq : tokenize source.text = .ok e.flatten
  pairwise : e.flatten.Pairwise (·.last < ·.first)
  /-- No token has a byte of a separator. Any other character is in one token, and no other token
  has a byte of it. -/
  character : ∀ before c after, source.text.toList = before ++ c :: after →
    (Separates before c → ∀ t ∈ e.flatten, ¬ t.Meets (byteLength before) c) ∧
      (¬ Separates before c → ∃ t ∈ e.flatten, t.Holds (byteLength before) c ∧
        ∀ u ∈ e.flatten, u.Meets (byteLength before) c → u = t)
  atom : ∀ symbol, IsPart (.atom symbol) e → ∃ span, symbol.origin = some span ∧
    span.source = source ∧ ⟨.word symbol.name, span.start, span.stop - 1⟩ ∈ e.flatten ∧
      symbol.name = String.ofList (Text.lowercase span.text.toList)
  /-- The tokens of a list are consecutive, and those between its parentheses are balanced. -/
  list : ∀ es span, IsPart (.list es span) e → span.source = source ∧
    flatten (.list es span) <:+: e.flatten ∧ Balances 0 (flattenAll es) ∧
      ∃ inside, span.text.toList = '(' :: (inside ++ [')'])

variable {symbol : Symbol} {span : Span}

theorem flatten_of_ofTokens (h : ofTokens source ts = .ok e) (htight : ∀ t ∈ ts, t.IsTight) :
    e.flatten = ts := by
  obtain ⟨⟨kind, first, last⟩, rest, rfl, hkind, hclose⟩ := ofTokens_eq_ok_iff.mp h
  cases hkind
  obtain ⟨hlast, hrest⟩ := List.forall_mem_cons.mp htight
  cases hlast nofun
  simpa [flattenOpen, OpenList.flatten, flattenAll] using (flatten_of_closeAll hclose hrest).symm

theorem isPlaced_of_ofTokens (h : ofTokens source ts = .ok e) : IsPlaced source e := by
  obtain ⟨first, rest, rfl, hkind, hclose⟩ := ofTokens_eq_ok_iff.mp h
  exact isPlaced_of_closeAll hclose (List.forall_mem_singleton.mpr (List.forall_mem_nil _))

section Parts

variable (hplaced : IsPlaced source e) (hscans : Scans 0 source.text.toList e.flatten)
include hplaced hscans

theorem IsPlaced.atom (hpart : IsPart (.atom symbol) e) :
    ∃ span, symbol.origin = some span ∧ span.source = source ∧
      ⟨.word symbol.name, span.start, span.stop - 1⟩ ∈ e.flatten ∧
        symbol.name = String.ofList (Text.lowercase span.text.toList) := by
  obtain ⟨first, last, horigin⟩ := hplaced _ hpart
  have htoken : ⟨.word symbol.name, first, last⟩ ∈ e.flatten := by
    apply hpart.flatten_within.subset
    have horigin : symbol.origin = some (.ofBytes source first last) := horigin
    simp [flatten, Located.span, Located.span?, horigin, Span.ofBytes]
  refine ⟨_, horigin, rfl, htoken, ?_⟩
  rw [Span.text, String.toList_ofList]
  exact (hscans.spells htoken).2.2

theorem IsPlaced.list (hpart : IsPart (.list es span) e) :
    span.source = source ∧ ∃ inside, span.text.toList = '(' :: (inside ++ [')']) := by
  obtain ⟨first, last, hspan⟩ := hplaced _ hpart
  cases hspan
  have htokens := hpart.flatten_within
  have hclosing : ⟨.closing, last, last⟩ ∈ flattenAll es ++ [⟨.closing, last, last⟩] :=
    List.mem_append_right _ (List.mem_singleton_self _)
  have hlt : first < last :=
    List.rel_of_pairwise_cons (hscans.pairwise.sublist htokens.sublist) hclosing
  refine ⟨rfl, ?_⟩
  rw [Span.text, String.toList_ofList]
  exact hscans.exists_charsWithin_list (htokens.subset List.mem_cons_self)
    (htokens.subset (List.mem_cons_of_mem _ hclosing)) hlt

end Parts

theorem isReading_of_read (h : read source = .ok e) : IsReading source e := by
  obtain ⟨ts, htokens, h⟩ := read_eq_ok_iff.mp h
  have hscans := scans_of_tokens htokens
  obtain rfl := flatten_of_ofTokens h hscans.isTight
  have hplaced := isPlaced_of_ofTokens h
  exact {
    tokenize_eq := htokens
    pairwise := hscans.pairwise
    character := fun before c after hcs => by
      have hcharacter := hscans.character hcs
      rwa [Nat.zero_add] at hcharacter
    atom := fun symbol hpart => hplaced.atom hscans hpart
    list := fun es span hpart => by
      obtain ⟨hsource, htext⟩ := hplaced.list hscans hpart
      exact ⟨hsource, hpart.flatten_within, balances_flattenAll, htext⟩ }

/-- A source is read if its tokens form exactly one list. Every token and every character of it is
then in its place in what is read. -/
theorem reads_exactly_one_list (source : Source) :
    ((∃ e, read source = .ok e) ↔ ∃ ts, tokenize source.text = .ok ts ∧ FormsList ts) ∧
      ∀ e, read source = .ok e → IsReading source e := by
  refine ⟨?_, fun e => isReading_of_read⟩
  constructor
  · intro ⟨e, h⟩
    obtain ⟨ts, htokens, h⟩ := read_eq_ok_iff.mp h
    exact ⟨ts, htokens, exists_ofTokens_iff.mp ⟨e, h⟩⟩
  · intro ⟨ts, htokens, h⟩
    obtain ⟨e, h⟩ := exists_ofTokens_iff.mpr h
    exact ⟨e, read_eq_ok_iff.mpr ⟨ts, htokens, h⟩⟩

private def turning : Source :=
  ⟨"(Turn;north\n(?Way))", none⟩

private def turn : Sexpr :=
  .list [.atom ⟨"turn", some ⟨turning, 1, 5⟩⟩,
    .list [.atom ⟨"?way", some ⟨turning, 13, 17⟩⟩] ⟨turning, 12, 18⟩] ⟨turning, 0, 19⟩

theorem reads_exactly_one_list_turning : read turning = .ok turn ∧ IsReading turning turn := by
  have htokens : tokenize turning.text = .ok turn.flatten := by decide +kernel
  have hread : read turning = .ok turn := read_eq_ok_iff.mpr ⟨turn.flatten, htokens, rfl⟩
  exact ⟨hread, (reads_exactly_one_list turning).2 turn hread⟩

end Sexpr
end FinitePlanning
