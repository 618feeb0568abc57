import Mathlib.Data.List.Forall2
import FinitePlanning.Pddl.TypedSymbol
import FinitePlanning.Proofs.Collections

/-!
Lists of typed symbols are read without loss: each name is declared once, in order, with the types
of the first annotation that follows it. A list is rejected only for an element that is neither a
name nor an annotation, for an annotation of no name, and for an annotation without types.
-/

namespace FinitePlanning
namespace Pddl

/-- A part of a list of typed symbols. -/
inductive TypedItem where
  | name (symbol : Symbol)
  /-- An atom `-` with the element that follows it. -/
  | typing (type? : Option Sexpr)
  /-- A list in the place of a name. -/
  | misplaced (e : Sexpr)

namespace TypedItem

/-- The names and annotations that a list consists of. What follows an atom `-` belongs to it. -/
def ofElements : List Sexpr → List TypedItem
  | [] => []
  | .list elements span :: rest => .misplaced (.list elements span) :: ofElements rest
  | .atom symbol :: rest =>
    if symbol.name = "-" then
      match rest with
      | [] => [.typing none]
      | type :: rest => .typing (some type) :: ofElements rest
    else .name symbol :: ofElements rest

/-- The atoms that an annotation consists of, without the atom `either`. -/
def typesOf : Sexpr → List Symbol
  | .atom type => [type]
  | .list elements _ => elements.tail.filterMap Sexpr.atom?

/-- The types of the first annotation. -/
def firstTypes : List TypedItem → List Symbol
  | [] => []
  | .typing type? :: _ => (type?.map typesOf).getD []
  | _ :: rest => firstTypes rest

/-- The names in order, each with the types of the first annotation that follows it. -/
def declared : List TypedItem → List TypedSymbol
  | [] => []
  | .name symbol :: rest => ⟨symbol, firstTypes rest⟩ :: declared rest
  | _ :: rest => declared rest

/-- An atom, or the atom `either` with further atoms in a list. -/
inductive IsAnnotation : Sexpr → Prop
  | single (type : Symbol) : IsAnnotation (.atom type)
  | union {head : Symbol} (types : List Symbol) (span : Span) (h : head.name = "either") :
      IsAnnotation (.list (.atom head :: types.map .atom) span)

/-- No name was given since the last annotation. -/
def IsSettled (items : List TypedItem) : Prop :=
  ∀ front symbol back, items = front ++ .name symbol :: back → ∃ type?, .typing type? ∈ back

/-- What is wrong with a list of typed symbols. -/
inductive IsFaulty (items : List TypedItem) : Prop
  | misplaced {e : Sexpr} (h : .misplaced e ∈ items) : IsFaulty items
  | annotatesNothing {before after : List TypedItem} {type? : Option Sexpr}
      (h : items = before ++ .typing type? :: after) (hsettled : IsSettled before) :
      IsFaulty items
  | missing (h : .typing none ∈ items) : IsFaulty items
  | noTypes {type : Sexpr} (h : .typing (some type) ∈ items) (htype : ¬ IsAnnotation type) :
      IsFaulty items

variable {e : Sexpr} {es : List Sexpr} {items rest : List TypedItem} {names types : List Symbol}
  {whole : Span}

/-! ### Annotations -/

theorem mapM_typeName_atoms (types : List Symbol) :
    (types.map Sexpr.atom).mapM typeName = .ok types := by
  induction types with
  | nil => rfl
  | cons type types ih =>
      rw [List.map_cons, List.mapM_cons, ih]
      rfl

theorem eq_map_of_mapM_typeName (h : es.mapM typeName = .ok types) : es = types.map .atom := by
  have hall := forall₂_of_mapM h
  clear h
  induction hall with
  | nil => rfl
  | @cons e type es types htype hall ih =>
      cases e with
      | atom symbol =>
          cases htype
          rw [ih, List.map_cons]
      | list elements span => cases htype

theorem annotatedTypes_atom (type : Symbol) : annotatedTypes (.atom type) = .ok [type] := rfl

theorem annotatedTypes_union {head : Symbol} (types : List Symbol) (span : Span)
    (h : head.name = "either") :
    annotatedTypes (.list (.atom head :: types.map .atom) span) = .ok types := by
  have harguments : Sexpr.arguments? "either" (.list (.atom head :: types.map .atom) span) =
      some (types.map .atom) := by
    rw [Sexpr.arguments?, Sexpr.isAtom, h]
    rfl
  rw [annotatedTypes, harguments]
  exact mapM_typeName_atoms types

theorem typesOf_union {head : Sexpr} (types : List Symbol) (span : Span) :
    typesOf (.list (head :: types.map .atom) span) = types := by
  rw [typesOf, List.tail_cons, List.filterMap_map]
  exact List.filterMap_some

theorem isAnnotation_of_annotatedTypes (h : annotatedTypes e = .ok types) :
    IsAnnotation e ∧ typesOf e = types := by
  cases e with
  | atom type =>
      cases h
      exact ⟨.single type, rfl⟩
  | list elements span =>
      rw [annotatedTypes] at h
      cases harguments : Sexpr.arguments? "either" (.list elements span) with
      | none =>
          rw [harguments] at h
          cases h
      | some variants =>
          rw [harguments] at h
          obtain rfl := eq_map_of_mapM_typeName h
          cases elements with
          | nil => cases harguments
          | cons first arguments =>
              rw [Sexpr.arguments?] at harguments
              split at harguments
              next hfirst =>
                cases harguments
                cases first with
                | list => cases hfirst
                | atom head =>
                    rw [Sexpr.isAtom, beq_iff_eq] at hfirst
                    exact ⟨.union types span hfirst, typesOf_union types span⟩
              next => cases harguments

theorem not_isAnnotation_of_annotatedTypes {error : Message} (h : annotatedTypes e = .error error) :
    ¬ IsAnnotation e := by
  intro htyping
  cases htyping with
  | single type => cases h
  | union types span hhead =>
      rw [annotatedTypes_union types span hhead] at h
      cases h

/-! ### Names without an annotation -/

theorem firstTypes_names (names : List Symbol) (rest : List TypedItem) :
    firstTypes (names.map .name ++ rest) = firstTypes rest := by
  induction names with
  | nil => rfl
  | cons name names ih => exact ih

theorem declared_names (names : List Symbol) (rest : List TypedItem) :
    declared (names.map .name ++ rest) =
      names.map (⟨·, firstTypes rest⟩) ++ declared rest := by
  induction names with
  | nil => rfl
  | cons name names ih =>
      rw [List.map_cons, List.map_cons, List.cons_append, List.cons_append, declared,
        firstTypes_names, ih]

theorem declared_typing (type? : Option Sexpr) (rest : List TypedItem) :
    declared (.typing type? :: rest) = declared rest := rfl

theorem isSettled_nil : IsSettled [] := by
  intro front symbol back h
  cases front <;> cases h

theorem not_isSettled_names (h : names ≠ []) : ¬ IsSettled (names.map .name) := by
  intro hsettled
  cases names with
  | nil => exact h rfl
  | cons name names =>
      obtain ⟨type?, hmem⟩ := hsettled [] name (names.map .name) rfl
      obtain ⟨_, _, he⟩ := List.mem_map.mp hmem
      cases he

theorem not_isFaulty_names (names : List Symbol) : ¬ IsFaulty (names.map .name) := by
  have hnames : ∀ item ∈ names.map TypedItem.name, ∃ symbol, item = .name symbol := fun item h => by
    obtain ⟨symbol, -, rfl⟩ := List.mem_map.mp h
    exact ⟨symbol, rfl⟩
  intro h
  cases h with
  | misplaced h => cases (hnames _ h).choose_spec
  | annotatesNothing h hsettled =>
      cases (hnames _ (h ▸ List.mem_append_right _ List.mem_cons_self)).choose_spec
  | missing h => cases (hnames _ h).choose_spec
  | noTypes h htype => cases (hnames _ h).choose_spec

theorem IsSettled.of_append {front : List TypedItem} (h : IsSettled (front ++ items)) :
    IsSettled items := by
  rintro first symbol back rfl
  exact h (front ++ first) symbol back (List.append_assoc ..).symm

/-- Names with an annotation leave none open. -/
theorem IsSettled.append_typing {front : List TypedItem} {type? : Option Sexpr}
    (h : IsSettled items) : IsSettled (front ++ .typing type? :: items) := by
  intro first symbol back heq
  rcases List.append_eq_append_iff.mp heq with ⟨between, -, hrest⟩ | ⟨between, -, hback⟩
  · cases between with
    | nil => cases hrest
    | cons item between => exact h between symbol back (List.cons.inj hrest).2
  · cases between with
    | nil => cases hback
    | cons item between =>
        exact ⟨type?, (List.cons.inj hback).2 ▸ List.mem_append_right _ List.mem_cons_self⟩

/-- The first annotation is right if it has types and follows a name. -/
theorem isFaulty_annotated_iff (hnames : names ≠ []) (htype : IsAnnotation e) :
    IsFaulty (names.map .name ++ .typing (some e) :: rest) ↔ IsFaulty rest := by
  constructor
  · intro h
    cases h with
    | misplaced h => exact .misplaced (by simpa using h)
    | @annotatesNothing before after type? h hsettled =>
        rcases List.append_eq_append_iff.mp h with ⟨between, hbefore, hrest⟩ | ⟨between, hn, hrest⟩
        · cases between with
          | nil =>
              rw [List.append_nil] at hbefore
              exact absurd (hbefore ▸ hsettled) (not_isSettled_names hnames)
          | cons item between =>
              obtain ⟨rfl, rfl⟩ := List.cons.inj hrest
              rw [hbefore, List.append_cons] at hsettled
              exact .annotatesNothing rfl hsettled.of_append
        · cases between with
          | nil =>
              rw [List.append_nil] at hn
              exact absurd (hn ▸ hsettled) (not_isSettled_names hnames)
          | cons item between =>
              obtain ⟨rfl, -⟩ := List.cons.inj hrest
              have hmem : .typing type? ∈ names.map TypedItem.name :=
                hn ▸ List.mem_append_right _ List.mem_cons_self
              simp at hmem
    | missing h => exact .missing (by simpa using h)
    | @noTypes type h hnot =>
        have hcases : type = e ∨ .typing (some type) ∈ rest := by simpa using h
        exact .noTypes (hcases.resolve_left fun he => hnot (he ▸ htype)) hnot
  · intro h
    cases h with
    | misplaced h => exact .misplaced (by simpa using h)
    | @annotatesNothing before after type? h hsettled =>
        subst h
        exact .annotatesNothing (List.append_assoc _ (_ :: before) _).symm
          hsettled.append_typing
    | missing h => exact .missing (by simpa using h)
    | @noTypes type h hnot => exact .noTypes (by simp [h]) hnot

/-! ### Reading -/

theorem ofElements_dash {symbol : Symbol} (h : symbol.name = "-") (es : List Sexpr) :
    ofElements (.atom symbol :: es) = .typing es.head? :: ofElements es.tail := by
  rw [ofElements.eq_def]
  dsimp only
  rw [if_pos h]
  cases es with
  | nil => rfl
  | cons e es => rfl

theorem ofElements_name {symbol : Symbol} (h : symbol.name ≠ "-") (es : List Sexpr) :
    ofElements (.atom symbol :: es) = .name symbol :: ofElements es := by
  rw [ofElements.eq_def]
  dsimp only
  rw [if_neg h]

/-- The names that wait for an annotation are read like names that come first. -/
theorem readTyped_cases (whole : Span) (pending : List Symbol) (es : List Sexpr) :
    (IsFaulty (pending.map .name ++ ofElements es) ∧
      ∃ error rest, readTyped whole pending es = (.error error, rest)) ∨
    (¬ IsFaulty (pending.map .name ++ ofElements es) ∧
      readTyped whole pending es = (.ok (declared (pending.map .name ++ ofElements es)), [])) := by
  fun_induction readTyped whole pending es with
  | case1 pending =>
      rw [ofElements, List.append_nil]
      refine .inr ⟨not_isFaulty_names pending, ?_⟩
      have hdeclared := declared_names pending []
      rw [List.append_nil] at hdeclared
      rw [hdeclared, declared, firstTypes, List.append_nil]
  | case2 pending elements span rest =>
      rw [ofElements]
      exact .inl ⟨.misplaced (List.mem_append_right _ List.mem_cons_self), _, _, rfl⟩
  | case3 symbol rest hdash =>
      rw [ofElements_dash hdash]
      exact .inl ⟨.annotatesNothing (List.nil_append _) isSettled_nil, _, _, rfl⟩
  | case4 pending symbol hdash hpending =>
      rw [ofElements_dash hdash]
      exact .inl ⟨.missing (List.mem_append_right _ List.mem_cons_self), _, _, rfl⟩
  | case5 pending symbol hdash hpending type rest error htypes =>
      rw [ofElements_dash hdash]
      exact .inl ⟨.noTypes (List.mem_append_right _ List.mem_cons_self)
        (not_isAnnotation_of_annotatedTypes htypes), _, _, rfl⟩
  | case6 pending symbol hdash hpending type rest types htypes result left hread ih =>
      obtain ⟨htyping, htypesOf⟩ := isAnnotation_of_annotatedTypes htypes
      rw [hread] at ih
      rw [ofElements_dash hdash, List.head?_cons, List.tail_cons,
        isFaulty_annotated_iff hpending htyping, declared_names]
      rcases ih with ⟨hfaulty, error, rest, herror⟩ | ⟨hright, hok⟩
      · obtain ⟨rfl, rfl⟩ := Prod.mk.inj herror
        exact .inl ⟨hfaulty, error, left, rfl⟩
      · obtain ⟨rfl, rfl⟩ := Prod.mk.inj hok
        refine .inr ⟨hright, ?_⟩
        rw [firstTypes, declared_typing, Option.map_some, Option.getD_some, htypesOf]
        rfl
  | case7 pending symbol rest hname ih =>
      rw [ofElements_name hname]
      rwa [List.map_append, List.append_assoc] at ih

end TypedItem

open TypedItem

/-! ### Written forms -/

/-- How a typed symbol is written in a list: with no type, with one, or with some alternatives. -/
inductive TypedSymbol.IsWritten : TypedSymbol → List Sexpr → Prop
  | untyped (symbol : Symbol) : IsWritten ⟨symbol, []⟩ [.atom symbol]
  | single (symbol type : Symbol) {dash : Symbol} (hdash : dash.name = "-") :
      IsWritten ⟨symbol, [type]⟩ [.atom symbol, .atom dash, .atom type]
  | union (symbol : Symbol) {types : List Symbol} {dash head : Symbol} (span : Span)
      (htypes : types ≠ []) (hdash : dash.name = "-") (hhead : head.name = "either") :
      IsWritten ⟨symbol, types⟩
        [.atom symbol, .atom dash, .list (.atom head :: types.map .atom) span]

/-- Symbols that can be told apart from annotations, of which only the last ones have no type. -/
structure AreWritable (symbols : List TypedSymbol) : Prop where
  name_ne : ∀ s ∈ symbols, s.symbol.name ≠ "-"
  pairwise : symbols.Pairwise fun s t => s.types = [] → t.types = []

variable {symbols : List TypedSymbol} {written : List (List Sexpr)} {whole : Span}

theorem readTyped_name {symbol : Symbol} (h : symbol.name ≠ "-") (pending : List Symbol)
    (es : List Sexpr) :
    readTyped whole pending (.atom symbol :: es) = readTyped whole (pending ++ [symbol]) es := by
  rw [readTyped.eq_def]
  dsimp only
  rw [if_neg h]

theorem readTyped_typed {symbol dash : Symbol} {types : List Symbol} {e : Sexpr}
    (hname : symbol.name ≠ "-") (hdash : dash.name = "-") (htypes : annotatedTypes e = .ok types)
    {es : List Sexpr} (hread : readTyped whole [] es = (.ok symbols, [])) :
    readTyped whole [] (.atom symbol :: .atom dash :: e :: es) =
      (.ok (⟨symbol, types⟩ :: symbols), []) := by
  have hpending : [] ++ [symbol] ≠ [] := List.cons_ne_nil _ _
  rw [readTyped_name hname, readTyped, if_pos hdash, if_neg hpending]
  simp only [htypes, hread]
  rfl

theorem readTyped_untyped (hwritten : List.Forall₂ TypedSymbol.IsWritten symbols written)
    (hname : ∀ s ∈ symbols, s.symbol.name ≠ "-") (hnone : ∀ s ∈ symbols, s.types = [])
    (pending : List Symbol) :
    readTyped whole pending written.flatten = (.ok (pending.map (⟨·, []⟩) ++ symbols), []) := by
  induction hwritten generalizing pending with
  | nil => rw [List.flatten_nil, readTyped, List.append_nil]
  | cons hhead _ ih =>
      obtain ⟨hfirst, hnames⟩ := List.forall_mem_cons.mp hname
      obtain ⟨hempty, hnones⟩ := List.forall_mem_cons.mp hnone
      cases hhead with
      | untyped symbol =>
          rw [List.flatten_cons, List.singleton_append, readTyped_name hfirst, ih hnames hnones]
          simp
      | single symbol type hdash => cases hempty
      | union symbol span htypes hdash hhead => exact absurd hempty htypes

/-- What is written is read. -/
theorem readTyped_written (hwritten : List.Forall₂ TypedSymbol.IsWritten symbols written)
    (h : AreWritable symbols) : readTyped whole [] written.flatten = (.ok symbols, []) := by
  obtain ⟨hname, hpairwise⟩ := h
  induction hwritten with
  | nil => rfl
  | cons hhead hwritten ih =>
      obtain ⟨hfirst, hnames⟩ := List.forall_mem_cons.mp hname
      obtain ⟨hlast, hpairs⟩ := List.pairwise_cons.mp hpairwise
      have hread := ih hnames hpairs
      cases hhead with
      | untyped symbol =>
          rw [List.flatten_cons, List.singleton_append, readTyped_name hfirst, List.nil_append,
            readTyped_untyped hwritten hnames fun t ht => hlast t ht rfl]
          rfl
      | single symbol type hdash =>
          exact readTyped_typed hfirst hdash (annotatedTypes_atom type) hread
      | union symbol span htypes hdash hhead =>
          exact readTyped_typed hfirst hdash (annotatedTypes_union _ span hhead) hread

theorem run_typedSymbols (c : Cursor) : ExceptT.run typedSymbols c =
    ((readTyped c.span [] c.remaining).1,
      { c with remaining := (readTyped c.span [] c.remaining).2 }) := rfl

/-- Typed lists are read without loss. Reading ends at the end of the list with the declared names,
it fails for the given faults only, and it takes back what is written. -/
theorem typedSymbols_without_loss (c : Cursor) :
    (∀ symbols c', ExceptT.run typedSymbols c = (.ok symbols, c') →
      c' = { c with remaining := [] } ∧ symbols = declared (ofElements c.remaining)) ∧
    ((∃ error c', ExceptT.run typedSymbols c = (.error error, c')) ↔
      IsFaulty (ofElements c.remaining)) ∧
    ∀ symbols written, List.Forall₂ TypedSymbol.IsWritten symbols written → AreWritable symbols →
      c.remaining = written.flatten →
        ExceptT.run typedSymbols c = (.ok symbols, { c with remaining := [] }) := by
  rw [run_typedSymbols]
  refine ⟨?_, ?_, fun symbols written hwritten hwritable hremaining => ?_⟩
  · intro symbols c' hok
    rcases readTyped_cases c.span [] c.remaining with ⟨-, _, _, hread⟩ | ⟨-, hread⟩
    · rw [hread] at hok
      cases hok
    · rw [hread] at hok
      obtain ⟨hsymbols, rfl⟩ := Prod.mk.inj hok
      exact ⟨rfl, (Except.ok.inj hsymbols).symm⟩
  · rcases readTyped_cases c.span [] c.remaining with ⟨hfaulty, error, _, hread⟩ | ⟨hright, hread⟩
    · rw [hread]
      exact iff_of_true ⟨error, _, rfl⟩ hfaulty
    · rw [hread]
      exact iff_of_false (fun ⟨_, _, herror⟩ => nomatch (Prod.mk.inj herror).1) hright
  · rw [hremaining, readTyped_written hwritten hwritable]

private def word (name : String) : Symbol :=
  ⟨name, none⟩

private def everywhere : Span :=
  ⟨⟨"", none⟩, 0, 0⟩

private def vehicles : List TypedSymbol :=
  [⟨word "a", [word "truck"]⟩, ⟨word "b", [word "truck", word "ship"]⟩, ⟨word "c", []⟩]

private def vehiclesWritten : List (List Sexpr) :=
  [[.atom (word "a"), .atom (word "-"), .atom (word "truck")],
    [.atom (word "b"), .atom (word "-"),
      .list (.atom (word "either") :: [word "truck", word "ship"].map .atom) everywhere],
    [.atom (word "c")]]

/-- Two names share an annotation, and a type may be called `-`. -/
private def shared : List Sexpr :=
  [.atom (word "a"), .atom (word "b"), .atom (word "-"), .atom (word "-"), .atom (word "c")]

private def sharedSymbols : List TypedSymbol :=
  [⟨word "a", [word "-"]⟩, ⟨word "b", [word "-"]⟩, ⟨word "c", []⟩]

theorem typedSymbols_without_loss_vehicles :
    ExceptT.run typedSymbols ⟨vehiclesWritten.flatten, everywhere⟩ =
        (.ok vehicles, ⟨[], everywhere⟩) ∧
      ExceptT.run typedSymbols ⟨shared, everywhere⟩ = (.ok sharedSymbols, ⟨[], everywhere⟩) ∧
        sharedSymbols = declared (ofElements shared) := by
  have hread : ExceptT.run typedSymbols ⟨shared, everywhere⟩ =
      (.ok sharedSymbols, ⟨[], everywhere⟩) := rfl
  refine ⟨(typedSymbols_without_loss _).2.2 vehicles vehiclesWritten ?_ ⟨by decide, by decide⟩ rfl,
    hread, ((typedSymbols_without_loss ⟨shared, everywhere⟩).1 _ _ hread).2⟩
  exact .cons (.single _ _ rfl) (.cons (.union _ _ (by decide) rfl rfl) (.cons (.untyped _) .nil))

end Pddl
end FinitePlanning
