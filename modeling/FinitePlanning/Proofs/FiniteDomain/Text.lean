import Mathlib.Data.List.Permutation
import FinitePlanning.FiniteDomain.Text
import FinitePlanning.Proofs.FiniteDomain.WellFormed
import FinitePlanning.Proofs.Lines

/-!
The written form of a finite-domain task determines the task. Every list can be told apart from
what follows it, since its length stands before it or, for the names of values and the initial
state, follows from what was written before.
-/

namespace FinitePlanning
namespace FiniteDomain

section Parts

/-- What is written in a block can be told apart from the end of the block. -/
theorem isCode_block {α : Type} {P : α → Prop} {body : α → List String} (name : String)
    (hbody : IsCode P body) : IsCode P fun a => block name (body a) := by
  intro a b r s ha hb h
  simp only [block, List.cons_append, List.append_assoc, List.nil_append] at h
  obtain ⟨heq, hend⟩ := hbody ha hb (List.cons.inj h).2
  exact ⟨heq, (List.cons.inj hend).2⟩

theorem counted_inj {α : Type} {line : α → String} (hline : Function.Injective line)
    {items items' : List α} {r s : List String}
    (h : counted (items.map line) ++ r = counted (items'.map line) ++ s) :
    items = items' ∧ r = s := by
  obtain ⟨hcount, hitems⟩ := List.cons.inj h
  exact map_append_inj hline (by simpa using toString_injective hcount) hitems

/-- The mark for a missing number is not a number. -/
theorem orMinusOne_injective : Function.Injective orMinusOne := by
  have hmark : ∀ n : Nat, "-1" ≠ toString n := fun n h =>
    not_mem_toString (by decide : '-'.isDigit = false) n
      (h ▸ (by decide : '-' ∈ "-1".toList))
  intro a b h
  cases a with
  | none =>
      cases b with
      | none => rfl
      | some n => exact absurd h (hmark n)
  | some m =>
      cases b with
      | none => exact absurd h.symm (hmark m)
      | some n => exact congrArg some (toString_injective h)

theorem not_mem_orMinusOne {c : Char} (hc : c.isDigit = false) (hminus : c ≠ '-')
    (n : Option Nat) : c ∉ (orMinusOne n).toList := by
  cases n with
  | none =>
      intro h
      rcases List.mem_cons.mp (show c ∈ ['-', '1'] from h) with rfl | h
      · exact hminus rfl
      · rw [List.mem_singleton.mp h] at hc
        cases hc
  | some n => exact not_mem_toString hc n

def Fact.words (f : Fact) : List String :=
  [toString f.var, toString f.value]

theorem Fact.words_ne_nil (f : Fact) : f.words ≠ [] :=
  List.cons_ne_nil _ _

theorem Fact.text_eq (f : Fact) : f.text = " ".intercalate f.words := by
  simp [Fact.text, Fact.words, String.intercalate_cons_of_ne_nil, String.append_assoc]

theorem Fact.not_mem_words {c : Char} (hc : c.isDigit = false) (f : Fact) :
    ∀ w ∈ f.words, c ∉ w.toList := by
  simp only [Fact.words, List.forall_mem_cons]
  exact ⟨not_mem_toString hc _, not_mem_toString hc _, nofun⟩

theorem Fact.words_isCode : IsCode (fun _ => True) Fact.words := by
  intro f g r s _ _ h
  obtain ⟨hvar, h⟩ := List.cons.inj h
  obtain ⟨hvalue, hrest⟩ := List.cons.inj h
  obtain ⟨v, d⟩ := f
  obtain ⟨w, e⟩ := g
  obtain rfl : v = w := toString_injective hvar
  obtain rfl : d = e := toString_injective hvalue
  exact ⟨rfl, hrest⟩

theorem Fact.text_injective : Function.Injective Fact.text := by
  intro f g h
  rw [Fact.text_eq, Fact.text_eq] at h
  have hwords := intercalate_inj (c := ' ') (List.cons_ne_nil _ _) (List.cons_ne_nil _ _)
    (Fact.not_mem_words (by decide) f) (Fact.not_mem_words (by decide) g) h
  exact (Fact.words_isCode trivial trivial (congrArg (· ++ []) hwords)).1

def Effect.words (e : Effect) : List String :=
  toString e.condition.length :: (e.condition.flatMap Fact.words
    ++ [toString e.var, orMinusOne e.before, toString e.after])

theorem Effect.text_eq (e : Effect) : e.text = " ".intercalate e.words := by
  have hrest : [toString e.var, orMinusOne e.before, toString e.after] ≠ [] :=
    List.cons_ne_nil _ _
  have hfacts : e.condition.map Fact.text
      = e.condition.map fun f => " ".intercalate f.words :=
    List.map_congr_left fun f _ => f.text_eq
  rw [Effect.text, Effect.words, factLines, counted, List.length_map, List.cons_append,
    String.intercalate_cons_of_ne_nil (List.append_ne_nil_of_right_ne_nil _ hrest), hfacts,
    intercalate_map_append Fact.words_ne_nil _ hrest,
    String.intercalate_cons_of_ne_nil (List.append_ne_nil_of_right_ne_nil _ hrest)]

theorem Effect.not_mem_words {c : Char} (hc : c.isDigit = false) (hminus : c ≠ '-')
    (e : Effect) : ∀ w ∈ e.words, c ∉ w.toList := by
  simp only [Effect.words, List.forall_mem_cons, List.forall_mem_append, List.mem_flatMap,
    forall_exists_index, and_imp]
  exact ⟨not_mem_toString hc _, fun w f _ hw => f.not_mem_words hc w hw, not_mem_toString hc _,
    not_mem_orMinusOne hc hminus _, not_mem_toString hc _, nofun⟩

theorem Effect.words_injective : Function.Injective Effect.words := by
  intro e e' h
  obtain ⟨hcount, h⟩ := List.cons.inj h
  obtain ⟨hcondition, h⟩ := Fact.words_isCode.flatMap_inj (toString_injective hcount)
    (fun _ _ => trivial) (fun _ _ => trivial) h
  obtain ⟨hvar, h⟩ := List.cons.inj h
  obtain ⟨hbefore, h⟩ := List.cons.inj h
  obtain ⟨hafter, -⟩ := List.cons.inj h
  cases e with | mk v b a c =>
  cases e' with | mk v' b' a' c' =>
  obtain rfl : c = c' := hcondition
  obtain rfl : v = v' := toString_injective hvar
  obtain rfl : b = b' := orMinusOne_injective hbefore
  obtain rfl : a = a' := toString_injective hafter
  rfl

theorem Effect.text_injective : Function.Injective Effect.text := by
  intro e e' h
  rw [Effect.text_eq, Effect.text_eq] at h
  exact Effect.words_injective (intercalate_inj (c := ' ') (List.cons_ne_nil _ _)
    (List.cons_ne_nil _ _) (e.not_mem_words (by decide) (by decide))
    (e'.not_mem_words (by decide) (by decide)) h)

end Parts

section Items

/-- The name of an operator stands in parentheses. -/
def IsParenthesized (name : String) : Prop :=
  name.toList.head? = some '(' ∧ name.toList.getLast? = some ')'

instance (name : String) : Decidable (IsParenthesized name) :=
  inferInstanceAs (Decidable (_ ∧ _))

theorem IsParenthesized.eq_bareName {name : String} (h : IsParenthesized name) :
    name.toList = '(' :: ((bareName name).toList ++ [')']) := by
  obtain ⟨hfirst, hlast⟩ := h
  cases hname : name.toList with
  | nil => simp [hname] at hfirst
  | cons c rest =>
      obtain rfl : c = '(' := by simpa [hname] using hfirst
      have hrest : rest.getLast? = some ')' := by
        cases rest with
        | nil => simp [hname] at hlast
        | cons d rest => simpa [hname, List.getLast?_cons_cons] using hlast
      have hbare : bareName name = String.ofList rest.dropLast := by
        simp [bareName, hname, hrest]
      rw [hbare, String.toList_ofList, List.dropLast_append_getLast? _ hrest]

theorem IsParenthesized.bareName_inj {name name' : String} (h : IsParenthesized name)
    (h' : IsParenthesized name') (heq : bareName name = bareName name') : name = name' := by
  rw [← String.toList_inj, h.eq_bareName, h'.eq_bareName, heq]

theorem Variable.lines_isCode :
    IsCode (fun p : Variable × Nat => p.1.IsWellFormed) (fun p => p.1.lines p.2) := by
  refine isCode_block "variable" ?_
  rintro ⟨⟨range, layer, names⟩, i⟩ ⟨⟨range', layer', names'⟩, i'⟩ r s hv hv' h
  simp only [List.cons_append, List.nil_append] at h
  obtain ⟨hposition, h⟩ := List.cons.inj h
  obtain ⟨hlayer, h⟩ := List.cons.inj h
  obtain ⟨hrange, hnames⟩ := List.cons.inj h
  obtain rfl : i = i' := toString_injective ((String.append_right_inj "var").mp hposition)
  obtain rfl : layer = layer' := orMinusOne_injective hlayer
  obtain rfl : range = range' := toString_injective hrange
  obtain ⟨rfl, rfl⟩ := List.append_inj hnames (hv.names.trans hv'.names.symm)
  exact ⟨rfl, rfl⟩

theorem MutexGroup.lines_isCode : IsCode (fun _ => True) MutexGroup.lines := by
  refine isCode_block "mutex_group" ?_
  rintro ⟨facts⟩ ⟨facts'⟩ r s - - h
  obtain ⟨rfl, rfl⟩ := counted_inj Fact.text_injective h
  exact ⟨rfl, rfl⟩

theorem Operator.lines_isCode :
    IsCode (fun o : Operator => IsParenthesized o.name) Operator.lines := by
  refine isCode_block "operator" ?_
  rintro ⟨name, prevail, effects, cost⟩ ⟨name', prevail', effects', cost'⟩ r s ho ho' h
  simp only [List.cons_append, List.append_assoc, List.nil_append] at h
  obtain ⟨hname, h⟩ := List.cons.inj h
  obtain ⟨rfl, heffects⟩ := counted_inj Fact.text_injective h
  obtain ⟨rfl, hend⟩ := counted_inj Effect.text_injective heffects
  obtain ⟨hcost, rfl⟩ := List.cons.inj hend
  obtain rfl : name = name' := ho.bareName_inj ho' hname
  obtain rfl : cost = cost' := toString_int_injective hcost
  exact ⟨rfl, rfl⟩

/-- The words that say what a rule sets. -/
def Rule.words (effect : Fact) : List String :=
  [toString effect.var, toString (1 - (effect.value : Int)), toString effect.value]

theorem Rule.not_mem_words {c : Char} (hc : c.isDigit = false) (hminus : c ≠ '-')
    (effect : Fact) : ∀ w ∈ Rule.words effect, c ∉ w.toList := by
  simp only [Rule.words, List.forall_mem_cons]
  exact ⟨not_mem_toString hc _, not_mem_toString_int hc hminus _, not_mem_toString hc _, nofun⟩

theorem Rule.words_injective : Function.Injective Rule.words := by
  rintro ⟨var, value⟩ ⟨var', value'⟩ h
  obtain ⟨hvar, h⟩ := List.cons.inj h
  obtain ⟨-, h⟩ := List.cons.inj h
  obtain ⟨hvalue, -⟩ := List.cons.inj h
  obtain rfl : var = var' := toString_injective hvar
  obtain rfl : value = value' := toString_injective hvalue
  rfl

theorem Rule.lines_isCode : IsCode (fun _ => True) Rule.lines := by
  refine isCode_block "rule" ?_
  rintro ⟨condition, effect⟩ ⟨condition', effect'⟩ r s - - h
  simp only [List.append_assoc, List.cons_append, List.nil_append] at h
  obtain ⟨rfl, hend⟩ := counted_inj Fact.text_injective h
  obtain ⟨heffect, rfl⟩ := List.cons.inj hend
  have hwords : Rule.words effect = Rule.words effect' :=
    intercalate_inj (c := ' ') (List.cons_ne_nil _ _) (List.cons_ne_nil _ _)
      (Rule.not_mem_words (by decide) (by decide) effect)
      (Rule.not_mem_words (by decide) (by decide) effect') heffect
  exact ⟨congrArg (Rule.mk condition) (Rule.words_injective hwords), rfl⟩

end Items

namespace Task

/-- The names of a task fit into lines, and those of operators stand in parentheses. -/
structure IsLegible (t : Task) : Prop where
  values : ∀ v ∈ t.vars.toList, ∀ name ∈ v.names, '\n' ∉ name.toList
  operators : ∀ o ∈ t.operators, '\n' ∉ o.name.toList
  parentheses : ∀ o ∈ t.operators, IsParenthesized o.name

section Lines

variable {t t' : Task}

theorem zipIdx_injective {α : Type} : Function.Injective fun l : List α => l.zipIdx :=
  fun _ _ h => by simpa using congrArg (List.map Prod.fst) h

theorem metric_inj : ∀ {b b' : Bool}, (if b then "1" else "0") = (if b' then "1" else "0") →
    b = b' := by
  decide

/-- The lines of a task determine the task. -/
theorem eq_of_lines (hw : t.IsWellFormed) (hw' : t'.IsWellFormed) (hl : t.IsLegible)
    (hl' : t'.IsLegible) (h : t.lines = t'.lines) : t = t' := by
  have hvars : ∀ p ∈ t.vars.toList.zipIdx, p.1.IsWellFormed :=
    fun p hp => hw.vars p.1 (List.fst_mem_of_mem_zipIdx hp)
  have hvars' : ∀ p ∈ t'.vars.toList.zipIdx, p.1.IsWellFormed :=
    fun p hp => hw'.vars p.1 (List.fst_mem_of_mem_zipIdx hp)
  simp only [lines, block, List.cons_append, List.append_assoc, List.nil_append,
    List.cons.injEq, true_and] at h
  obtain ⟨hmetric, hcount, h⟩ := h
  have hsize : t.vars.size = t'.vars.size := toString_injective hcount
  obtain ⟨hvars, h⟩ := Variable.lines_isCode.flatMap_inj (by simpa using hsize) hvars hvars' h
  obtain ⟨hcount, h⟩ := List.cons.inj h
  obtain ⟨hmutexes, h⟩ := MutexGroup.lines_isCode.flatMap_inj (toString_injective hcount)
    (fun _ _ => trivial) (fun _ _ => trivial) h
  have hvalues : t.init.toList.length = t'.init.toList.length :=
    hw.init_size.trans (hsize.trans hw'.init_size.symm)
  obtain ⟨hinit, h⟩ := map_append_inj toString_injective hvalues (List.cons.inj h).2
  obtain ⟨hgoal, h⟩ := counted_inj Fact.text_injective (List.cons.inj (List.cons.inj h).2).2
  obtain ⟨hcount, h⟩ := List.cons.inj (List.cons.inj h).2
  obtain ⟨hoperators, h⟩ := Operator.lines_isCode.flatMap_inj (toString_injective hcount)
    hl.parentheses hl'.parentheses h
  obtain ⟨hcount, h⟩ := List.cons.inj h
  obtain ⟨hrules, -⟩ := Rule.lines_isCode.flatMap_inj (toString_injective hcount)
    (fun _ _ => trivial) (fun _ _ => trivial) (congrArg (· ++ []) h)
  have hvars := Array.toList_inj.mp (zipIdx_injective hvars)
  obtain ⟨vars, mutexes, init, goal, operators, rules, metric⟩ := t
  obtain ⟨vars', mutexes', init', goal', operators', rules', metric'⟩ := t'
  obtain rfl : vars = vars' := hvars
  obtain rfl : mutexes = mutexes' := hmutexes
  obtain rfl : init = init' := Array.toList_inj.mp hinit
  obtain rfl : goal = goal' := hgoal
  obtain rfl : operators = operators' := hoperators
  obtain rfl : rules = rules' := hrules
  obtain rfl : metric = metric' := metric_inj hmetric
  rfl

end Lines

section Newlines

variable {c : Char}

theorem not_mem_block {name : String} {body : List String}
    (hbegin : c ∉ ("begin_" ++ name).toList) (hend : c ∉ ("end_" ++ name).toList)
    (hbody : ∀ l ∈ body, c ∉ l.toList) : ∀ l ∈ block name body, c ∉ l.toList := by
  simp only [block, List.cons_append, List.forall_mem_cons, List.forall_mem_append]
  exact ⟨hbegin, hbody, hend, nofun⟩

theorem not_mem_counted (hc : c.isDigit = false) {items : List String}
    (hitems : ∀ l ∈ items, c ∉ l.toList) : ∀ l ∈ counted items, c ∉ l.toList :=
  List.forall_mem_cons.mpr ⟨not_mem_toString hc _, hitems⟩

theorem not_mem_intercalate (hblank : c ≠ ' ') {words : List String}
    (hwords : ∀ w ∈ words, c ∉ w.toList) : c ∉ (" ".intercalate words).toList := by
  induction words with
  | nil => exact List.not_mem_nil
  | cons w words ih =>
      obtain ⟨hw, hwords⟩ := List.forall_mem_cons.mp hwords
      by_cases hne : words = []
      · rwa [hne, String.intercalate_singleton]
      · rw [String.intercalate_cons_of_ne_nil hne, String.toList_append, String.toList_append,
          List.mem_append, List.mem_append, not_or, not_or]
        exact ⟨⟨hw, fun h => hblank (List.mem_singleton.mp h)⟩, ih hwords⟩

theorem not_mem_factLines (hc : c.isDigit = false) (hblank : c ≠ ' ') (facts : List Fact) :
    ∀ l ∈ factLines facts, c ∉ l.toList :=
  not_mem_counted hc (List.forall_mem_map.mpr fun f _ =>
    f.text_eq ▸ not_mem_intercalate hblank (f.not_mem_words hc))

theorem not_mem_bareName {name : String} (h : c ∉ name.toList) : c ∉ (bareName name).toList := by
  have hopened : ∀ cs : List Char, (∀ d ∈ cs, d ∈ name.toList) →
      c ∉ (String.ofList (if cs.getLast? = some ')' then cs.dropLast else cs)).toList := by
    intro cs hcs hmem
    rw [String.toList_ofList] at hmem
    refine h (hcs c ?_)
    split at hmem
    · exact List.dropLast_subset _ hmem
    · exact hmem
  rw [bareName]
  refine hopened _ fun d hd => ?_
  split at hd
  next rest hname => exact hname ▸ List.mem_cons_of_mem _ hd
  next => exact hd

theorem not_mem_variable_lines {v : Variable} (hv : ∀ name ∈ v.names, '\n' ∉ name.toList)
    (position : Nat) : ∀ l ∈ v.lines position, '\n' ∉ l.toList := by
  refine not_mem_block (by decide) (by decide) ?_
  have hposition : '\n' ∉ ("var" ++ toString position).toList := by
    rw [String.toList_append, List.mem_append, not_or]
    exact ⟨by decide, not_mem_toString (by decide) _⟩
  rw [List.forall_mem_append]
  simp only [List.forall_mem_cons]
  exact ⟨⟨hposition, not_mem_orMinusOne (by decide) (by decide) _,
    not_mem_toString (by decide) _, nofun⟩, hv⟩

theorem not_mem_mutexGroup_lines (m : MutexGroup) : ∀ l ∈ m.lines, '\n' ∉ l.toList :=
  not_mem_block (by decide) (by decide) (not_mem_factLines (by decide) (by decide) _)

theorem not_mem_operator_lines {o : Operator} (ho : '\n' ∉ o.name.toList) :
    ∀ l ∈ o.lines, '\n' ∉ l.toList := by
  refine not_mem_block (by decide) (by decide) ?_
  simp only [List.cons_append, List.forall_mem_append, List.forall_mem_cons]
  refine ⟨not_mem_bareName ho, ⟨not_mem_factLines (by decide) (by decide) _,
    not_mem_counted (by decide) (List.forall_mem_map.mpr fun e _ => ?_)⟩,
    not_mem_toString_int (by decide) (by decide) _, nofun⟩
  exact e.text_eq ▸ not_mem_intercalate (by decide) (e.not_mem_words (by decide) (by decide))

theorem not_mem_rule_lines (r : Rule) : ∀ l ∈ r.lines, '\n' ∉ l.toList := by
  refine not_mem_block (by decide) (by decide) ?_
  simp only [List.forall_mem_append, List.forall_mem_cons]
  exact ⟨not_mem_factLines (by decide) (by decide) _,
    not_mem_intercalate (by decide) (Rule.not_mem_words (by decide) (by decide) _), nofun⟩

/-- The lines of a legible task are lines. -/
theorem IsLegible.not_mem_lines {t : Task} (hl : t.IsLegible) :
    ∀ l ∈ t.lines, '\n' ∉ l.toList := by
  have hvariable : ∀ l ∈ t.vars.toList.zipIdx.flatMap fun p => p.1.lines p.2,
      '\n' ∉ l.toList := List.forall_mem_flatMap.mpr fun p hp =>
    not_mem_variable_lines (hl.values p.1 (List.fst_mem_of_mem_zipIdx hp)) p.2
  have hmutex : ∀ l ∈ t.mutexes.flatMap (·.lines), '\n' ∉ l.toList :=
    List.forall_mem_flatMap.mpr fun m _ => not_mem_mutexGroup_lines m
  have hoperator : ∀ l ∈ t.operators.flatMap (·.lines), '\n' ∉ l.toList :=
    List.forall_mem_flatMap.mpr fun o ho => not_mem_operator_lines (hl.operators o ho)
  have hrule : ∀ l ∈ t.rules.flatMap (·.lines), '\n' ∉ l.toList :=
    List.forall_mem_flatMap.mpr fun r _ => not_mem_rule_lines r
  have hmetric : ∀ b : Bool, '\n' ∉ (if b then "1" else "0").toList := by decide
  have hnumber : ∀ n : Nat, '\n' ∉ (toString n).toList := not_mem_toString (by decide)
  simp only [lines, List.forall_mem_append, List.forall_mem_cons]
  exact ⟨⟨⟨⟨⟨⟨⟨not_mem_block (by decide) (by decide) (by decide),
    not_mem_block (by decide) (by decide) (List.forall_mem_singleton.mpr (hmetric _))⟩,
    hnumber _, hvariable⟩, hnumber _, hmutex⟩,
    not_mem_block (by decide) (by decide) (List.forall_mem_map.mpr fun n _ => hnumber n)⟩,
    not_mem_block (by decide) (by decide) (not_mem_factLines (by decide) (by decide) _)⟩,
    hnumber _, hoperator⟩, hnumber _, hrule⟩

end Newlines

/-- The written form of a task that passes the check determines it, if its names take a line each
and those of its operators stand in parentheses. -/
theorem eq_of_text {t t' : Task} (hcheck : t.check = .ok ()) (hcheck' : t'.check = .ok ())
    (hl : t.IsLegible) (hl' : t'.IsLegible) (h : t.text = t'.text) : t = t' := by
  have htext : ∀ u : Task, u.text.toList = u.lines.flatMap fun l => l.toList ++ ['\n'] := by
    intro u
    rw [text, String.toList_join, List.flatMap_map]
    simp only [String.toList_append]
    rfl
  refine eq_of_lines (check_eq_ok_iff.mp hcheck) (check_eq_ok_iff.mp hcheck') hl hl' ?_
  refine terminated_inj (c := '\n') hl.not_mem_lines hl'.not_mem_lines ?_
  rw [← htext, ← htext, h]

/-- Bread is toasted, and it has to be eaten while it is warm. -/
def toasting : Task where
  vars := #[⟨3, none, ["cold", "warm", "eaten"]⟩, ⟨2, some 0, ["burnt", "fine"]⟩]
  mutexes := [⟨[⟨0, 0⟩, ⟨0, 1⟩]⟩]
  init := #[0, 1]
  goal := [⟨0, 2⟩, ⟨1, 1⟩]
  operators := [
    ⟨"(toast)", [], [⟨0, none, 1, [⟨0, 0⟩]⟩], 2⟩,
    ⟨"(eat)", [⟨1, 1⟩], [⟨0, some 1, 2, []⟩], -1⟩]
  rules := [⟨[⟨0, 0⟩], ⟨1, 0⟩⟩]
  metric := true

/-- Facts are given in another order and more than once. -/
theorem toasting_eq_of_text :
    let other := { toasting with
      mutexes := [.ofFacts [⟨0, 1⟩, ⟨0, 0⟩, ⟨0, 1⟩]]
      rules := [.ofParts [⟨0, 0⟩, ⟨0, 0⟩] ⟨1, 0⟩] }
    toasting.check = .ok () ∧ other.check = .ok () ∧ toasting.IsLegible ∧ other.IsLegible ∧
      toasting.text = other.text ∧ toasting = other := by
  intro other
  have hcheck : toasting.check = .ok () := rfl
  have hcheck' : other.check = .ok () := by cbv
  have hl : toasting.IsLegible := ⟨by decide, by decide, by decide⟩
  have hl' : other.IsLegible := ⟨by decide, by decide, by decide⟩
  have hlines : toasting.lines = other.lines := by cbv
  have htext : toasting.text = other.text := by rw [text, text, hlines]
  exact ⟨hcheck, hcheck', hl, hl', htext, eq_of_text hcheck hcheck' hl hl' htext⟩

end Task
end FiniteDomain
end FinitePlanning
