import Mathlib.Data.Option.Basic
import FinitePlanning.Proofs.Datalog.Found

/-!
Compiled rules produce what active rules do, in the same order. The atoms that the index of a join
finds are those that agree on the common slots, the values that a product overwrites are all
given again before its head is produced, and nothing follows while a condition was not matched.
-/

namespace FinitePlanning
namespace Datalog

/-! ### Values of variables -/

variable {slots : List String} {values : Array ObjectId} {bs : List (String × ObjectId)}
  {p : Pattern} {args : List ObjectId}

/-- The array has the values that are bound to variables. -/
structure Holds (slots : List String) (values : Array ObjectId)
    (bs : List (String × ObjectId)) : Prop where
  size : values.size = slots.length
  value : ∀ v ∈ slots, ∀ id, bs.lookup v = some id → values[slots.idxOf v]? = some id

theorem Holds.set (h : Holds slots values bs) {v : String} (hv : v ∈ slots)
    (id : ObjectId) :
    Holds slots (values.setIfInBounds (slots.idxOf v) id) ((v, id) :: bs) where
  size := by rw [Array.size_setIfInBounds, h.size]
  value w hw id' hid := by
    rw [Array.getElem?_setIfInBounds]
    rw [List.lookup_cons] at hid
    by_cases he : w = v
    · subst he
      rw [beq_self_eq_true] at hid
      rw [if_pos rfl, if_pos (h.size ▸ List.idxOf_lt_length_of_mem hw)]
      exact hid
    · rw [beq_false_of_ne he] at hid
      rw [if_neg fun hi => he ((List.idxOf_inj hv).mp hi).symm]
      exact h.value w hw id' hid

theorem Holds.bind (h : Holds slots values bs) (hp : ∀ v ∈ p.vars, v ∈ slots)
    (args : List ObjectId) :
    Holds slots (CompiledRule.bind values (p.compile slots) args)
      (p.bindings args ++ bs) := by
  obtain ⟨relation, terms⟩ := p
  rw [CompiledRule.bind, Pattern.compile, Pattern.bindings]
  dsimp only
  induction terms generalizing args values bs with
  | nil => exact h
  | cons term terms ih =>
      cases args with
      | nil => exact h
      | cons id args =>
          cases term with
          | object => exact ih h args hp
          | «variable» v =>
              have hv := hp v (List.mem_filterMap.mpr ⟨_, List.mem_cons_self, rfl⟩)
              have hrest := ih (h.set hv id) args fun w hw => hp w (List.mem_cons_of_mem v hw)
              simpa [List.filterMap_cons, Term.variable?, List.append_assoc] using hrest

theorem Pattern.instantiate_congr {bs cs : List (String × ObjectId)}
    (h : ∀ v ∈ p.vars, bs.lookup v = cs.lookup v) : p.instantiate bs = p.instantiate cs := by
  refine congrArg (GroundAtom.mk p.relation) (List.map_congr_left fun term hterm => ?_)
  cases term with
  | «variable» v => exact congrArg (Option.getD · default) (h v (Pattern.mem_vars.mpr hterm))
  | object id => rfl

/-! ### Heads -/

/-- The atoms of the rule, with numbered variables. -/
structure CompiledRule.IsCompiled (c : CompiledRule) (r : SplitRule) : Prop where
  relation : c.relation = r.head.relation
  head : c.head = r.head.compile r.slots
  body : c.body = r.body.map (·.compile r.slots)

theorem SplitRule.mem_slots {r : SplitRule} {v : String} :
    v ∈ r.slots ↔ v ∈ r.head.vars ∨ ∃ q ∈ r.body, v ∈ q.vars := by
  simp [SplitRule.slots, List.mem_eraseDups]

namespace CompiledRule

variable {c : CompiledRule} {r : SplitRule} {atoms : Array GroundAtom}

theorem IsCompiled.getD_body (h : c.IsCompiled r) (i : Nat) :
    c.body.getD i [] = (r.body.getD i default).compile r.slots := by
  rw [h.body, List.getD_eq_getElem?_getD, List.getD_eq_getElem?_getD, List.getElem?_map]
  cases r.body[i]? <;> rfl

theorem mem_slots_of_getD {i : Nat} {v : String} (hv : v ∈ (r.body.getD i default).vars) :
    v ∈ r.slots := by
  rw [List.getD_eq_getElem?_getD] at hv
  cases hi : r.body[i]? with
  | none =>
      rw [hi] at hv
      exact absurd hv List.not_mem_nil
  | some q =>
      rw [hi] at hv
      exact SplitRule.mem_slots.mpr (.inr ⟨q, List.mem_of_getElem? hi, hv⟩)

/-- What the atoms of a combination bind, those of the last condition first. -/
def bound (r : SplitRule) (atoms : Array GroundAtom) (combination : List (Nat × Nat)) :
    List (String × ObjectId) :=
  (combination.map fun (i, atom) =>
    (r.body.getD i default).bindings (argsAt atoms atom)).reverse.flatten

theorem IsCompiled.holds_bound (h : c.IsCompiled r) (atoms : Array GroundAtom)
    (combination : List (Nat × Nat)) (hvalues : Holds r.slots values bs) :
    Holds r.slots (combination.foldl (fun values (i, atom) =>
        bind values (c.body.getD i []) (argsAt atoms atom)) values)
      (bound r atoms combination ++ bs) := by
  induction combination generalizing values bs with
  | nil => exact hvalues
  | cons x combination ih =>
      obtain ⟨i, atom⟩ := x
      have hown : ∀ v ∈ (r.body.getD i default).vars, v ∈ r.slots := fun v => mem_slots_of_getD
      have hrest := ih (hvalues.bind hown (argsAt atoms atom))
      have hbound : bound r atoms ((i, atom) :: combination) =
          bound r atoms combination ++ (r.body.getD i default).bindings (argsAt atoms atom) := by
        simp [bound]
      rw [← h.getD_body] at hrest
      rw [hbound, List.append_assoc]
      exact hrest

theorem IsCompiled.conclusion_eq (h : c.IsCompiled r) (hvalues : Holds r.slots values bs)
    (hbound : ∀ v ∈ r.head.vars, v ∈ bs.map (·.1)) :
    c.conclusion values = r.head.instantiate bs := by
  rw [conclusion, Pattern.instantiate, h.relation, h.head, Pattern.compile, List.map_map]
  refine congrArg (GroundAtom.mk r.head.relation) (List.map_congr_left fun term hterm => ?_)
  cases term with
  | «variable» v =>
      have hv := Pattern.mem_vars.mpr hterm
      cases hid : bs.lookup v with
      | none => exact absurd (hbound v hv) (lookup_eq_none_iff_not_mem.mp hid)
      | some id =>
          have hget := hvalues.value v (SplitRule.mem_slots.mpr (.inl hv)) id hid
          simp only [Function.comp_apply, hid, Array.getD_eq_getD_getElem?, hget]
  | object id => rfl

/-- The head is produced for all combinations. Each of them binds the variables of the other
conditions again, so that nothing is left of the one before. -/
theorem IsCompiled.emit_run (h : c.IsCompiled r) {own : List (String × ObjectId)}
    {others : List String} {combinations : List (List (Nat × Nat))}
    (hcombinations : ∀ x ∈ combinations, ∀ v, v ∈ (bound r atoms x).map (·.1) ↔ v ∈ others)
    (hhead : ∀ v ∈ r.head.vars, v ∈ others ∨ v ∈ own.map (·.1))
    (hvalues : Holds r.slots values (own.filter (·.1 ∉ others))) (out : Array GroundAtom) :
    ∃ values', (c.emit atoms combinations values).run out = (values', out ++
        (combinations.map fun x => r.head.instantiate (bound r atoms x ++ own)).toArray) ∧
      values'.size = r.slots.length := by
  induction combinations generalizing values out with
  | nil => exact ⟨values, congrArg (values, ·) (by simp), hvalues.size⟩
  | cons x combinations ih =>
      rw [List.forall_mem_cons] at hcombinations
      have hnow := h.holds_bound atoms x hvalues
      have hlookup : ∀ v, (bound r atoms x ++ own.filter (·.1 ∉ others)).lookup v =
          (bound r atoms x ++ own).lookup v := by
        intro v
        rw [List.lookup_append, List.lookup_append, lookup_filter (fun v => decide (v ∉ others))]
        by_cases hv : v ∈ others
        · cases hl : (bound r atoms x).lookup v with
          | none =>
              exact absurd ((hcombinations.1 v).mpr hv) (lookup_eq_none_iff_not_mem.mp hl)
          | some id => rfl
        · rw [if_pos (decide_eq_true hv)]
      have hconclusion := h.conclusion_eq hnow fun v hv => by
        by_contra hnot
        rw [← lookup_eq_none_iff_not_mem, hlookup, lookup_eq_none_iff_not_mem, List.map_append,
          List.mem_append] at hnot
        exact hnot ((hhead v hv).imp_left (hcombinations.1 v).mpr)
      rw [Pattern.instantiate_congr fun v _ => hlookup v] at hconclusion
      -- the values that do not belong to the other conditions are still there
      have hlater : Holds r.slots (x.foldl (fun values (i, atom) =>
          bind values (c.body.getD i []) (argsAt atoms atom)) values)
          (own.filter (·.1 ∉ others)) := by
        refine ⟨hnow.size, fun v hv id hid => hnow.value v hv id ?_⟩
        have hnone : (bound r atoms x).lookup v = none := by
          rw [lookup_eq_none_iff_not_mem, hcombinations.1 v]
          intro hmem
          rw [lookup_filter (fun v => decide (v ∉ others)), if_neg (by simpa using hmem)] at hid
          cases hid
        rw [List.lookup_append, hnone, hid]
        rfl
      obtain ⟨values', hrun, hsize⟩ := ih hcombinations.2 hlater
        (out.push (r.head.instantiate (bound r atoms x ++ own)))
      refine ⟨values', ?_, hsize⟩
      have hstep : (c.emit atoms (x :: combinations) values).run out =
          (c.emit atoms combinations (x.foldl (fun values (i, atom) =>
            bind values (c.body.getD i []) (argsAt atoms atom)) values)).run
              (out.push (c.conclusion (x.foldl (fun values (i, atom) =>
                bind values (c.body.getD i []) (argsAt atoms atom)) values))) := rfl
      rw [hstep, hconclusion, hrun]
      simp

theorem IsCompiled.holds_own (h : c.IsCompiled r) (hsize : c.values.size = r.slots.length) (j : Nat)
    (args : List ObjectId) : Holds r.slots (bind c.values (c.body.getD j []) args)
      ((r.body.getD j default).bindings args) := by
  have hstart : Holds r.slots c.values [] := ⟨hsize, nofun⟩
  have hown := hstart.bind (p := r.body.getD j default) (fun _ => mem_slots_of_getD) args
  rwa [List.append_nil, ← h.getD_body] at hown

/-- The heads that are produced when an atom matches a condition. -/
theorem IsCompiled.emit_own (h : c.IsCompiled r) (atoms : Array GroundAtom)
    (hsize : c.values.size = r.slots.length) {j : Nat}
    (hargs : args.length = (r.body.getD j default).args.length) (others : List String)
    (combinations : List (List (Nat × Nat)))
    (hcombinations : ∀ x ∈ combinations, ∀ v, v ∈ (bound r atoms x).map (·.1) ↔ v ∈ others)
    (hhead : ∀ v ∈ r.head.vars, v ∈ others ∨ v ∈ (r.body.getD j default).vars)
    (out : Array GroundAtom) :
    ∃ values', (c.emit atoms combinations (bind c.values (c.body.getD j []) args)).run out =
        (values', out ++ (combinations.map fun x => r.head.instantiate (bound r atoms x ++
          (r.body.getD j default).bindings args)).toArray) ∧
      values'.size = r.slots.length := by
  have hown := h.holds_own hsize j args
  refine h.emit_run hcombinations (fun v hv => (hhead v hv).imp_right fun hv =>
    (Pattern.keys_bindings hargs).mpr hv) ⟨hown.size, fun v hv id hid => hown.value v hv id ?_⟩ out
  rw [lookup_filter (fun v => decide (v ∉ others))] at hid
  split at hid
  · exact hid
  · cases hid

end CompiledRule

/-! ### The index of a join -/

theorem Pattern.firstValue?_eq (hlen : args.length = p.args.length)
    (hp : ∀ v ∈ p.vars, v ∈ slots) {v : String} (hv : v ∈ p.vars) :
    p.firstValue? args v =
      some (args.getD ((p.compile slots).idxOf (.slot (slots.idxOf v))) default) := by
  obtain ⟨relation, terms⟩ := p
  have hslot := hp v hv
  rw [firstValue?, compile]
  dsimp only at hlen ⊢
  induction terms generalizing args with
  | nil => exact absurd hv List.not_mem_nil
  | cons term terms ih =>
      cases args with
      | nil => cases hlen
      | cons id args =>
          have htail : args.length = terms.length := Nat.succ.inj hlen
          cases term with
          | object o =>
              have hrest := ih htail hp hv
              simpa [List.idxOf_cons] using hrest
          | «variable» w =>
              by_cases hw : w = v
              · simp [hw]
              · have hne : slots.idxOf w ≠ slots.idxOf v := fun he =>
                  hw ((List.idxOf_inj (hp w List.mem_cons_self)).mp he)
                have hrest := ih htail (fun u hu => hp u (List.mem_cons_of_mem w hu))
                  ((List.mem_cons.mp hv).resolve_left (Ne.symm hw))
                simpa [List.idxOf_cons, hw, hne] using hrest

theorem Pattern.mem_slots_compile {i : Nat} :
    i ∈ (p.compile slots).filterMap Arg.slot? ↔ ∃ v ∈ p.vars, slots.idxOf v = i := by
  rw [compile, List.filterMap_map, List.mem_filterMap]
  constructor
  · rintro ⟨term, hterm, hi⟩
    cases term with
    | «variable» v => exact ⟨v, Pattern.mem_vars.mpr hterm, Option.some.inj hi⟩
    | object => cases hi
  · rintro ⟨v, hv, rfl⟩
    exact ⟨_, Pattern.mem_vars.mp hv, rfl⟩

namespace JoinIndex

variable {x y : JoinIndex} {q : Pattern} {shared : List Nat} {args' : List ObjectId}

/-- The index is for the variables of a condition with the given numbers. -/
def IsFor (x : JoinIndex) (slots : List String) (shared : List Nat) (p : Pattern) : Prop :=
  x.positions = shared.map fun i => (p.compile slots).idxOf (.slot i)

/-- Atoms have the same key in the two indexes of a join if they agree on the common variables. -/
theorem key_eq_iff (hx : x.IsFor slots shared p) (hy : y.IsFor slots shared q)
    (hshared : ∀ i, i ∈ shared ↔ ∃ v ∈ p.vars, v ∈ q.vars ∧ slots.idxOf v = i)
    (hp : ∀ v ∈ p.vars, v ∈ slots) (hq : ∀ v ∈ q.vars, v ∈ slots)
    (hargs : args.length = p.args.length) (hargs' : args'.length = q.args.length) :
    y.key args' = x.key args ↔ p.agree args q args' = true := by
  rw [key, key, hx, hy, List.map_map, List.map_map, List.map_inj_left, Pattern.agree,
    List.all_eq_true]
  constructor
  · intro h v hv
    by_cases hvq : v ∈ q.vars
    · have he := h _ ((hshared _).mpr ⟨v, hv, hvq, rfl⟩)
      simp only [Function.comp_apply] at he
      rw [Pattern.firstValue?_eq hargs hp hv, Pattern.firstValue?_eq hargs' hq hvq, he]
      simp
    · simp [hvq]
  · intro h i hi
    obtain ⟨v, hv, hvq, rfl⟩ := (hshared i).mp hi
    have he := h v hv
    rw [Pattern.firstValue?_eq hargs hp hv, Pattern.firstValue?_eq hargs' hq hvq] at he
    simpa [hvq, eq_comm] using he

/-- The index finds the atoms that were recorded for a condition. -/
structure Recalls (x : JoinIndex) (atoms : Array GroundAtom) (seen : Array (List ObjectId)) :
    Prop where
  matching : ∀ key, (x.matching key).map (argsAt atoms) =
    seen.toList.filter fun args => x.key args = key
  lt : ∀ key, ∀ k ∈ x.matching key, k < atoms.size

variable {atoms : Array GroundAtom} {seen : Array (List ObjectId)}

theorem matching_add (k : Nat) (key : List ObjectId) : (x.add args k).matching key =
    if x.key args = key then x.matching key ++ [k] else x.matching key := by
  rw [JoinIndex.matching, add, Std.HashMap.getD_alter]
  by_cases h : x.key args = key
  · subst h
    simp [JoinIndex.matching, Std.HashMap.getD_eq_getD_getElem?]
  · simp [h, JoinIndex.matching]

theorem Recalls.add (h : x.Recalls atoms seen) {k : Nat} (hk : k < atoms.size) :
    (x.add (argsAt atoms k) k).Recalls atoms (seen.push (argsAt atoms k)) where
  matching key := by
    rw [matching_add, Array.toList_push, List.filter_append, List.filter_singleton]
    have hkey : ∀ args, (x.add (argsAt atoms k) k).key args = x.key args := fun _ => rfl
    simp only [hkey]
    split
    next he => simp [h.matching key, he]
    next he => simp [h.matching key, he]
  lt key k' hk' := by
    rw [matching_add] at hk'
    split at hk'
    · rcases List.mem_append.mp hk' with hk' | hk'
      · exact h.lt key k' hk'
      · exact List.mem_singleton.mp hk' ▸ hk
    · exact h.lt key k' hk'

end JoinIndex

/-! ### Firing -/

namespace Memory

variable {atoms : Array GroundAtom} {r : ActiveRule}

/-- The two indexes of a join have the atoms that were recorded for its conditions. -/
structure IsJoin (x y : JoinIndex) (atoms : Array GroundAtom) (r : ActiveRule) (p q : Pattern)
    (s t : Array (List ObjectId)) (shared : List Nat) : Prop where
  body : r.rule.body = [p, q]
  seen : r.seen = [s, t]
  mem_shared : ∀ i, i ∈ shared ↔ ∃ v ∈ p.vars, v ∈ q.vars ∧ r.rule.slots.idxOf v = i
  left_for : x.IsFor r.rule.slots shared p
  right_for : y.IsFor r.rule.slots shared q
  left : x.Recalls atoms s
  right : y.Recalls atoms t

/-- What is remembered is what an active rule recorded. -/
def Represents (atoms : Array GroundAtom) (r : ActiveRule) : Memory → Prop
  | .project => r.rule.kind = .project
  | .join left right => r.rule.kind = .join ∧
      ∃ p q s t shared, IsJoin left right atoms r p q s t shared
  | .product seen empty => r.rule.kind = .product ∧ r.seen = seen.map (·.map (argsAt atoms)) ∧
      (∀ ks ∈ seen, ∀ k ∈ ks, k < atoms.size) ∧ empty = seen.countP (·.isEmpty)

end Memory

namespace CompiledRule

/-- The compiled form of an active rule. -/
structure Represents (c : CompiledRule) (atoms : Array GroundAtom) (r : ActiveRule) : Prop
    extends c.IsCompiled r.rule where
  size : c.values.size = r.rule.slots.length
  memory : c.memory.Represents atoms r

variable {c : CompiledRule} {r : ActiveRule} {atoms : Array GroundAtom} {program : Program}
  {own other : Pattern} {j k : Nat} {seen : Array (List ObjectId)}

theorem Represents.project_run (h : c.Represents atoms r) (hproper : r.rule.IsProper)
    (hkind : r.rule.kind = .project) (hlength : r.seen.length = r.rule.body.length)
    (hc : r.rule.body[j]? = some own)
    (hargs : args.length = own.args.length) (out : Array GroundAtom) :
    ∃ values, (c.emit atoms [[]] (bind c.values (c.body.getD j []) args)).run out =
        (values, out ++ (r.consequences j args).toArray) ∧
      values.size = r.rule.slots.length := by
  have hone : r.rule.body.length = 1 := by
    have hfits := hproper.kind
    rw [SplitRule.FitsKind, hkind] at hfits
    exact hfits
  have hj : j = 0 := by
    have hlt := (List.getElem?_eq_some_iff.mp hc).1
    omega
  subst hj
  obtain ⟨q, hbody⟩ := List.length_eq_one_iff.mp hone
  obtain ⟨seen, hseen⟩ := List.length_eq_one_iff.mp (hlength.trans hone)
  obtain rfl : q = own := by simpa [hbody] using hc
  have hget : r.rule.body.getD 0 default = q := by rw [hbody]; rfl
  have hconsequences : r.consequences 0 args = [r.rule.head.instantiate (q.bindings args)] := by
    simp [ActiveRule.consequences, hbody, hseen, choices]
  rw [hconsequences]
  have hrun := h.emit_own atoms h.size (hget.symm ▸ hargs) [] [[]]
    (fun x hx v => by simp [List.mem_singleton.mp hx, bound])
    (fun v hv => .inr (by simpa [hbody] using hproper.bound v hv)) out
  rw [hget] at hrun
  exact hrun

theorem Represents.join_run (h : c.Represents atoms r) (hproper : r.rule.IsProper)
    {mine theirs : JoinIndex} (own other : Pattern) (j i : Nat)
    (hown : r.rule.body.getD j default = own)
    (hother : r.rule.body.getD i default = other)
    (hbody : ∀ q ∈ r.rule.body, q = own ∨ q = other)
    (hothers : r.others j = [(other, seen)]) (hrecalls : theirs.Recalls atoms seen)
    (hkeys : ∀ args' ∈ seen, theirs.key args' = mine.key args ↔ own.agree args other args' = true)
    (hargs : args.length = own.args.length)
    (hseen : ∀ args' ∈ seen, args'.length = other.args.length) (out : Array GroundAtom) :
    ∃ values, (c.emit atoms ((theirs.matching (mine.key args)).map fun k => [(i, k)])
          (bind c.values (c.body.getD j []) args)).run out =
        (values, out ++ (r.consequences j args).toArray) ∧
      values.size = r.rule.slots.length := by
  have hmatching : (theirs.matching (mine.key args)).map (argsAt atoms) =
      seen.toList.filter (own.agree args other ·) := by
    rw [hrecalls.matching]
    refine List.filter_congr fun args' hargs' => ?_
    rw [Bool.eq_iff_iff, decide_eq_true_iff]
    exact hkeys args' (Array.mem_toList_iff.mp hargs')
  have hbound : ∀ k, bound r.rule atoms [(i, k)] = other.bindings (argsAt atoms k) := fun k => by
    simp only [bound, List.map_cons, List.map_nil, hother]
    simp
  have hconsequences : r.consequences j args =
      ((theirs.matching (mine.key args)).map fun k => [(i, k)]).map fun x =>
        r.rule.head.instantiate (bound r.rule atoms x ++
          (r.rule.body.getD j default).bindings args) := by
    rw [ActiveRule.consequences, ← ActiveRule.others, hothers, hown]
    simp [choices_singleton, ← hmatching, hbound, Function.comp_def]
  rw [hconsequences]
  refine h.emit_own atoms h.size (hown.symm ▸ hargs) other.vars _ (fun x hx v => ?_)
    (fun v hv => ?_) out
  · obtain ⟨k, hk, rfl⟩ := List.mem_map.mp hx
    have hmem : argsAt atoms k ∈ seen.toList.filter (own.agree args other ·) :=
      hmatching ▸ List.mem_map_of_mem hk
    rw [hbound]
    exact Pattern.keys_bindings (hseen _ (Array.mem_toList_iff.mp (List.mem_of_mem_filter hmem)))
  · obtain ⟨q, hq, hv⟩ := hproper.bound v hv
    rcases hbody q hq with rfl | rfl
    · exact .inr (hown ▸ hv)
    · exact .inl hv

theorem eraseIdx_eq_map_range {α : Type} (l : List α) (i : Nat) (default : α) :
    l.eraseIdx i = ((List.range l.length).filter (· ≠ i)).map (l.getD · default) := by
  induction l generalizing i with
  | nil => simp
  | cons x l ih =>
      rw [List.length_cons, List.range_succ_eq_map, List.filter_cons]
      cases i with
      | zero =>
          have hall : (List.range l.length |>.map Nat.succ).filter (· ≠ 0) =
              (List.range l.length).map Nat.succ :=
            List.filter_eq_self.mpr (by simp)
          rw [if_neg (by simp), hall, List.map_map, List.eraseIdx_cons_zero]
          refine List.ext_getElem (by simp) fun i hi _ => ?_
          simp [List.getD_eq_getElem?_getD, hi]
      | succ i =>
          rw [if_pos (by simp), List.map_cons, List.filter_map, List.map_map,
            List.eraseIdx_cons_succ, ih]
          simp [Function.comp_def]

/-- One condition fewer is without atoms if the one that is matched was. -/
theorem countP_modify (seen : List (Array Nat)) (k : Nat) (hj : j < seen.length) :
    (if (seen.getD j #[]).isEmpty then seen.countP (·.isEmpty) - 1 else seen.countP (·.isEmpty)) =
      (seen.modify j (·.push k)).countP (·.isEmpty) := by
  have hcount : seen.countP (·.isEmpty) = (seen.modify j (·.push k)).countP (·.isEmpty) +
      if (seen.getD j #[]).isEmpty then 1 else 0 := by
    induction seen generalizing j with
    | nil => cases hj
    | cons ks seen ih =>
        cases j with
        | zero => simp [List.countP_cons]
        | succ j =>
            rw [List.modify_succ_cons, List.countP_cons, List.countP_cons, List.getD_cons_succ,
              ih (Nat.lt_of_succ_lt_succ hj)]
            omega
  by_cases hempty : (seen.getD j #[]).isEmpty = true
  · rw [if_pos hempty] at hcount ⊢
    omega
  · rw [if_neg hempty] at hcount ⊢
    omega

/-- A combination binds the variables of its conditions. -/
theorem keys_bound {rule : SplitRule} {x : List (Nat × Nat)}
    (hx : ∀ y ∈ x, (argsAt atoms y.2).length = (rule.body.getD y.1 default).args.length)
    {v : String} : v ∈ (bound rule atoms x).map (·.1) ↔
      ∃ y ∈ x, v ∈ (rule.body.getD y.1 default).vars := by
  rw [bound, List.map_flatten, List.mem_flatten]
  constructor
  · rintro ⟨keys, hkeys, hv⟩
    obtain ⟨y, hy, rfl⟩ : ∃ y ∈ x, ((rule.body.getD y.1 default).bindings
        (argsAt atoms y.2)).map (·.1) = keys := by simpa using hkeys
    exact ⟨y, hy, (Pattern.keys_bindings (hx y hy)).mp hv⟩
  · rintro ⟨y, hy, hv⟩
    refine ⟨_, ?_, (Pattern.keys_bindings (hx y hy)).mpr hv⟩
    simpa using ⟨y.1, y.2, hy, rfl⟩

section Product

variable {memory : List (Array Nat)} (hseen : r.seen = memory.map (·.map (argsAt atoms)))
  (hlength : r.seen.length = r.rule.body.length)
include hseen hlength

/-- The other conditions of a product with the atoms that matched them. -/
theorem others_eq (j k : Nat) : r.others j =
    ((List.range (memory.modify j (·.push k)).length).filter (· ≠ j)).map fun c =>
      (r.rule.body.getD c default,
        ((memory.modify j (·.push k)).getD c #[]).map (argsAt atoms)) := by
  have hlen : memory.length = r.rule.body.length := by
    rw [← hlength, hseen, List.length_map]
  have hzip : (r.rule.body.zip r.seen).length = (memory.modify j (·.push k)).length := by
    rw [List.length_zip, hlength, Nat.min_self, List.length_modify, hlen]
  rw [ActiveRule.others, eraseIdx_eq_map_range _ _ (default, #[]), hzip]
  refine List.map_congr_left fun c hc => ?_
  obtain ⟨hlt, hne⟩ := List.mem_filter.mp hc
  have hlt : c < memory.length := by simpa using hlt
  have hne : c ≠ j := of_decide_eq_true hne
  simp [List.getD_eq_getElem?_getD, hseen, List.zip, hlt, hlen ▸ hlt, hne.symm]

/-- The alternatives that an active rule has for a product, whose conditions share no variables. -/
theorem alternatives_eq (hproper : r.rule.IsProper) (hkind : r.rule.kind = .product)
    (hc : r.rule.body[j]? = some own) (k : Nat) :
    ((r.others j).map fun (q, seen) => (seen.toList.filter (own.agree args q ·)).map q.bindings) =
      ((List.range (memory.modify j (·.push k)).length).filter (· ≠ j)).map fun c =>
        ((memory.modify j (·.push k)).getD c #[]).toList.map fun k =>
          (r.rule.body.getD c default).bindings (argsAt atoms k) := by
  have hapart : ∀ q ∈ r.others j, ∀ args', own.agree args q.1 args' = true := by
    intro q hq args'
    obtain ⟨i, hij, hi⟩ := ActiveRule.mem_others.mp hq
    have hi := (List.getElem?_zip_eq_some.mp hi).1
    have hpairwise : r.rule.body.Pairwise fun p q => ∀ v ∈ p.vars, v ∉ q.vars := by
      have hfits := hproper.kind
      rw [SplitRule.FitsKind, hkind] at hfits
      exact hfits.2
    rw [List.pairwise_iff_getElem] at hpairwise
    obtain ⟨hj, rfl⟩ := List.getElem?_eq_some_iff.mp hc
    obtain ⟨hi, he⟩ := List.getElem?_eq_some_iff.mp hi
    rw [Pattern.agree, List.all_eq_true, ← he]
    intro v hv
    rw [Bool.or_eq_true, decide_eq_true_iff]
    left
    rcases Nat.lt_or_gt_of_ne hij with hlt | hlt
    · exact fun hvi => hpairwise i j hi hj hlt v hvi hv
    · exact hpairwise j i hj hi hlt v hv
  have hfilter : ∀ q ∈ r.others j, (fun (q, seen) => (seen.toList.filter
      (own.agree args q ·)).map q.bindings) q = q.2.toList.map q.1.bindings := by
    rintro ⟨q, seen⟩ hq
    exact congrArg (List.map q.bindings) (List.filter_eq_self.mpr fun args' _ => hapart _ hq args')
  rw [List.map_congr_left hfilter, others_eq hseen hlength j k, List.map_map]
  refine List.map_congr_left fun c _ => ?_
  simp

/-- Nothing follows from a product while a condition was not matched. -/
theorem consequences_eq_nil (hproper : r.rule.IsProper) (hkind : r.rule.kind = .product)
    (hc : r.rule.body[j]? = some own) {k : Nat}
    (hempty : 0 < (memory.modify j (·.push k)).countP (·.isEmpty)) :
    r.consequences j args = [] := by
  obtain ⟨ks, hmem, hks⟩ := List.countP_pos_iff.mp hempty
  obtain ⟨i, hi⟩ := List.mem_iff_getElem?.mp hmem
  have hlt := (List.getElem?_eq_some_iff.mp hi).1
  have hij : i ≠ j := by
    rintro rfl
    rw [List.getElem?_modify] at hi
    obtain ⟨old, -, rfl⟩ := Option.map_eq_some_iff.mp hi
    simp at hks
  have hget : r.rule.body.getD j default = own := by
    rw [List.getD_eq_getElem?_getD, hc]
    rfl
  rw [ActiveRule.consequences, ← ActiveRule.others, hget]
  dsimp only
  rw [alternatives_eq hseen hlength hproper hkind hc k, choices_eq_nil, List.map_nil]
  have hnone : (memory.modify j (·.push k)).getD i #[] = #[] := by
    rw [List.getD_eq_getElem?_getD, hi, Option.getD_some, Array.isEmpty_iff.mp hks]
  refine List.mem_map.mpr ⟨i, List.mem_filter.mpr ⟨List.mem_range.mpr hlt, by simpa using hij⟩, ?_⟩
  rw [hnone]
  rfl

theorem Represents.product_run (h : c.Represents atoms r) (hfits : r.Fits program)
    (hproper : r.rule.IsProper) (hkind : r.rule.kind = .product) (hc : r.rule.body[j]? = some own)
    (hargs : args.length = own.args.length) (k : Nat) {others : List Nat}
    (hothers : others = (List.range (memory.modify j (·.push k)).length).filter (· ≠ j))
    (out : Array GroundAtom) :
    ∃ values, (c.emit atoms ((choices (others.map fun c =>
          ((memory.modify j (·.push k)).getD c #[]).toList)).map others.zip)
        (bind c.values (c.body.getD j []) args)).run out =
        (values, out ++ (r.consequences j args).toArray) ∧
      values.size = r.rule.slots.length := by
  have hget : r.rule.body.getD j default = own := by
    rw [List.getD_eq_getElem?_getD, hc]
    rfl
  have hconsequences : r.consequences j args = ((choices (others.map fun c =>
      ((memory.modify j (·.push k)).getD c #[]).toList)).map others.zip).map fun x =>
        r.rule.head.instantiate (bound r.rule atoms x ++
          (r.rule.body.getD j default).bindings args) := by
    have hchoices := choices_map_zip (fun y : Nat × Nat =>
      (r.rule.body.getD y.1 default).bindings (argsAt atoms y.2))
      (fun c => ((memory.modify j (·.push k)).getD c #[]).toList) others
    rw [ActiveRule.consequences, ← ActiveRule.others, hget]
    dsimp only at hchoices ⊢
    rw [alternatives_eq hseen hlength hproper hkind hc k, ← hothers, ← hchoices, List.map_map,
      List.map_map]
    rfl
  rw [hconsequences]
  refine h.emit_own atoms h.size (hget.symm ▸ hargs)
    (others.flatMap fun i => (r.rule.body.getD i default).vars) _ (fun x hx v => ?_)
    (fun v hv => ?_) out
  · obtain ⟨choice, hchoice, rfl⟩ := List.mem_map.mp hx
    have hchoice := List.forall₂_map_right_iff.mp (mem_choices.mp hchoice)
    have hfst : (others.zip choice).map (·.1) = others :=
      List.map_fst_zip (Nat.le_of_eq hchoice.length_eq.symm)
    have hlen : ∀ y ∈ others.zip choice,
        (argsAt atoms y.2).length = (r.rule.body.getD y.1 default).args.length := by
      rintro ⟨i, atom⟩ hy
      have hatom := List.forall₂_zip hchoice.flip hy
      have hmem : (r.rule.body.getD i default,
          ((memory.modify j (·.push k)).getD i #[]).map (argsAt atoms)) ∈ r.others j := by
        rw [others_eq hseen hlength j k, ← hothers]
        exact List.mem_map_of_mem (List.of_mem_zip hy).1
      exact (hfits.recorded _ (ActiveRule.mem_zip_of_mem_others hmem) (argsAt atoms atom)
        (Array.mem_map_of_mem (Array.mem_toList_iff.mp hatom))).length
    rw [keys_bound hlen, List.mem_flatMap]
    constructor
    · rintro ⟨y, hy, hv⟩
      exact ⟨y.1, hfst ▸ List.mem_map_of_mem hy, hv⟩
    · rintro ⟨i, hi, hv⟩
      obtain ⟨y, hy, rfl⟩ := List.mem_map.mp (hfst.symm ▸ hi)
      exact ⟨y, hy, hv⟩
  · obtain ⟨q, hq, hv⟩ := hproper.bound v hv
    rcases ActiveRule.eq_or_mem_others (c := j) hlength hq with rfl | ⟨x, hx, rfl⟩
    · exact .inr hv
    · left
      rw [others_eq hseen hlength j k, ← hothers] at hx
      obtain ⟨i, hi, rfl⟩ := List.mem_map.mp hx
      exact List.mem_flatMap.mpr ⟨i, hi, hv⟩

end Product

theorem Represents.fire_project (h : c.Represents atoms r) (hfits : r.Fits program)
    (hproper : r.rule.IsProper) (hc : r.rule.body[j]? = some own)
    (hargs : (argsAt atoms k).length = own.args.length) (out : Array GroundAtom)
    (hm : c.memory = .project) (hkind : r.rule.kind = .project) :
    ∃ c', (c.fire j k atoms).run out =
        (c', out ++ (r.consequences j (argsAt atoms k)).toArray) ∧
      c'.Represents atoms (r.record j (argsAt atoms k)) := by
  obtain ⟨values, hrun, hsize⟩ := h.project_run hproper hkind hfits.length hc hargs out
  refine ⟨{ c with values, memory := .project }, ?_, ⟨h.relation, h.head, h.body⟩, hsize, hkind⟩
  rw [fire, hm]
  dsimp only
  rw [run_bind_of_run hrun]
  rfl

theorem Represents.fire_join (h : c.Represents atoms r) (hfits : r.Fits program)
    (hproper : r.rule.IsProper) (hc : r.rule.body[j]? = some own) (hk : k < atoms.size)
    (hargs : (argsAt atoms k).length = own.args.length) (out : Array GroundAtom)
    {left right : JoinIndex} (hm : c.memory = .join left right)
    (hmemory : (Memory.join left right).Represents atoms r) :
    ∃ c', (c.fire j k atoms).run out =
        (c', out ++ (r.consequences j (argsAt atoms k)).toArray) ∧
      c'.Represents atoms (r.record j (argsAt atoms k)) := by
  obtain ⟨hkind, p, q, s, t, shared, hjoin⟩ := hmemory
  rw [fire, hm]
  have hp : p ∈ r.rule.body := by simp [hjoin.body]
  have hq : q ∈ r.rule.body := by simp [hjoin.body]
  have hslots : ∀ x ∈ r.rule.body, ∀ v ∈ x.vars, v ∈ r.rule.slots := fun x hx v hv =>
    SplitRule.mem_slots.mpr (.inr ⟨x, hx, hv⟩)
  have hs : ∀ args' ∈ s, args'.length = p.args.length := fun args' hargs' =>
    (hfits.recorded (p, s) (by simp [hjoin.body, hjoin.seen]) args' hargs').length
  have ht : ∀ args' ∈ t, args'.length = q.args.length := fun args' hargs' =>
    (hfits.recorded (q, t) (by simp [hjoin.body, hjoin.seen]) args' hargs').length
  have hlt : j < 2 := by
    have hlt := (List.getElem?_eq_some_iff.mp hc).1
    rwa [hjoin.body] at hlt
  obtain rfl | rfl : j = 0 ∨ j = 1 := by omega
  · obtain rfl : p = own := by simpa [hjoin.body] using hc
    obtain ⟨values, hrun, hsize⟩ := h.join_run hproper p q 0 1 (by simp [hjoin.body])
      (by simp [hjoin.body]) (by simp [hjoin.body])
      (by simp [ActiveRule.others, hjoin.body, hjoin.seen]) hjoin.right
      (fun args' hargs' => JoinIndex.key_eq_iff hjoin.left_for hjoin.right_for
        hjoin.mem_shared (hslots p hp) (hslots q hq) hargs (ht args' hargs')) hargs ht out
    refine ⟨{ c with values, memory := .join (left.add (argsAt atoms k) k) right }, ?_,
      ⟨h.relation, h.head, h.body⟩, hsize, hkind, p, q, s.push (argsAt atoms k), t, shared, ?_⟩
    · dsimp only
      rw [if_pos rfl]
      dsimp only
      rw [run_bind_of_run hrun]
      rfl
    · exact {
        hjoin with
        seen := by simp [ActiveRule.record, hjoin.seen]
        left := hjoin.left.add hk }
  · obtain rfl : q = own := by simpa [hjoin.body] using hc
    obtain ⟨values, hrun, hsize⟩ := h.join_run hproper q p 1 0 (by simp [hjoin.body])
      (by simp [hjoin.body]) (by simp [hjoin.body, or_comm])
      (by simp [ActiveRule.others, hjoin.body, hjoin.seen]) hjoin.left
      (fun args' hargs' => JoinIndex.key_eq_iff hjoin.right_for hjoin.left_for
        (fun i => (hjoin.mem_shared i).trans (exists_congr fun _ => and_left_comm))
        (hslots q hq) (hslots p hp) hargs (hs args' hargs')) hargs hs out
    refine ⟨{ c with values, memory := .join left (right.add (argsAt atoms k) k) }, ?_,
      ⟨h.relation, h.head, h.body⟩, hsize, hkind, p, q, s, t.push (argsAt atoms k), shared, ?_⟩
    · dsimp only
      rw [if_neg Nat.one_ne_zero]
      dsimp only
      rw [run_bind_of_run hrun]
      rfl
    · exact {
        hjoin with
        seen := by simp [ActiveRule.record, hjoin.seen]
        right := hjoin.right.add hk }

theorem map_modify_push (memory : List (Array Nat)) (j k : Nat) :
    (memory.modify j (·.push k)).map (·.map (argsAt atoms)) =
      (memory.map (·.map (argsAt atoms))).modify j (·.push (argsAt atoms k)) := by
  refine List.ext_getElem? fun i => ?_
  simp only [List.getElem?_map, List.getElem?_modify, Option.map_eq_map, Option.map_map]
  refine congrArg (Option.map · _) (funext fun ks => ?_)
  by_cases hi : j = i <;> simp [hi]

theorem forall_mem_modify_push {memory : List (Array Nat)} {n : Nat}
    (h : ∀ ks ∈ memory, ∀ i ∈ ks, i < n) (hk : k < n) :
    ∀ ks ∈ memory.modify j (·.push k), ∀ i ∈ ks, i < n := by
  intro ks hks i hi
  obtain ⟨l, hl⟩ := List.mem_iff_getElem?.mp hks
  rw [List.getElem?_modify] at hl
  obtain ⟨old, hold, rfl⟩ := Option.map_eq_some_iff.mp hl
  have hmem := h old (List.mem_of_getElem? hold)
  split at hi
  · rcases Array.mem_push.mp hi with hi | rfl
    · exact hmem i hi
    · exact hk
  · exact hmem i hi

theorem Represents.fire_product (h : c.Represents atoms r) (hfits : r.Fits program)
    (hproper : r.rule.IsProper) (hc : r.rule.body[j]? = some own) (hk : k < atoms.size)
    (hargs : (argsAt atoms k).length = own.args.length) (out : Array GroundAtom)
    {memory : List (Array Nat)} {empty : Nat} (hm : c.memory = .product memory empty)
    (hmemory : (Memory.product memory empty).Represents atoms r) :
    ∃ c', (c.fire j k atoms).run out =
        (c', out ++ (r.consequences j (argsAt atoms k)).toArray) ∧
      c'.Represents atoms (r.record j (argsAt atoms k)) := by
  obtain ⟨hkind, hseen, hbounded, rfl⟩ := hmemory
  have hlt : j < memory.length := by
    rw [← List.length_map (f := fun ks : Array Nat => ks.map (argsAt atoms)), ← hseen,
      hfits.length]
    exact (List.getElem?_eq_some_iff.mp hc).1
  have hlater : (Memory.product (memory.modify j (·.push k))
      ((memory.modify j (·.push k)).countP (·.isEmpty))).Represents atoms
        (r.record j (argsAt atoms k)) := by
    refine ⟨hkind, ?_, forall_mem_modify_push hbounded hk, rfl⟩
    rw [ActiveRule.record, hseen, map_modify_push]
  rw [fire, hm]
  dsimp only
  rw [countP_modify memory k hlt]
  by_cases hempty : 0 < (memory.modify j (·.push k)).countP (·.isEmpty)
  · have hvalues := (h.holds_own h.size j (argsAt atoms k)).size
    refine ⟨{ c with
      values := bind c.values (c.body.getD j []) (argsAt atoms k)
      memory := .product (memory.modify j (·.push k))
        ((memory.modify j (·.push k)).countP (·.isEmpty)) }, ?_,
      ⟨h.relation, h.head, h.body⟩, hvalues, hlater⟩
    rw [if_pos hempty, consequences_eq_nil hseen hfits.length hproper hkind hc hempty]
    exact congrArg (Prod.mk _) Array.append_empty.symm
  · obtain ⟨values, hrun, hsize⟩ := h.product_run hseen hfits.length hfits hproper hkind hc hargs k
      rfl out
    refine ⟨{ c with
      values
      memory := .product (memory.modify j (·.push k))
        ((memory.modify j (·.push k)).countP (·.isEmpty)) }, ?_,
      ⟨h.relation, h.head, h.body⟩, hsize, hlater⟩
    rw [if_neg hempty, run_bind_of_run hrun]
    rfl

/-- A compiled rule produces what the active rule does, and remembers what it records. -/
theorem Represents.fire_run (h : c.Represents atoms r) (hfits : r.Fits program)
    (hproper : r.rule.IsProper) (hc : r.rule.body[j]? = some own) (hk : k < atoms.size)
    (hargs : (argsAt atoms k).length = own.args.length) (out : Array GroundAtom) :
    ∃ c', (c.fire j k atoms).run out =
        (c', out ++ (r.consequences j (argsAt atoms k)).toArray) ∧
      c'.Represents atoms (r.record j (argsAt atoms k)) := by
  have hmemory := h.memory
  cases hm : c.memory with
  | project =>
      rw [hm] at hmemory
      exact h.fire_project hfits hproper hc hargs out hm hmemory
  | join =>
      rw [hm] at hmemory
      exact h.fire_join hfits hproper hc hk hargs out hm hmemory
  | product =>
      rw [hm] at hmemory
      exact h.fire_product hfits hproper hc hk hargs out hm hmemory

theorem recalls_joinIndex (shared : List Nat) (condition : List Arg) :
    (Memory.joinIndex shared condition).Recalls atoms #[] where
  matching key := by simp [Memory.joinIndex, JoinIndex.matching]
  lt key k hk := by simp [Memory.joinIndex, JoinIndex.matching] at hk

theorem mem_sharedSlots {slots : List String} {p q : Pattern} (hp : ∀ v ∈ p.vars, v ∈ slots)
    (i : Nat) : i ∈ Memory.sharedSlots (p.compile slots) (q.compile slots) ↔
      ∃ v ∈ p.vars, v ∈ q.vars ∧ slots.idxOf v = i := by
  rw [Memory.sharedSlots, List.mem_mergeSort, List.mem_filter, decide_eq_true_iff,
    Pattern.mem_slots_compile, Pattern.mem_slots_compile]
  constructor
  · rintro ⟨⟨v, hv, rfl⟩, w, hw, he⟩
    obtain rfl := (List.idxOf_inj (hp v hv)).mp he.symm
    exact ⟨v, hv, hw, rfl⟩
  · rintro ⟨v, hv, hw, rfl⟩
    exact ⟨⟨v, hv, rfl⟩, v, hw, rfl⟩

/-- At first nothing is remembered. -/
theorem represents_start {rule : SplitRule} (hproper : rule.IsProper) :
    (Memory.start (rule.body.map (·.compile rule.slots)) rule.kind).Represents atoms
      (.start rule) := by
  have hfits := hproper.kind
  rw [SplitRule.FitsKind] at hfits
  cases hkind : rule.kind with
  | project => exact hkind
  | join =>
      rw [hkind] at hfits
      obtain ⟨p, q, hbody⟩ := List.length_eq_two.mp hfits
      have hp : ∀ v ∈ p.vars, v ∈ rule.slots := fun v hv =>
        SplitRule.mem_slots.mpr (.inr ⟨p, by simp [hbody], hv⟩)
      have hleft : (rule.body.map (·.compile rule.slots)).getD 0 [] = p.compile rule.slots := by
        rw [hbody]
        rfl
      have hright : (rule.body.map (·.compile rule.slots)).getD 1 [] = q.compile rule.slots := by
        rw [hbody]
        rfl
      rw [Memory.start, hleft, hright]
      exact ⟨hkind, p, q, #[], #[], _, hbody, by rw [ActiveRule.start, hbody]; rfl,
        mem_sharedSlots hp, rfl, rfl, recalls_joinIndex _ _, recalls_joinIndex _ _⟩
  | product =>
      have hseen : (rule.body.map (·.compile rule.slots)).map (fun _ => (#[] : Array Nat)) =
          List.replicate rule.body.length #[] := by
        rw [List.map_const', List.length_map]
      rw [Memory.start, hseen]
      refine ⟨hkind, ?_, fun ks hks k hk => ?_, ?_⟩
      · rw [ActiveRule.start, List.map_const', List.map_replicate, Array.map_empty]
      · rw [List.eq_of_mem_replicate hks] at hk
        exact absurd hk (Array.not_mem_empty k)
      · simp [List.countP_replicate]

theorem represents_compile {rule : SplitRule} (hproper : rule.IsProper) :
    (compile rule).Represents atoms (.start rule) where
  relation := rfl
  head := rfl
  body := rfl
  size := Array.size_replicate
  memory := represents_start hproper

theorem argsAt_mono {atoms' : Array GroundAtom} (h : atoms.toList <+: atoms'.toList)
    (hk : k < atoms.size) : argsAt atoms' k = argsAt atoms k := by
  obtain ⟨rest, hrest⟩ := h
  have hget : atoms'[k]? = atoms[k]? := by
    rw [← Array.getElem?_toList, ← hrest, List.getElem?_append_left (by simpa using hk),
      Array.getElem?_toList]
  rw [argsAt, argsAt, Array.getD_eq_getD_getElem?, hget, Array.getD_eq_getD_getElem?]

theorem map_argsAt_mono {atoms' : Array GroundAtom} (h : atoms.toList <+: atoms'.toList)
    {ks : List Nat} (hks : ∀ k ∈ ks, k < atoms.size) :
    ks.map (argsAt atoms') = ks.map (argsAt atoms) :=
  List.map_congr_left fun k hk => argsAt_mono h (hks k hk)

/-- More atoms do not change what is remembered. -/
theorem Represents.mono {atoms' : Array GroundAtom} (h : c.Represents atoms r)
    (hmore : atoms.toList <+: atoms'.toList) : c.Represents atoms' r := by
  have hsize : atoms.size ≤ atoms'.size := by simpa using hmore.length_le
  have hrecalls : ∀ {x : JoinIndex} {seen : Array (List ObjectId)}, x.Recalls atoms seen →
      x.Recalls atoms' seen := fun hx => {
    matching := fun key => (map_argsAt_mono hmore (hx.lt key)).trans (hx.matching key)
    lt := fun key k hk => (hx.lt key k hk).trans_le hsize }
  refine ⟨h.toIsCompiled, h.size, ?_⟩
  have hmemory := h.memory
  cases hm : c.memory with
  | project =>
      rw [hm] at hmemory
      exact hmemory
  | join left right =>
      rw [hm] at hmemory
      obtain ⟨hkind, p, q, s, t, shared, hjoin⟩ := hmemory
      exact ⟨hkind, p, q, s, t, shared, { hjoin with
        left := hrecalls hjoin.left
        right := hrecalls hjoin.right }⟩
  | product seen empty =>
      rw [hm] at hmemory
      obtain ⟨hkind, hseen, hbounded, hempty⟩ := hmemory
      refine ⟨hkind, hseen.trans (List.map_congr_left fun ks hks => ?_),
        fun ks hks k hk => (hbounded ks hks k hk).trans_le hsize, hempty⟩
      refine Array.map_congr_left fun k hk => ?_
      exact (argsAt_mono hmore (hbounded ks hks k hk)).symm

end CompiledRule

/-! ### The search -/

namespace Search

variable {p : Program} {arity : RelationId → Nat} {table : Array (Selector ConditionRef)}
  {a : GroundAtom} {atoms : Array GroundAtom} {k : Nat}

/-- The compiled forms of active rules. -/
def RulesMatch (atoms : Array GroundAtom) (rules : Array CompiledRule)
    (active : Array ActiveRule) : Prop :=
  ∀ i : Nat, Option.Rel (·.Represents atoms ·) rules[i]? active[i]?

theorem modifyM_run {σ α : Type} {xs : Array α} {i : Nat} {f : α → StateM σ α} {x x' : α}
    {s s' : σ} (hx : xs[i]? = some x) (h : (f x).run s = (x', s')) :
    (xs.modifyM i f).run s = (xs.setIfInBounds i x', s') := by
  obtain ⟨hi, rfl⟩ := Array.getElem?_eq_some_iff.mp hx
  rw [Array.modifyM, dif_pos hi]
  dsimp only
  rw [run_bind_of_run h, Array.setIfInBounds, dif_pos hi]
  rfl

/-- Letting an atom match a condition does the same to compiled rules as to active ones. -/
theorem modifyM_fire_run (ht : p.IsTyped arity) (hproper : ∀ r ∈ p.rules, r.IsProper)
    (hk : atoms[k]? = some a) (ha : p.Admits arity a) {e : ConditionRef} {q : Pattern}
    (he : p.HasCondition e q) (hq : q.relation = a.relation) {rules : Array CompiledRule}
    {active : Array ActiveRule} (hfit : ActiveSearch.RulesFit p active)
    (h : RulesMatch atoms rules active) (out : Array GroundAtom) :
    ∃ rules', (rules.modifyM e.rule (·.fire e.condition k atoms)).run out =
        (rules', out ++ (ActiveSearch.fire active a.args e).1.toArray) ∧
      RulesMatch atoms rules' (ActiveSearch.fire active a.args e).2 := by
  obtain ⟨r, hr, hrule, hc⟩ := hfit.exists_rule he
  have hargs : argsAt atoms k = a.args := by
    rw [argsAt, Array.getD_eq_getD_getElem?, hk]
    rfl
  obtain ⟨c, hcompiled, hrepresents⟩ : ∃ c, rules[e.rule]? = some c ∧ c.Represents atoms r := by
    have hrel := h e.rule
    rw [hr] at hrel
    cases hrules : rules[e.rule]? with
    | none =>
        rw [hrules] at hrel
        cases hrel
    | some c =>
        rw [hrules] at hrel
        cases hrel with
        | some hrel => exact ⟨c, rfl, hrel⟩
  obtain ⟨c', hrun, hc'⟩ := hrepresents.fire_run (hfit.fits _ r hr)
    (hproper _ (List.mem_of_getElem? hrule)) hc (Array.getElem?_eq_some_iff.mp hk).1
    (hargs ▸ (ht.fits he hq ha).length) out
  rw [hargs] at hrun hc'
  have hfire : (ActiveSearch.fire active a.args e).1 = r.consequences e.condition a.args := by
    rw [ActiveSearch.fire, ActiveSearch.getD_rules hr]
  refine ⟨rules.setIfInBounds e.rule c', hfire ▸ modifyM_run hcompiled hrun, fun i => ?_⟩
  rw [ActiveSearch.getElem?_fire, Array.getElem?_setIfInBounds]
  by_cases hi : e.rule = i
  · subst hi
    rw [if_pos rfl, if_pos (Array.getElem?_eq_some_iff.mp hcompiled).1, hr, Option.map_some,
      if_pos rfl]
    exact .some hc'
  · have hmap : active[i]?.map (fun r => if e.rule = i then r.record e.condition a.args else r) =
        active[i]? := by
      simp [hi]
    rw [if_neg hi, hmap]
    exact h i

theorem foldlM_fire_run (ht : p.IsTyped arity) (hguarded : ∀ r ∈ p.rules, r.IsProper)
    (hk : atoms[k]? = some a) (ha : p.Admits arity a) (es : List ConditionRef)
    (hes : ∀ e ∈ es, ∃ q, p.HasCondition e q ∧ q.relation = a.relation)
    {rules : Array CompiledRule} (found : List GroundAtom) {active : Array ActiveRule}
    (hfit : ActiveSearch.RulesFit p active) (h : RulesMatch atoms rules active) :
    ∃ rules', (es.foldlM (fun (rules : Array CompiledRule) e =>
          rules.modifyM e.rule (·.fire e.condition k atoms)) rules).run found.toArray =
        (rules', (es.foldl (fun (found, active) e =>
          let (more, active) := ActiveSearch.fire active a.args e
          (found ++ more, active)) (found, active)).1.toArray) ∧
      RulesMatch atoms rules' (es.foldl (fun (found, active) e =>
          let (more, active) := ActiveSearch.fire active a.args e
          (found ++ more, active)) (found, active)).2 := by
  induction es generalizing rules found active with
  | nil => exact ⟨rules, rfl, h⟩
  | cons e es ih =>
      rw [List.forall_mem_cons] at hes
      obtain ⟨⟨q, hq, hrelation⟩, hes⟩ := hes
      obtain ⟨rules₁, hrun, hmatch⟩ := modifyM_fire_run ht hguarded hk ha hq hrelation hfit h
        found.toArray
      obtain ⟨rules₂, hrest, hlast⟩ := ih hes (found ++ (ActiveSearch.fire active a.args e).1)
        (hfit.fire ht hq hrelation ha) hmatch
      refine ⟨rules₂, ?_, hlast⟩
      rw [List.foldlM_cons, run_bind_of_run hrun]
      simpa using hrest

/-- A search that found what one with active rules did. -/
structure Mirrors (s : Search) (t : ActiveSearch) : Prop where
  queue : s.toQueue = t.toQueue
  rules : RulesMatch s.atoms s.rules t.rules

variable {s : Search} {t : ActiveSearch}

theorem RulesMatch.mono {rules : Array CompiledRule} {active : Array ActiveRule}
    {atoms' : Array GroundAtom} (h : RulesMatch atoms rules active)
    (hmore : atoms.toList <+: atoms'.toList) : RulesMatch atoms' rules active := fun i => by
  have hrel := h i
  revert hrel
  generalize rules[i]? = c
  generalize active[i]? = r
  rintro (hrel | _)
  · exact .some (hrel.mono hmore)
  · exact .none

theorem Mirrors.process (ht : p.IsTyped arity) (hproper : ∀ r ∈ p.rules, r.IsProper)
    (h : s.Mirrors t) (hclosing : t.IsClosing p arity) (ha : t.atoms.toList[t.next]? = some a) :
    (Search.process (selectors p) { s with next := s.next + 1 } s.next).Mirrors
      (ActiveSearch.process (selectors p) { t with next := t.next + 1 } a) := by
  obtain ⟨queue, rules⟩ := s
  obtain ⟨queue', active⟩ := t
  obtain ⟨rfl : queue = queue', hrules : RulesMatch queue.atoms rules active⟩ := h
  have hk : queue.atoms[queue.next]? = some a := by rwa [← Array.getElem?_toList]
  have hget : queue.atoms.getD queue.next default = a := by
    rw [Array.getD_eq_getD_getElem?, hk]
    rfl
  have hadmits := hclosing.admits a (List.mem_of_getElem? ha)
  have hes : ∀ e ∈ ((selectors p).getD a.relation.index (.leaf [])).select a.args,
      ∃ q, p.HasCondition e q ∧ q.relation = a.relation := fun e he =>
    ((mem_select_selectors hadmits.relation).mp he).imp fun _ hq => ⟨hq.1, hq.2.1⟩
  obtain ⟨rules', hrun, hmatch⟩ := foldlM_fire_run ht hproper hk hadmits _ hes []
    hclosing.toRulesFit hrules
  rw [ActiveSearch.process]
  dsimp only
  revert hrun hmatch
  generalize List.foldl _ ([], active) _ = result
  intro hrun hmatch
  have hprocess : Search.process (selectors p) ⟨{ queue with next := queue.next + 1 }, rules⟩
      queue.next = ⟨result.1.foldl .push { queue with next := queue.next + 1 }, rules'⟩ := by
    rw [Search.process]
    dsimp only
    rw [hget]
    simp only [Id.run]
    rw [hrun]
    simp
  rw [hprocess]
  obtain ⟨-, hmore, -, -⟩ := Queue.isSet_foldl_push result.1
    (q := { queue with next := queue.next + 1 }) ⟨hclosing.known, hclosing.nodup⟩
  exact ⟨rfl, hmatch.mono hmore⟩

/-- Processes atoms without regard to a budget. -/
def exhaust (table : Array (Selector ConditionRef)) : Nat → Search → Search
  | 0, s => s
  | fuel + 1, s =>
    match s.pop? with
    | none => s
    | some (atom, queue) => exhaust table fuel (process table { s with toQueue := queue } atom)

theorem Mirrors.exhaust (ht : p.IsTyped arity) (hproper : ∀ r ∈ p.rules, r.IsProper) (fuel : Nat)
    (h : s.Mirrors t) (hclosing : t.IsClosing p arity) :
    (Search.exhaust (selectors p) fuel s).Mirrors (ActiveSearch.exhaust (selectors p) fuel t) := by
  induction fuel generalizing s t with
  | zero => exact h
  | succ fuel ih =>
      rw [Search.exhaust, ActiveSearch.exhaust, Queue.pop?]
      cases ha : t.atoms[t.next]? with
      | none =>
          rw [if_neg (by rw [h.queue]; simpa using ha)]
          exact h
      | some a =>
          have hget : t.atoms.toList[t.next]? = some a := by rwa [Array.getElem?_toList]
          rw [if_pos (by rw [h.queue]; exact (Array.getElem?_eq_some_iff.mp ha).1)]
          exact ih (h.process ht hproper hclosing hget) (ActiveSearch.isClosing_process ht
            (fun r hr => (hproper r hr).isGuarded) hclosing hget).1

end Search

/-- The search in which only the facts were found. -/
def Program.firstSearch (p : Program) : Search where
  toQueue := p.firstQueue
  rules := (p.rules.map CompiledRule.compile).toArray

theorem Program.mirrors_firstSearch {p : Program} (hproper : ∀ r ∈ p.rules, r.IsProper) :
    p.firstSearch.Mirrors (.start p) where
  queue := rfl
  rules i := by
    rw [firstSearch, ActiveSearch.start, List.getElem?_toArray, List.getElem?_toArray,
      List.getElem?_map, List.getElem?_map]
    cases hi : p.rules[i]? with
    | none => exact .none
    | some r => exact .some (CompiledRule.represents_compile (hproper r (List.mem_of_getElem? hi)))

/-- The same atoms are found as with active rules, in the same order. -/
theorem Program.toQueue_exhaust {p : Program} {arity : RelationId → Nat} (ht : p.IsTyped arity)
    (hproper : ∀ r ∈ p.rules, r.IsProper) (fuel : Nat) :
    (Search.exhaust (selectors p) fuel p.firstSearch).toQueue =
      (ActiveSearch.exhaust (selectors p) fuel (.start p)).toQueue :=
  ((mirrors_firstSearch hproper).exhaust ht hproper fuel (ActiveSearch.isClosing_start ht)).queue

end Datalog
end FinitePlanning
