import Mathlib.Data.List.GetD
import Mathlib.Data.List.Nodup
import Mathlib.Data.List.Perm.Subperm
import Mathlib.Data.List.Range
import FinitePlanning.Invariant.Basic
import FinitePlanning.Proofs.Collections

/-!
The parts of invariants. A part uses each position of its predicate once, for a
parameter or for the counted argument. The parts that relate the arguments of
another literal to the parameters in the way in which a part relates its own ones
are found by lining up positions of equal arguments, each of them once.
-/

namespace FinitePlanning

section Positions

variable {args : List String}

/-- The positions at which a name stands. -/
def positionsAt (args : List String) (a : String) : List Nat :=
  args.zipIdx.filterMap fun (b, i) => if b = a then some i else none

theorem mem_positionsAt {a : String} {i : Nat} : i ∈ positionsAt args a ↔ args[i]? = some a := by
  simp only [positionsAt, List.mem_filterMap, Prod.exists, List.mem_zipIdx_iff_getElem?]
  constructor
  · rintro ⟨b, j, hj, h⟩
    split at h
    next he => cases h; rwa [he] at hj
    next => cases h
  · exact fun h => ⟨a, i, h, by simp⟩

theorem nodup_positionsAt (a : String) : (positionsAt args a).Nodup := by
  refine List.Nodup.filterMap ?_ ?_
  · rintro ⟨b, i⟩ ⟨c, j⟩ k hb hc
    by_cases hba : b = a <;> by_cases hca : c = a <;> simp_all
  · exact List.Nodup.of_map (·.2) (by simp [List.zipIdx_map_snd, List.nodup_range'])

/-- Positions at which one of several different names stands. -/
theorem nodup_flatMap_positionsAt {names : List String} (h : names.Nodup) :
    (names.flatMap (positionsAt args)).Nodup := by
  refine List.nodup_flatMap.mpr ⟨fun a _ => nodup_positionsAt a, h.imp fun {a b} hne => ?_⟩
  intro i hi hj
  rw [mem_positionsAt] at hi hj
  exact hne (Option.some.inj (hi.symm.trans hj))

theorem positionsOf_eq (args : List String) :
    positionsOf args = args.eraseDups.map fun a => (a, positionsAt args a) := rfl

theorem flatMap_positionsAt_perm (args : List String) :
    (args.eraseDups.flatMap (positionsAt args)).Perm (List.range args.length) := by
  refine (List.perm_ext_iff_of_nodup (nodup_flatMap_positionsAt (nodup_eraseDups args))
    List.nodup_range).mpr fun i => ?_
  simp only [List.mem_flatMap, List.mem_eraseDups, mem_positionsAt, List.mem_range]
  constructor
  · rintro ⟨a, -, h⟩
    exact (List.getElem?_eq_some_iff.mp h).1
  · exact fun h => ⟨args[i], List.getElem_mem h, List.getElem?_eq_getElem h⟩

theorem lookup_positionsOf (args : List String) (a : String) :
    ((positionsOf args).lookup a).getD [] = positionsAt args a := by
  rw [positionsOf_eq]
  by_cases ha : a ∈ args
  · rw [lookup_map_self (List.mem_eraseDups.mpr ha)]
    rfl
  · rw [lookup_eq_none_iff_not_mem.mpr]
    · refine (List.eq_nil_iff_forall_not_mem.mpr fun i hi => ha ?_).symm
      exact List.mem_of_getElem? (mem_positionsAt.mp hi)
    · rwa [List.map_map, Function.comp_def, List.map_id', List.mem_eraseDups]

end Positions

section Arrangements

variable {α : Type}

/-- Different elements are put in front of lists without repetition. -/
theorem nodup_flatMap_cons {β : Type} {l : List β} {head : β → α} {tails : β → List (List α)}
    (hl : (l.map head).Nodup) (h : ∀ b ∈ l, (tails b).Nodup) :
    (l.flatMap fun b => (tails b).map (head b :: ·)).Nodup := by
  refine List.nodup_flatMap.mpr ⟨fun b hb => (h b hb).map fun _ _ he => (List.cons.inj he).2, ?_⟩
  refine (List.pairwise_map.mp hl).imp fun hne c hb hc => ?_
  obtain ⟨d, -, rfl⟩ := List.mem_map.mp hb
  obtain ⟨e, -, he⟩ := List.mem_map.mp hc
  exact hne (List.cons.inj he).1.symm

theorem nodup_choices {ls : List (List α)} (h : ∀ l ∈ ls, l.Nodup) : (choices ls).Nodup := by
  induction ls with
  | nil => exact List.nodup_singleton _
  | cons l ls ih =>
      rw [List.forall_mem_cons] at h
      exact nodup_flatMap_cons (by simpa using h.1) fun _ _ => ih h.2

theorem perm_of_mem_picks {l : List α} {p : α × List α} (h : p ∈ picks l) :
    (p.1 :: p.2).Perm l := by
  induction l generalizing p with
  | nil => cases h
  | cons a l ih =>
      rcases List.mem_cons.mp h with rfl | h
      · exact .refl _
      · obtain ⟨q, hq, rfl⟩ := List.mem_map.mp h
        exact (List.Perm.swap a q.1 q.2).trans ((ih hq).cons a)

theorem map_fst_picks (l : List α) : (picks l).map (·.1) = l := by
  induction l with
  | nil => rfl
  | cons a l ih =>
      rw [picks, List.map_cons, List.map_map]
      exact congrArg (a :: ·) ih

theorem mem_arrangements {n : Nat} {l c : List α} (hn : n = l.length) :
    c ∈ arrangements n l ↔ c.Perm l := by
  induction n generalizing l c with
  | zero =>
      rw [List.length_eq_zero_iff.mp hn.symm, List.perm_nil]
      exact List.mem_singleton
  | succ n ih =>
      have hlen : ∀ p ∈ picks l, n = p.2.length := fun p hp => by
        have := (perm_of_mem_picks hp).length_eq
        rw [List.length_cons] at this
        omega
      simp only [arrangements, List.mem_flatMap, List.mem_map]
      constructor
      · rintro ⟨p, hp, d, hd, rfl⟩
        exact (((ih (hlen p hp)).mp hd).cons p.1).trans (perm_of_mem_picks hp)
      · intro hc
        cases c with
        | nil =>
            rw [← hc.nil_eq] at hn
            cases hn
        | cons a d =>
            have ha : a ∈ (picks l).map (·.1) := by
              rw [map_fst_picks]
              exact hc.subset List.mem_cons_self
            obtain ⟨p, hp, rfl⟩ := List.mem_map.mp ha
            have hd := (hc.trans (perm_of_mem_picks hp).symm).cons_inv
            exact ⟨p, hp, d, (ih (hlen p hp)).mpr hd, rfl⟩

theorem mem_permutations {l c : List α} : c ∈ permutations l ↔ c.Perm l :=
  mem_arrangements rfl

theorem nodup_permutations {l : List α} (h : l.Nodup) : (permutations l).Nodup := by
  have harr : ∀ (n : Nat) (l : List α), l.Nodup → (arrangements n l).Nodup := by
    intro n
    induction n with
    | zero => exact fun l _ => List.nodup_singleton _
    | succ n ih =>
        intro l hl
        refine nodup_flatMap_cons ?_ fun p hp => ih p.2 ?_
        · rwa [map_fst_picks]
        · exact ((perm_of_mem_picks hp).nodup_iff.mpr hl).of_cons
  exact harr l.length l h

theorem find?_eq_some_of_unique {l : List α} {p : α → Bool} {a : α} (ha : a ∈ l)
    (hp : p a = true) (hunique : ∀ b ∈ l, p b = true → b = a) : l.find? p = some a := by
  obtain ⟨b, hb⟩ := Option.isSome_iff_exists.mp (List.find?_isSome.mpr ⟨a, ha, hp⟩)
  rw [hb, hunique b (List.mem_of_find?_eq_some hb) (List.find?_some hb)]

end Arrangements

namespace InvariantPart

/-- The parameters and the counted argument of a part are its `n` arguments, each once. -/
def UsesPositions (p : InvariantPart) (n : Nat) : Prop :=
  (p.order ++ p.omitted.toList).Perm (List.range n)

instance (p : InvariantPart) (n : Nat) : Decidable (p.UsesPositions n) :=
  inferInstanceAs (Decidable (List.Perm _ _))

/-- The parameter for which the argument at a position stands, unless it is counted. -/
def role (p : InvariantPart) (j : Nat) : Option Nat := p.order.idxOf? j

/-- Positions, each with its role. -/
def lineUp (p : InvariantPart) (positions : List Nat) : List (Nat × Option Nat) :=
  positions.map fun j => (j, p.role j)

namespace UsesPositions

variable {p : InvariantPart} {n : Nat} (h : p.UsesPositions n)
include h

theorem nodup_order : p.order.Nodup :=
  (h.nodup_iff.mpr List.nodup_range).sublist (List.sublist_append_left _ _)

theorem lt {i : Nat} (hi : i ∈ p.order) : i < n :=
  List.mem_range.mp (h.mem_iff.mp (List.mem_append_left _ hi))

theorem length_eq : p.order.length + (if p.omitted.isSome then 1 else 0) = n := by
  have hlen := List.Perm.length_eq h
  rw [List.length_append, List.length_range] at hlen
  cases ho : p.omitted <;> simpa [ho] using hlen

theorem role_eq_some_iff {i j : Nat} : p.role j = some i ↔ p.order[i]? = some j := by
  rw [role, List.idxOf?_eq_some_iff, List.getElem?_eq_some_iff]
  constructor
  · rintro ⟨hi, he, -⟩
    exact ⟨hi, he⟩
  · rintro ⟨hi, he⟩
    refine ⟨hi, he, fun k hk hkj => Nat.ne_of_lt hk ?_⟩
    exact h.nodup_order.getElem_inj_iff.mp (hkj.trans he.symm)

theorem role_eq_none_iff {j : Nat} (hj : j < n) : p.role j = none ↔ p.omitted = some j := by
  have hmem := (h.mem_iff (a := j)).mpr (List.mem_range.mpr hj)
  have hnodup := List.nodup_append.mp (h.nodup_iff.mpr List.nodup_range)
  rw [role, List.idxOf?_eq_none_iff]
  constructor
  · exact fun ho => by simpa [ho] using hmem
  · exact fun ho hmem => hnodup.2.2 j hmem j (by simp [ho]) rfl

/-- A part is given by the roles of its positions. -/
theorem ofPositions_lineUp {positions : List Nat} (hperm : positions.Perm (List.range n)) :
    ofPositions p.predicate p.arity (p.lineUp positions) = p := by
  have hmem : ∀ {j}, j ∈ positions ↔ j < n := fun {j} => hperm.mem_iff.trans List.mem_range
  have horder : ∀ i (hi : i < p.order.length),
      (p.lineUp positions).find? (·.2 == some i) = some (p.order[i], some i) := by
    intro i hi
    have hrole : p.role p.order[i] = some i :=
      h.role_eq_some_iff.mpr (List.getElem?_eq_getElem hi)
    refine find?_eq_some_of_unique (List.mem_map.mpr ⟨p.order[i], ?_, by rw [hrole]⟩) (by simp) ?_
    · exact hmem.mpr (h.lt (List.getElem_mem hi))
    · intro q hq hqi
      obtain ⟨j, -, rfl⟩ := List.mem_map.mp hq
      have hqi : p.role j = some i := beq_iff_eq.mp hqi
      have hj := h.role_eq_some_iff.mp hqi
      rw [List.getElem?_eq_getElem hi] at hj
      rw [Option.some.inj hj, hqi]
  have homitted : (p.lineUp positions).find? (·.2.isNone) = p.omitted.map (·, none) := by
    cases ho : p.omitted with
    | none =>
        rw [Option.map_none, List.find?_eq_none]
        intro q hq hnone
        obtain ⟨j, hj, rfl⟩ := List.mem_map.mp hq
        have := (h.role_eq_none_iff (hmem.mp hj)).mp (Option.isNone_iff_eq_none.mp hnone)
        rw [ho] at this
        cases this
    | some k =>
        have hk : k < n := List.mem_range.mp (h.mem_iff.mp (by simp [ho]))
        have hrole := (h.role_eq_none_iff hk).mpr ho
        refine find?_eq_some_of_unique (List.mem_map.mpr ⟨k, hmem.mpr hk, by rw [hrole]⟩) rfl ?_
        intro q hq hnone
        obtain ⟨j, hj, rfl⟩ := List.mem_map.mp hq
        have hnone : p.role j = none := Option.isNone_iff_eq_none.mp hnone
        have := (h.role_eq_none_iff (hmem.mp hj)).mp hnone
        rw [ho] at this
        cases this
        rw [hnone]
  obtain ⟨predicate, order, omitted⟩ := p
  simp only [ofPositions, InvariantPart.mk.injEq, true_and]
  refine ⟨List.ext_getElem (by simp [arity]) fun i hi hi' => ?_, ?_⟩
  · rw [List.getElem_map, List.getElem_range, horder i hi']
    rfl
  · rw [homitted]
    cases omitted <;> rfl

end UsesPositions

/-- A parameter is the argument at the position of its order. -/
theorem UsesPositions.getElem?_parameters {p : InvariantPart} {args : List String}
    (h : p.UsesPositions args.length) {i : Nat} :
    (p.parameters args)[i]? = p.order[i]?.bind fun j => args[j]? := by
  rw [parameters, List.getElem?_map]
  cases hj : p.order[i]? with
  | none => rfl
  | some j =>
      have hlt := h.lt (List.mem_of_getElem? hj)
      simp [hlt]

/-- The parameters of an atom are among its arguments. -/
theorem UsesPositions.mem_of_mem_parameters {p : InvariantPart} {args : List String}
    (h : p.UsesPositions args.length) {x : String} (hx : x ∈ p.parameters args) : x ∈ args := by
  obtain ⟨i, hi, rfl⟩ := List.mem_map.mp hx
  rw [List.getD_eq_getElem _ _ (h.lt hi)]
  exact List.getElem_mem (h.lt hi)

/-- A table whose values are different, read in the order of the values. -/
theorem lookups_perm {α β : Type} [BEq β] [LawfulBEq β] {mapping : List (α × β)} {values : List β}
    (default : α) (hperm : (mapping.map (·.2)).Perm values) (hnodup : values.Nodup) :
    (values.map fun b => ((mapping.find? (·.2 == b)).map (·.1)).getD default).Perm
      (mapping.map (·.1)) := by
  refine (hperm.map _).symm.trans (.of_eq ?_)
  rw [List.map_map]
  refine List.map_congr_left fun p hp => ?_
  have hfind : mapping.find? (·.2 == p.2) = some p :=
    find?_eq_some_of_unique hp (by simp) fun q hq hqp =>
      List.inj_on_of_nodup_map (hperm.nodup_iff.mpr hnodup) hq hp (beq_iff_eq.mp hqp)
  rw [Function.comp_apply, hfind]
  rfl

/-- Each of `n` positions is paired with a parameter, or at most one of them with
none, and each parameter is paired once. -/
structure Numbers (mapping : List (Nat × Option Nat)) (arity n : Nat) : Prop where
  positions : (mapping.map (·.1)).Perm (List.range n)
  parameters : ∃ k ≤ 1, (mapping.map (·.2)).Perm
    ((List.range arity).map some ++ List.replicate k none)

namespace Numbers

variable {mapping : List (Nat × Option Nat)} {arity n : Nat} (h : Numbers mapping arity n)
  (predicate : Predicate)
include h

theorem nodup_parameters : (mapping.map (·.2)).Nodup := by
  obtain ⟨k, hk, hperm⟩ := h.parameters
  rw [hperm.nodup_iff, List.nodup_append]
  refine ⟨List.nodup_range.map fun _ _ => Option.some.inj, List.nodup_replicate.mpr hk, ?_⟩
  rintro a ha b hb rfl
  obtain ⟨i, -, rfl⟩ := List.mem_map.mp ha
  exact absurd (List.eq_of_mem_replicate hb) (by simp)

theorem find?_eq {p : Nat × Option Nat} (hp : p ∈ mapping) (test : Nat × Option Nat → Bool)
    (htest : ∀ q, test q = true ↔ q.2 = p.2) : mapping.find? test = some p := by
  refine find?_eq_some_of_unique hp ((htest p).mpr rfl) fun q hq hqp => ?_
  exact List.inj_on_of_nodup_map h.nodup_parameters hq hp ((htest q).mp hqp)

theorem exists_position {i : Nat} (hi : i < arity) : ∃ j, (j, some i) ∈ mapping := by
  obtain ⟨k, -, hperm⟩ := h.parameters
  have hmem : some i ∈ mapping.map (·.2) := by
    rw [hperm.mem_iff]
    exact List.mem_append_left _ (List.mem_map_of_mem (List.mem_range.mpr hi))
  obtain ⟨⟨j, r⟩, hp, rfl⟩ := List.mem_map.mp hmem
  exact ⟨j, hp⟩

theorem getElem?_order {i j : Nat} (hp : (j, some i) ∈ mapping) :
    (ofPositions predicate arity mapping).order[i]? = some j := by
  obtain ⟨k, -, hperm⟩ := h.parameters
  have hi : i < arity := by
    have hmem := hperm.mem_iff.mp (List.mem_map_of_mem (f := (·.2)) hp)
    simpa using hmem
  have hfind := h.find?_eq hp (·.2 == some i) fun q => beq_iff_eq
  simp [ofPositions, hi, hfind]

theorem omitted_eq {j : Nat} (hp : (j, none) ∈ mapping) :
    (ofPositions predicate arity mapping).omitted = some j := by
  have hfind := h.find?_eq hp (·.2.isNone) fun q => Option.isNone_iff_eq_none
  simp [ofPositions, hfind]

theorem usesPositions : (ofPositions predicate arity mapping).UsesPositions n := by
  obtain ⟨k, hk, hperm⟩ := h.parameters
  refine (List.Perm.of_eq ?_).trans
    ((lookups_perm 0 hperm (hperm.nodup_iff.mp h.nodup_parameters)).trans h.positions)
  rw [List.map_append, List.map_map]
  refine congrArg₂ (· ++ ·) rfl ?_
  have hnone : (none : Option Nat) ∈ mapping.map (·.2) ↔ k = 1 := by
    rw [hperm.mem_iff]
    simp
    omega
  obtain rfl | rfl : k = 0 ∨ k = 1 := by omega
  · have hfind : mapping.find? (·.2.isNone) = none := by
      rw [List.find?_eq_none]
      intro p hp hisNone
      refine absurd (hnone.mp (List.mem_map.mpr ⟨p, hp, ?_⟩)) (by simp)
      simpa using hisNone
    simp [ofPositions, hfind]
  · obtain ⟨⟨j, r⟩, hp, rfl⟩ := List.mem_map.mp (hnone.mpr rfl)
    have hfind := h.find?_eq hp (·.2.isNone) fun q => Option.isNone_iff_eq_none
    simp [h.omitted_eq predicate hp, hfind]

/-- The roles of the positions are those that they are paired with. -/
theorem role_eq {p : Nat × Option Nat} (hp : p ∈ mapping) :
    (ofPositions predicate arity mapping).role p.1 = p.2 := by
  have huses := h.usesPositions predicate
  obtain ⟨j, r⟩ := p
  cases r with
  | some i => exact huses.role_eq_some_iff.mpr (h.getElem?_order predicate hp)
  | none =>
      have hj : j < n := List.mem_range.mp (h.positions.mem_iff.mp (List.mem_map_of_mem hp))
      exact (huses.role_eq_none_iff hj).mpr (h.omitted_eq predicate hp)

end Numbers

section Related

/-- Positions, each paired with one of the roles that are related to them. -/
def LinesUp (pairs : List (Nat × Option Nat)) (r : List Nat × List (Option Nat)) : Prop :=
  pairs.map (·.1) = r.1 ∧ (pairs.map (·.2)).Perm r.2

theorem mem_linedUp {r : List Nat × List (Option Nat)} (hlen : r.1.length = r.2.length)
    {pairs : List (Nat × Option Nat)} :
    pairs ∈ (permutations r.2).map r.1.zip ↔ LinesUp pairs r := by
  rw [List.mem_map]
  constructor
  · rintro ⟨c, hc, rfl⟩
    have hperm := mem_permutations.mp hc
    have hl : r.1.length = c.length := hlen.trans hperm.length_eq.symm
    exact ⟨List.map_fst_zip hl.le, by rwa [List.map_snd_zip hl.ge]⟩
  · rintro ⟨hfst, hsnd⟩
    refine ⟨pairs.map (·.2), mem_permutations.mpr hsnd, ?_⟩
    rw [← hfst, List.zip_map']
    exact List.map_id' pairs

theorem nodup_linedUp {r : List Nat × List (Option Nat)} (hlen : r.1.length = r.2.length)
    (hnodup : r.2.Nodup) : ((permutations r.2).map r.1.zip).Nodup := by
  refine List.Nodup.map_on (fun c hc d hd heq => ?_) (nodup_permutations hnodup)
  have hsnd : ∀ c ∈ permutations r.2, (r.1.zip c).map (·.2) = c := fun c hc =>
    List.map_snd_zip ((mem_permutations.mp hc).length_eq.trans hlen.symm).le
  rw [← hsnd c hc, ← hsnd d hd, heq]

variable {own : List (String × List Nat)} {omissible : Bool} {other : List (String × List Nat)}
  {related : List (List Nat × List (Option Nat))} {mapping : List (List (Nat × Option Nat))}

/-- The positions that are related to each other are those of one argument in the
other literal and among the parameters, with at most as many omissions as are
allowed. -/
theorem related_of_matchArguments (h : matchArguments own omissible other = some related) :
    List.Forall₂ (fun p r => r.1 = p.2 ∧ r.1.length = r.2.length ∧
      ∀ i, some i ∈ r.2 → i ∈ (own.lookup p.1).getD []) other related ∧
    ∃ k ≤ omissible.toNat, (related.flatMap (·.2)).Perm
      (((other.map (·.1)).flatMap fun a => (own.lookup a).getD []).map some ++
        List.replicate k none) := by
  induction other generalizing omissible related with
  | nil =>
      cases h
      exact ⟨.nil, 0, Nat.zero_le _, .refl _⟩
  | cons p other ih =>
      obtain ⟨arg, positions⟩ := p
      simp only [matchArguments, Option.bind_eq_bind, Option.bind_eq_some_iff] at h
      obtain ⟨⟨r, omissible'⟩, hr, rest, hrest, h⟩ := h
      cases h
      obtain ⟨hall, k, hk, hperm⟩ := ih hrest
      simp only [matchArgument] at hr
      split at hr
      next heq =>
        cases hr
        refine ⟨.cons ⟨rfl, heq, by simp⟩ hall, k, hk, ?_⟩
        simp only [List.map_cons, List.flatMap_cons, List.map_append, List.append_assoc]
        exact hperm.append_left _
      next =>
        split at hr
        next hone =>
          obtain ⟨heq, homissible⟩ := hone
          cases hr
          obtain rfl : k = 0 := Nat.le_zero.mp hk
          refine ⟨.cons ⟨rfl, by simp [heq], by simp⟩ hall, 1, by simp [homissible], ?_⟩
          simp only [List.map_cons, List.flatMap_cons, List.map_append, List.append_assoc,
            List.replicate_zero, List.append_nil, List.singleton_append] at hperm ⊢
          exact ((hperm.cons none).trans
            (List.perm_append_singleton none _).symm).append_left _
        next => cases hr

theorem length_eq_of_matchArguments (h : matchArguments own omissible other = some related) :
    ∀ r ∈ related, r.1.length = r.2.length := by
  intro r hr
  obtain ⟨hall, -⟩ := related_of_matchArguments h
  obtain ⟨p, -, -, hlen, -⟩ := exists_of_mem_forall₂_right hall hr
  exact hlen

/-- The mappings are all ways to line up the positions that are related. -/
theorem mem_mappings (h : matchArguments own omissible other = some related) :
    mapping ∈ choices (related.map fun (positions, image) =>
        (permutations image).map positions.zip) ↔ List.Forall₂ LinesUp mapping related := by
  have hlen := length_eq_of_matchArguments h
  rw [mem_choices, List.forall₂_map_right_iff]
  clear h
  induction related generalizing mapping with
  | nil => simp
  | cons r related ih =>
      rw [List.forall_mem_cons] at hlen
      cases mapping with
      | nil => simp
      | cons pairs mapping =>
          rw [List.forall₂_cons, List.forall₂_cons]
          exact and_congr (mem_linedUp hlen.1) (ih hlen.2)

/-- Related positions, lined up in some way, are the same positions. -/
theorem perm_of_linesUp (h : List.Forall₂ LinesUp mapping related) :
    mapping.flatten.map (·.1) = (related.map (·.1)).flatten ∧
      (mapping.flatten.map (·.2)).Perm (related.flatMap (·.2)) := by
  induction h with
  | nil => exact ⟨rfl, .refl _⟩
  | @cons pairs r mapping related hpairs _ ih =>
      simp only [List.flatten_cons, List.map_append, List.map_cons, List.flatMap_cons, hpairs.1,
        ih.1, true_and]
      exact hpairs.2.append ih.2

end Related

section Matches

variable {p q : InvariantPart} {own other : Literal}

/-- The parts that relate the arguments of `other` to the parameters in the way in
which `p` relates those of `own` to them. -/
structure Corresponds (p : InvariantPart) (own other : Literal) (q : InvariantPart) : Prop where
  predicate : q.predicate = other.atom.predicate
  arity : q.arity = p.arity
  positions : q.UsesPositions other.atom.args.length
  parameters : q.parameters other.atom.args = p.parameters own.atom.args

theorem mem_possibleMatches_iff_exists :
    q ∈ p.possibleMatches own other ↔
      (other.atom.args.length = p.arity ∨ other.atom.args.length = p.arity + 1) ∧
      ∃ related, matchArguments (positionsOf (p.parameters own.atom.args))
          (other.atom.args.length != p.arity) (positionsOf other.atom.args) = some related ∧
        ∃ mapping, List.Forall₂ LinesUp mapping related ∧
          ofPositions other.atom.predicate p.arity mapping.flatten = q := by
  rw [possibleMatches]
  by_cases hlength : other.atom.args.length = p.arity ∨ other.atom.args.length = p.arity + 1
  · rw [if_pos hlength]
    dsimp only
    split
    next hrelated => simp [hrelated]
    next related hrelated =>
      rw [List.mem_map]
      simp only [hlength, hrelated, mem_mappings hrelated, Option.some.injEq, exists_eq_left',
        true_and]
  · rw [if_neg hlength]
    simp [hlength]

/-- The positions that the arguments of another literal have among the parameters are
different and less than their number. -/
theorem positions_subperm (p : InvariantPart) (own : Literal) (names : List String)
    (hnames : names.Nodup) :
    (names.flatMap (positionsAt (p.parameters own.atom.args))).Subperm (List.range p.arity) := by
  refine (nodup_flatMap_positionsAt hnames).subperm fun i hi => ?_
  obtain ⟨a, -, hi⟩ := List.mem_flatMap.mp hi
  have hlt := (List.getElem?_eq_some_iff.mp (mem_positionsAt.mp hi)).1
  simpa [parameters, arity] using hlt

section Mapping

variable {related : List (List Nat × List (Option Nat))} {mapping : List (List (Nat × Option Nat))}
  (hlength : other.atom.args.length = p.arity ∨ other.atom.args.length = p.arity + 1)
  (hrelated : matchArguments (positionsOf (p.parameters own.atom.args))
    (other.atom.args.length != p.arity) (positionsOf other.atom.args) = some related)
  (hmapping : List.Forall₂ LinesUp mapping related)
include hrelated hmapping

include hlength in
/-- A mapping relates all positions of the other literal to the parameters. -/
theorem numbers_of_linesUp : Numbers mapping.flatten p.arity other.atom.args.length := by
  obtain ⟨hall, k, hk, hperm⟩ := related_of_matchArguments hrelated
  obtain ⟨hfst, hsnd⟩ := perm_of_linesUp hmapping
  have hmap : List.Forall₂ (· = ·) (related.map (·.1))
      ((positionsOf other.atom.args).map (·.2)) := by
    rw [List.forall₂_map_left_iff, List.forall₂_map_right_iff]
    exact (hall.imp fun _ _ h => h.1).flip
  rw [List.forall₂_eq_eq_eq] at hmap
  have hpositions : (mapping.flatten.map (·.1)).Perm (List.range other.atom.args.length) := by
    rw [hfst, hmap, ← List.flatMap_def, positionsOf_eq, List.flatMap_map]
    exact flatMap_positionsAt_perm _
  have hnames : (positionsOf other.atom.args).map (·.1) = other.atom.args.eraseDups := by
    rw [positionsOf, List.map_map, Function.comp_def, List.map_id']
  rw [hnames, funext (lookup_positionsOf (p.parameters own.atom.args))] at hperm
  have hsub := p.positions_subperm own _ (nodup_eraseDups other.atom.args)
  have hcount := hpositions.length_eq.symm.trans
    ((List.length_map _).trans ((List.length_map _).symm.trans (hsnd.trans hperm).length_eq))
  simp only [List.length_range, List.length_append, List.length_map,
    List.length_replicate] at hcount
  have hle := hsub.length_le
  rw [List.length_range] at hle
  have hk1 : k ≤ 1 := hk.trans (Bool.toNat_le _)
  -- as many positions are related as there are parameters
  have hfull := hsub.perm_of_length_le (by
    rw [List.length_range]
    rcases hlength with heq | heq
    · rw [heq, bne_self_eq_false] at hk
      have hk0 : k = 0 := Nat.le_zero.mp hk
      omega
    · omega)
  exact ⟨hpositions, k, hk1, (hsnd.trans hperm).trans (List.Perm.append_right _ (hfull.map some))⟩

theorem exists_argument {i j : Nat} (hp : (j, some i) ∈ mapping.flatten) :
    ∃ a, other.atom.args[j]? = some a ∧ (p.parameters own.atom.args)[i]? = some a := by
  obtain ⟨hall, -⟩ := related_of_matchArguments hrelated
  obtain ⟨pairs, hpairs, hp⟩ := List.mem_flatten.mp hp
  obtain ⟨r, hr, hfst, hsnd⟩ := exists_of_mem_forall₂ hmapping hpairs
  obtain ⟨⟨a, positions⟩, ha, hpositions, -, himage⟩ := exists_of_mem_forall₂_right hall hr
  rw [positionsOf_eq] at ha
  obtain ⟨b, -, he⟩ := List.mem_map.mp ha
  cases he
  have hpositions : r.1 = positionsAt other.atom.args a := hpositions
  have hj : j ∈ positionsAt other.atom.args a := by
    rw [← hpositions, ← hfst]
    exact List.mem_map_of_mem (f := (·.1)) hp
  have hi := himage i (hsnd.mem_iff.mp (List.mem_map_of_mem (f := (·.2)) hp))
  rw [lookup_positionsOf] at hi
  exact ⟨a, mem_positionsAt.mp hj, mem_positionsAt.mp hi⟩

include hlength in
theorem parameters_of_linesUp :
    (ofPositions other.atom.predicate p.arity mapping.flatten).parameters other.atom.args =
      p.parameters own.atom.args := by
  have hnumbers := numbers_of_linesUp hlength hrelated hmapping
  refine List.ext_getElem? fun i => ?_
  by_cases hi : i < p.arity
  · obtain ⟨j, hj⟩ := hnumbers.exists_position hi
    obtain ⟨a, hja, hia⟩ := exists_argument hrelated hmapping hj
    rw [hia, parameters, List.getElem?_map, hnumbers.getElem?_order _ hj, Option.map_some,
      List.getD_eq_getElem?_getD, hja, Option.getD_some]
  · rw [List.getElem?_eq_none, List.getElem?_eq_none]
    · simpa [parameters, arity] using hi
    · simpa [parameters, ofPositions] using hi

include hlength in
/-- The part that a mapping gives determines the mapping. -/
theorem mapping_eq :
    mapping = related.map fun r =>
      (ofPositions other.atom.predicate p.arity mapping.flatten).lineUp r.1 := by
  have hnumbers := numbers_of_linesUp hlength hrelated hmapping
  have hrole := fun x (hx : x ∈ mapping.flatten) => hnumbers.role_eq other.atom.predicate hx
  generalize ofPositions other.atom.predicate p.arity mapping.flatten = q at hrole
  clear hnumbers hrelated
  induction hmapping with
  | nil => rfl
  | @cons pairs r mapping related hpairs _ ih =>
      simp only [List.flatten_cons, List.forall_mem_append] at hrole
      rw [List.map_cons, ← ih hrole.2, ← hpairs.1, lineUp, List.map_map]
      refine congrArg (· :: mapping) ((List.map_id' pairs).symm.trans ?_)
      exact List.map_congr_left fun x hx => by rw [Function.comp_apply, hrole.1 x hx]

end Mapping

theorem corresponds_of_mem (h : q ∈ p.possibleMatches own other) : p.Corresponds own other q := by
  obtain ⟨hlength, related, hrelated, mapping, hmapping, rfl⟩ :=
    mem_possibleMatches_iff_exists.mp h
  exact ⟨rfl, by simp [ofPositions, arity],
    (numbers_of_linesUp hlength hrelated hmapping).usesPositions _,
    parameters_of_linesUp hlength hrelated hmapping⟩

/-- The roles that are related to positions are different, as they are in some mapping. -/
theorem nodup_of_matchArguments {related : List (List Nat × List (Option Nat))}
    (hlength : other.atom.args.length = p.arity ∨ other.atom.args.length = p.arity + 1)
    (hrelated : matchArguments (positionsOf (p.parameters own.atom.args))
      (other.atom.args.length != p.arity) (positionsOf other.atom.args) = some related) :
    ∀ r ∈ related, r.2.Nodup := by
  have hlen := length_eq_of_matchArguments hrelated
  have hzip : List.Forall₂ LinesUp (related.map fun r => r.1.zip r.2) related := by
    rw [List.forall₂_map_left_iff, List.forall₂_same]
    exact fun r hr => ⟨List.map_fst_zip (hlen r hr).le, .of_eq (List.map_snd_zip (hlen r hr).ge)⟩
  have hnodup := (numbers_of_linesUp hlength hrelated hzip).nodup_parameters
  rw [(perm_of_linesUp hzip).2.nodup_iff] at hnodup
  exact fun r hr => (List.nodup_flatMap.mp hnodup).1 r hr

theorem nodup_possibleMatches (p : InvariantPart) (own other : Literal) :
    (p.possibleMatches own other).Nodup := by
  rw [possibleMatches]
  split
  next hlength =>
    dsimp only
    split
    next => exact List.nodup_nil
    next related hrelated =>
      have hroles := nodup_of_matchArguments hlength hrelated
      refine List.Nodup.map_on (fun mapping hm mapping' hm' heq => ?_) (nodup_choices ?_)
      · rw [mapping_eq hlength hrelated ((mem_mappings hrelated).mp hm), heq,
          ← mapping_eq hlength hrelated ((mem_mappings hrelated).mp hm')]
      · rintro l hl
        obtain ⟨r, hr, rfl⟩ := List.mem_map.mp hl
        exact nodup_linedUp (length_eq_of_matchArguments hrelated r hr) (hroles r hr)
  next => exact List.nodup_nil

/-- The argument that a part counts. -/
def counted? (q : InvariantPart) (args : List String) : Option String :=
  q.omitted.bind fun j => args[j]?

/-- The roles of the positions of an argument are the parameters for which it stands,
and that of the counted argument. -/
theorem Corresponds.roles_perm (h : p.Corresponds own other q) (a : String) :
    ((positionsAt other.atom.args a).map q.role).Perm
      ((positionsAt (p.parameters own.atom.args) a).map some ++
        if q.counted? other.atom.args = some a then [none] else []) := by
  have hlt : ∀ {j}, j ∈ positionsAt other.atom.args a → j < other.atom.args.length := fun hj =>
    (List.getElem?_eq_some_iff.mp (mem_positionsAt.mp hj)).1
  rw [← h.parameters]
  refine (List.perm_ext_iff_of_nodup ?_ ?_).mpr fun r => ?_
  · refine (nodup_positionsAt a).map_on fun j hj k hk heq => ?_
    cases hr : q.role j with
    | some i =>
        have hj := h.positions.role_eq_some_iff.mp hr
        have hk := h.positions.role_eq_some_iff.mp (heq ▸ hr)
        exact Option.some.inj (hj.symm.trans hk)
    | none =>
        have hj := (h.positions.role_eq_none_iff (hlt hj)).mp hr
        have hk := (h.positions.role_eq_none_iff (hlt hk)).mp (heq ▸ hr)
        exact Option.some.inj (hj.symm.trans hk)
  · rw [List.nodup_append]
    refine ⟨(nodup_positionsAt a).map fun _ _ => Option.some.inj, ?_, ?_⟩
    · split <;> simp
    · rintro r hr r' hr' rfl
      obtain ⟨i, -, rfl⟩ := List.mem_map.mp hr
      split at hr' <;> simp at hr'
  · cases r with
    | some i =>
        have hright : some i ∈ (positionsAt (q.parameters other.atom.args) a).map some ++
            (if q.counted? other.atom.args = some a then [none] else []) ↔
              (q.parameters other.atom.args)[i]? = some a := by
          rw [← mem_positionsAt]
          split <;> simp
        rw [hright, h.positions.getElem?_parameters, Option.bind_eq_some_iff, List.mem_map]
        simp only [mem_positionsAt, h.positions.role_eq_some_iff, and_comm]
    | none =>
        have hright : none ∈ (positionsAt (q.parameters other.atom.args) a).map some ++
            (if q.counted? other.atom.args = some a then [none] else []) ↔
              q.counted? other.atom.args = some a := by
          split <;> simp [*]
        rw [hright, counted?, Option.bind_eq_some_iff, List.mem_map]
        refine exists_congr fun j => ?_
        rw [and_comm, ← mem_positionsAt]
        exact and_congr_left fun hj => h.positions.role_eq_none_iff (hlt hj)

/-- Positions whose roles correspond are related and lined up. -/
theorem exists_related (own : List (String × List Nat)) {args names : List String}
    {counted : Option String} (hnames : names.Nodup)
    (hroles : ∀ a ∈ names, ((positionsAt args a).map q.role).Perm
      (((own.lookup a).getD []).map some ++ if counted = some a then [none] else []))
    {omissible : Bool} (homissible : ∀ a ∈ names, counted = some a → omissible = true) :
    ∃ related, matchArguments own omissible (names.map fun a => (a, positionsAt args a)) =
        some related ∧
      List.Forall₂ LinesUp (names.map fun a => q.lineUp (positionsAt args a)) related := by
  induction names generalizing omissible with
  | nil => exact ⟨[], rfl, .nil⟩
  | cons a names ih =>
      rw [List.nodup_cons] at hnames
      rw [List.forall_mem_cons] at hroles homissible
      have hlines : LinesUp (q.lineUp (positionsAt args a)) (positionsAt args a,
          ((own.lookup a).getD []).map some ++ if counted = some a then [none] else []) := by
        refine ⟨by simp [lineUp, Function.comp_def], ?_⟩
        simpa [lineUp, Function.comp_def] using hroles.1
      have hlen := hroles.1.length_eq
      by_cases hc : counted = some a
      · have hrest : ∀ b ∈ names, counted = some b → false = true := by
          intro b hb hcb
          obtain rfl := Option.some.inj (hc.symm.trans hcb)
          exact absurd hb hnames.1
        obtain ⟨related, hrelated, hlined⟩ := ih hnames.2 hroles.2 hrest
        rw [if_pos hc] at hlines hlen
        refine ⟨_, ?_, .cons hlines hlined⟩
        simp only [List.length_map, List.length_append, List.length_singleton] at hlen
        simp [matchArguments, matchArgument, hlen, homissible.1 hc, hrelated]
      · obtain ⟨related, hrelated, hlined⟩ := ih hnames.2 hroles.2 homissible.2
        rw [if_neg hc, List.append_nil] at hlines hlen
        refine ⟨_, ?_, .cons hlines hlined⟩
        simp only [List.length_map] at hlen
        simp [matchArguments, matchArgument, hlen, hrelated]

theorem Corresponds.mem (h : p.Corresponds own other q) : q ∈ p.possibleMatches own other := by
  have hlen := h.positions.length_eq
  rw [show q.order.length = p.arity from h.arity] at hlen
  have hlength : other.atom.args.length = p.arity ∨
      other.atom.args.length = p.arity + 1 := by
    split at hlen <;> omega
  have homissible : ∀ a ∈ other.atom.args.eraseDups, q.counted? other.atom.args = some a →
      (other.atom.args.length != p.arity) = true := by
    intro a _ hc
    obtain ⟨j, hj, -⟩ := Option.bind_eq_some_iff.mp hc
    rw [hj, Option.isSome_some, if_pos rfl] at hlen
    simp only [bne_iff_ne]
    omega
  obtain ⟨related, hrelated, hlined⟩ := exists_related
    (positionsOf (p.parameters own.atom.args)) (nodup_eraseDups other.atom.args)
    (fun a _ => by rw [lookup_positionsOf]; exact h.roles_perm a) homissible
  refine mem_possibleMatches_iff_exists.mpr ⟨hlength, related, hrelated, _, hlined, ?_⟩
  rw [← h.predicate, ← h.arity]
  have hflatten : ((other.atom.args.eraseDups.map fun a =>
      q.lineUp (positionsAt other.atom.args a))).flatten =
        q.lineUp (other.atom.args.eraseDups.flatMap (positionsAt other.atom.args)) := by
    rw [lineUp, List.map_flatMap, List.flatMap_def]
    rfl
  rw [hflatten]
  exact h.positions.ofPositions_lineUp (flatMap_positionsAt_perm _)

/-- The parts that are found for another literal are those that correspond, each of
them once. -/
theorem possibleMatches_correspond (p : InvariantPart) (own other : Literal) :
    (p.possibleMatches own other).Nodup ∧
      ∀ q, q ∈ p.possibleMatches own other ↔ p.Corresponds own other q :=
  ⟨nodup_possibleMatches p own other, fun _ => ⟨corresponds_of_mem, Corresponds.mem⟩⟩

end Matches
end InvariantPart
end FinitePlanning
