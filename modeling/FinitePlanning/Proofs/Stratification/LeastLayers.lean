import FinitePlanning.Proofs.Stratification.Relevance

/-!
Axioms are stratified unless a negation lies on a cycle of dependencies. The layers are the least
possible ones, or there is a layer for each component.
-/

namespace FinitePlanning

namespace Dependencies

variable {d : Dependencies} {cs : List (List Nat)} {axioms : List GroundAxiom} {a b : Atom}
  {v w : Nat}

/-- No layers are lower than the least ones. -/
theorem leastLayers_le (h : d.IsStratifiable cs) {f : Nat → Nat}
    (hpositive : ∀ v < d.atoms.size, ∀ w ∈ d.positive.getD v [], f w ≤ f v)
    (hnegative : ∀ v < d.atoms.size, ∀ w ∈ d.negative.getD v [], f w < f v)
    (hconstant : ∀ c ∈ cs, ∀ v ∈ c, ∀ w ∈ c, f v ≤ f w) (v : Nat) :
    (d.leastLayers cs).getD v 0 ≤ f v := by
  suffices hall : ∀ rest, rest <:+ cs → ∀ v, (d.leastLayers rest).getD v 0 ≤ f v from
    hall cs (List.suffix_refl cs) v
  intro rest hsuffix
  induction rest with
  | nil =>
      intro v
      rw [getD_leastLayers_of_not_mem_flatten List.not_mem_nil]
      exact Nat.zero_le _
  | cons c rest ih =>
      have hrest := ih ((List.suffix_cons c rest).trans hsuffix)
      intro v
      by_cases hv : v ∈ c
      · rw [getD_leastLayers_of_mem hv (h.lt hsuffix hv), leastLayerOf, foldl_max_le_iff]
        refine ⟨Nat.zero_le _, List.forall_mem_map.mpr fun u hu => ?_⟩
        refine Nat.le_trans ?_ (hconstant c (hsuffix.mem List.mem_cons_self) u hu v hv)
        have hlt := h.lt hsuffix hu
        rw [leastLayer, foldl_max_le_iff, List.forall_mem_append, List.forall_mem_map,
          List.forall_mem_map]
        exact ⟨Nat.zero_le _, fun w hw => Nat.le_trans (hrest w) (hpositive u hlt w hw),
          fun w hw => Nat.lt_of_le_of_lt (hrest w) (hnegative u hlt w hw)⟩
      · rw [getD_leastLayers_of_not_mem hv]
        exact hrest v

/-- Atoms share a separate layer if and only if they share a component. -/
theorem separateLayers_eq_iff (h : d.IsStratifiable cs) (hv : v < d.atoms.size)
    (hw : w < d.atoms.size) :
    (d.separateLayers cs).getD v 0 = (d.separateLayers cs).getD w 0 ↔
      ∃ c ∈ cs, v ∈ c ∧ w ∈ c := by
  constructor
  · intro heq
    obtain ⟨c, rest, hc, hvc⟩ := IsStratifiable.exists_suffix ((h.mem v).mpr hv)
    obtain ⟨c', rest', hc', hwc⟩ := IsStratifiable.exists_suffix ((h.mem w).mpr hw)
    rw [getD_separateLayers h hc hvc, getD_separateLayers h hc' hwc] at heq
    have hlength : (c :: rest).length = (c' :: rest').length := congrArg (· + 1) heq
    have hsame : c :: rest = c' :: rest' := (List.suffix_or_suffix_of_suffix hc hc').elim
      (fun hle => hle.eq_of_length hlength) (fun hle => (hle.eq_of_length hlength.symm).symm)
    obtain ⟨rfl, -⟩ := List.cons.inj hsame
    exact ⟨c, hc.mem List.mem_cons_self, hvc, hwc⟩
  · intro ⟨c, hc, hvc, hwc⟩
    obtain ⟨front, rest, rfl⟩ := List.append_of_mem hc
    have hsuffix := List.suffix_append front (c :: rest)
    rw [getD_separateLayers h hsuffix hvc, getD_separateLayers h hsuffix hwc]

/-- A negation is found inside a component if and only if it lies on a cycle. -/
theorem negativeCycle?_eq_none_iff :
    (ofAxioms axioms).negativeCycle? (Graph.componentOf (ofAxioms axioms).atoms.size
        (ofAxioms axioms).graph.components) = none ↔
      ¬ ∃ a b, DependsOn axioms true a b ∧ DependsUpon axioms b a := by
  have hcomponent : ∀ {v w : Nat} {a b : Atom}, (ofAxioms axioms).atoms[v]? = some a →
      (ofAxioms axioms).atoms[w]? = some b → DependsOn axioms true a b →
      ((Graph.componentOf (ofAxioms axioms).atoms.size (ofAxioms axioms).graph.components)[v]? =
        (Graph.componentOf (ofAxioms axioms).atoms.size (ofAxioms axioms).graph.components)[w]? ↔
          DependsUpon axioms b a) := by
    intro v w a b hv hw hdep
    have hvlt := (Array.getElem?_eq_some_iff.mp hv).1
    have hwlt := (Array.getElem?_eq_some_iff.mp hw).1
    rw [← size_graph] at hvlt hwlt ⊢
    rw [Graph.componentOf_components_eq_iff hvlt hwlt, reaches_graph_iff hw hv,
      reaches_graph_iff hv hw]
    exact and_iff_right (.single ⟨true, hdep⟩)
  rw [negativeCycle?, List.findSome?_eq_none_iff]
  constructor
  · intro h hcycle
    obtain ⟨a, b, hdep, hpath⟩ := hcycle
    obtain ⟨v, hv⟩ := isHead_iff.mp hdep.isHead
    obtain ⟨w, hw⟩ := isHead_iff.mp hdep.1
    have hfind := Option.map_eq_none_iff.mp
      (h v (List.mem_range.mpr (Array.getElem?_eq_some_iff.mp hv).1))
    refine List.find?_eq_none.mp hfind w ((mem_requirements_iff hv hw).mpr hdep) ?_
    exact beq_iff_eq.mpr ((hcomponent hv hw hdep).mpr hpath)
  · intro h v hv
    have hget := Array.getElem?_eq_getElem (List.mem_range.mp hv)
    rw [Option.map_eq_none_iff, List.find?_eq_none]
    intro w hw hsame
    change w ∈ ((ofAxioms axioms).requirements true).getD v [] at hw
    have hget' := Array.getElem?_eq_getElem (lt_of_mem_requirements (List.mem_range.mp hv) hw)
    have hdep := (mem_requirements_iff hget hget').mp hw
    exact h ⟨_, _, hdep, (hcomponent hget hget' hdep).mp (beq_iff_eq.mp hsame)⟩

end Dependencies

/-! ### Acceptance -/

section Acceptance

variable (axioms : List GroundAxiom) (uses : List Literal)

/-- A dependency between atoms on which the given literals depend. -/
def DependsWithin (negated : Bool) (a b : Atom) : Prop :=
  IsRelevant axioms uses a ∧ IsRelevant axioms uses b ∧ DependsOn axioms negated a b

def ReachesWithin : Atom → Atom → Prop :=
  Relation.ReflTransGen fun a b => ∃ negated, DependsWithin axioms uses negated a b

/-- A dependency on a negation lies on a cycle. -/
def HasNegativeCycle : Prop :=
  ∃ a b, DependsWithin axioms uses true a b ∧ ReachesWithin axioms uses b a

/-- No atom is below one on which it depends, and each is above those on whose negation it
depends. -/
structure IsLayerAssignment (layer : Atom → Nat) : Prop where
  positive : ∀ a b, DependsWithin axioms uses false a b → layer b ≤ layer a
  negative : ∀ a b, DependsWithin axioms uses true a b → layer b < layer a

variable {axioms : List GroundAxiom} {uses : List Literal} {negated : Bool} {a b : Atom}

theorem dependsOn_relevantAxioms_iff :
    DependsOn (relevantAxioms axioms uses) negated a b ↔ DependsWithin axioms uses negated a b :=
  dependsOn_relevantAxioms.trans
    ⟨fun ⟨ha, hdep⟩ => ⟨ha, ha.dependsOn hdep, hdep⟩, fun ⟨ha, _, hdep⟩ => ⟨ha, hdep⟩⟩

theorem dependsUpon_relevantAxioms :
    DependsUpon (relevantAxioms axioms uses) = ReachesWithin axioms uses := by
  simp only [DependsUpon, ReachesWithin, dependsOn_relevantAxioms_iff]

theorem hasNegativeCycle_iff : HasNegativeCycle axioms uses ↔
    ∃ a b, DependsOn (relevantAxioms axioms uses) true a b ∧
      DependsUpon (relevantAxioms axioms uses) b a := by
  simp only [HasNegativeCycle, dependsUpon_relevantAxioms, dependsOn_relevantAxioms_iff]

/-- Layers do not rise along dependencies. -/
theorem IsLayerAssignment.le {layer : Atom → Nat} (h : IsLayerAssignment axioms uses layer)
    (hpath : ReachesWithin axioms uses a b) : layer b ≤ layer a := by
  induction hpath with
  | refl => exact Nat.le_refl _
  | tail _ hstep ih =>
      obtain ⟨negated, hdep⟩ := hstep
      refine Nat.le_trans ?_ ih
      cases negated with
      | false => exact h.positive _ _ hdep
      | true => exact Nat.le_of_lt (h.negative _ _ hdep)

/-- Where layers exist no negation lies on a cycle. -/
theorem IsLayerAssignment.not_hasNegativeCycle {layer : Atom → Nat}
    (h : IsLayerAssignment axioms uses layer) : ¬ HasNegativeCycle axioms uses := by
  intro ⟨a, b, hdep, hpath⟩
  exact Nat.lt_irrefl _ (Nat.lt_of_lt_of_le (h.negative a b hdep) (h.le hpath))

/-! ### The layers that are computed -/

/-- The layer of an atom, when layers are given by the positions of the atoms. -/
def Dependencies.layerAt (d : Dependencies) (layerOf : Array Nat) (a : Atom) : Nat :=
  layerOf.getD ((Std.HashMap.ofList d.atoms.toList.zipIdx).getD a 0) 0

namespace Dependencies

variable {layerOf : Array Nat} {v w : Nat}

theorem layerAt_eq (hv : (ofAxioms axioms).atoms[v]? = some a) :
    (ofAxioms axioms).layerAt layerOf a = layerOf.getD v 0 := by
  rw [layerAt, Std.HashMap.getD_eq_getD_getElem?, getElem?_position.mpr hv]
  rfl

theorem exists_position (h : IsRelevant axioms uses a) :
    ∃ v : Nat, (ofAxioms (relevantAxioms axioms uses)).atoms[v]? = some a :=
  isHead_iff.mp (isHead_relevantAxioms.mpr h)

theorem mem_requirements_relevantAxioms
    (hv : (ofAxioms (relevantAxioms axioms uses)).atoms[v]? = some a)
    (hw : (ofAxioms (relevantAxioms axioms uses)).atoms[w]? = some b) (negated : Bool) :
    w ∈ ((ofAxioms (relevantAxioms axioms uses)).requirements negated).getD v [] ↔
      DependsWithin axioms uses negated a b :=
  (mem_requirements_iff hv hw).trans dependsOn_relevantAxioms_iff

theorem isLayerAssignment_layerAt (h : (ofAxioms (relevantAxioms axioms uses)).IsLayering layerOf) :
    IsLayerAssignment axioms uses
      ((ofAxioms (relevantAxioms axioms uses)).layerAt layerOf) where
  positive a b hdep := by
    obtain ⟨v, hv⟩ := exists_position hdep.1
    obtain ⟨w, hw⟩ := exists_position hdep.2.1
    rw [layerAt_eq hv, layerAt_eq hw]
    exact h.positive v (Array.getElem?_eq_some_iff.mp hv).1 w
      ((mem_requirements_relevantAxioms hv hw false).mpr hdep)
  negative a b hdep := by
    obtain ⟨v, hv⟩ := exists_position hdep.1
    obtain ⟨w, hw⟩ := exists_position hdep.2.1
    rw [layerAt_eq hv, layerAt_eq hw]
    exact h.negative v (Array.getElem?_eq_some_iff.mp hv).1 w
      ((mem_requirements_relevantAxioms hv hw true).mpr hdep)

theorem layerAt_leastLayers_le {f : Atom → Nat} (hf : IsLayerAssignment axioms uses f)
    (h : (ofAxioms (relevantAxioms axioms uses)).IsStratifiable
      (ofAxioms (relevantAxioms axioms uses)).graph.components)
    (ha : IsRelevant axioms uses a) :
    (ofAxioms (relevantAxioms axioms uses)).layerAt
      ((ofAxioms (relevantAxioms axioms uses)).leastLayers
        (ofAxioms (relevantAxioms axioms uses)).graph.components) a ≤ f a := by
  obtain ⟨v, hv⟩ := exists_position ha
  have hrequires := @mem_requirements_relevantAxioms axioms uses
  have hreaches : ∀ {a b}, DependsUpon (relevantAxioms axioms uses) a b →
      ReachesWithin axioms uses a b := fun h => dependsUpon_relevantAxioms ▸ h
  generalize relevantAxioms axioms uses = relevant at *
  let bound (w : Nat) : Nat := (((ofAxioms relevant).atoms[w]?).map f).getD 0
  have hbound : ∀ {w}, w < (ofAxioms relevant).atoms.size →
      ∃ b, (ofAxioms relevant).atoms[w]? = some b ∧ bound w = f b := fun hw =>
    ⟨_, Array.getElem?_eq_getElem hw, by simp only [bound, Array.getElem?_eq_getElem hw]; rfl⟩
  have hle : ((ofAxioms relevant).leastLayers (ofAxioms relevant).graph.components).getD v 0 ≤
      bound v := by
    refine leastLayers_le h (fun u hu w hw => ?_) (fun u hu w hw => ?_)
      (fun component hcomponent u hu w hw => ?_) v
    · obtain ⟨b, hb, hfb⟩ := hbound hu
      change w ∈ ((ofAxioms relevant).requirements false).getD u [] at hw
      obtain ⟨c, hc, hfc⟩ := hbound (lt_of_mem_requirements hu hw)
      rw [hfb, hfc]
      exact hf.positive b c ((hrequires hb hc false).mp hw)
    · obtain ⟨b, hb, hfb⟩ := hbound hu
      change w ∈ ((ofAxioms relevant).requirements true).getD u [] at hw
      obtain ⟨c, hc, hfc⟩ := hbound (lt_of_mem_requirements hu hw)
      rw [hfb, hfc]
      exact hf.negative b c ((hrequires hb hc true).mp hw)
    · have hlt : ∀ x ∈ component, x < (ofAxioms relevant).atoms.size := fun x hx =>
        (h.mem x).mp (List.mem_flatten.mpr ⟨component, hcomponent, hx⟩)
      obtain ⟨b, hb, hfb⟩ := hbound (hlt u hu)
      obtain ⟨c, hc, hfc⟩ := hbound (hlt w hw)
      rw [hfb, hfc]
      have hpath := (ofAxioms relevant).graph.areConnected_components.reaches hcomponent hw hu
      exact hf.le (hreaches ((reaches_graph_iff hc hb).mp hpath))
  rw [layerAt_eq hv]
  obtain ⟨b, hb, hfb⟩ := hbound (Array.getElem?_eq_some_iff.mp hv).1
  obtain rfl := Option.some.inj (hv.symm.trans hb)
  exact hfb ▸ hle

theorem layerAt_separateLayers_eq_iff
    (h : (ofAxioms (relevantAxioms axioms uses)).IsStratifiable
      (ofAxioms (relevantAxioms axioms uses)).graph.components)
    (ha : IsRelevant axioms uses a) (hb : IsRelevant axioms uses b) :
    (ofAxioms (relevantAxioms axioms uses)).layerAt
        ((ofAxioms (relevantAxioms axioms uses)).separateLayers
          (ofAxioms (relevantAxioms axioms uses)).graph.components) a =
      (ofAxioms (relevantAxioms axioms uses)).layerAt
        ((ofAxioms (relevantAxioms axioms uses)).separateLayers
          (ofAxioms (relevantAxioms axioms uses)).graph.components) b ↔
      ReachesWithin axioms uses a b ∧ ReachesWithin axioms uses b a := by
  obtain ⟨v, hv⟩ := exists_position ha
  obtain ⟨w, hw⟩ := exists_position hb
  have hvlt := (Array.getElem?_eq_some_iff.mp hv).1
  have hwlt := (Array.getElem?_eq_some_iff.mp hw).1
  rw [layerAt_eq hv, layerAt_eq hw, separateLayers_eq_iff h hvlt hwlt,
    Graph.exists_component_iff ((size_graph _).symm ▸ hvlt) ((size_graph _).symm ▸ hwlt),
    reaches_graph_iff hv hw, reaches_graph_iff hw hv, dependsUpon_relevantAxioms]

end Dependencies

/-- The layers that a strategy chooses: the least ones, or one for each component. -/
structure IsLayeringBy (strategy : LayerStrategy) (axioms : List GroundAxiom) (uses : List Literal)
    (layer : Atom → Nat) : Prop where
  assigns : IsLayerAssignment axioms uses layer
  least : strategy = .min → ∀ f, IsLayerAssignment axioms uses f →
    ∀ a, IsRelevant axioms uses a → layer a ≤ f a
  separate : strategy = .max → ∀ a b, IsRelevant axioms uses a → IsRelevant axioms uses b →
    (layer a = layer b ↔ ReachesWithin axioms uses a b ∧ ReachesWithin axioms uses b a)

namespace StratifiedAxioms

open Dependencies

variable (axioms : List GroundAxiom) (strategy : LayerStrategy)

theorem isAccepted_iff {uses : List Literal} :
    IsAccepted (relevantAxioms axioms uses) ↔ ¬ HasNegativeCycle axioms uses := by
  rw [IsAccepted, negativeCycle?_eq_none_iff, hasNegativeCycle_iff]

theorem isLayeringBy_layerAt {uses : List Literal} (h : IsAccepted (relevantAxioms axioms uses)) :
    IsLayeringBy strategy axioms uses ((ofAxioms (relevantAxioms axioms uses)).layerAt
      ((ofAxioms (relevantAxioms axioms uses)).layers strategy
        (ofAxioms (relevantAxioms axioms uses)).graph.components)) := by
  have hstrat := isStratifiable_of_components h
  refine ⟨isLayerAssignment_layerAt (isLayering_layers hstrat strategy), ?_, ?_⟩
  · rintro rfl f hf a ha
    exact layerAt_leastLayers_le hf hstrat ha
  · rintro rfl a b ha hb
    exact layerAt_separateLayers_eq_iff hstrat ha hb

theorem mem_layers_iff {uses : List Literal} (h : IsAccepted (relevantAxioms axioms uses))
    {a : Atom} {n : Nat} : (a, n) ∈ (layered (relevantAxioms axioms uses) strategy).layers ↔
      IsRelevant axioms uses a ∧ (ofAxioms (relevantAxioms axioms uses)).layerAt
        ((ofAxioms (relevantAxioms axioms uses)).layers strategy
          (ofAxioms (relevantAxioms axioms uses)).graph.components) a = n := by
  rw [mem_layers_layered h]
  constructor
  · intro ⟨v, hv, hn⟩
    exact ⟨isHead_relevantAxioms.mp (isHead_of_getElem? hv), (layerAt_eq hv).trans hn⟩
  · intro ⟨ha, hn⟩
    obtain ⟨v, hv⟩ := exists_position ha
    exact ⟨v, hv, (layerAt_eq hv).symm.trans hn⟩

/-- The axioms are refused if and only if a negation lies on a cycle of dependencies between the
atoms on which the goal and the actions depend. Otherwise these atoms get layers that respect their
dependencies, either the least ones or one for each component. -/
theorem compute_assigns_layers (actions : List GroundAction) (axioms : List GroundAxiom)
    (goal : List Literal) (strategy : LayerStrategy) :
    let uses := goal ++ actions.flatMap (·.conditionLiterals)
    ((∃ text, (compute actions axioms goal strategy).Fails (.notStratifiable text)) ↔
        HasNegativeCycle axioms uses) ∧
      (¬ HasNegativeCycle axioms uses → ∃ (s : StratifiedAxioms) (layer : Atom → Nat),
        (compute actions axioms goal strategy).Gives s ∧
        (∀ a n, (a, n) ∈ s.layers ↔ IsRelevant axioms uses a ∧ layer a = n) ∧
        IsLayeringBy strategy axioms uses layer) := by
  intro uses
  rw [← isAccepted_iff]
  refine ⟨⟨fun hfails => ?_, fun hcycle => ?_⟩, fun haccepted => ?_⟩
  · by_contra hcycle
    obtain ⟨text, hfails⟩ := hfails
    exact (gives_compute_of_isAccepted ((isAccepted_iff axioms).mpr hcycle)).not_fails hfails
  · exact fails_compute_of_not_isAccepted fun haccepted =>
      (isAccepted_iff axioms).mp haccepted hcycle
  · exact ⟨_, _, gives_compute_of_isAccepted haccepted, fun a n => mem_layers_iff axioms strategy
      haccepted, isLayeringBy_layerAt axioms strategy haccepted⟩

/-- A lamp and its battery keep each other going once the switch is on. It is dark without light. -/
def lamp : List GroundAxiom :=
  [⟨"switch", [⟨⟨.named "on", []⟩, false⟩], ⟨.named "powered", []⟩⟩,
    ⟨"light", [⟨⟨.named "powered", []⟩, false⟩], ⟨.named "lit", []⟩⟩,
    ⟨"charge", [⟨⟨.named "lit", []⟩, false⟩], ⟨.named "powered", []⟩⟩,
    ⟨"darkness", [⟨⟨.named "lit", []⟩, true⟩], ⟨.named "dark", []⟩⟩]

/-- Darkness is above light. -/
def lampLayer (a : Atom) : Nat :=
  if a = ⟨.named "dark", []⟩ then 1 else 0

theorem isLayerAssignment_lampLayer {uses : List Literal} :
    IsLayerAssignment lamp uses lampLayer := by
  have hall : ∀ x ∈ lamp, ∀ l ∈ x.condition, lampLayer l.atom ≤ lampLayer x.effect ∧
      (l.negated = true → lampLayer l.atom < lampLayer x.effect) := by decide
  refine ⟨fun a b hdep => ?_, fun a b hdep => ?_⟩
  · obtain ⟨-, x, hx, rfl, l, hl, -, rfl⟩ := hdep.2.2
    exact (hall x hx l hl).1
  · obtain ⟨-, x, hx, rfl, l, hl, hnegated, rfl⟩ := hdep.2.2
    exact (hall x hx l hl).2 hnegated

theorem lamp_assigns_layers :
    ¬ HasNegativeCycle lamp [⟨⟨.named "dark", []⟩, false⟩] ∧
      ∃ s : StratifiedAxioms, (compute [] lamp [⟨⟨.named "dark", []⟩, false⟩] .min).Gives s ∧
        (⟨.named "dark", []⟩, 1) ∈ s.layers ∧ (⟨.named "lit", []⟩, 0) ∈ s.layers := by
  have hacyclic : IsLayerAssignment lamp [⟨⟨.named "dark", []⟩, false⟩] lampLayer :=
    isLayerAssignment_lampLayer
  have hdark : IsRelevant lamp [⟨⟨.named "dark", []⟩, false⟩] ⟨.named "dark", []⟩ :=
    isRelevant_of_mem List.mem_cons_self ⟨_, List.mem_of_getElem? (i := 3) rfl, rfl⟩
  have hdep : DependsOn lamp true ⟨.named "dark", []⟩ ⟨.named "lit", []⟩ :=
    ⟨⟨_, List.mem_of_getElem? (i := 1) rfl, rfl⟩, _, List.mem_of_getElem? (i := 3) rfl, rfl, _,
      List.mem_cons_self, rfl, rfl⟩
  have hlit := hdark.dependsOn hdep
  obtain ⟨s, layer, hgives, hlayers, hlayering⟩ :=
    (compute_assigns_layers [] lamp [⟨⟨.named "dark", []⟩, false⟩] .min).2
      hacyclic.not_hasNegativeCycle
  have hbelow := hlayering.assigns.negative _ _ ⟨hdark, hlit, hdep⟩
  have hleast := hlayering.least rfl lampLayer hacyclic
  have hdarkLayer : layer ⟨.named "dark", []⟩ = 1 :=
    Nat.le_antisymm (hleast _ hdark) (Nat.lt_of_le_of_lt (Nat.zero_le _) hbelow)
  exact ⟨hacyclic.not_hasNegativeCycle, s, hgives, (hlayers _ _).mpr ⟨hdark, hdarkLayer⟩,
    (hlayers _ _).mpr ⟨hlit, Nat.le_zero.mp (hleast _ hlit)⟩⟩

end StratifiedAxioms

end Acceptance
end FinitePlanning
