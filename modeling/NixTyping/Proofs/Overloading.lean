import Mathlib
import NixTyping.Proofs.DepthFirst
import NixTyping.Proofs.MostGeneral
/-!
# Overload resolution is exact

An equation between a plain type and an overload set of plain function types
stands for a choice among its alternatives. To solve a list of such equations is
to go through all choices in lexicographic order and to unify each resulting
system of plain equations: one most general unifier for every system that has a
unifier, and nothing for the others (`resolution_exact`).
-/

namespace NixTyping

open Search

/-! ## Systems of plain equations -/

/-- The ways to pick one alternative for each right side, the first equation
varying slowest. -/
def systems : List (Ty × Ty) → List (List (Ty × Ty))
  | [] => [[]]
  | (l, r) :: eqs => r.alternatives.flatMap fun a => (systems eqs).map ((l, a) :: ·)

/-- The substitution makes both sides of every equation equal. -/
def Unifier (θ : Subst) (sys : List (Ty × Ty)) : Prop := ∀ e ∈ sys, e.1.apply θ = e.2.apply θ

def Unifiable (sys : List (Ty × Ty)) : Prop := ∃ θ, Unifier θ sys

/-- A unifier of which every other one is an instance. -/
def IsMgu (S : Subst) (sys : List (Ty × Ty)) : Prop :=
  Unifier S sys ∧ ∀ θ, Unifier θ sys → ∀ v, (Ty.var v).apply θ = ((Ty.var v).apply S).apply θ

/-- A plain left side, and a right side that is plain or, for a function, an
overload set of plain function types without variables. -/
def Resolvable (l r : Ty) : Prop :=
  l.Plain ∧ (r.Plain ∨ ((∃ p b, l = .fn p b) ∧ ∃ alts, r = .overload alts ∧ 2 ≤ alts.length ∧ alts.Nodup ∧
    ∀ a ∈ alts, a.Plain ∧ (∃ p b, a = .fn p b) ∧ ∀ v, v ∉ a.free))

section Resolvable
variable {l r : Ty}

theorem Resolvable.plain {a : Ty} (h : Resolvable l r) (ha : a ∈ r.alternatives) : a.Plain := by
  rcases h.2 with hr | ⟨-, alts, rfl, -, -, hall⟩
  · rw [Ty.alternatives_of_single hr.single, List.mem_singleton] at ha
    exact ha ▸ hr
  · exact (hall a ha).1

theorem Resolvable.wellFormed (h : Resolvable l r) : r.WellFormed := by
  rcases h.2 with hr | ⟨-, alts, rfl, hmany, hnodup, hall⟩
  · exact hr.wellFormed
  · exact .overload (fun a ha => (hall a ha).1.wellFormed) (fun a ha => (hall a ha).1.single) hnodup hmany

/-- A substitution changes the alternatives one by one. -/
theorem Resolvable.alternatives_apply (h : Resolvable l r) {s : Subst} (hs : s.Plain) :
    (r.apply s).alternatives = r.alternatives.map (Ty.apply s) := by
  rcases h.2 with hr | ⟨-, alts, rfl, -, -, hall⟩
  · rw [Ty.alternatives_of_single hr.single, Ty.alternatives_of_single (hs.apply hr).single]
    rfl
  · rw [Ty.apply_eq_subst h.wellFormed, Ty.subst_eq_self h.wellFormed]
    · refine (List.map_id _).symm.trans (List.map_congr_left fun a ha => ?_)
      rw [Ty.apply_eq_subst (hall a ha).1.wellFormed]
      exact (Ty.subst_eq_self (hall a ha).1.wellFormed fun v hv => absurd hv ((hall a ha).2.2 v)).symm
    · intro v hv
      obtain ⟨a, ha, hv⟩ := Ty.mem_free_overload.1 hv
      exact absurd hv ((hall a ha).2.2 v)

theorem Resolvable.apply (h : Resolvable l r) {s : Subst} (hs : s.Plain) : Resolvable (l.apply s) (r.apply s) := by
  refine ⟨hs.apply h.1, ?_⟩
  rcases h.2 with hr | ⟨⟨p, b, rfl⟩, alts, rfl, hmany, hnodup, hall⟩
  · exact .inl (hs.apply hr)
  · refine .inr ⟨⟨p.subst s.toFun, b.subst s.toFun, Ty.apply_eq_subst h.1.wellFormed s⟩, alts, ?_, hmany, hnodup, hall⟩
    rw [Ty.apply_eq_subst h.wellFormed]
    refine Ty.subst_eq_self h.wellFormed fun v hv => ?_
    obtain ⟨a, ha, hv⟩ := Ty.mem_free_overload.1 hv
    exact absurd hv ((hall a ha).2.2 v)

/-- Unification tries the alternatives in order. -/
theorem Resolvable.substs_unify (h : Resolvable l r) :
    (l.unify r).substs = r.alternatives.flatMap fun a => (l.unify a).substs := by
  refine Unification.substs_unify_alternatives h.1.single fun hsingle => ?_
  rcases h.2 with hr | ⟨⟨p, b, rfl⟩, -⟩
  · exact absurd hr.single hsingle
  · simp

end Resolvable

/-! ## One equation after the other -/

/-- A system after a substitution. -/
def applyAll (s : Subst) (sys : List (Ty × Ty)) : List (Ty × Ty) := sys.map fun e => (e.1.apply s, e.2.apply s)

theorem systems_apply {eqs : List (Ty × Ty)} (h : ∀ e ∈ eqs, Resolvable e.1 e.2) {s : Subst} (hs : s.Plain) :
    systems (applyAll s eqs) = (systems eqs).map (applyAll s) := by
  induction eqs with
  | nil => rfl
  | cons e eqs ih =>
    obtain ⟨l, r⟩ := e
    have hrest := ih fun e he => h e (by simp [he])
    have halts := (h (l, r) (by simp)).alternatives_apply hs
    show (r.apply s).alternatives.flatMap (fun a => (systems (applyAll s eqs)).map ((l.apply s, a) :: ·)) =
      (r.alternatives.flatMap fun a => (systems eqs).map ((l, a) :: ·)).map (applyAll s)
    rw [halts, hrest, List.flatMap_map, List.map_flatMap]
    simp only [List.map_map]
    rfl

/-- Both sides of every equation of the system are plain. -/
def PlainSystem (sys : List (Ty × Ty)) : Prop := ∀ e ∈ sys, e.1.Plain ∧ e.2.Plain

theorem plain_of_mem_systems {eqs : List (Ty × Ty)} (h : ∀ e ∈ eqs, Resolvable e.1 e.2) {sys : List (Ty × Ty)}
    (hsys : sys ∈ systems eqs) : PlainSystem sys := by
  induction eqs generalizing sys with
  | nil =>
    obtain rfl := List.mem_singleton.1 hsys
    exact fun e he => nomatch he
  | cons e eqs ih =>
    obtain ⟨l, r⟩ := e
    obtain ⟨a, ha, hsys⟩ := List.mem_flatMap.1 hsys
    obtain ⟨rest, hrest, rfl⟩ := List.mem_map.1 hsys
    have hlr := h (l, r) (by simp)
    intro e he
    rcases List.mem_cons.1 he with rfl | he
    · exact ⟨hlr.1, hlr.plain ha⟩
    · exact ih (fun e he => h e (by simp [he])) hrest e he

theorem unifier_cons {θ : Subst} {l a : Ty} {sys : List (Ty × Ty)} :
    Unifier θ ((l, a) :: sys) ↔ l.apply θ = a.apply θ ∧ Unifier θ sys := by
  simp [Unifier]

theorem unifier_applyAll {θ s : Subst} {sys : List (Ty × Ty)} :
    Unifier θ (applyAll s sys) ↔ ∀ e ∈ sys, (e.1.apply s).apply θ = (e.2.apply s).apply θ := by
  rw [Unifier, applyAll, List.forall_mem_map]

theorem factorsThrough_iff {θ s : Subst} (hs : s.Plain) :
    FactorsThrough θ.toFun s ↔ ∀ v, (Ty.var v).apply θ = ((Ty.var v).apply s).apply θ := by
  refine forall_congr' fun v => ?_
  rw [Ty.apply_var, Ty.apply_var, Ty.apply_eq_subst (hs.toFun v).wellFormed, eq_comm]

theorem FactorsThrough.apply {θ s : Subst} (h : FactorsThrough θ.toFun s) (hs : s.Plain) {t : Ty} (ht : t.Plain) :
    (t.apply s).apply θ = t.apply θ := by
  rw [Ty.apply_eq_subst (hs.apply ht).wellFormed, h.subst ht.uniform, Ty.apply_eq_subst ht.wellFormed]

section Step
variable {l a : Ty} {s : Subst} {sys : List (Ty × Ty)}

/-- A unifier of the first equation unifies the rest as it unifies what the most
general one makes of it. -/
theorem MostGeneral.unifier_iff (h : MostGeneral l a s) (hl : l.Plain) (ha : a.Plain) (hsys : PlainSystem sys)
    {θ : Subst} (hθ : l.apply θ = a.apply θ) :
    FactorsThrough θ.toFun s ∧ (Unifier θ (applyAll s sys) ↔ Unifier θ sys) := by
  rw [Ty.apply_eq_subst hl.wellFormed, Ty.apply_eq_subst ha.wellFormed] at hθ
  have hfac := h.general θ.toFun hθ
  refine ⟨hfac, ?_⟩
  rw [unifier_applyAll]
  refine forall₂_congr fun e he => ?_
  rw [hfac.apply h.plain (hsys e he).1, hfac.apply h.plain (hsys e he).2]

theorem MostGeneral.unifier_compose (h : MostGeneral l a s) (hl : l.Plain) (ha : a.Plain) (hsys : PlainSystem sys)
    {θ : Subst} (hθ : Unifier θ (applyAll s sys)) : Unifier (θ.compose s) ((l, a) :: sys) := by
  refine unifier_cons.2 ⟨?_, fun e he => ?_⟩
  · rw [hl.apply_compose h.plain, ha.apply_compose h.plain, h.equal]
  · rw [(hsys e he).1.apply_compose h.plain, (hsys e he).2.apply_compose h.plain]
    exact unifier_applyAll.1 hθ e he

theorem MostGeneral.unifiable_iff (h : MostGeneral l a s) (hl : l.Plain) (ha : a.Plain) (hsys : PlainSystem sys) :
    Unifiable ((l, a) :: sys) ↔ Unifiable (applyAll s sys) := by
  constructor
  · rintro ⟨θ, hθ⟩
    obtain ⟨hfirst, hrest⟩ := unifier_cons.1 hθ
    exact ⟨θ, (h.unifier_iff hl ha hsys hfirst).2.2 hrest⟩
  · rintro ⟨θ, hθ⟩
    exact ⟨θ.compose s, h.unifier_compose hl ha hsys hθ⟩

/-- The solution is a substitution, changed by a most general unifier. -/
def Resolves (s₀ S : Subst) (sys : List (Ty × Ty)) : Prop :=
  ∃ T : Subst, T.Plain ∧ (∀ v, S.toFun v = (s₀.toFun v).apply T) ∧ IsMgu T sys

theorem MostGeneral.resolves {s₀ S : Subst} (h : MostGeneral l a s) (hl : l.Plain) (ha : a.Plain)
    (hsys : PlainSystem sys) (hs₀ : s₀.Plain) (hS : Resolves (s.compose s₀) S (applyAll s sys)) :
    Resolves s₀ S ((l, a) :: sys) := by
  obtain ⟨T, hT, heq, hunifier, hgeneral⟩ := hS
  refine ⟨T.compose s, hT.compose h.plain, fun v => ?_, h.unifier_compose hl ha hsys hunifier, fun θ hθ => ?_⟩
  · rw [heq v, Subst.toFun_compose, (hs₀.toFun v).apply_compose h.plain]
  · obtain ⟨hfirst, hrest⟩ := unifier_cons.1 hθ
    obtain ⟨hfac, hiff⟩ := h.unifier_iff hl ha hsys hfirst
    have hfacT := (factorsThrough_iff hT).2 (hgeneral θ (hiff.2 hrest))
    exact (factorsThrough_iff (hT.compose h.plain)).1 (hfac.compose h.plain.uniform hfacT)

end Step

/-! ## All choices -/

/-- The equations as constraints. -/
def equations (eqs : List (Ty × Ty)) : List Constraint := eqs.map fun e => .eq e.1 e.2

theorem equations_apply (s : Subst) (eqs : List (Ty × Ty)) :
    (equations eqs).map (Constraint.apply s) = equations (applyAll s eqs) := by
  simp only [equations, applyAll, List.map_map]
  rfl

open Classical in
/-- The systems among the choices that have a unifier. -/
noncomputable def unifiableSystems (eqs : List (Ty × Ty)) : List (List (Ty × Ty)) :=
  (systems eqs).filter fun sys => Unifiable sys

section Choices
variable {l a : Ty} {s s₀ : Subst} {ss : List Subst} {choices : List (List (Ty × Ty))}

open Classical in
theorem filter_unifiable_eq_nil (h : ∀ θ, l.subst θ ≠ a.subst θ) (hl : l.Plain) (ha : a.Plain) :
    (choices.map ((l, a) :: ·)).filter (fun sys => Unifiable sys) = [] := by
  refine List.filter_eq_nil_iff.2 fun sys hsys => ?_
  obtain ⟨rest, -, rfl⟩ := List.mem_map.1 hsys
  intro hunifiable
  obtain ⟨θ, hθ⟩ := of_decide_eq_true hunifiable
  refine h θ.toFun ?_
  rw [← Ty.apply_eq_subst hl.wellFormed, ← Ty.apply_eq_subst ha.wellFormed]
  exact (unifier_cons.1 hθ).1

open Classical in
/-- What the rest of the equations have after the first, the first has with them. -/
theorem forall₂_resolves_cons (h : MostGeneral l a s) (hl : l.Plain) (ha : a.Plain) (hs₀ : s₀.Plain)
    (hchoices : ∀ sys ∈ choices, PlainSystem sys)
    (hss : List.Forall₂ (Resolves (s.compose s₀)) ss ((choices.map (applyAll s)).filter fun sys => Unifiable sys)) :
    List.Forall₂ (Resolves s₀) ss ((choices.map ((l, a) :: ·)).filter fun sys => Unifiable sys) := by
  -- the systems with a unifier are the same ones before and after the first equation
  have hfilter : choices.filter ((fun sys => decide (Unifiable sys)) ∘ applyAll s) =
      choices.filter ((fun sys => decide (Unifiable sys)) ∘ ((l, a) :: ·)) := by
    refine List.filter_congr fun sys hsys => ?_
    exact decide_eq_decide.2 (h.unifiable_iff hl ha (hchoices sys hsys)).symm
  rw [List.filter_map, hfilter, List.forall₂_map_right_iff] at hss
  rw [List.filter_map, List.forall₂_map_right_iff]
  obtain ⟨hlength, hzip⟩ := List.forall₂_iff_zip.1 hss
  refine List.forall₂_iff_zip.2 ⟨hlength, fun {S sys} hmem => ?_⟩
  have hsys : sys ∈ choices := (List.mem_filter.1 (List.of_mem_zip hmem).2).1
  exact h.resolves hl ha (hchoices sys hsys) hs₀ (hzip hmem)

end Choices

theorem children_equations (n : Node) (eqs : List (Ty × Ty)) (b : Branches) :
    n.children (equations eqs) b = b.substs.map fun s => ⟨s.compose n.subst, equations (applyAll s eqs)⟩ := by
  simp only [Node.children, equations_apply]

open Classical in
/-- The alternatives of one right side, each followed by the rest of the equations. -/
theorem adds_alternatives {l : Ty} {eqs : List (Ty × Ty)} {s₀ : Subst} {k : Nat} {alts : List Ty} (hl : l.Plain)
    (hs₀ : s₀.Plain) (heqs : ∀ e ∈ eqs, Resolvable e.1 e.2) (hplain : ∀ a ∈ alts, a.Plain)
    (hrest : ∀ s : Subst, s.Plain → Adds k [⟨s.compose s₀, equations (applyAll s eqs)⟩] fun ss =>
      List.Forall₂ (Resolves (s.compose s₀)) ss (unifiableSystems (applyAll s eqs))) :
    Adds k ((alts.flatMap fun a => (l.unify a).substs).map fun s =>
        ⟨s.compose s₀, equations (applyAll s eqs)⟩) fun ss =>
      List.Forall₂ (Resolves s₀) ss
        ((alts.flatMap fun a => (systems eqs).map ((l, a) :: ·)).filter fun sys => Unifiable sys) := by
  induction alts with
  | nil => exact adds_nil .nil
  | cons a alts ih =>
    have ha : a.Plain := hplain a (by simp)
    have hothers := ih fun b hb => hplain b (by simp [hb])
    rw [List.flatMap_cons, List.map_append, List.flatMap_cons, List.filter_append]
    refine Adds.append ?_ hothers fun ss ss' hss hss' => List.rel_append hss hss'
    -- a choice for this alternative that has a unifier has one for the first equation
    rcases Ty.unify_exact hl ha with ⟨hnil, hnone⟩ | ⟨s, hone, hmost⟩
    · rw [hnil, filter_unifiable_eq_nil hnone hl ha]
      exact adds_nil .nil
    · rw [hone]
      refine (hrest s hmost.plain).imp fun ss hss => ?_
      rw [unifiableSystems, systems_apply heqs hmost.plain] at hss
      exact forall₂_resolves_cons hmost hl ha hs₀ (fun sys hsys => plain_of_mem_systems heqs hsys) hss

/-- Below a node with equations there is one solution for every system that has a
unifier, in the order of the systems. -/
theorem adds_resolutions {eqs : List (Ty × Ty)} (h : ∀ e ∈ eqs, Resolvable e.1 e.2) {s₀ : Subst} (hs₀ : s₀.Plain)
    (k : Nat) : Adds k [⟨s₀, equations eqs⟩] fun ss => List.Forall₂ (Resolves s₀) ss (unifiableSystems eqs) := by
  -- on the number of equations, since a step changes those that are left
  induction hN : eqs.length generalizing eqs s₀ with
  | zero =>
    obtain rfl := List.length_eq_zero_iff.1 hN
    have hmgu : IsMgu ∅ [] := ⟨fun e he => (nomatch he), fun θ _ v => rfl⟩
    have hunifiable : unifiableSystems [] = [[]] := by
      simp [unifiableSystems, systems, show Unifiable [] from ⟨∅, hmgu.1⟩]
    refine adds_leaf rfl ?_
    rw [hunifiable]
    exact .cons ⟨∅, Subst.all_empty, fun v => rfl, hmgu⟩ .nil
  | succ N ih =>
    obtain ⟨⟨l, r⟩, eqs, rfl⟩ := List.exists_cons_of_length_eq_add_one hN
    have hlr : Resolvable l r := h (l, r) (by simp)
    have hrest : ∀ e ∈ eqs, Resolvable e.1 e.2 := fun e he => h e (by simp [he])
    have htake : Constraint.takeSolvable (equations ((l, r) :: eqs)) = some (.eq l r, equations eqs) :=
      Constraint.takeSolvable_cons rfl
    refine adds_eq htake ?_
    rw [children_equations, hlr.substs_unify]
    refine adds_alternatives hlr.1 hs₀ hrest (fun a ha => hlr.plain ha) fun s hs => ?_
    refine ih ?_ (hs.compose hs₀) (by simpa [applyAll] using hN)
    rw [applyAll, List.forall_mem_map]
    exact fun e he => (hrest e he).apply hs

/-- Solving equations without a limit returns one substitution for every choice of
alternatives whose system has a unifier, in lexicographic order of the choices,
and each is a most general unifier of its system. -/
theorem resolution_exact {eqs : List (Ty × Ty)} (h : ∀ e ∈ eqs, Resolvable e.1 e.2) (next : Nat) :
    List.Forall₂ IsMgu (solve (equations eqs) next none).substs.toList (unifiableSystems eqs) := by
  have hadds := solve_of_adds (adds_resolutions h Subst.all_empty next)
  obtain ⟨hlength, hzip⟩ := List.forall₂_iff_zip.1 hadds
  refine List.forall₂_iff_zip.2 ⟨hlength, fun {S sys} hmem => ?_⟩
  obtain ⟨T, hT, heq, hmgu⟩ := hzip hmem
  have hsys : PlainSystem sys := plain_of_mem_systems h (List.mem_filter.1 (List.of_mem_zip hmem).2).1
  have happly : ∀ t : Ty, t.Plain → t.apply S = t.apply T := by
    intro t ht
    rw [Ty.apply_eq_subst ht.wellFormed, Ty.apply_eq_subst ht.wellFormed]
    exact Ty.subst_congr fun v _ => (heq v).trans (Ty.apply_var T v)
  refine ⟨fun e he => ?_, fun θ hθ v => ?_⟩
  · rw [happly _ (hsys e he).1, happly _ (hsys e he).2]
    exact hmgu.1 e he
  · rw [happly _ (.var v)]
    exact hmgu.2 θ hθ v

/-- Of the four choices for two overloaded functions, one applied to the result of
the other, two have a unifier. -/
theorem resolution_exact_two_overloads :
    let eqs : List (Ty × Ty) :=
      [(.fn (.var 0) (.var 1), .overload [.fn (.prim .int) (.prim .int), .fn (.prim .int) (.prim .string)]),
        (.fn (.var 1) (.var 2), .overload [.fn (.prim .string) (.prim .path), .fn (.prim .int) (.prim .bool)])]
    (∀ e ∈ eqs, Resolvable e.1 e.2) ∧ (solve (equations eqs) 3 none).substs.size = 2 ∧
    List.Forall₂ IsMgu (solve (equations eqs) 3 none).substs.toList (unifiableSystems eqs) := by
  intro eqs
  have hplain : ∀ p q : Prim, (Ty.fn (.prim p) (.prim q)).Plain := fun p q => .fn (.prim p) (.prim q)
  have hresolvable : ∀ e ∈ eqs, Resolvable e.1 e.2 := by
    intro e he
    simp only [eqs, List.mem_cons, List.not_mem_nil, or_false] at he
    rcases he with rfl | rfl
    · exact ⟨.fn (.var 0) (.var 1), .inr ⟨⟨_, _, rfl⟩, _, rfl, by decide, by decide, by simp [hplain]⟩⟩
    · exact ⟨.fn (.var 1) (.var 2), .inr ⟨⟨_, _, rfl⟩, _, rfl, by decide, by decide, by simp [hplain]⟩⟩
  exact ⟨hresolvable, by decide_cbv, resolution_exact hresolvable 3⟩

end NixTyping
