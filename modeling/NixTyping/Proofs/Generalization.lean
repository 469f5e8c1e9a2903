import NixTyping.Proofs.Satisfaction
/-!
# Generalisation is safe

When an implicit instance is solved, the variables it quantifies are active
nowhere else, and they stay so: no later step touches them. The type of the
instance therefore fits an instance of the bound type in every solution below,
by a substitution that leaves the variables of the context alone.
-/

namespace NixTyping

open Search

section Discharge
variable {k : Nat} {n : Node} {t b : Ty} {M : VarSet} {others : List Constraint}

/-- Right after its discharge, a quantified variable is active nowhere. -/
theorem inactive_of_discharge (htidy : Tidy k n)
    (htake : Constraint.takeSolvable n.constraints = some (.implicit t M b, others))
    (hprivate : ∀ v ∈ (Scheme.generalize M b).vars, v ∉ t.free) {v : Nat} (hv : v ∈ (Scheme.generalize M b).vars) :
    Inactive v k ⟨n.subst, .explicit t (.generalize M b) :: others⟩ := by
  obtain ⟨hb, hM⟩ := Scheme.mem_vars_generalize.1 hv
  refine ⟨htidy.mentioned _ ((Constraint.mem_of_takeSolvable htake).2 (.inl rfl)) v (.inr hb), fun c hc => ?_⟩
  obtain ⟨_, _, _, _, hsolvable⟩ := Constraint.takeSolvable_some htake
  rcases List.mem_cons.1 hc with rfl | hc
  · intro hactive
    rcases VarSet.mem_union.1 hactive with ht | hfree
    · exact hprivate v hv ht
    · exact hM (Scheme.mem_free_generalize.1 hfree).2
  · exact Constraint.solvable_implicit hsolvable hb hM hc

/-- The explicit instance of a discharge is solved next. -/
theorem ends_after_discharge {S : Subst} {σ : Scheme} (h : Ends k ⟨n.subst, .explicit t σ :: others⟩ S) :
    ∃ k₁ ≥ k, Ends (k₁ + σ.vars.length) ⟨n.subst, .eq t (σ.ty.apply (σ.freshening k₁)) :: others⟩ S := by
  have hfirst : Constraint.takeSolvable (.explicit t σ :: others) = some (.explicit t σ, others) :=
    Constraint.takeSolvable_cons rfl
  obtain ⟨k', leaf, hpath, hleaf, hS⟩ := h
  cases hpath with
  | refl _ _ => cases hleaf
  | step wait head tail =>
    cases head with
    | unify take _ => cases hfirst.symm.trans take
    | generalize take => cases hfirst.symm.trans take
    | instantiate take =>
      cases hfirst.symm.trans take
      exact ⟨_, wait, k', leaf, tail, hleaf, hS⟩

/-- Where the quantified variables are left alone, the fresh ones can be put in
afterwards. -/
theorem subst_instance {f : Nat → Ty} (σ : Scheme) (hσ : σ.ty.WellFormed) (hf : ∀ v, (f v).WellFormed)
    (havoids : ∀ v ∈ σ.vars, Avoids f v) (next : Nat) :
    (σ.ty.subst f).apply (.tabulate (fun v => ((σ.freshening next).toFun v).subst f) σ.vars) =
      (σ.ty.apply (σ.freshening next)).subst f := by
  have hfresh : (σ.freshening next).WellFormed := σ.all_freshening next
  have hρ : ∀ v, (((σ.freshening next).toFun v).subst f).WellFormed := fun v => (hfresh.toFun v).subst fun w _ => hf w
  have htab : (Subst.tabulate (fun v => ((σ.freshening next).toFun v).subst f) σ.vars).WellFormed := by
    intro v u hu
    rw [Subst.get?_tabulate] at hu
    split at hu
    · exact Option.some.inj hu ▸ hρ v
    · cases hu
  rw [Ty.apply_eq_subst (hσ.subst fun v _ => hf v), Ty.subst_subst hσ (fun v _ => hf v) fun v _ => htab.toFun v,
    Ty.apply_eq_subst hσ, Ty.subst_subst hσ (fun v _ => hfresh.toFun v) fun v _ => hf v]
  -- a quantified variable is still there to be replaced, and in no image of another one
  refine Ty.subst_congr fun v _ => ?_
  by_cases hv : v ∈ σ.vars
  · rw [(havoids v hv).1, Ty.subst_var]
    exact Subst.toFun_of_some (by rw [Subst.get?_tabulate, if_pos hv])
  · rw [Subst.toFun_of_none (Scheme.get?_freshening_of_not_mem hv), Ty.subst_var]
    refine Ty.subst_eq_self (hf v) fun w hw => Subst.toFun_of_none ?_
    rw [Subst.get?_tabulate, if_neg]
    intro hq
    exact hv ((havoids w hq).2 v hw ▸ hq)

/-- No step below touches a variable that is active nowhere. -/
theorem untouched_of_inactive {v k' : Nat} {n' : Node} {l r : Ty} {others' : List Constraint} {su : Subst}
    (hv : Inactive v k n) (hpath : Path k n k' n')
    (htake : Constraint.takeSolvable n'.constraints = some (.eq l r, others')) (hsu : su ∈ (l.unify r).substs) :
    su.get? v = none ∧ ∀ w u, su.get? w = some u → v ∉ u.free := by
  have hactive := (hpath.inactive hv).2 _ ((Constraint.mem_of_takeSolvable htake).2 (.inl rfl))
  have hsolved := solvedIn_of_mem_unify hsu
  refine ⟨?_, fun w u hw hfree => hactive (hsolved.range w u hw v hfree).1⟩
  cases hget : su.get? v with
  | none => rfl
  | some u => exact absurd (hsolved.bound v u hget) hactive

/-- Every solution below a discharge has the instance it asked for. -/
theorem instance_of_discharge {S : Subst} (hn : n.WellFormed) (htidy : Tidy k n)
    (htake : Constraint.takeSolvable n.constraints = some (.implicit t M b, others))
    (hprivate : ∀ v ∈ (Scheme.generalize M b).vars, v ∉ t.free)
    (hS : Ends k ⟨n.subst, .explicit t (.generalize M b) :: others⟩ S) :
    ∃ θ : Subst, (∀ v ∈ S.image M, θ.get? v = none) ∧ (t.apply S).Fits ((b.apply S).apply θ) := by
  have hmem := (Constraint.mem_of_takeSolvable htake).2 (.inl rfl)
  have htb : t.WellFormed ∧ b.WellFormed := hn.constraints _ hmem
  have hgen : Step k n k ⟨n.subst, .explicit t (.generalize M b) :: others⟩ := .generalize htake
  obtain ⟨k₁, hk₁, k', leaf, htail, hleaf, rfl⟩ := ends_after_discharge hS
  have hinst : Step k₁ ⟨n.subst, .explicit t (.generalize M b) :: others⟩ _ _ :=
    .instantiate (Constraint.takeSolvable_cons rfl)
  obtain ⟨f, hf⟩ := exists_completes htail (hinst.wellFormed (hgen.wellFormed hn)) hleaf
  have havoids : ∀ v ∈ (Scheme.generalize M b).vars, Avoids f v := by
    intro v hv
    obtain ⟨hlt, hinactive⟩ := inactive_of_discharge htidy htake hprivate hv
    exact hf.avoids v (hinst.inactive ⟨Nat.lt_of_lt_of_le hlt hk₁, hinactive⟩)
  -- the solution changes what the constraint has by `f` alone
  have himage : ∀ v, (Constraint.implicit t M b).Mentions v ∨ v ∈ M → leaf.subst.toFun v = f v := by
    intro v hv
    rw [hf.subst v, Subst.toFun_of_none (htidy.unbound _ hmem v hv), Ty.subst_var]
  refine ⟨.tabulate (fun v => (((Scheme.generalize M b).freshening k₁).toFun v).subst f) (Scheme.generalize M b).vars,
    fun v hv => ?_, ?_⟩
  · obtain ⟨m, hm, hv⟩ := Subst.mem_image.1 hv
    rw [himage m (.inr hm)] at hv
    rw [Subst.get?_tabulate, if_neg]
    intro hq
    exact (Scheme.mem_vars_generalize.1 hq).2 ((havoids v hq).2 m hv ▸ hm)
  · rw [Ty.apply_eq_subst htb.1, Ty.apply_eq_subst htb.2, Ty.subst_congr fun v hv => himage v (.inl (.inl hv)),
      Ty.subst_congr fun v hv => himage v (.inl (.inr hv))]
    have hfits : (t.subst f).Fits _ := hf.holds _ List.mem_cons_self
    have hlater : (b.subst f).apply _ = _ := subst_instance (.generalize M b) htb.2 hf.wellFormed havoids k₁
    rw [hlater]
    exact hfits

end Discharge

/-- No step after a discharge binds a quantified variable or brings one in, and
every solution below it has the discharged instance, up to a substitution that
leaves alone what is free in the image of the context. The solutions of a list of
constraints are the ends of paths from its root. -/
theorem generalization_safe {cs : List Constraint} {next : Nat} (hwf : ∀ c ∈ cs, c.WellFormed)
    (hbelow : ∀ c ∈ cs, ∀ v, c.Mentions v → v < next) :
    (∀ limit, ∀ S ∈ (solve cs next limit).substs, Ends next ⟨∅, cs⟩ S) ∧
    ∀ k n t M b others, Path next ⟨∅, cs⟩ k n →
      Constraint.takeSolvable n.constraints = some (.implicit t M b, others) →
      (∀ v ∈ (Scheme.generalize M b).vars, v ∉ t.free) →
      (∀ k' n' l r others' su, Path k ⟨n.subst, .explicit t (.generalize M b) :: others⟩ k' n' →
        Constraint.takeSolvable n'.constraints = some (.eq l r, others') → su ∈ (l.unify r).substs →
        ∀ v ∈ (Scheme.generalize M b).vars, su.get? v = none ∧ ∀ w u, su.get? w = some u → v ∉ u.free) ∧
      ∀ S, Ends k ⟨n.subst, .explicit t (.generalize M b) :: others⟩ S →
        ∃ θ : Subst, (∀ v ∈ S.image M, θ.get? v = none) ∧ (t.apply S).Fits ((b.apply S).apply θ) := by
  refine ⟨fun limit S hS => ends_of_mem_solve hS, fun k n t M b others hpath htake hprivate => ?_⟩
  have htidy : Tidy k n := hpath.tidy (tidy_root hbelow)
  have hn : n.WellFormed := hpath.wellFormed ⟨Subst.all_empty, hwf⟩
  refine ⟨fun k' n' l r others' su hpath' htake' hsu v hv => ?_, fun S hS => ?_⟩
  · exact untouched_of_inactive (inactive_of_discharge htidy htake hprivate hv) hpath' htake' hsu
  · exact instance_of_discharge hn htidy htake hprivate hS

/-- A variable of the context is bound after the discharge. -/
theorem generalization_safe_before_equality :
    let M : VarSet := .ofList [0]
    let b : Ty := .fn (.var 1) (.var 0)
    let others : List Constraint := [.eq (.var 0) (.fn (.var 3) (.prim .int))]
    let cs : List Constraint := .implicit (.var 2) M b :: others
    let S : Subst := .ofList [(0, .fn (.var 3) (.prim .int)), (2, .fn (.var 4) (.fn (.var 3) (.prim .int)))]
    (∀ c ∈ cs, c.WellFormed) ∧ (∀ c ∈ cs, ∀ v, c.Mentions v → v < 4) ∧ S ∈ (solve cs 4 none).substs ∧
    ∃ θ : Subst, (∀ v ∈ S.image M, θ.get? v = none) ∧ ((Ty.var 2).apply S).Fits ((b.apply S).apply θ) := by
  intro M b others cs S
  have hwf : ∀ c ∈ cs, c.WellFormed := by simp [cs, others, b, Constraint.WellFormed]
  have hbelow : ∀ c ∈ cs, ∀ v, c.Mentions v → v < 4 := by
    simp only [cs, others, b, List.mem_cons, List.not_mem_nil, or_false, forall_eq_or_imp, forall_eq,
      Constraint.Mentions, Ty.mem_free_var, Ty.mem_free_fn, Ty.mem_free_prim]
    omega
  have hfirst : Subst.single 2 (.fn (.var 4) (.var 0)) ∈ ((Ty.var 2).unify (.fn (.var 4) (.var 0))).substs := by
    decide_cbv
  have hsecond : Subst.single 0 (.fn (.var 3) (.prim .int)) ∈
      ((Ty.var 0).unify (.fn (.var 3) (.prim .int))).substs := by
    decide_cbv
  have hends : Ends 4 ⟨∅, .explicit (.var 2) (.generalize M b) :: others⟩ S :=
    ⟨5, _, .step (Nat.le_refl 4) (.instantiate rfl) (.step (Nat.le_refl 5) (.unify rfl hfirst)
      (.step (Nat.le_refl 5) (.unify rfl hsecond) (.refl _ (Nat.le_refl 5)))), rfl, by decide_cbv⟩
  obtain ⟨-, hsafe⟩ := generalization_safe hwf hbelow
  have hroot := hsafe 4 ⟨∅, cs⟩ (.var 2) M b others (.refl _ (Nat.le_refl 4)) (by decide_cbv) (by decide_cbv)
  exact ⟨hwf, hbelow, by decide_cbv, hroot.2 S hends⟩

end NixTyping
