import NixTyping.Proofs.DepthFirst
import NixTyping.Proofs.Generalization
import NixTyping.Proofs.Layout
import NixTyping.Proofs.MostGeneral
/-!
# Most general solutions of laid out constraints

Equalities and implicit instances between plain types, in a layout, have at most
one solution in the search. It satisfies the constraints, and every function that
satisfies them factors through it once it has values for the fresh variables
(`Search.adds_outcome`). Without a solution in the search nothing satisfies the
constraints.
-/

namespace NixTyping

/-! ## Satisfaction along a step -/

namespace Constraint

theorem Over.apply {U : Set Nat} {c : Constraint} (hc : c.Over U) {su : Subst} (hplain : su.Plain)
    (hsolved : su.SolvedIn U) : (c.apply su).Over U := by
  have hty : ∀ t : Ty, t.Over U → (t.apply su).Over U :=
    fun t ht => ⟨hplain.apply ht.1, fun v hv => (hsolved.free_apply ht.2 hv).1⟩
  cases c with
  | eq l r => exact ⟨hty l hc.1, hty r hc.2⟩
  | explicit t σ => exact hc
  | implicit t M b =>
    refine ⟨hty t hc.1, hty b hc.2.1, fun v hv => ?_⟩
    obtain ⟨w, hw, hv⟩ := Subst.mem_image.1 hv
    obtain ⟨-, rfl | hU⟩ := hsolved.of_mem_toFun hv
    · exact hc.2.2 v hw
    · exact hU

/-- What satisfies a constraint after a substitution satisfies it before, behind the
substitution. -/
theorem Sat.of_apply {U : Set Nat} {c : Constraint} (hc : c.Over U) {su : Subst} {f : Nat → Ty}
    (h : (c.apply su).Sat f) : c.Sat fun v => (su.toFun v).subst f := by
  have hsubst : ∀ t : Ty, t.Over U → (t.apply su).subst f = t.subst fun v => (su.toFun v).subst f := by
    intro t ht
    rw [Ty.apply_eq_subst ht.1.wellFormed, ht.1.subst_subst]
  cases c with
  | eq l r =>
    show l.subst _ = r.subst _
    rw [← hsubst l hc.1, ← hsubst r hc.2]
    exact h
  | explicit t σ => trivial
  | implicit t M b =>
    obtain ⟨ρ, hρ, hfixed, heq⟩ := h
    refine ⟨ρ, hρ, fun m hm v hv => ?_, by rw [← hsubst t hc.1, ← hsubst b hc.2.1]; exact heq⟩
    obtain ⟨w, hw, hv⟩ := Ty.mem_free_subst.1 hv
    exact hfixed w (Subst.mem_image.2 ⟨m, hm, hw⟩) v hv

/-- What factors through a substitution satisfies a constraint after it as well. -/
theorem Sat.apply {U : Set Nat} {c : Constraint} (hc : c.Over U) {su : Subst} {θ : Nat → Ty}
    (hfac : FactorsThrough θ su) (h : c.Sat θ) : (c.apply su).Sat θ := by
  cases c with
  | eq l r =>
    show (l.apply su).subst θ = (r.apply su).subst θ
    rw [hfac.subst hc.1.1.uniform, hfac.subst hc.2.1.uniform]
    exact h
  | explicit t σ => trivial
  | implicit t M b =>
    obtain ⟨ρ, hρ, hfixed, heq⟩ := h
    refine ⟨ρ, hρ, fun m hm v hv => ?_, by rw [hfac.subst hc.1.1.uniform, hfac.subst hc.2.1.1.uniform]; exact heq⟩
    obtain ⟨w, hw, hm⟩ := Subst.mem_image.1 hm
    refine hfixed w hw v ?_
    rw [← hfac w, Ty.mem_free_subst]
    exact ⟨m, hm, hv⟩

end Constraint

/-! ## Fresh variables -/

/-- A function with values for the variables from `k` on that stand for `vars`. -/
def instantiated (θ ρ : Nat → Ty) (k : Nat) (vars : List Nat) (v : Nat) : Ty :=
  if v < k then θ v else
    match vars[v - k]? with
    | some q => (θ q).subst ρ
    | none => θ v

section Instantiated
variable {θ ρ : Nat → Ty} {k : Nat} {vars : List Nat}

theorem instantiated_of_lt {v : Nat} (h : v < k) : instantiated θ ρ k vars v = θ v := if_pos h

theorem instantiated_add {i q : Nat} (h : vars[i]? = some q) : instantiated θ ρ k vars (k + i) = (θ q).subst ρ := by
  rw [instantiated, if_neg (by omega), Nat.add_sub_cancel_left, h]

theorem wellFormed_instantiated (hθ : ∀ v, (θ v).WellFormed) (hρ : ∀ v, (ρ v).WellFormed) (v : Nat) :
    (instantiated θ ρ k vars v).WellFormed := by
  unfold instantiated
  split
  · exact hθ v
  · split
    · exact (hθ _).subst fun w _ => hρ w
    · exact hθ v

/-- An instance of a scheme takes the value of any instance of its image. -/
theorem subst_instantiated {σ : Scheme} (hσ : σ.ty.Over {v | v < k}) (hθ : ∀ v, (θ v).WellFormed)
    (hfixed : ∀ v ∈ σ.free, ∀ w ∈ (θ v).free, ρ w = .var w) :
    (σ.ty.apply (σ.freshening k)).subst (instantiated θ ρ k σ.vars) = (σ.ty.subst θ).subst ρ := by
  rw [Ty.apply_eq_subst hσ.1.wellFormed, hσ.1.subst_subst, hσ.1.subst_subst]
  refine Ty.subst_congr fun v hv => ?_
  by_cases hq : v ∈ σ.vars
  · obtain ⟨i, hi, hget⟩ := Scheme.get?_freshening_of_mem k hq
    rw [Subst.toFun_of_some hget, Ty.subst_var, instantiated_add hi]
  · rw [Subst.toFun_of_none (Scheme.get?_freshening_of_not_mem hq), Ty.subst_var, instantiated_of_lt (hσ.2 v hv)]
    exact (Ty.subst_eq_self (hθ v) (hfixed v (Scheme.mem_free.2 ⟨hv, hq⟩))).symm

end Instantiated

/-- The instance of a generalised type with the variables from `k` on. -/
abbrev freshInstance (M : VarSet) (b : Ty) (k : Nat) : Ty :=
  (Scheme.generalize M b).ty.apply ((Scheme.generalize M b).freshening k)

theorem free_freshInstance {M : VarSet} {b : Ty} {k v : Nat} (h : v ∈ (freshInstance M b k).free) :
    (v ∈ b.free ∧ v ∈ M) ∨ (k ≤ v ∧ v < k + (Scheme.generalize M b).vars.length) :=
  (Scheme.free_instance h).imp_left Scheme.mem_free_generalize.1

/-- What satisfies an instance and leaves the quantified variables alone satisfies the
implicit instance. -/
theorem Constraint.sat_of_instance {t b : Ty} {M : VarSet} {f : Nat → Ty} (hb : b.WellFormed)
    (hf : ∀ v, (f v).WellFormed) (havoids : ∀ v ∈ (Scheme.generalize M b).vars, Avoids f v) {k : Nat}
    (h : t.subst f = (freshInstance M b k).subst f) :
    (Constraint.implicit t M b).Sat f := by
  have hfresh : ((Scheme.generalize M b).freshening k).WellFormed := Scheme.all_freshening _ k
  refine ⟨(Subst.tabulate (fun v => (((Scheme.generalize M b).freshening k).toFun v).subst f)
    (Scheme.generalize M b).vars).toFun, fun v => ?_, fun m hm v hv => ?_, ?_⟩
  · refine Subst.All.toFun (P := Ty.WellFormed) (fun w u hw => ?_) v
    rw [Subst.get?_tabulate] at hw
    split at hw
    · exact Option.some.inj hw ▸ (hfresh.toFun w).subst fun x _ => hf x
    · cases hw
  · refine Subst.toFun_of_none ?_
    rw [Subst.get?_tabulate, if_neg]
    intro hq
    exact (Scheme.mem_vars_generalize.1 hq).2 ((havoids v hq).2 m hv ▸ hm)
  · rw [h, ← subst_instance _ hb hf havoids k]
    exact Ty.apply_eq_subst (hb.subst fun v _ => hf v) _

/-- What satisfies the implicit instance satisfies every instance, with values for
the fresh variables. -/
theorem Constraint.exists_instance {t b : Ty} {M : VarSet} {k : Nat} (hc : (Constraint.implicit t M b).Over {v | v < k})
    {θ : Nat → Ty} (hθ : ∀ v, (θ v).WellFormed) (h : (Constraint.implicit t M b).Sat θ) :
    ∃ θ' : Nat → Ty, (∀ v, (θ' v).WellFormed) ∧ (∀ v, v < k → θ' v = θ v) ∧
      t.subst θ' = (freshInstance M b k).subst θ' := by
  obtain ⟨ρ, hρ, hfixed, heq⟩ := h
  refine ⟨instantiated θ ρ k (Scheme.generalize M b).vars, wellFormed_instantiated hθ hρ,
    fun v hv => instantiated_of_lt hv, ?_⟩
  rw [subst_instantiated hc.2.1 hθ fun v hv => hfixed v (Scheme.mem_free_generalize.1 hv).2,
    Ty.subst_congr fun v hv => instantiated_of_lt (hc.1.2 v hv)]
  exact heq

/-! ## Solutions along a step -/

/-- The function satisfies the constraints, leaves alone what is active nowhere, and
whatever satisfies the constraints factors through it, with other values from `k`
on. -/
structure PrincipalSolution (k : Nat) (cs : List Constraint) (T : Nat → Ty) : Prop where
  plain : ∀ v, (T v).Plain
  sat : ∀ c ∈ cs, c.Sat T
  avoids : ∀ v, v < k → (∀ c ∈ cs, v ∉ c.active) → Avoids T v
  general : ∀ θ : Nat → Ty, (∀ v, (θ v).WellFormed) → (∀ c ∈ cs, c.Sat θ) →
    ∃ θ' : Nat → Ty, (∀ v, (θ' v).WellFormed) ∧ (∀ v, v < k → θ' v = θ v) ∧ ∀ v, (T v).subst θ' = θ' v

namespace PrincipalSolution
variable {k : Nat} {cs others : List Constraint} {T : Nat → Ty}

theorem nil (k : Nat) : PrincipalSolution k [] .var where
  plain := .var
  sat _ hc := (nomatch hc)
  avoids v _ _ := avoids_var v
  general θ hθ _ := ⟨θ, hθ, fun _ _ => rfl, fun _ => rfl⟩

/-- Back over an equality. -/
theorem of_unify {l r : Ty} {su : Subst} (hover : ∀ c ∈ cs, c.Over {v | v < k})
    (hmem : ∀ c, c ∈ cs ↔ c = .eq l r ∨ c ∈ others) (hsu : MostGeneral l r su)
    (h : PrincipalSolution k (others.map (Constraint.apply su)) T) :
    PrincipalSolution k cs fun v => (su.toFun v).subst T := by
  have heq : (Constraint.eq l r).Over {v | v < k} := hover _ ((hmem _).2 (.inl rfl))
  refine ⟨fun v => (hsu.plain.toFun v).subst fun w _ => h.plain w, fun c hc => ?_, fun v hv hactive => ?_,
    fun θ hθ hsat => ?_⟩
  · rcases (hmem c).1 hc with rfl | hc
    · refine Constraint.Sat.of_apply heq ?_
      show (l.apply su).subst T = (r.apply su).subst T
      rw [hsu.equal]
    · exact (h.sat _ (List.mem_map_of_mem hc)).of_apply (hover c ((hmem c).2 (.inr hc)))
  · have hsolved : Avoids su.toFun v := hsu.solved.avoids fun hfree =>
      hactive _ ((hmem _).2 (.inl rfl)) (VarSet.mem_union.2 hfree)
    refine hsolved.comp (h.avoids v hv fun d hd hact => ?_)
    obtain ⟨c, hc, rfl⟩ := List.mem_map.1 hd
    exact hactive c ((hmem c).2 (.inr hc)) (Search.mem_active_apply hsolved hact)
  · have hlr : l.subst θ = r.subst θ := hsat _ ((hmem _).2 (.inl rfl))
    have hfac : FactorsThrough θ su := hsu.general θ hlr
    obtain ⟨θ', hθ', hagree, hT⟩ := h.general θ hθ fun d hd => by
      obtain ⟨c, hc, rfl⟩ := List.mem_map.1 hd
      exact (hsat c ((hmem c).2 (.inr hc))).apply (hover c ((hmem c).2 (.inr hc))) hfac
    have hlr' : l.subst θ' = r.subst θ' := by
      rw [Ty.subst_congr fun v hv => hagree v (heq.1.2 v hv), Ty.subst_congr fun v hv => hagree v (heq.2.2 v hv), hlr]
    refine ⟨θ', hθ', hagree, fun v => ?_⟩
    show ((su.toFun v).subst T).subst θ' = θ' v
    rw [(hsu.plain.toFun v).subst_subst, Ty.subst_congr fun w _ => hT w]
    exact hsu.general θ' hlr' v

/-- Back over an implicit instance whose quantified variables are private. -/
theorem of_instantiate {t b : Ty} {M : VarSet} {k₁ k₂ : Nat} (hover : ∀ c ∈ cs, c.Over {v | v < k})
    (hmem : ∀ c, c ∈ cs ↔ c = .implicit t M b ∨ c ∈ others) (hk : k ≤ k₁) (hk₂ : k₁ ≤ k₂)
    (hquantified : ∀ v ∈ b.free, v ∉ M → v ∉ t.free ∧ ∀ c ∈ others, v ∉ c.active)
    (h : PrincipalSolution k₂ (.eq t (freshInstance M b k₁) :: others) T) : PrincipalSolution k cs T := by
  have himp : (Constraint.implicit t M b).Over {v | v < k} := hover _ ((hmem _).2 (.inl rfl))
  -- the quantified variables are active nowhere, also not in the instance that is to be solved
  have havoids : ∀ v ∈ (Scheme.generalize M b).vars, Avoids T v := by
    intro v hv
    obtain ⟨hb, hM⟩ := Scheme.mem_vars_generalize.1 hv
    have hlt : v < k := himp.2.1.2 v hb
    refine h.avoids v (by omega) fun c hc hactive => ?_
    rcases List.mem_cons.1 hc with rfl | hc
    · rcases VarSet.mem_union.1 hactive with ht | hi
      · exact (hquantified v hb hM).1 ht
      · rcases free_freshInstance hi with ⟨-, hM'⟩ | hle
        · exact hM hM'
        · omega
    · exact (hquantified v hb hM).2 c hc hactive
  refine ⟨h.plain, fun c hc => ?_, fun v hv hactive => ?_, fun θ hθ hsat => ?_⟩
  · rcases (hmem c).1 hc with rfl | hc
    · exact Constraint.sat_of_instance himp.2.1.1.wellFormed (fun v => (h.plain v).wellFormed) havoids
        (h.sat _ List.mem_cons_self)
    · exact h.sat c (by simp [hc])
  · refine h.avoids v (by omega) fun c hc hact => ?_
    rcases List.mem_cons.1 hc with rfl | hc
    · have hnot := hactive _ ((hmem _).2 (.inl rfl))
      simp only [Constraint.active, VarSet.mem_union, VarSet.mem_inter, not_or] at hnot
      rcases VarSet.mem_union.1 hact with ht | hi
      · exact hnot.1 ht
      · rcases free_freshInstance hi with hbM | hle
        · exact hnot.2 hbM.symm
        · omega
    · exact hactive c ((hmem c).2 (.inr hc)) hact
  · have himp₁ : (Constraint.implicit t M b).Over {v | v < k₁} := himp.mono fun v hv => Nat.lt_of_lt_of_le hv hk
    -- give the fresh variables their values first, and factor afterwards
    obtain ⟨θ₁, hθ₁, hagree₁, heq⟩ := Constraint.exists_instance himp₁ hθ (hsat _ ((hmem _).2 (.inl rfl)))
    have hsame : ∀ v, v < k → θ₁ v = θ v := fun v hv => hagree₁ v (by omega)
    obtain ⟨θ', hθ', hagree, hT⟩ := h.general θ₁ hθ₁ fun c hc => by
      rcases List.mem_cons.1 hc with rfl | hc
      · exact heq
      · exact (hsat c ((hmem c).2 (.inr hc))).congr (hover c ((hmem c).2 (.inr hc))) hsame
    refine ⟨θ', hθ', fun v hv => ?_, hT⟩
    rw [hagree v (by omega), hsame v hv]

end PrincipalSolution

/-! ## The outcome of the search -/

namespace Search

/-- Nothing is added and nothing satisfies the constraints, or one solution is added
and it is principal, behind the substitution so far. -/
def Outcome (k : Nat) (s : Subst) (cs : List Constraint) (ss : List Subst) : Prop :=
  (ss = [] ∧ ∀ θ : Nat → Ty, (∀ v, (θ v).WellFormed) → ¬ ∀ c ∈ cs, c.Sat θ) ∨
  ∃ S T, ss = [S] ∧ PrincipalSolution k cs T ∧ ∀ v, S.toFun v = (s.toFun v).subst T

theorem Outcome.of_unify {k : Nat} {s su : Subst} {cs others : List Constraint} {l r : Ty} {ss : List Subst}
    (hs : s.Plain) (hover : ∀ c ∈ cs, c.Over {v | v < k}) (hmem : ∀ c, c ∈ cs ↔ c = .eq l r ∨ c ∈ others)
    (hsu : MostGeneral l r su) (h : Outcome k (su.compose s) (others.map (Constraint.apply su)) ss) :
    Outcome k s cs ss := by
  rcases h with ⟨rfl, hnone⟩ | ⟨S, T, rfl, hT, hS⟩
  · refine .inl ⟨rfl, fun θ hθ hsat => hnone θ hθ fun d hd => ?_⟩
    obtain ⟨c, hc, rfl⟩ := List.mem_map.1 hd
    have hc := (hmem c).2 (.inr hc)
    exact (hsat c hc).apply (hover c hc) (hsu.general θ (hsat _ ((hmem _).2 (.inl rfl))))
  · refine .inr ⟨S, _, rfl, hT.of_unify hover hmem hsu, fun v => ?_⟩
    rw [hS, Subst.toFun_compose, Ty.apply_eq_subst (hs.toFun v).wellFormed, (hs.toFun v).subst_subst]

theorem Outcome.of_instantiate {k k₁ k₂ : Nat} {s : Subst} {cs others : List Constraint} {t b : Ty} {M : VarSet}
    {ss : List Subst} (hover : ∀ c ∈ cs, c.Over {v | v < k})
    (hmem : ∀ c, c ∈ cs ↔ c = .implicit t M b ∨ c ∈ others) (hk : k ≤ k₁) (hk₂ : k₁ ≤ k₂)
    (hquantified : ∀ v ∈ b.free, v ∉ M → v ∉ t.free ∧ ∀ c ∈ others, v ∉ c.active)
    (h : Outcome k₂ s (.eq t (freshInstance M b k₁) :: others) ss) : Outcome k s cs ss := by
  rcases h with ⟨rfl, hnone⟩ | ⟨S, T, rfl, hT, hS⟩
  · refine .inl ⟨rfl, fun θ hθ hsat => ?_⟩
    have himp := (hover _ ((hmem _).2 (.inl rfl))).mono fun v hv => Nat.lt_of_lt_of_le hv hk
    obtain ⟨θ₁, hθ₁, hagree, heq⟩ := Constraint.exists_instance himp hθ (hsat _ ((hmem _).2 (.inl rfl)))
    refine hnone θ₁ hθ₁ fun c hc => ?_
    rcases List.mem_cons.1 hc with rfl | hc
    · exact heq
    · have hc := (hmem c).2 (.inr hc)
      exact (hsat c hc).congr (hover c hc) fun v hv => hagree v (Nat.lt_of_lt_of_le hv hk)
  · exact .inr ⟨S, T, rfl, hT.of_instantiate hover hmem hk hk₂ hquantified, hS⟩

/-- What the search adds below a laid out node. -/
theorem adds_outcome {k : Nat} {s : Subst} {cs : List Constraint} {D : List Region} (hs : s.Plain)
    (hover : ∀ c ∈ cs, c.Over {v | v < k}) (hD : Layout {v | v < k} D cs) : Adds k [⟨s, cs⟩] (Outcome k s cs) := by
  -- on the weight that every step of the search takes off
  induction hw : Constraint.weightAll cs using Nat.strongRecOn generalizing k s cs D with
  | ind w ih =>
    subst hw
    by_cases hne : cs = []
    · subst hne
      refine adds_leaf rfl (.inr ⟨s, .var, rfl, .nil k, fun v => ?_⟩)
      exact (Ty.subst_eq_self (hs.toFun v).wellFormed fun _ _ => rfl).symm
    obtain ⟨⟨c, others⟩, htake⟩ := Option.isSome_iff_exists.1 (hD.not_stuck hne)
    have hmem := fun d => Constraint.mem_of_takeSolvable htake (d := d)
    have hweight := Constraint.weight_takeSolvable htake
    have hothers : others ⊆ cs := fun d hd => (hmem d).2 (.inr hd)
    have hc : c ∈ cs := (hmem c).2 (.inl rfl)
    cases c with
    | eq l r =>
      refine adds_eq htake ?_
      have hlr := hover _ hc
      rcases Ty.unify_exact hlr.1.1 hlr.2.1 with ⟨hnone, hno⟩ | ⟨su, hsu, hgen⟩
      · rw [Node.children, hnone]
        exact adds_nil (.inl ⟨rfl, fun θ _ hsat => hno θ (hsat _ hc)⟩)
      · rw [Node.children, hsu]
        have hsolved : su.SolvedIn {v | v < k} := hgen.solved.mono fun v hv => hv.elim (hlr.1.2 v) (hlr.2.2 v)
        refine (ih _ ?_ (hgen.plain.compose hs) (fun d hd => ?_) (hD.unify hc hothers hgen.solved) rfl).imp
          fun ss => Outcome.of_unify hs hover hmem hgen
        · rw [Constraint.weightAll_map_apply, ← hweight]
          simp only [Constraint.weight]
          omega
        · obtain ⟨c, hc, rfl⟩ := List.mem_map.1 hd
          exact (hover c (hothers hc)).apply hgen.plain hsolved
    | explicit t σ => exact (hover _ hc).elim
    | implicit t M b =>
      obtain ⟨_, _, -, -, hsolvable⟩ := Constraint.takeSolvable_some htake
      have hquantified : ∀ v ∈ b.free, v ∉ M → v ∉ t.free ∧ ∀ c ∈ others, v ∉ c.active := fun v hv hM =>
        ⟨(hD.homed _ hc ⟨t, M, b, rfl⟩).quantified hv hM, fun c => Constraint.solvable_implicit hsolvable hv hM⟩
      refine adds_implicit htake (adds_explicit (Constraint.takeSolvable_cons rfl) fun k₁ hk => ?_)
      have hle : k₁ ≤ k₁ + (Scheme.generalize M b).vars.length := Nat.le_add_right _ _
      have hreach : ∀ d ∈ cs, ∀ v, d.Reaches v → v < k := fun d hd v hv => (hover d hd).reaches hv
      refine (ih _ ?_ hs (fun d hd => ?_) (hD.replace hreach hc hothers hk hle (fun v hv => ?_) (by simp)) rfl).imp
        fun ss => Outcome.of_instantiate hover hmem hk hle hquantified
      · rw [Constraint.weightAll, ← hweight]
        simp only [Constraint.weight]
        omega
      · rcases List.mem_cons.1 hd with rfl | hd
        · obtain ⟨ht, hb, -⟩ := hover _ hc
          refine ⟨ht.mono fun v hv => ?_, (Scheme.all_freshening _ _).apply hb.1, fun v hv => ?_⟩
          · exact Nat.lt_of_lt_of_le hv (Nat.le_trans hk hle)
          · rcases free_freshInstance hv with ⟨hv, -⟩ | hv
            · exact Nat.lt_of_lt_of_le (hb.2 v hv) (Nat.le_trans hk hle)
            · exact hv.2
        · exact (hover d (hothers hd)).mono fun v hv => Nat.lt_of_lt_of_le hv (Nat.le_trans hk hle)
      · rcases hv with hv | hv
        · exact .inl (.inl hv)
        · exact (free_freshInstance hv).imp_left fun hv => .inr hv.2

end Search

end NixTyping
