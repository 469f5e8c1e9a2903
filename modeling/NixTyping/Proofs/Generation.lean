import NixTyping.Judge.Judgment
import NixTyping.Proofs.HindleyMilner
import NixTyping.Proofs.SearchPath
/-!
# Constraints of the core language

`Judges M e J V` relates an expression of the core language to the judgments it
may get where the variables `M` are not to be generalised, and to the variables
`V` issued for it. The judgment is right: the functions that satisfy its
constraints are those that make its type a type of the expression. They give
typings (`Judges.hasType`), and every typing comes from one of them
(`Judges.exists_solution`).
-/

namespace NixTyping

/-- The judgments of an expression under `M`, with the variables issued for them. -/
inductive Judges : VarSet → Expr → Judgment → List Nat → Prop where
  | literal {M : VarSet} {id : Nat} {span : Option Span} (l : Literal) :
    Judges M (.mk id span (.literal l)) (.ofTy l.ty) []
  | ref {M : VarSet} {id : Nat} {span : Option Span} (x : String) (v : Nat) :
    Judges M (.mk id span (.ref x)) (.reference x (.var v)) [v]
  | lambda {M : VarSet} {id v : Nat} {span : Option Span} {x : String} {b : Expr} {J : Judgment} {V : List Nat}
    (body : Judges (M.insert v) b J V) : Judges M (.mk id span (.lambda (.name x) b)) (.lambda x (.var v) J) (v :: V)
  | apply {M : VarSet} {id v : Nat} {span : Option Span} {f a : Expr} {Jf Ja : Judgment} {Vf Va : List Nat}
    (fn : Judges M f Jf Vf) (arg : Judges M a Ja Va) :
    Judges M (.mk id span (.apply f a)) (.apply Jf Ja (.var v)) (Vf ++ Va ++ [v])
  | ifElse {M : VarSet} {id : Nat} {span : Option Span} {c y n : Expr} {Jc Jy Jn : Judgment} {Vc Vy Vn : List Nat}
    (cond : Judges M c Jc Vc) (yes : Judges M y Jy Vy) (no : Judges M n Jn Vn) :
    Judges M (.mk id span (.ifElse c y n)) (.ifElse Jc Jy Jn) (Vc ++ Vy ++ Vn)
  | letIn {M : VarSet} {id : Nat} {span : Option Span} {x : String} {d b : Expr} {Jd Jb : Judgment} {Vd Vb : List Nat}
    (definition : Judges M d Jd Vd) (body : Judges M b Jb Vb) :
    Judges M (.mk id span (.letIn ⟨[(x, .expr d)], [], []⟩ b)) (.letIn [(x, Jd.ty)] [Jd] Jb M) (Vd ++ Vb)

/-! ## Assumptions and constraints of the rules -/

namespace Assumptions

theorem mem_lookup {a : Assumptions} {x : String} {o : Ty} : o ∈ a.lookup x ↔ (x, o) ∈ a.entries := by
  simp [lookup]

theorem mem_remove {a : Assumptions} {x y : String} {o : Ty} :
    (y, o) ∈ (a.remove x).entries ↔ (y, o) ∈ a.entries ∧ y ≠ x := by
  simp [remove]

end Assumptions

namespace Judgment

theorem mem_constraints_apply {f a : Judgment} {t : Ty} {c : Constraint} :
    c ∈ (Judgment.apply f a t).constraints ↔ (c ∈ f.constraints ∨ c ∈ a.constraints) ∨ c = .eq f.ty (.fn a.ty t) := by
  simp [apply, merged, require, or_assoc]

theorem mem_assumptions_apply {f a : Judgment} {t : Ty} {e : String × Ty} :
    e ∈ (Judgment.apply f a t).assumptions.entries ↔ e ∈ f.assumptions.entries ∨ e ∈ a.assumptions.entries := by
  simp [apply, merged, require]

theorem mem_constraints_ifElse {j y n : Judgment} {c : Constraint} :
    c ∈ (Judgment.ifElse j y n).constraints ↔
      (c ∈ j.constraints ∨ c ∈ y.constraints ∨ c ∈ n.constraints) ∨ c = .eq j.ty .bool ∨ c = .eq y.ty n.ty := by
  simp [ifElse, merged, require, or_assoc]

theorem mem_assumptions_ifElse {j y n : Judgment} {e : String × Ty} :
    e ∈ (Judgment.ifElse j y n).assumptions.entries ↔
      e ∈ j.assumptions.entries ∨ e ∈ y.assumptions.entries ∨ e ∈ n.assumptions.entries := by
  simp [ifElse, merged, require]

theorem mem_constraints_lambda {x : String} {t : Ty} {j : Judgment} {c : Constraint} :
    c ∈ (Judgment.lambda x t j).constraints ↔
      c ∈ j.constraints ∨ ∃ o, (x, o) ∈ j.assumptions.entries ∧ c = .eq o t := by
  simp [lambda, tie, Assumptions.mem_lookup, eq_comm]

theorem mem_assumptions_lambda {x y : String} {t o : Ty} {j : Judgment} :
    (y, o) ∈ (Judgment.lambda x t j).assumptions.entries ↔ (y, o) ∈ j.assumptions.entries ∧ y ≠ x :=
  Assumptions.mem_remove

theorem mem_constraints_letIn {x : String} {d b : Judgment} {M : VarSet} {c : Constraint} :
    c ∈ (Judgment.letIn [(x, d.ty)] [d] b M).constraints ↔
      (c ∈ d.constraints ∨ c ∈ b.constraints) ∨
        ∃ o, (x, o) ∈ b.assumptions.entries ∧ c = .implicit o M d.ty := by
  simp [letIn, Assumptions.mem_lookup, eq_comm, or_assoc]

theorem mem_assumptions_letIn {x y : String} {d b : Judgment} {M : VarSet} {o : Ty} :
    (y, o) ∈ (Judgment.letIn [(x, d.ty)] [d] b M).assumptions.entries ↔
      (y, o) ∈ d.assumptions.entries ∨ ((y, o) ∈ b.assumptions.entries ∧ y ≠ x) := by
  simp only [letIn, List.flatMap_cons, List.flatMap_nil, List.append_nil, List.mem_append]
  exact or_congr_right Assumptions.mem_remove

end Judgment

/-! ## Variables of a judgment -/

/-- An equality or implicit instance between plain types, with variables from a
set. -/
def Constraint.Over (U : Set Nat) : Constraint → Prop
  | .eq l r => l.Over U ∧ r.Over U
  | .explicit _ _ => False
  | .implicit t M b => t.Over U ∧ b.Over U ∧ ∀ v ∈ M, v ∈ U

theorem Constraint.Over.mono {U W : Set Nat} {c : Constraint} (h : c.Over U) (hUW : U ⊆ W) : c.Over W := by
  cases c with
  | eq l r => exact ⟨h.1.mono hUW, h.2.mono hUW⟩
  | explicit t σ => exact h
  | implicit t M b => exact ⟨h.1.mono hUW, h.2.1.mono hUW, fun v hv => hUW (h.2.2 v hv)⟩

theorem Literal.over_ty (U : Set Nat) (l : Literal) : l.ty.Over U := by cases l <;> exact Ty.over_prim U _

/-- The variables of a context and those issued in it. -/
def issued (M : VarSet) (V : List Nat) : Set Nat := {v | v ∈ V ∨ v ∈ M}

theorem issued_subset {M : VarSet} {V W : List Nat} (h : V ⊆ W) : issued M V ⊆ issued M W :=
  fun _ hv => hv.imp_left (h ·)

theorem issued_insert (M : VarSet) (v : Nat) (V : List Nat) : issued (M.insert v) V = issued M (v :: V) := by
  ext w
  simp only [issued, Set.mem_ofPred_eq, VarSet.mem_insert, List.mem_cons]
  tauto

/-- The variables are issued once each, and are new to the context. -/
structure FreshFor (M : VarSet) (V : List Nat) : Prop where
  nodup : V.Nodup
  outside : ∀ v ∈ V, v ∉ M

section FreshFor
variable {M : VarSet} {v : Nat} {V W : List Nat}

theorem FreshFor.tail (h : FreshFor M (v :: V)) : FreshFor (M.insert v) V where
  nodup := (List.nodup_cons.1 h.nodup).2
  outside w hw := by
    rw [VarSet.mem_insert, not_or]
    exact ⟨fun he => (List.nodup_cons.1 h.nodup).1 (he ▸ hw), h.outside w (by simp [hw])⟩

theorem FreshFor.left (h : FreshFor M (V ++ W)) : FreshFor M V where
  nodup := (List.nodup_append.1 h.nodup).1
  outside w hw := h.outside w (by simp [hw])

theorem FreshFor.right (h : FreshFor M (V ++ W)) : FreshFor M W where
  nodup := (List.nodup_append.1 h.nodup).2.1
  outside w hw := h.outside w (by simp [hw])

theorem FreshFor.apart {U : List Nat} (h : FreshFor M (V ++ W)) (hU : U ⊆ V) : ∀ w ∈ W, w ∉ U ∧ w ∉ M := by
  intro w hw
  exact ⟨fun hmem => (List.nodup_append.1 h.nodup).2.2 w (hU hmem) w hw rfl, h.outside w (by simp [hw])⟩

end FreshFor

theorem mem_issued {M : VarSet} {V : List Nat} {v : Nat} (h : v ∈ V) : v ∈ issued M V := .inl h

namespace Judges

theorem assumption {M : VarSet} {e : Expr} {J : Judgment} {V : List Nat} (h : Judges M e J V) {x : String} {o : Ty}
    (hx : (x, o) ∈ J.assumptions.entries) : ∃ v ∈ V, o = .var v := by
  induction h with
  | literal l => cases hx
  | ref y v =>
    cases List.mem_singleton.1 hx
    exact ⟨v, by simp, rfl⟩
  | lambda _ ih =>
    obtain ⟨w, hw, rfl⟩ := ih (Judgment.mem_assumptions_lambda.1 hx).1
    exact ⟨w, by simp [hw], rfl⟩
  | apply _ _ ihFn ihArg =>
    rcases Judgment.mem_assumptions_apply.1 hx with hx | hx
    · obtain ⟨w, hw, rfl⟩ := ihFn hx
      exact ⟨w, by simp [hw], rfl⟩
    · obtain ⟨w, hw, rfl⟩ := ihArg hx
      exact ⟨w, by simp [hw], rfl⟩
  | ifElse _ _ _ ihCond ihYes ihNo =>
    rcases Judgment.mem_assumptions_ifElse.1 hx with hx | hx | hx
    · obtain ⟨w, hw, rfl⟩ := ihCond hx
      exact ⟨w, by simp [hw], rfl⟩
    · obtain ⟨w, hw, rfl⟩ := ihYes hx
      exact ⟨w, by simp [hw], rfl⟩
    · obtain ⟨w, hw, rfl⟩ := ihNo hx
      exact ⟨w, by simp [hw], rfl⟩
  | letIn _ _ ihDef ihBody =>
    rcases Judgment.mem_assumptions_letIn.1 hx with hx | ⟨hx, -⟩
    · obtain ⟨w, hw, rfl⟩ := ihDef hx
      exact ⟨w, by simp [hw], rfl⟩
    · obtain ⟨w, hw, rfl⟩ := ihBody hx
      exact ⟨w, by simp [hw], rfl⟩

/-- Every occurrence is one of a name that is bound around the expression. -/
theorem assumption_bound {M : VarSet} {e : Expr} {J : Judgment} {V : List Nat} (h : Judges M e J V)
    {bound : List String} (he : e.Core bound) {x : String} {o : Ty} (hx : (x, o) ∈ J.assumptions.entries) :
    x ∈ bound := by
  induction h generalizing bound with
  | literal l => cases hx
  | ref y v =>
    cases he with | ref mem =>
    cases List.mem_singleton.1 hx
    exact mem
  | lambda _ ih =>
    cases he with | lambda body =>
    obtain ⟨hx, hne⟩ := Judgment.mem_assumptions_lambda.1 hx
    exact (List.mem_cons.1 (ih body hx)).resolve_left hne
  | apply _ _ ihFn ihArg =>
    cases he with | apply fn arg =>
    exact (Judgment.mem_assumptions_apply.1 hx).elim (ihFn fn) (ihArg arg)
  | ifElse _ _ _ ihCond ihYes ihNo =>
    cases he with | ifElse cond yes no =>
    rcases Judgment.mem_assumptions_ifElse.1 hx with hx | hx | hx
    · exact ihCond cond hx
    · exact ihYes yes hx
    · exact ihNo no hx
  | letIn _ _ ihDef ihBody =>
    cases he with | letIn definition _ body =>
    rcases Judgment.mem_assumptions_letIn.1 hx with hx | ⟨hx, hne⟩
    · exact ihDef definition hx
    · exact (List.mem_cons.1 (ihBody body hx)).resolve_left hne

theorem ty {M : VarSet} {e : Expr} {J : Judgment} {V : List Nat} (h : Judges M e J V) : J.ty.Over (issued M V) := by
  induction h with
  | literal l => exact l.over_ty _
  | ref y v => exact Ty.over_var.2 (mem_issued (by simp))
  | @lambda M id v span x b J V _ ih =>
    rw [issued_insert] at ih
    exact Ty.over_fn.2 ⟨Ty.over_var.2 (mem_issued (by simp)), ih⟩
  | apply _ _ _ _ => exact Ty.over_var.2 (mem_issued (by simp))
  | ifElse _ _ _ _ ih _ => exact ih.mono (issued_subset (by simp))
  | letIn _ _ _ ih => exact ih.mono (issued_subset (by simp))

theorem constraint {M : VarSet} {e : Expr} {J : Judgment} {V : List Nat} (h : Judges M e J V) {c : Constraint}
    (hc : c ∈ J.constraints) : c.Over (issued M V) := by
  induction h with
  | literal l => cases hc
  | ref y v => cases hc
  | @lambda M id v span x b J V body ih =>
    rw [issued_insert] at ih
    rcases Judgment.mem_constraints_lambda.1 hc with hc | ⟨o, ho, rfl⟩
    · exact ih hc
    · obtain ⟨u, hu, rfl⟩ := body.assumption ho
      exact ⟨Ty.over_var.2 (mem_issued (by simp [hu])), Ty.over_var.2 (mem_issued (by simp))⟩
  | apply fn arg ihFn ihArg =>
    rcases Judgment.mem_constraints_apply.1 hc with (hc | hc) | rfl
    · exact (ihFn hc).mono (issued_subset (by simp))
    · exact (ihArg hc).mono (issued_subset (by simp))
    · refine ⟨fn.ty.mono (issued_subset (by simp)), Ty.over_fn.2 ⟨arg.ty.mono (issued_subset (by simp)), ?_⟩⟩
      exact Ty.over_var.2 (mem_issued (by simp))
  | ifElse cond yes no ihCond ihYes ihNo =>
    rcases Judgment.mem_constraints_ifElse.1 hc with (hc | hc | hc) | rfl | rfl
    · exact (ihCond hc).mono (issued_subset (by simp))
    · exact (ihYes hc).mono (issued_subset (by simp))
    · exact (ihNo hc).mono (issued_subset (by simp))
    · exact ⟨cond.ty.mono (issued_subset (by simp)), Ty.over_prim _ _⟩
    · exact ⟨yes.ty.mono (issued_subset (by simp)), no.ty.mono (issued_subset (by simp))⟩
  | letIn definition body ihDef ihBody =>
    rcases Judgment.mem_constraints_letIn.1 hc with (hc | hc) | ⟨o, ho, rfl⟩
    · exact (ihDef hc).mono (issued_subset (by simp))
    · exact (ihBody hc).mono (issued_subset (by simp))
    · obtain ⟨u, hu, rfl⟩ := body.assumption ho
      refine ⟨Ty.over_var.2 (mem_issued (by simp [hu])), definition.ty.mono (issued_subset (by simp)), ?_⟩
      exact fun v hv => .inr hv

end Judges

/-! ## Solutions are typings -/

/-- The function makes the sides of an equality equal, and the type of an implicit
instance an instance of the bound type, generalised outside the image of the
context. -/
def Constraint.Sat (θ : Nat → Ty) : Constraint → Prop
  | .eq l r => l.subst θ = r.subst θ
  | .explicit _ _ => True
  | .implicit t M b => ∃ ρ : Nat → Ty, (∀ v, (ρ v).WellFormed) ∧ (∀ m ∈ M, ∀ v ∈ (θ m).free, ρ v = .var v) ∧
    t.subst θ = (b.subst θ).subst ρ

/-- Every occurrence of a name is an instance of the scheme of the name. -/
def Supports (Γ : TypingContext) (θ : Nat → Ty) (a : Assumptions) : Prop :=
  ∀ x o, (x, o) ∈ a.entries → ∃ σ, Γ.lookup x = some σ ∧ σ.Instance (o.subst θ)

theorem lookup_cons_ne {Γ : TypingContext} {x y : String} {σ : Scheme} (h : y ≠ x) :
    List.lookup y ((x, σ) :: Γ) = Γ.lookup y := by
  rw [List.lookup_cons, beq_eq_false_iff_ne.2 h]

/-- A scope adds a name to what a context supports. -/
theorem Supports.cons {Γ : TypingContext} {θ : Nat → Ty} {a : Assumptions} {x : String} {σ : Scheme}
    (hσ : ∀ o, (x, o) ∈ a.entries → σ.Instance (o.subst θ))
    (h : ∀ y o, (y, o) ∈ a.entries → y ≠ x → ∃ σ, Γ.lookup y = some σ ∧ σ.Instance (o.subst θ)) :
    Supports ((x, σ) :: Γ) θ a := by
  intro y o hy
  by_cases hxy : y = x
  · subst hxy
    exact ⟨σ, List.lookup_cons_self, hσ o hy⟩
  · rw [lookup_cons_ne hxy]
    exact h y o hy hxy

/-- What is fixed outside the context can be fixed outside a scheme. -/
theorem Scheme.instance_generalize {M : VarSet} {t τ : Ty} {ρ : Nat → Ty} (hρ : ∀ v, (ρ v).WellFormed)
    (hM : ∀ v ∈ M, ρ v = .var v) (hτ : τ = t.subst ρ) : (Scheme.generalize M t).Instance τ := by
  refine ⟨fun v => if v ∈ (Scheme.generalize M t).vars then ρ v else .var v, fun v => ?_, fun v hv => if_neg hv, ?_⟩
  · dsimp only
    split
    · exact hρ v
    · exact .var v
  · rw [hτ]
    refine Ty.subst_congr fun v hv => ?_
    split
    · rfl
    · next hq =>
      by_contra hne
      exact hq (Scheme.mem_vars_generalize.2 ⟨hv, fun hvM => hne (hM v hvM)⟩)

/-- A solution of the constraints gives a typing. -/
theorem Judges.hasType {M : VarSet} {e : Expr} {J : Judgment} {V : List Nat} (h : Judges M e J V) {θ : Nat → Ty}
    (hθ : ∀ v, (θ v).WellFormed) {Γ : TypingContext} (hsat : ∀ c ∈ J.constraints, c.Sat θ)
    (hsupports : Supports Γ θ J.assumptions) (hfree : ∀ v ∈ Γ.free, ∃ m ∈ M, v ∈ (θ m).free) :
    HasType Γ e (J.ty.subst θ) := by
  induction h generalizing Γ with
  | literal l =>
    have hty : l.ty.subst θ = l.ty := by cases l <;> rfl
    show HasType Γ _ (l.ty.subst θ)
    rw [hty]
    exact .literal l
  | ref x v =>
    obtain ⟨σ, hlookup, hinst⟩ := hsupports x (.var v) (by simp [Judgment.reference, Assumptions.single])
    exact .ref hlookup hinst
  | @lambda M id v span x b J V body ih =>
    refine .lambda (hθ v) (ih (fun c hc => hsat c (Judgment.mem_constraints_lambda.2 (.inl hc))) ?_ ?_)
    · refine Supports.cons (fun o ho => ?_) fun y o hy hxy => ?_
      · have heq : o.subst θ = θ v := hsat _ (Judgment.mem_constraints_lambda.2 (.inr ⟨o, ho, rfl⟩))
        rw [heq]
        exact Scheme.instance_mono (hθ v)
      · exact hsupports y o (Judgment.mem_assumptions_lambda.2 ⟨hy, hxy⟩)
    · intro w hw
      simp only [TypingContext.mem_free_cons, Scheme.mem_free_mono] at hw
      rcases hw with hw | hw
      · exact ⟨v, by simp, hw⟩
      · obtain ⟨m, hm, hw⟩ := hfree w hw
        exact ⟨m, by simp [hm], hw⟩
  | @apply M id v span f a Jf Ja Vf Va _ _ ihFn ihArg =>
    have heq : Jf.ty.subst θ = .fn (Ja.ty.subst θ) (θ v) := hsat _ (Judgment.mem_constraints_apply.2 (.inr rfl))
    refine HasType.apply (?_ : HasType Γ f (.fn (Ja.ty.subst θ) (θ v))) ?_
    · have hf := ihFn (fun c hc => hsat c (Judgment.mem_constraints_apply.2 (.inl (.inl hc))))
        (fun x o hx => hsupports x o (Judgment.mem_assumptions_apply.2 (.inl hx))) hfree
      rwa [heq] at hf
    · exact ihArg (fun c hc => hsat c (Judgment.mem_constraints_apply.2 (.inl (.inr hc))))
        (fun x o hx => hsupports x o (Judgment.mem_assumptions_apply.2 (.inr hx))) hfree
  | @ifElse M id span c y n Jc Jy Jn Vc Vy Vn _ _ _ ihCond ihYes ihNo =>
    have hcond : Jc.ty.subst θ = .bool := hsat _ (Judgment.mem_constraints_ifElse.2 (.inr (.inl rfl)))
    have hsame : Jy.ty.subst θ = Jn.ty.subst θ := hsat _ (Judgment.mem_constraints_ifElse.2 (.inr (.inr rfl)))
    have hc := ihCond (fun c hc => hsat c (Judgment.mem_constraints_ifElse.2 (.inl (.inl hc))))
      (fun x o hx => hsupports x o (Judgment.mem_assumptions_ifElse.2 (.inl hx))) hfree
    have hy := ihYes (fun c hc => hsat c (Judgment.mem_constraints_ifElse.2 (.inl (.inr (.inl hc)))))
      (fun x o hx => hsupports x o (Judgment.mem_assumptions_ifElse.2 (.inr (.inl hx)))) hfree
    have hn := ihNo (fun c hc => hsat c (Judgment.mem_constraints_ifElse.2 (.inl (.inr (.inr hc)))))
      (fun x o hx => hsupports x o (Judgment.mem_assumptions_ifElse.2 (.inr (.inr hx)))) hfree
    rw [hcond] at hc
    rw [← hsame] at hn
    exact .ifElse hc hy hn
  | @letIn M id span x d b Jd Jb Vd Vb _ _ ihDef ihBody =>
    have hd := ihDef (fun c hc => hsat c (Judgment.mem_constraints_letIn.2 (.inl (.inl hc))))
      (fun x o hx => hsupports x o (Judgment.mem_assumptions_letIn.2 (.inl hx))) hfree
    refine .letIn hd (ihBody (fun c hc => hsat c (Judgment.mem_constraints_letIn.2 (.inl (.inr hc)))) ?_ ?_)
    · refine Supports.cons (fun o ho => ?_) fun y o hy hxy => ?_
      · obtain ⟨ρ, hρ, hfixed, heq⟩ := hsat _ (Judgment.mem_constraints_letIn.2 (.inr ⟨o, ho, rfl⟩))
        -- what is free in the context comes from `M`, where `ρ` moves nothing
        refine Scheme.instance_generalize hρ (fun v hv => ?_) heq
        obtain ⟨m, hm, hv⟩ := hfree v hv
        exact hfixed m hm v hv
      · exact hsupports y o (Judgment.mem_assumptions_letIn.2 (.inr ⟨hy, hxy⟩))
    · intro v hv
      rw [TypingContext.mem_free_cons, Scheme.mem_free_generalize] at hv
      exact hfree v (hv.elim (·.2) (·))

/-! ## Typings are solutions -/

theorem Constraint.Sat.congr {U : Set Nat} {c : Constraint} (hc : c.Over U) {θ θ' : Nat → Ty}
    (hθ : ∀ v ∈ U, θ' v = θ v) (h : c.Sat θ) : c.Sat θ' := by
  have hsubst : ∀ t : Ty, t.Over U → t.subst θ' = t.subst θ := fun t ht => Ty.subst_congr fun v hv => hθ v (ht.2 v hv)
  cases c with
  | eq l r =>
    show l.subst θ' = r.subst θ'
    rw [hsubst l hc.1, hsubst r hc.2]
    exact h
  | explicit t σ => trivial
  | implicit t M b =>
    obtain ⟨ρ, hρ, hfixed, heq⟩ := h
    refine ⟨ρ, hρ, fun m hm v hv => hfixed m hm v ?_, ?_⟩
    · rwa [← hθ m (hc.2.2 m hm)]
    · rw [hsubst t hc.1, hsubst b hc.2.1]
      exact heq

/-- The function satisfies a judgment at a type, in a context. -/
structure Realizes (θ : Nat → Ty) (Γ : TypingContext) (J : Judgment) (τ : Ty) : Prop where
  sat : ∀ c ∈ J.constraints, c.Sat θ
  ty : J.ty.subst θ = τ
  supports : Supports Γ θ J.assumptions

/-- Whether a judgment is satisfied depends on its variables only. -/
theorem Realizes.congr {M : VarSet} {e : Expr} {J : Judgment} {V : List Nat} (hJ : Judges M e J V) {θ θ' : Nat → Ty}
    (hθ : ∀ v ∈ issued M V, θ' v = θ v) {Γ : TypingContext} {τ : Ty} (h : Realizes θ Γ J τ) : Realizes θ' Γ J τ where
  sat c hc := (h.sat c hc).congr (hJ.constraint hc) hθ
  ty := by rw [Ty.subst_congr fun v hv => hθ v (hJ.ty.2 v hv)]; exact h.ty
  supports x o hx := by
    obtain ⟨v, hv, rfl⟩ := hJ.assumption hx
    have hinst := h.supports x (.var v) hx
    rwa [Ty.subst_var, hθ v (mem_issued hv), ← Ty.subst_var θ]

/-- A judgment stays satisfied when other variables are changed. -/
theorem Realizes.extend {M : VarSet} {e : Expr} {J : Judgment} {V W : List Nat} (hJ : Judges M e J V) {θ θ' : Nat → Ty}
    {Γ : TypingContext} {τ : Ty} (h : Realizes θ Γ J τ) (hagree : ∀ v, v ∉ W → θ' v = θ v)
    (hW : ∀ v ∈ W, v ∉ V ∧ v ∉ M) : Realizes θ' Γ J τ :=
  h.congr hJ fun v hv => hagree v fun hmem => hv.elim (hW v hmem).1 (hW v hmem).2

/-- A function with another value for one variable. -/
def assign (θ : Nat → Ty) (v : Nat) (t : Ty) : Nat → Ty := fun w => if w = v then t else θ w

@[simp] theorem assign_self (θ : Nat → Ty) (v : Nat) (t : Ty) : assign θ v t v = t := if_pos rfl

theorem assign_ne {θ : Nat → Ty} {v w : Nat} {t : Ty} (h : w ≠ v) : assign θ v t w = θ w := if_neg h

theorem wellFormed_assign {θ : Nat → Ty} {v : Nat} {t : Ty} (hθ : ∀ v, (θ v).WellFormed) (ht : t.WellFormed) (w : Nat) :
    (assign θ v t w).WellFormed := by
  unfold assign
  split
  · exact ht
  · exact hθ w

/-- The types of the variables `M` mention only what is free in the context. -/
def ImageWithin (M : VarSet) (θ : Nat → Ty) (Γ : TypingContext) : Prop := ∀ m ∈ M, ∀ v ∈ (θ m).free, v ∈ Γ.free

theorem ImageWithin.congr {M : VarSet} {θ θ' : Nat → Ty} {Γ : TypingContext} {V : List Nat} (h : ImageWithin M θ Γ)
    (hV : FreshFor M V) (hagree : ∀ v, v ∉ V → θ' v = θ v) : ImageWithin M θ' Γ := by
  intro m hm w hw
  rw [hagree m fun hmem => hV.outside m hmem hm] at hw
  exact h m hm w hw

/-- Every typing comes from a solution that differs from a given one only in the
variables issued for the expression. -/
theorem Judges.exists_solution {M : VarSet} {e : Expr} {J : Judgment} {V : List Nat} (h : Judges M e J V)
    (hV : FreshFor M V) {Γ : TypingContext} {τ : Ty} (hΓ : Γ.WellFormed) (hτ : HasType Γ e τ)
    {θ₀ : Nat → Ty} (hθ₀ : ∀ v, (θ₀ v).WellFormed) (hfree : ImageWithin M θ₀ Γ) :
    ∃ θ : Nat → Ty, (∀ v, (θ v).WellFormed) ∧ (∀ v, v ∉ V → θ v = θ₀ v) ∧ Realizes θ Γ J τ := by
  induction h generalizing Γ τ θ₀ with
  | literal l =>
    cases hτ
    refine ⟨θ₀, hθ₀, fun _ _ => rfl, fun c hc => (nomatch hc), ?_, fun x o hx => (nomatch hx)⟩
    cases l <;> rfl
  | ref x v =>
    have hwf : τ.WellFormed := hτ.wellFormed hΓ
    cases hτ with | ref lookup inst =>
    refine ⟨assign θ₀ v τ, wellFormed_assign hθ₀ hwf, fun w hw => assign_ne (by simpa using hw),
      fun c hc => (nomatch hc), assign_self θ₀ v τ, fun y o hy => ?_⟩
    cases List.mem_singleton.1 hy
    exact ⟨_, lookup, by rwa [Ty.subst_var, assign_self]⟩
  | @lambda M id v span x b J V body ih =>
    cases hτ with | @lambda _ _ _ _ _ π τ param hbody =>
    -- the parameter gets the type it has in the typing, and the body is solved around it
    have hfree' : ImageWithin (M.insert v) (assign θ₀ v π) ((x, .mono π) :: Γ) := by
      intro m hm w hw
      rw [TypingContext.mem_free_cons, Scheme.mem_free_mono]
      rcases VarSet.mem_insert.1 hm with rfl | hmM
      · rw [assign_self] at hw
        exact .inl hw
      · rw [assign_ne (by rintro rfl; exact hV.outside m (by simp) hmM)] at hw
        exact .inr (hfree m hmM w hw)
    obtain ⟨θ, hθ, hagree, hreal⟩ := ih hV.tail (hΓ.cons x param) hbody (wellFormed_assign hθ₀ param) hfree'
    have hθv : θ v = π := by rw [hagree v (List.nodup_cons.1 hV.nodup).1, assign_self]
    refine ⟨θ, hθ, fun w hw => ?_, fun c hc => ?_, ?_, fun y o hy => ?_⟩
    · simp only [List.mem_cons, not_or] at hw
      rw [hagree w hw.2, assign_ne hw.1]
    · rcases Judgment.mem_constraints_lambda.1 hc with hc | ⟨o, ho, rfl⟩
      · exact hreal.sat c hc
      · obtain ⟨σ, hlookup, hinst⟩ := hreal.supports x o ho
        cases List.lookup_cons_self.symm.trans hlookup
        show o.subst θ = θ v
        rw [hθv, hinst.eq_of_mono param]
    · show Ty.fn (θ v) (J.ty.subst θ) = .fn π τ
      rw [hθv, hreal.ty]
    · obtain ⟨hy, hyx⟩ := Judgment.mem_assumptions_lambda.1 hy
      obtain ⟨σ, hlookup, hinst⟩ := hreal.supports y o hy
      exact ⟨σ, (lookup_cons_ne hyx).symm.trans hlookup, hinst⟩
  | @apply M id v span f a Jf Ja Vf Va fn arg ihFn ihArg =>
    have hwf : τ.WellFormed := hτ.wellFormed hΓ
    cases hτ with | @apply _ _ _ _ _ π _ hf ha =>
    obtain ⟨θ₁, hθ₁, hagree₁, hreal₁⟩ := ihFn hV.left.left hΓ hf hθ₀ hfree
    obtain ⟨θ₂, hθ₂, hagree₂, hreal₂⟩ := ihArg hV.left.right hΓ ha hθ₁ (hfree.congr hV.left.left hagree₁)
    -- solve the function, then the argument, then the result; the parts issue separate variables
    have hassign : ∀ w, w ∉ [v] → assign θ₂ v τ w = θ₂ w := fun w hw => assign_ne (by simpa using hw)
    have hargument : Realizes (assign θ₂ v τ) Γ Ja π := hreal₂.extend arg hassign (hV.apart (by simp))
    have hfunction : Realizes (assign θ₂ v τ) Γ Jf (.fn π τ) :=
      (hreal₁.extend fn hagree₂ (hV.left.apart (by simp))).extend fn hassign (hV.apart (by simp))
    refine ⟨assign θ₂ v τ, wellFormed_assign hθ₂ hwf, fun w hw => ?_, fun c hc => ?_, assign_self θ₂ v τ,
      fun x o hx => ?_⟩
    · simp only [List.mem_append, not_or] at hw
      rw [hassign w hw.2, hagree₂ w hw.1.2, hagree₁ w hw.1.1]
    · rcases Judgment.mem_constraints_apply.1 hc with (hc | hc) | rfl
      · exact hfunction.sat c hc
      · exact hargument.sat c hc
      · show Jf.ty.subst _ = .fn (Ja.ty.subst _) (assign θ₂ v τ v)
        rw [hfunction.ty, hargument.ty, assign_self]
    · rcases Judgment.mem_assumptions_apply.1 hx with hx | hx
      · exact hfunction.supports x o hx
      · exact hargument.supports x o hx
  | @ifElse M id span c y n Jc Jy Jn Vc Vy Vn cond yes no ihCond ihYes ihNo =>
    cases hτ with | ifElse hc hy hn =>
    obtain ⟨θ₁, hθ₁, hagree₁, hreal₁⟩ := ihCond hV.left.left hΓ hc hθ₀ hfree
    have hfree₁ := hfree.congr hV.left.left hagree₁
    obtain ⟨θ₂, hθ₂, hagree₂, hreal₂⟩ := ihYes hV.left.right hΓ hy hθ₁ hfree₁
    obtain ⟨θ₃, hθ₃, hagree₃, hreal₃⟩ := ihNo hV.right hΓ hn hθ₂ (hfree₁.congr hV.left.right hagree₂)
    have hyes : Realizes θ₃ Γ Jy τ := hreal₂.extend yes hagree₃ (hV.apart (by simp))
    have hcond : Realizes θ₃ Γ Jc .bool :=
      (hreal₁.extend cond hagree₂ (hV.left.apart (by simp))).extend cond hagree₃ (hV.apart (by simp))
    refine ⟨θ₃, hθ₃, fun w hw => ?_, fun c hc => ?_, hyes.ty, fun x o hx => ?_⟩
    · simp only [List.mem_append, not_or] at hw
      rw [hagree₃ w hw.2, hagree₂ w hw.1.2, hagree₁ w hw.1.1]
    · rcases Judgment.mem_constraints_ifElse.1 hc with (hc | hc | hc) | rfl | rfl
      · exact hcond.sat c hc
      · exact hyes.sat c hc
      · exact hreal₃.sat c hc
      · exact hcond.ty
      · exact hyes.ty.trans hreal₃.ty.symm
    · rcases Judgment.mem_assumptions_ifElse.1 hx with hx | hx | hx
      · exact hcond.supports x o hx
      · exact hyes.supports x o hx
      · exact hreal₃.supports x o hx
  | @letIn M id span x d b Jd Jb Vd Vb definition body ihDef ihBody =>
    cases hτ with | @letIn _ _ _ _ _ _ δ _ hd hb =>
    obtain ⟨θ₁, hθ₁, hagree₁, hreal₁⟩ := ihDef hV.left hΓ hd hθ₀ hfree
    have hfree₁ := hfree.congr hV.left hagree₁
    obtain ⟨θ₂, hθ₂, hagree₂, hreal₂⟩ := ihBody hV.right (hΓ.cons x (hd.wellFormed hΓ)) hb hθ₁
      fun m hm w hw => TypingContext.mem_free_cons.2 (.inr (hfree₁ m hm w hw))
    have hdef : Realizes θ₂ Γ Jd δ := hreal₁.extend definition hagree₂ (hV.apart (by simp))
    refine ⟨θ₂, hθ₂, fun w hw => ?_, fun c hc => ?_, hreal₂.ty, fun y o hy => ?_⟩
    · simp only [List.mem_append, not_or] at hw
      rw [hagree₂ w hw.2, hagree₁ w hw.1]
    · rcases Judgment.mem_constraints_letIn.1 hc with (hc | hc) | ⟨o, ho, rfl⟩
      · exact hdef.sat c hc
      · exact hreal₂.sat c hc
      · obtain ⟨σ, hlookup, ρ, hρ, hfixed, heq⟩ := hreal₂.supports x o ho
        cases List.lookup_cons_self.symm.trans hlookup
        -- an instance moves quantified variables only, and those are not free in the context
        refine ⟨ρ, hρ, fun m hm w hw => hfixed w fun hq => ?_, by rw [hdef.ty]; exact heq⟩
        exact (Scheme.mem_vars_generalize.1 hq).2 (hfree₁.congr hV.right hagree₂ m hm w hw)
    · rcases Judgment.mem_assumptions_letIn.1 hy with hy | ⟨hy, hyx⟩
      · exact hdef.supports y o hy
      · obtain ⟨σ, hlookup, hinst⟩ := hreal₂.supports y o hy
        exact ⟨σ, (lookup_cons_ne hyx).symm.trans hlookup, hinst⟩

end NixTyping
