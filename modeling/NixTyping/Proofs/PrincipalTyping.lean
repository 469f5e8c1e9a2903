import NixTyping.Infer
import NixTyping.Proofs.CoreWalk
import NixTyping.Proofs.PrincipalSolution
/-!
# Principal types of the core language

Inference of a closed expression of the core language, in the empty environment,
gives one scheme if the expression has a type and none if it has not. The body of
the scheme is a type of the expression, and all its types are instances of it.

The judgment of the expression gives laid out constraints (`Expr.judge_core`,
`Judges.layout`), the search finds their principal solution (`adds_outcome`), and
solutions are typings (`Judges.hasType`, `Judges.exists_solution`). What is left is
the renaming of the variables in the scheme: solutions can be renamed
(`Constraint.Sat.rename`).
-/

namespace NixTyping

/-! ## Renaming -/

/-- The type with other names for its variables. -/
def Ty.rename (p : Nat → Nat) (t : Ty) : Ty := t.subst fun v => .var (p v)

theorem Ty.Plain.rename {t : Ty} (h : t.Plain) (p : Nat → Nat) : (t.rename p).Plain := h.subst fun _ _ => .var _

theorem Ty.Plain.subst_rename {t : Ty} (h : t.Plain) (f : Nat → Ty) (p : Nat → Nat) :
    (t.subst f).rename p = t.subst fun v => (f v).rename p := h.subst_subst

theorem Ty.Plain.rename_subst {t : Ty} (h : t.Plain) (p : Nat → Nat) (f : Nat → Ty) :
    (t.rename p).subst f = t.subst fun v => f (p v) := h.subst_subst

/-- A solution stays one when its variables are renamed. -/
theorem Constraint.Sat.rename {U : Set Nat} {c : Constraint} (hc : c.Over U) {f : Nat → Ty} (hf : ∀ v, (f v).Plain)
    {p g : Nat → Nat} (hpg : ∀ v, g (p v) = v) (h : c.Sat f) : c.Sat fun v => (f v).rename p := by
  cases c with
  | eq l r =>
    show (l.subst fun v => (f v).rename p) = r.subst fun v => (f v).rename p
    rw [← hc.1.1.subst_rename, ← hc.2.1.subst_rename, show l.subst f = r.subst f from h]
  | explicit t σ => trivial
  | implicit t M b =>
    obtain ⟨ρ, hρ, hfixed, heq⟩ := h
    have hb : (b.subst f).Plain := hc.2.1.1.subst fun v _ => hf v
    -- a renamed variable is taken back, instantiated, and renamed again
    refine ⟨fun w => (ρ (g w)).rename p, fun w => (hρ _).subst fun _ _ => .var _, fun m hm w hw => ?_, ?_⟩
    · obtain ⟨v, hv, hw⟩ := Ty.mem_free_subst.1 hw
      obtain rfl := Ty.mem_free_var.1 hw
      show (ρ (g (p v))).rename p = .var (p v)
      rw [hpg, hfixed m hm v hv]
      rfl
    · rw [← hc.1.1.subst_rename, ← hc.2.1.1.subst_rename, heq, hb.subst_rename, hb.rename_subst]
      simp only [hpg]

/-- Where a variable goes in the canonical order: to its number if it has one, and out
of the way of all numbers otherwise. -/
def rank (order : List Nat) (v : Nat) : Nat :=
  match (Scheme.numbering order).get? v with
  | some (.var i) => i
  | _ => v + order.length

theorem numbering_eq_freshening (order : List Nat) (t : Ty) :
    Scheme.numbering order = (Scheme.mk order t).freshening 0 := by
  simp [Scheme.numbering, Scheme.freshening]

theorem rank_cases (order : List Nat) (v : Nat) :
    (order[rank order v]? = some v ∧ (Scheme.numbering order).get? v = some (.var (rank order v))) ∨
    (v ∉ order ∧ rank order v = v + order.length) := by
  rw [rank, numbering_eq_freshening order .bool]
  by_cases hv : v ∈ order
  · obtain ⟨i, hi, hget⟩ := @Scheme.get?_freshening_of_mem ⟨order, .bool⟩ 0 v hv
    rw [Nat.zero_add] at hget
    rw [hget]
    exact .inl ⟨hi, rfl⟩
  · rw [Scheme.get?_freshening_of_not_mem hv]
    exact .inr ⟨hv, rfl⟩

theorem rank_injective (order : List Nat) : Function.Injective (rank order) := by
  intro v w h
  rcases rank_cases order v with ⟨hv, -⟩ | ⟨-, hv⟩ <;> rcases rank_cases order w with ⟨hw, -⟩ | ⟨-, hw⟩
  · rw [h, hw] at hv
    exact (Option.some.inj hv).symm
  · have := (List.getElem?_eq_some_iff.1 hv).1
    omega
  · have := (List.getElem?_eq_some_iff.1 hw).1
    omega
  · omega

/-- The canonical scheme of a type is a renaming of it. -/
theorem Scheme.closeOver_ty {t : Ty} (ht : t.WellFormed) :
    (Scheme.closeOver t).ty = t.rename (rank t.varsInOrder) := by
  rw [closeOver_eq, renumber, Ty.apply_eq_subst ht]
  refine Ty.subst_congr fun v hv => ?_
  rcases rank_cases t.varsInOrder v with ⟨-, hget⟩ | ⟨hnot, -⟩
  · exact Subst.toFun_of_some hget
  · exact absurd (Ty.mem_varsInOrder.2 hv) hnot

/-- Every instance of a type is one of its canonical scheme. -/
theorem Scheme.exists_apply_closeOver {t : Ty} (ht : t.Plain) (f : Nat → Ty) :
    ∃ θ : Subst, t.subst f = (Scheme.closeOver t).ty.apply θ := by
  obtain ⟨g, hg⟩ := (rank_injective t.varsInOrder).hasLeftInverse
  refine ⟨.tabulate (fun v => f (g v)) (Scheme.closeOver t).ty.free.toList, ?_⟩
  have hplain : (Scheme.closeOver t).ty.Plain := by
    rw [closeOver_ty ht.wellFormed]
    exact ht.rename _
  rw [Ty.apply_eq_subst hplain.wellFormed]
  have htab : ∀ v ∈ (Scheme.closeOver t).ty.free,
      (Subst.tabulate (fun v => f (g v)) (Scheme.closeOver t).ty.free.toList).toFun v = f (g v) := by
    intro v hv
    exact Subst.toFun_of_some ((Subst.get?_tabulate _ _ v).trans (if_pos hv))
  rw [Ty.subst_congr htab, closeOver_ty ht.wellFormed, ht.rename_subst]
  exact Ty.subst_congr fun v _ => by rw [hg]

/-! ## Inference -/

/-- Inference of a closed expression is the search for the solutions of its judgment. -/
theorem Expr.infer_of_judge {e : Expr} {J : Judgment} {s : Judging.State} (h : e.judge ∅ = .ok (J, s))
    (hclosed : J.assumptions.entries = []) (limit : Option Nat) :
    (e.infer ∅ limit).result = schemesOf J.ty (solve J.constraints s.next limit) := by
  have hunbound : (∅ : Env).unbound J.assumptions = [] := by
    simp [Env.unbound, Assumptions.keys, hclosed, sortNames]
  have hinstances : (∅ : Env).instances J.assumptions = [] := by simp [Env.instances, hclosed]
  rw [infer, h]
  dsimp only
  rw [hunbound, hinstances, List.append_nil]

theorem schemesOf_of_nil {t : Ty} {p : Search.Progress} (h : p.substs.toList = []) (schemes : List Scheme) :
    schemesOf t p ≠ .ok schemes := by
  have hempty : p.substs.isEmpty = true := by simpa using h
  rw [schemesOf, if_pos hempty]
  split <;> exact fun he => nomatch he

theorem schemesOf_of_singleton {t : Ty} {p : Search.Progress} {S : Subst} (h : p.substs.toList = [S]) :
    schemesOf t p = .ok [.closeOver (t.apply S)] := by
  have hempty : ¬ p.substs.isEmpty = true := by
    rw [Array.isEmpty_iff, ← Array.toList_eq_nil_iff, h]
    exact List.cons_ne_nil S []
  rw [schemesOf, if_neg hempty, h]
  rfl

/-- The judgment of a closed expression says what its types are. -/
theorem Judges.hasType_iff {e : Expr} {J : Judgment} {V : List Nat} (h : Judges ∅ e J V) (hV : FreshFor ∅ V)
    (hclosed : J.assumptions.entries = []) {τ : Ty} :
    HasType [] e τ ↔ ∃ θ : Nat → Ty, (∀ v, (θ v).WellFormed) ∧ (∀ c ∈ J.constraints, c.Sat θ) ∧ J.ty.subst θ = τ := by
  constructor
  · intro hτ
    obtain ⟨θ, hθ, -, hreal⟩ := h.exists_solution hV (fun x σ hx => by cases hx) hτ (fun v => .var v)
      fun m hm => absurd hm VarSet.mem_empty
    exact ⟨θ, hθ, hreal.sat, hreal.ty⟩
  · rintro ⟨θ, hθ, hsat, rfl⟩
    refine h.hasType hθ hsat (fun x o hx => ?_) fun v hv => absurd hv TypingContext.mem_free_nil
    rw [hclosed] at hx
    cases hx

/-- Inference refuses what has no type, and gives one principal scheme otherwise. -/
theorem Expr.infer_core {e : Expr} (he : e.Core []) :
    ((∀ schemes, (e.infer ∅ none).result ≠ .ok schemes) ∧ ∀ τ, ¬ HasType [] e τ) ∨
    ∃ σ, (e.infer ∅ none).result = .ok [σ] ∧ HasType [] e σ.ty ∧
      ∀ τ, HasType [] e τ → ∃ θ : Subst, τ = σ.ty.apply θ := by
  obtain ⟨J, s, V, hjudge, hJ, hnodup, hlt⟩ := e.judge_core he ∅
  have hV : FreshFor ∅ V := ⟨hnodup, fun v _ => VarSet.mem_empty⟩
  have hclosed : J.assumptions.entries = [] :=
    List.eq_nil_iff_forall_not_mem.2 fun ⟨x, o⟩ hx => List.not_mem_nil (hJ.assumption_bound he hx)
  have hissued : issued ∅ V ⊆ {v | v < s.next} := fun v hv => hlt v (hv.resolve_right VarSet.mem_empty)
  have hover : ∀ c ∈ J.constraints, c.Over {v | v < s.next} := fun c hc => (hJ.constraint hc).mono hissued
  obtain ⟨D, hD⟩ := hJ.layout hV
  have hlayout : Layout {v | v < s.next} D J.constraints :=
    hD.layout.extend hlt (fun _ _ _ hc => .inl hc) fun _ hc _ => .inl hc
  have houtcome := Search.solve_of_adds (Search.adds_outcome Subst.all_empty hover hlayout)
  rw [e.infer_of_judge hjudge hclosed]
  rcases houtcome with ⟨hnil, hnone⟩ | ⟨S, T, hsingle, hT, hS⟩
  · refine .inl ⟨schemesOf_of_nil hnil, fun τ hτ => ?_⟩
    obtain ⟨θ, hθ, hsat, -⟩ := (hJ.hasType_iff hV hclosed).1 hτ
    exact hnone θ hθ hsat
  · have hty : J.ty.apply S = J.ty.subst T := by
      rw [Ty.apply_eq_subst hJ.ty.1.wellFormed]
      exact Ty.subst_congr fun v _ => hS v
    have hplain : (J.ty.subst T).Plain := hJ.ty.1.subst fun v _ => hT.plain v
    refine .inr ⟨_, schemesOf_of_singleton hsingle, ?_, fun τ hτ => ?_⟩
    · rw [hty, Scheme.closeOver_ty hplain.wellFormed, hJ.ty.1.subst_rename]
      obtain ⟨g, hg⟩ := (rank_injective (J.ty.subst T).varsInOrder).hasLeftInverse
      refine (hJ.hasType_iff hV hclosed).2 ⟨_, fun v => ?_, fun c hc => ?_, rfl⟩
      · exact ((hT.plain v).rename _).wellFormed
      · exact (hT.sat c hc).rename (hover c hc) hT.plain hg
    · obtain ⟨θ, hθ, hsat, rfl⟩ := (hJ.hasType_iff hV hclosed).1 hτ
      obtain ⟨θ', -, hagree, hfactor⟩ := hT.general θ hθ hsat
      have hinst : J.ty.subst θ = (J.ty.subst T).subst θ' := by
        rw [hJ.ty.1.subst_subst, Ty.subst_congr fun v _ => hfactor v]
        exact Ty.subst_congr fun v hv => (hagree v (hissued (hJ.ty.2 v hv))).symm
      rw [hty, hinst]
      exact Scheme.exists_apply_closeOver hplain θ'

/-- Inference of a closed expression of the core language succeeds if and only if the
expression has a type. It gives one scheme then, whose body is a type of the
expression that has all its types as instances. -/
theorem principal_typing {e : Expr} (he : e.Core []) :
    ((∃ schemes, (e.infer ∅ none).result = .ok schemes) ↔ ∃ τ, HasType [] e τ) ∧
    ∀ schemes, (e.infer ∅ none).result = .ok schemes →
      ∃ σ, schemes = [σ] ∧ HasType [] e σ.ty ∧ ∀ τ, HasType [] e τ → ∃ θ : Subst, τ = σ.ty.apply θ := by
  rcases e.infer_core he with ⟨hrefused, hno⟩ | ⟨σ, hok, hσ, hprincipal⟩
  · refine ⟨⟨fun ⟨schemes, h⟩ => (hrefused schemes h).elim, fun ⟨τ, hτ⟩ => (hno τ hτ).elim⟩, fun schemes h => ?_⟩
    exact (hrefused schemes h).elim
  · refine ⟨⟨fun _ => ⟨σ.ty, hσ⟩, fun _ => ⟨[σ], hok⟩⟩, fun schemes h => ?_⟩
    cases hok.symm.trans h
    exact ⟨σ, rfl, hσ, hprincipal⟩

/-- The expression `let i = y: y; in i i`, which uses its definition at two types. -/
def identityOfItself : Expr :=
  .mk 5 none (.letIn ⟨[("i", .expr (.mk 1 none (.lambda (.name "y") (.mk 0 none (.ref "y")))))], [], []⟩
    (.mk 4 none (.apply (.mk 2 none (.ref "i")) (.mk 3 none (.ref "i")))))

theorem principal_typing_identity_of_itself :
    identityOfItself.Core [] ∧ HasType [] identityOfItself (.fn (.var 0) (.var 0)) ∧
    ∀ τ, HasType [] identityOfItself τ → ∃ θ : Subst, τ = (Ty.fn (.var 0) (.var 0)).apply θ := by
  have hcore : identityOfItself.Core [] :=
    .letIn (.lambda (.ref (by simp))) (by decide_cbv) (.apply (.ref (by simp)) (.ref (by simp)))
  have hresult : (identityOfItself.infer ∅ none).result = .ok [⟨[0], .fn (.var 0) (.var 0)⟩] := by cbv
  obtain ⟨σ, hσ, htype, hprincipal⟩ := (principal_typing hcore).2 _ hresult
  cases hσ
  exact ⟨hcore, htype, hprincipal⟩

end NixTyping
