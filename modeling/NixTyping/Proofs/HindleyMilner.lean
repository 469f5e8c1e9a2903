import NixTyping.Judge.Signature
import NixTyping.Proofs.Substitution
/-!
# Declarative typing of the core language

The core language has literals, references, functions of one name, applications,
conditionals and `let` with one binding that does not mention itself.
`HasType Γ e τ` is the Hindley-Milner system for it, with instances at references
and generalisation at `let`. Types are guessed among all well formed types.
-/

namespace NixTyping

/-- The literals of the core language. -/
def Literal.Core : Literal → Prop
  | .int _ | .float _ | .string _ => True
  | .path _ | .uri => False

/-- An expression of the core language whose free names are among `bound`. -/
inductive Expr.Core : List String → Expr → Prop where
  | literal {bound : List String} {id : Nat} {span : Option Span} {l : Literal} (core : l.Core) :
    Core bound (.mk id span (.literal l))
  | ref {bound : List String} {id : Nat} {span : Option Span} {x : String} (mem : x ∈ bound) :
    Core bound (.mk id span (.ref x))
  | lambda {bound : List String} {id : Nat} {span : Option Span} {x : String} {b : Expr} (body : Core (x :: bound) b) :
    Core bound (.mk id span (.lambda (.name x) b))
  | apply {bound : List String} {id : Nat} {span : Option Span} {f a : Expr} (fn : Core bound f) (arg : Core bound a) :
    Core bound (.mk id span (.apply f a))
  | ifElse {bound : List String} {id : Nat} {span : Option Span} {c y n : Expr} (cond : Core bound c)
    (yes : Core bound y) (no : Core bound n) : Core bound (.mk id span (.ifElse c y n))
  | letIn {bound : List String} {id : Nat} {span : Option Span} {x : String} {d b : Expr} (definition : Core bound d)
    (fresh : x ∉ d.mentioned) (body : Core (x :: bound) b) :
    Core bound (.mk id span (.letIn ⟨[(x, .expr d)], [], []⟩ b))

/-- The names in scope with their schemes, the innermost first. -/
abbrev TypingContext := List (String × Scheme)

/-- The variables that are free in a scheme of the context. -/
def TypingContext.free (Γ : TypingContext) : VarSet := .ofList (Γ.flatMap fun e => e.2.free.toList)

/-- The type is the body of the scheme with types in place of the quantified
variables. -/
def Scheme.Instance (σ : Scheme) (τ : Ty) : Prop :=
  ∃ ρ : Nat → Ty, (∀ v, (ρ v).WellFormed) ∧ (∀ v, v ∉ σ.vars → ρ v = .var v) ∧ τ = σ.ty.subst ρ

/-- The types of an expression of the core language in a context. -/
inductive HasType : TypingContext → Expr → Ty → Prop where
  | literal {Γ : TypingContext} {id : Nat} {span : Option Span} (l : Literal) :
    HasType Γ (.mk id span (.literal l)) l.ty
  | ref {Γ : TypingContext} {id : Nat} {span : Option Span} {x : String} {σ : Scheme} {τ : Ty}
    (lookup : Γ.lookup x = some σ) (inst : σ.Instance τ) : HasType Γ (.mk id span (.ref x)) τ
  | lambda {Γ : TypingContext} {id : Nat} {span : Option Span} {x : String} {b : Expr} {π τ : Ty} (param : π.WellFormed)
    (body : HasType ((x, .mono π) :: Γ) b τ) : HasType Γ (.mk id span (.lambda (.name x) b)) (.fn π τ)
  | apply {Γ : TypingContext} {id : Nat} {span : Option Span} {f a : Expr} {π τ : Ty} (fn : HasType Γ f (.fn π τ))
    (arg : HasType Γ a π) : HasType Γ (.mk id span (.apply f a)) τ
  | ifElse {Γ : TypingContext} {id : Nat} {span : Option Span} {c y n : Expr} {τ : Ty} (cond : HasType Γ c .bool)
    (yes : HasType Γ y τ) (no : HasType Γ n τ) : HasType Γ (.mk id span (.ifElse c y n)) τ
  | letIn {Γ : TypingContext} {id : Nat} {span : Option Span} {x : String} {d b : Expr} {δ τ : Ty}
    (definition : HasType Γ d δ) (body : HasType ((x, .generalize Γ.free δ) :: Γ) b τ) :
    HasType Γ (.mk id span (.letIn ⟨[(x, .expr d)], [], []⟩ b)) τ

theorem TypingContext.mem_free {Γ : TypingContext} {v : Nat} : v ∈ Γ.free ↔ ∃ e ∈ Γ, v ∈ e.2.free := by
  rw [TypingContext.free, VarSet.mem_ofList, List.mem_flatMap]
  rfl

@[simp] theorem TypingContext.mem_free_nil {v : Nat} : v ∉ TypingContext.free [] := by simp [mem_free]

@[simp] theorem TypingContext.mem_free_cons {Γ : TypingContext} {x : String} {σ : Scheme} {v : Nat} :
    v ∈ TypingContext.free ((x, σ) :: Γ) ↔ v ∈ σ.free ∨ v ∈ Γ.free := by
  simp [mem_free]

@[simp] theorem Scheme.mem_free_mono {t : Ty} {v : Nat} : v ∈ (Scheme.mono t).free ↔ v ∈ t.free := by
  simp [mem_free, mono]

theorem Scheme.instance_mono {t : Ty} (h : t.WellFormed) : (Scheme.mono t).Instance t :=
  ⟨.var, .var, fun _ _ => rfl, (Ty.subst_eq_self h fun _ _ => rfl).symm⟩

theorem Scheme.Instance.eq_of_mono {t τ : Ty} (ht : t.WellFormed) (h : (Scheme.mono t).Instance τ) : τ = t := by
  obtain ⟨ρ, -, hρ, rfl⟩ := h
  exact Ty.subst_eq_self ht fun v _ => hρ v (by simp [mono])

/-- Every scheme of the context has a well formed body. -/
def TypingContext.WellFormed (Γ : TypingContext) : Prop := ∀ x σ, (x, σ) ∈ Γ → σ.ty.WellFormed

theorem TypingContext.WellFormed.cons {Γ : TypingContext} (h : Γ.WellFormed) (x : String) {σ : Scheme}
    (hσ : σ.ty.WellFormed) : TypingContext.WellFormed ((x, σ) :: Γ) := by
  intro y σ' hmem
  rcases List.mem_cons.1 hmem with he | hmem
  · cases he
    exact hσ
  · exact h y σ' hmem

theorem TypingContext.WellFormed.lookup {Γ : TypingContext} (h : Γ.WellFormed) {x : String} {σ : Scheme}
    (hx : Γ.lookup x = some σ) : σ.ty.WellFormed := by
  obtain ⟨front, back, rfl, -⟩ := List.lookup_eq_some_iff.1 hx
  exact h x σ (by simp)

theorem HasType.wellFormed {Γ : TypingContext} {e : Expr} {τ : Ty} (h : HasType Γ e τ) (hΓ : Γ.WellFormed) :
    τ.WellFormed := by
  induction h with
  | literal l => cases l <;> exact .prim _
  | ref lookup inst =>
    obtain ⟨ρ, hρ, -, rfl⟩ := inst
    exact (hΓ.lookup lookup).subst fun v _ => hρ v
  | lambda param _ ih => exact .fn param (ih (hΓ.cons _ param))
  | apply _ _ ihFn _ =>
    cases ihFn hΓ with | fn _ hτ => exact hτ
  | ifElse _ _ _ _ ih _ => exact ih hΓ
  | letIn _ _ ihDef ihBody => exact ihBody (hΓ.cons _ (ihDef hΓ))

end NixTyping
