import Mathlib
import NixTyping.Infer
import NixTyping.Proofs.ComparedWalks
/-!
# Inference with a renamed parameter

The walks over an expression and over its renaming go side by side and come to the same
judgment, since no assumption has the new name at the end. So inference gives the same
answer (`infer_rename`).

A group is divided into components by the names that stand in its definitions, also
where another binder takes them. So a renaming may divide a group that binds the old
name, and then inference does not say the same; all other groups stay as they are.
-/

namespace NixTyping

open Judging

namespace Renaming

variable {R : Renaming} {env env' : Env}

/-- The walks over an expression and over its renaming, each in an environment of its own. -/
def comparison (R : Renaming) (env env' : Env) : Comparison := ⟨env, env', id, R, .start, True⟩

theorem suits_comparison {p : Expr} (hnew : R.new ∉ p.form.names)
    (henv : ∀ x, p.form = .ref x → env'.lookup x = env.lookup x)
    (hgroups : ∀ g, p.form.group? = some g → R.old ∈ g.names →
      (Dependencies.ofBindings (R.group .outside .outside g)).components = (Dependencies.ofBindings g).components) :
    (R.comparison env env').Suits p := by
  refine ⟨hnew, fun x hx => ⟨?_, rfl, ?_⟩, hgroups⟩
  · rintro rfl
    exact hnew (by rw [hx]; exact List.mem_singleton_self _)
  · simp [comparison, henv x hx]

/-- Both walks come to the same end. -/
theorem judge_rename {e : Expr} (he : e.Everywhere (R.comparison env env').Suits) :
    (∃ stuck, e.judge env = .error stuck ∧ (R.expr .outside e).judge env' = .error stuck) ∨
      ∃ J t t', e.judge env = .ok (J, t) ∧ (R.expr .outside e).judge env' = .ok (J, t') ∧ t'.next = t.next ∧
        ∀ a ∈ J.assumptions.entries, env'.lookup a.1 = env.lookup a.1 := by
  have hdepth : depthOf (R.expr .outside e) = depthOf e := by rw [depthOf, depthOf, R.length_all_expr]
  have hstuck : ∀ stuck, Base.start.stuck stuck = stuck := by
    intro stuck
    cases stuck with
    | slot e => cases e <;> rfl
    | _ => rfl
  unfold Expr.judge
  rw [hdepth]
  rcases (R.comparison env env').outcomes_runTo he (le_refl (depthOf e)) fun _ => rfl with
    ⟨stuck, hrun, hrun'⟩ | ⟨J, t, J', t', hrun, hrun', hends⟩
  · refine .inl ⟨stuck, hrun, ?_⟩
    rw [← hstuck stuck]
    exact hrun' trivial
  · obtain rfl : J' = J := by
      rw [hends.eq, hends.issued.rename_eq_self (ρ := (R.comparison env env').base.var) fun _ => rfl]
      exact J.relabelSchemes_id
    refine .inr ⟨J', t, t', hrun, hrun', hends.next, fun a ha => ?_⟩
    have henv := (hends.refers a ha).env
    simpa [comparison] using henv

theorem unbound_eq {a : Assumptions} (h : ∀ x ∈ a.entries, env'.lookup x.1 = env.lookup x.1) :
    env'.unbound a = env.unbound a := by
  unfold Env.unbound
  refine List.filter_congr fun x hx => ?_
  obtain ⟨y, hy, rfl⟩ := List.mem_map.1 (mem_sortNames.1 hx)
  rw [Env.contains, Env.contains, h y hy]

theorem instances_eq {a : Assumptions} (h : ∀ x ∈ a.entries, env'.lookup x.1 = env.lookup x.1) :
    env'.instances a = env.instances a := by
  unfold Env.instances
  refine List.flatMap_congr fun x hx => ?_
  obtain ⟨name, t⟩ := x
  simp only [h _ hx]

theorem infer_rename {e : Expr} (he : e.Everywhere (R.comparison env env').Suits) (limit : Option Nat) :
    (R.expr .outside e).infer env' limit = e.infer env limit := by
  unfold Expr.infer
  rcases judge_rename he with ⟨stuck, hr, hr'⟩ | ⟨J, t, t', hr, hr', hnext, henv⟩
  · rw [hr, hr']
  · rw [hr, hr']
    simp only [unbound_eq henv, instances_eq henv, hnext]

end Renaming

/-- A function may give its parameter a name that stands nowhere in the expression:
inference says the same as before, and tells the same on its way, as long as every
group that binds the old name keeps its components. -/
theorem infer_rename_parameter (R : Renaming) (e : Expr) (env : Env) (limit : Option Nat)
    (hnew : ∀ p ∈ e.all, R.new ∉ p.form.names)
    (hgroups : ∀ p ∈ e.all, ∀ g, p.form.group? = some g → R.old ∈ g.names →
      (Dependencies.ofBindings (R.group .outside .outside g)).components = (Dependencies.ofBindings g).components) :
    (R.expr .outside e).infer env limit = e.infer env limit := by
  have hsuits : e.Everywhere (R.comparison env env).Suits := by
    intro p hp
    exact Renaming.suits_comparison (hnew p hp) (fun _ _ => rfl) (hgroups p hp)
  exact Renaming.infer_rename hsuits limit

/-- The expression `let x = 1; f = x: [ x (x: x) ]; in f x`. -/
def shadowedTwice : Expr :=
  .mk 11 none (.letIn ⟨[("x", .expr (.mk 0 none (.literal (.int 1)))), ("f", .expr (.mk 5 none (.lambda (.name "x")
    (.mk 4 none (.list [.mk 1 none (.ref "x"), .mk 3 none (.lambda (.name "x") (.mk 2 none (.ref "x")))])))))], [], []⟩
    (.mk 10 none (.apply (.mk 8 none (.ref "f")) (.mk 9 none (.ref "x")))))

/-- The outer of the two functions takes the name `y`. -/
theorem infer_rename_parameter_shadowed :
    let R : Renaming := ⟨5, "x", "y", by decide⟩
    (∀ p ∈ shadowedTwice.all, R.new ∉ p.form.names) ∧
    (∀ p ∈ shadowedTwice.all, ∀ g, p.form.group? = some g → R.old ∈ g.names →
      (Dependencies.ofBindings (R.group .outside .outside g)).components = (Dependencies.ofBindings g).components) ∧
    ((R.expr .outside shadowedTwice).infer ∅ none).result =
      .ok [⟨[0], .list [.prim .int, .fn (.var 0) (.var 0)]⟩] := by
  intro R
  have hnames : R.new ∉ shadowedTwice.all.flatMap fun p => p.form.names := by decide_cbv
  have hnew : ∀ p ∈ shadowedTwice.all, R.new ∉ p.form.names := by
    intro p hp hmem
    exact hnames (List.mem_flatMap.2 ⟨p, hp, hmem⟩)
  have hlet : shadowedTwice.all.filterMap (fun p => p.form.group?) = shadowedTwice.form.group?.toList := by cbv
  have hgroups : ∀ p ∈ shadowedTwice.all, ∀ g, p.form.group? = some g → R.old ∈ g.names →
      (Dependencies.ofBindings (R.group .outside .outside g)).components = (Dependencies.ofBindings g).components := by
    intro p hp g hg _
    have hmem : g ∈ shadowedTwice.form.group?.toList := hlet ▸ List.mem_filterMap.2 ⟨p, hp, hg⟩
    obtain rfl := List.mem_singleton.1 hmem
    decide_cbv
  refine ⟨hnew, hgroups, ?_⟩
  rw [infer_rename_parameter R shadowedTwice ∅ none hnew hgroups]
  cbv

/-- The expression `let a = b: b; b = [ (a 1) (a "s") ]; in b`. -/
def selfNamed : Expr :=
  .mk 11 none (.letIn ⟨[("a", .expr (.mk 1 none (.lambda (.name "b") (.mk 0 none (.ref "b"))))),
    ("b", .expr (.mk 8 none (.list [.mk 4 none (.apply (.mk 2 none (.ref "a")) (.mk 3 none (.literal (.int 1)))),
      .mk 7 none (.apply (.mk 5 none (.ref "a")) (.mk 6 none (.literal (.string "s"))))])))], [], []⟩
    (.mk 10 none (.ref "b")))

/-- The parameter of `a` has the name of the binding that uses `a`, so both are one
component and `a` is used at one type. With another name it is used at two. -/
theorem rename_divides_group :
    let R : Renaming := ⟨1, "b", "y", by decide⟩
    (∀ p ∈ selfNamed.all, R.new ∉ p.form.names) ∧
    (∀ schemes, (selfNamed.infer ∅ none).result ≠ .ok schemes) ∧
    ((R.expr .outside selfNamed).infer ∅ none).result = .ok [⟨[], .list [.prim .int, .prim .string]⟩] := by
  intro R
  have hnames : R.new ∉ selfNamed.all.flatMap fun p => p.form.names := by decide_cbv
  have hresult : (selfNamed.infer ∅ none).result =
      .error (.typeErrors [.mismatch (.prim .int) (.prim .string)]) := by cbv
  refine ⟨fun p hp hmem => hnames (List.mem_flatMap.2 ⟨p, hp, hmem⟩), fun schemes => ?_, by cbv⟩
  rw [hresult]
  simp

end NixTyping
