import Mathlib
import NixTyping.Proofs.ChartedWalk
import NixTyping.Proofs.Lowered
/-!
# Searches that are never stuck

An implicit instance waits until what it would generalise is no longer active, so
instances could wait for each other. The constraints that are generated for a layered
expression of a module have a chart, and hence a layout: on every path of the search
one of the constraints that are left can be solved.

Definitions of other expressions share their types with what is around them. Each of
the three ways to do so is shown to lead to instances that do wait for each other.
-/

namespace NixTyping

open Judging

/-- The instances that the environment asks for are settled where the names occur. -/
theorem Env.Closed.settled_instances {env : Env} (henv : env.Closed) {g : Chart} {M : VarSet} {scopes : List Scope}
    {J : Judgment} (hJ : g.Sound M scopes J) : ∀ c ∈ env.instances J.assumptions, g.Settled c := by
  intro c hc
  obtain ⟨⟨x, t⟩, ha, hc⟩ := List.mem_flatMap.1 hc
  obtain ⟨σ, hσ, rfl⟩ := List.mem_map.1 hc
  obtain ⟨o, p, rfl, hassumed⟩ := hJ.assumed _ ha
  refine Chart.settled_of_fixed p (by simp) fun v hv => ?_
  cases hlookup : env.lookup x with
  | none =>
    rw [hlookup] at hσ
    cases hσ
  | some schemes =>
    rw [hlookup] at hσ
    rcases hv with hv | hv
    · rw [Ty.mem_free_var.1 hv]
      exact hassumed.issued.fixed
    · exact (henv x schemes hlookup σ hσ v hv).elim

/-- What is generated for an orderly expression has a layout. -/
theorem Expr.laid_judge {env : Env} (henv : env.Closed) {e : Expr} (he : e.Everywhere Expr.Orderly) {J : Judgment}
    {s : State} (h : e.judge env = .ok (J, s)) :
    Search.Laid s.next ⟨∅, J.constraints ++ env.instances J.assumptions⟩ := by
  have hctx : Chart.Surrounds {} {} [] := ⟨by rintro v ⟨⟩, by simp, .nil, by rintro i ⟨⟩⟩
  obtain ⟨g, -, hdescribes, hJ⟩ := (Chart.charts_runTo henv (depthOf e)).expr e he hctx Chart.describes_empty J s h
  rw [← hdescribes.vars]
  refine Chart.laid_of_settled fun c hc => ?_
  rcases List.mem_append.1 hc with hc | hc
  · exact hJ.sound.constraints c hc
  · exact henv.settled_instances hJ.sound c hc

/-- The search for a layered expression of a lowered tree can always take a constraint. -/
theorem layered_never_stuck_ofTree {source : String} {tree : Tree} {m : Module} {odd : List Oddity}
    (hm : Module.ofTree source tree = (m, odd)) {e : Expr} (he : e ∈ m.exprs) (hlayered : e.Everywhere Expr.Layered)
    {env : Env} (henv : env.Closed) {J : Judgment} {s : State} (hjudge : e.judge env = .ok (J, s)) :
    let cs := J.constraints ++ env.instances J.assumptions
    (∀ k n, Search.Path s.next ⟨∅, cs⟩ k n → n.constraints ≠ [] → (Constraint.takeSolvable n.constraints).isSome) ∧
    ∀ limit, ∀ error ∈ (solve cs s.next limit).errors, ∀ left, error ≠ .ambiguous left := by
  intro cs
  have hall : e ∈ m.entry.all := List.mem_mergeSort.1 he
  have honce := (Module.once_entry hm).of_mem hall
  have hlaid : Search.Laid s.next ⟨∅, cs⟩ := e.laid_judge henv (fun p hp => ⟨hlayered p hp, honce p hp⟩) hjudge
  refine ⟨fun k n hpath hne => ?_, fun limit => Search.solve_unambiguous hlaid limit⟩
  obtain ⟨D, hD⟩ := (hpath.laid hlaid).layout
  exact hD.not_stuck hne

/-- Let an expression of a module be layered, and the schemes of the environment
closed. Then as long as constraints are left on a path of the search, one of them can
be solved, and the search reports none as ambiguous. -/
theorem layered_never_stuck {text : String} {m : Module} {odd : List Oddity}
    (htext : Module.ofText? text = some (m, odd)) {e : Expr} (he : e ∈ m.exprs) (hlayered : e.Everywhere Expr.Layered)
    {env : Env} (henv : env.Closed) {J : Judgment} {s : State} (hjudge : e.judge env = .ok (J, s)) :
    let cs := J.constraints ++ env.instances J.assumptions
    (∀ k n, Search.Path s.next ⟨∅, cs⟩ k n → n.constraints ≠ [] → (Constraint.takeSolvable n.constraints).isSome) ∧
    ∀ limit, ∀ error ∈ (solve cs s.next limit).errors, ∀ left, error ≠ .ambiguous left := by
  obtain ⟨tree, -, hm⟩ := Module.exists_tree htext
  exact layered_never_stuck_ofTree hm he hlayered henv hjudge

/-- The module of `let s = rec { a = b; b = x: x; }; in with s; if true then a else k`. -/
def openedByName : Module where
  entry := .mk 10 (some ⟨0, 66⟩) (.letIn ⟨[("s", .expr (.mk 3 (some ⟨8, 32⟩) (.set true
    ⟨[("a", .expr (.mk 0 (some ⟨18, 19⟩) (.ref "b"))),
      ("b", .expr (.mk 2 (some ⟨25, 29⟩) (.lambda (.name "x")
        (.mk 1 (some ⟨28, 29⟩) (.ref "x")))))], [], []⟩)))], [], []⟩
    (.mk 9 (some ⟨37, 66⟩) (.withIn (.mk 4 (some ⟨42, 43⟩) (.ref "s")) (.mk 8 (some ⟨45, 66⟩)
      (.ifElse (.mk 5 (some ⟨48, 52⟩) (.ref "true")) (.mk 6 (some ⟨58, 59⟩) (.ref "a"))
        (.mk 7 (some ⟨65, 66⟩) (.ref "k")))))))
  count := 11

theorem ofText?_openedByName :
    Module.ofText? "let s = rec { a = b; b = x: x; }; in with s; if true then a else k" =
      some (openedByName, []) := by cbv

/-- A recursive set that is opened by its name, beside an instance from the environment. -/
theorem layered_never_stuck_opened_by_name :
    let env : Env := ⟨[("k", [⟨[0], .fn (.var 0) (.var 0)⟩])]⟩
    openedByName.entry.Everywhere Expr.Layered ∧ env.Closed ∧
    ∃ J s, openedByName.entry.judge env = .ok (J, s) ∧
      ∀ limit, ∀ error ∈ (solve (J.constraints ++ env.instances J.assumptions) s.next limit).errors, ∀ left,
        error ≠ .ambiguous left := by
  intro env
  have he : openedByName.entry ∈ openedByName.exprs := List.mem_mergeSort.2 (Expr.mem_all.2 (.inl rfl))
  have hlayered : openedByName.entry.Everywhere Expr.Layered := Expr.everywhere_of_all (by cbv)
  have henv : env.Closed := by
    intro name schemes hlookup σ hσ v
    have hentry := mem_of_findKey hlookup
    simp only [env, List.mem_singleton, Prod.mk.injEq] at hentry
    rw [hentry.2, List.mem_singleton] at hσ
    simp [hσ, Scheme.mem_free]
  have hok : (openedByName.entry.judge env).toOption.isSome := by cbv
  obtain ⟨⟨J, s⟩, hjudge⟩ : ∃ r, openedByName.entry.judge env = .ok r := by
    cases hr : openedByName.entry.judge env with
    | ok r => exact ⟨r, rfl⟩
    | error stuck => simp [hr, Except.toOption] at hok
  have hnever := layered_never_stuck ofText?_openedByName he hlayered henv hjudge
  exact ⟨hlayered, henv, J, s, hjudge, hnever.2⟩

/-! ## Definitions that share their types

The two instances in each of these wait for each other, though the expression is
layered but for one condition. -/

/-- The module of a `with` that opens a recursive set literal: each of two fields is equated with an instance of the
other one's definition. -/
def openedLiteral : Module where
  entry := .mk 16 (some ⟨0, 101⟩) (.withIn (.mk 6 (some ⟨6, 47⟩) (.set true
      ⟨[("x", .expr (.mk 0 (some ⟨16, 17⟩) (.ref "y"))),
        ("y", .expr (.mk 2 (some ⟨23, 27⟩) (.lambda (.name "z") (.mk 1 (some ⟨26, 27⟩) (.ref "z"))))),
        ("p", .expr (.mk 3 (some ⟨33, 34⟩) (.ref "q"))),
        ("q", .expr (.mk 5 (some ⟨40, 44⟩) (.lambda (.name "z") (.mk 4 (some ⟨43, 44⟩) (.ref "z")))))], [], []⟩))
    (.mk 15 (some ⟨50, 101⟩) (.list [
      .mk 10 (some ⟨53, 74⟩) (.ifElse (.mk 7 (some ⟨56, 60⟩) (.ref "true")) (.mk 8 (some ⟨66, 67⟩) (.ref "x"))
        (.mk 9 (some ⟨73, 74⟩) (.ref "q"))),
      .mk 14 (some ⟨77, 98⟩) (.ifElse (.mk 11 (some ⟨80, 84⟩) (.ref "true")) (.mk 12 (some ⟨90, 91⟩) (.ref "p"))
        (.mk 13 (some ⟨97, 98⟩) (.ref "y")))])))
  count := 17

set_option maxRecDepth 4000 in
theorem ofText?_openedLiteral : Module.ofText?
    "with (rec { x = y; y = z: z; p = q; q = z: z; }); [ (if true then x else q) (if true then p else y) ]" =
      some (openedLiteral, []) := by cbv

/-- The module has no other expression that is not layered, and its search is stuck. -/
theorem opened_literal_stuck :
    Module.ofText? "with (rec { x = y; y = z: z; p = q; q = z: z; }); [ (if true then x else q) (if true then p else y) ]" =
      some (openedLiteral, []) ∧
    (∀ p ∈ openedLiteral.entry.all, (∀ q ∈ p.form.equated, q.Sealed) ∧
      ∀ g ∈ p.form.group?, (Dependencies.ofBindings g).components.Nodup) ∧
    ∃ left, (openedLiteral.entry.infer ∅ none).result = .error (.typeErrors [.ambiguous left]) := by
  refine ⟨ofText?_openedLiteral, Expr.everywhere_of_all (by cbv),
    [.implicit (.fn (.var 4) (.var 4)) ∅ (.fn (.var 1) (.var 1)),
      .implicit (.fn (.var 1) (.var 1)) ∅ (.fn (.var 4) (.var 4))], ?_⟩
  cbv

/-- The expression `p: (rec { z = x; x = w: p; }).x`. -/
def constantOf (i : Nat) (p : String) : Expr :=
  .mk (i + 6) none (.lambda (.name p) (.mk (i + 5) none (.select (.mk (i + 3) none (.set true
    ⟨[("z", .expr (.mk i none (.ref "x"))),
      ("x", .expr (.mk (i + 2) none (.lambda (.name "w") (.mk (i + 1) none (.ref p)))))],
      [], []⟩)) [.mk (i + 4) none (.literal (.string "x"))] none)))

/-- The function `f: g: h: k: f h (g k h)` of two of these. -/
def crossedConstants : Expr :=
  .mk 28 none (.apply (.mk 20 none (.apply (.mk 12 none (.lambda (.name "f") (.mk 11 none (.lambda (.name "g")
    (.mk 10 none (.lambda (.name "h") (.mk 9 none (.lambda (.name "k") (.mk 8 none (.apply
      (.mk 2 none (.apply (.mk 0 none (.ref "f")) (.mk 1 none (.ref "h"))))
      (.mk 7 none (.apply (.mk 5 none (.apply (.mk 3 none (.ref "g")) (.mk 4 none (.ref "k"))))
        (.mk 6 none (.ref "h")))))))))))))) (constantOf 13 "p"))) (constantOf 21 "m"))

theorem equated_definitions_stuck :
    (∀ p ∈ crossedConstants.all, (∀ q ∈ p.form.opened, q.Indirect) ∧
      ∀ g ∈ p.form.group?, (Dependencies.ofBindings g).components.Nodup) ∧
    ∃ left, (crossedConstants.infer ∅ none).result = .error (.typeErrors [.ambiguous left]) := by
  refine ⟨Expr.everywhere_of_all (by cbv), [.implicit (.var 14) (.ofList [20]) (.fn (.var 18) (.var 20)),
    .implicit (.var 19) (.ofList [18]) (.fn (.var 20) (.var 18))], ?_⟩
  cbv

/-- The expression `let f = let h = g; k = m; in [ (if true then h else m) (if true then k else g) ]; g = f: f;
m = f: f; in f`. -/
def aliasedComponent : Expr :=
  .mk 17 none (.letIn ⟨[("f", .expr (.mk 11 none (.letIn
      ⟨[("h", .expr (.mk 0 none (.ref "g"))), ("k", .expr (.mk 1 none (.ref "m")))], [], []⟩
      (.mk 10 none (.list [
        .mk 5 none (.ifElse (.mk 2 none (.ref "true")) (.mk 3 none (.ref "h")) (.mk 4 none (.ref "m"))),
        .mk 9 none (.ifElse (.mk 6 none (.ref "true")) (.mk 7 none (.ref "k")) (.mk 8 none (.ref "g")))]))))),
      ("g", .expr (.mk 13 none (.lambda (.name "f") (.mk 12 none (.ref "f"))))),
      ("m", .expr (.mk 15 none (.lambda (.name "f") (.mk 14 none (.ref "f")))))], [], []⟩
    (.mk 16 none (.ref "f")))

theorem aliased_component_stuck :
    (∀ p ∈ aliasedComponent.all, (∀ q ∈ p.form.equated, q.Sealed) ∧ ∀ q ∈ p.form.opened, q.Indirect) ∧
    ∃ left, (aliasedComponent.infer ∅ none).result = .error (.typeErrors [.ambiguous left]) := by
  refine ⟨Expr.everywhere_of_all (by cbv), [.implicit (.fn (.var 4) (.var 4)) ∅ (.fn (.var 2) (.var 2)),
    .implicit (.fn (.var 2) (.var 2)) ∅ (.fn (.var 4) (.var 4)),
    .implicit (.var 0) ∅ (.list [.fn (.var 4) (.var 4), .fn (.var 2) (.var 2)])], ?_⟩
  cbv

end NixTyping
