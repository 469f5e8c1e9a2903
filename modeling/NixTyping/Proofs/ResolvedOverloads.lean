import Mathlib
import NixTyping.Proofs.ComparedWalks
import NixTyping.Proofs.Lowered
import NixTyping.Proofs.Overloading
import NixTyping.Proofs.TotalJudgment
import NixTyping.Proofs.PrincipalTyping
/-!
# Overload sets are resolved

An overload set stands on the right side of an equation only, opposite a function type,
and it is a signature, which no substitution changes (`Constraint.Plain`). To solve such
an equation is to choose an alternative, so what the search binds has no overload set
in it, and neither have the schemes of an expression, unless the environment has one.
-/

namespace NixTyping

open Search

/-! ## Unification -/

theorem Unifies.overloadFree {l r : Ty} {s : Subst} (h : Unifies [l] [r] s) (hl : l.OverloadFree)
    (hr : r.OverloadFree) : s.All Ty.OverloadFree := by
  refine h.hereditary ⟨inferInstance, fun ts ht => ?_, fun p b ht => ?_, fun ts ht => ?_⟩ (by simpa using hl)
    (by simpa using hr)
  · exact Ty.overloadFree_list.1 ht
  · exact Ty.overloadFree_fn.1 ht
  · exact absurd ht (Ty.not_overloadFree_overload ts)

/-- A function type opposite a signature is unified with one of its alternatives. -/
theorem Signature.unifies {sig p b : Ty} (h : Signature sig) {s : Subst} (hs : s ∈ ((Ty.fn p b).unify sig).substs) :
    ∃ a : Ty, a.OverloadFree ∧ Unifies [.fn p b] [a] s := by
  obtain ⟨ts, -, rfl, hts⟩ := h.rows
  have halts : ∀ a ∈ Ty.altsOf ts, a.OverloadFree := by
    intro a ha
    obtain ⟨t, ht, ha⟩ := Ty.mem_altsOf.1 ha
    obtain ⟨q, c, rfl⟩ := (hts t ht).2
    obtain rfl := List.mem_singleton.1 ha
    exact (hts _ ht).1.1
  rcases Ty.overloads_cases ts with ⟨t, hone, heq⟩ | ⟨-, heq⟩
  · rw [heq] at hs
    exact ⟨t, halts t (by simp [hone]), Ty.unifies_of_mem hs⟩
  · rw [heq, Unification.substs_unify_right (by simp [Ty.Single]) (by simp)] at hs
    obtain ⟨a, ha, hs⟩ := List.mem_flatMap.1 hs
    exact ⟨a, halts a ha, Ty.unifies_of_mem hs⟩

/-! ## The search -/

/-- There is no overload set in the constraint but a signature opposite a function type. -/
inductive Constraint.Plain : Constraint → Prop where
  | eq {l r : Ty} (left : l.OverloadFree) (right : r.OverloadFree) : Plain (.eq l r)
  | operator {p b sig : Ty} (applied : (Ty.fn p b).OverloadFree) (signature : Signature sig) : Plain (.eq (.fn p b) sig)
  | explicit {t : Ty} {σ : Scheme} (ty : t.OverloadFree) (scheme : σ.ty.OverloadFree) : Plain (.explicit t σ)
  | implicit {t b : Ty} {M : VarSet} (ty : t.OverloadFree) (bound : b.OverloadFree) : Plain (.implicit t M b)

theorem Constraint.Plain.apply {c : Constraint} {s : Subst} (h : c.Plain) (hs : s.All Ty.OverloadFree) :
    (c.apply s).Plain := by
  cases h with
  | eq left right => exact .eq (hs.apply left) (hs.apply right)
  | @operator p b sig applied signature =>
    have hfn : (Ty.fn p b).apply s = .fn (p.apply s) (b.apply s) := by
      simp only [Ty.apply]
      split <;> rfl
    have hsig : sig.apply s = sig := by
      unfold Ty.apply
      split
      · rfl
      · rw [Ty.replace_eq_subst]
        exact Ty.subst_eq_self signature.wellFormed fun v hv => absurd hv (signature.closed v)
    have happlied := hs.apply applied
    rw [hfn] at happlied
    rw [Constraint.apply, hfn, hsig]
    exact .operator happlied signature
  | explicit ty scheme => exact .explicit (hs.apply ty) ((hs.without _).apply scheme)
  | implicit ty bound => exact .implicit (hs.apply ty) (hs.apply bound)

theorem Constraint.Plain.unify {l r : Ty} (h : (Constraint.eq l r).Plain) {s : Subst} (hs : s ∈ (l.unify r).substs) :
    s.All Ty.OverloadFree := by
  cases h with
  | eq left right => exact (Ty.unifies_of_mem hs).overloadFree left right
  | operator applied signature =>
    obtain ⟨a, ha, hunifies⟩ := signature.unifies hs
    exact hunifies.overloadFree applied ha

namespace Search

structure Node.Plain (n : Node) : Prop where
  subst : n.subst.All Ty.OverloadFree
  constraints : ∀ c ∈ n.constraints, c.Plain

theorem Step.plain {k k' : Nat} {n n' : Node} (h : Step k n k' n') (hn : n.Plain) : n'.Plain := by
  cases h with
  | @unify l r others su take mem =>
    have hsu := (hn.constraints _ ((Constraint.mem_of_takeSolvable take).2 (.inl rfl))).unify mem
    refine ⟨hsu.compose hn.subst, fun c hc => ?_⟩
    obtain ⟨d, hd, rfl⟩ := List.mem_map.1 hc
    exact (hn.constraints d ((Constraint.mem_of_takeSolvable take).2 (.inr hd))).apply hsu
  | @generalize t b M others take =>
    refine ⟨hn.subst, fun c hc => ?_⟩
    rcases List.mem_cons.1 hc with rfl | hc
    · cases hn.constraints _ ((Constraint.mem_of_takeSolvable take).2 (.inl rfl)) with
      | implicit ty bound => exact .explicit ty bound
    · exact hn.constraints c ((Constraint.mem_of_takeSolvable take).2 (.inr hc))
  | @instantiate t σ others take =>
    refine ⟨hn.subst, fun c hc => ?_⟩
    rcases List.mem_cons.1 hc with rfl | hc
    · cases hn.constraints _ ((Constraint.mem_of_takeSolvable take).2 (.inl rfl)) with
      | explicit ty scheme => exact .eq ty ((σ.all_freshening k).apply scheme)
    · exact hn.constraints c ((Constraint.mem_of_takeSolvable take).2 (.inr hc))

theorem overloadFree_of_mem_solve {cs : List Constraint} (h : ∀ c ∈ cs, c.Plain) {next : Nat} {limit : Option Nat}
    {S : Subst} (hS : S ∈ (solve cs next limit).substs) : S.All Ty.OverloadFree := by
  obtain ⟨k, leaf, hpath, -, rfl⟩ := ends_of_mem_solve hS
  have hroot : Node.Plain ⟨∅, cs⟩ := ⟨fun v t hv => (nomatch hv), h⟩
  exact (hpath.preserves (I := fun _ n => n.Plain) (fun _ _ _ _ hn => hn) (fun _ _ _ _ => Step.plain) hroot).subst

end Search

/-! ## Expressions -/

/-- No scheme of the environment has an overload set. -/
def Env.OverloadFree (env : Env) : Prop :=
  ∀ name schemes, env.lookup name = some schemes → ∀ σ ∈ schemes, σ.ty.OverloadFree

section Judgment
variable {env : Env}

theorem Env.Offers.overloadFree (henv : env.OverloadFree) {vars : List Nat} {t : Ty} (h : env.Offers vars t) :
    t.OverloadFree := by
  induction h with
  | scheme bound mem => exact henv _ _ bound _ mem
  | field _ mem ih => exact Ty.overloadFree_record.1 ih _ mem
  | record _ ih => exact .record ih

theorem Constraint.Issued.plain (henv : env.OverloadFree) {k : Nat} {c : Constraint} (h : c.Issued env k) :
    c.Plain := by
  cases h with
  | eq left right => exact .eq left.1 right.1
  | operator applied signature => exact .operator applied.1 signature
  | explicit ty offered => exact .explicit ty.1 (offered.overloadFree henv)
  | implicit ty mono bound => exact .implicit ty.1 bound.1

end Judgment

theorem Scheme.overloadFree_closeOver {t : Ty} (h : t.OverloadFree) : (closeOver t).ty.OverloadFree := by
  rw [closeOver_ty h.wellFormed]
  exact h.subst fun v => .var _

/-- No overload set is left in what inference finds for an expression of a lowered tree. -/
theorem overloads_resolved_ofTree {source : String} {tree : Tree} {m : Module} {odd : List Oddity}
    (hm : Module.ofTree source tree = (m, odd)) {e : Expr} (he : e ∈ m.exprs) {env : Env} (henv : env.OverloadFree)
    (limit : Option Nat) :
    ∃ J s, e.judge env = .ok (J, s) ∧
      (∀ S ∈ (solve (J.constraints ++ env.instances J.assumptions) s.next limit).substs, ∀ v t, S.get? v = some t →
        t.OverloadFree) ∧
      ∀ schemes, (e.infer env limit).result = .ok schemes → ∀ σ ∈ schemes, σ.ty.OverloadFree := by
  have hsourced := Module.sourced_of_mem hm he
  obtain ⟨J, s, hjudge, -⟩ := e.judge_total hsourced env
  have hJ := Expr.judge_issued hjudge
  have hsolve :
      ∀ S ∈ (solve (J.constraints ++ env.instances J.assumptions) s.next limit).substs, S.All Ty.OverloadFree :=
    fun S hS => overloadFree_of_mem_solve (fun c hc => (hJ.posed c hc).plain henv) hS
  refine ⟨J, s, hjudge, hsolve, fun schemes hschemes σ hσ => ?_⟩
  obtain ⟨-, -, rfl⟩ := (Expr.infer_eq_ok_iff hjudge).1 hschemes
  obtain ⟨S, hS, rfl⟩ := List.mem_map.1 hσ
  exact Scheme.overloadFree_closeOver ((hsolve S (Array.mem_toList_iff.1 hS)).apply hJ.ty.1)

/-- In an environment without overload sets, for an expression of a module: no type that is bound by a solution of its
constraints has an overload set in it, and no scheme that is inferred for it. -/
theorem overloads_resolved {text : String} {m : Module} {odd : List Oddity}
    (htext : Module.ofText? text = some (m, odd)) {e : Expr} (he : e ∈ m.exprs) {env : Env} (henv : env.OverloadFree)
    (limit : Option Nat) :
    ∃ J s, e.judge env = .ok (J, s) ∧
      (∀ S ∈ (solve (J.constraints ++ env.instances J.assumptions) s.next limit).substs, ∀ v t, S.get? v = some t →
        t.OverloadFree) ∧
      ∀ schemes, (e.infer env limit).result = .ok schemes → ∀ σ ∈ schemes, σ.ty.OverloadFree := by
  obtain ⟨tree, -, hm⟩ := Module.exists_tree htext
  exact overloads_resolved_ofTree hm he henv limit

/-- The module of `x: -x + k`. -/
def negatedSum : Module where
  entry := .mk 4 (some ⟨0, 9⟩) (.lambda (.name "x") (.mk 3 (some ⟨3, 9⟩) (.binary .add
    (.mk 1 (some ⟨3, 5⟩) (.unary .negate (.mk 0 (some ⟨4, 5⟩) (.ref "x")))) (.mk 2 (some ⟨8, 9⟩) (.ref "k")))))
  count := 5

/-- A number. -/
def withNumber : Env := ⟨[("k", [.mono .int])]⟩

/-- Two operators with overload sets, for which two alternatives are left. -/
theorem overloads_resolved_negated_sum :
    Module.ofText? "x: -x + k" = some (negatedSum, []) ∧ negatedSum.entry ∈ negatedSum.exprs ∧ withNumber.OverloadFree ∧
    (negatedSum.entry.infer withNumber none).result = .ok [⟨[], .fn .int .int⟩, ⟨[], .fn .float .float⟩] ∧
    ∀ σ ∈ [Scheme.mk [] (.fn .int .int), ⟨[], .fn .float .float⟩], σ.ty.OverloadFree := by
  have htext : Module.ofText? "x: -x + k" = some (negatedSum, []) := by cbv
  have he : negatedSum.entry ∈ negatedSum.exprs := List.mem_mergeSort.2 (Expr.mem_all.2 (.inl rfl))
  have henv : withNumber.OverloadFree := by
    intro name schemes hlookup σ hσ
    obtain rfl : schemes = [.mono .int] := by
      unfold withNumber Env.lookup findKey at hlookup
      split at hlookup
      · exact (Option.some.inj hlookup).symm
      · cases hlookup
    obtain rfl := List.mem_singleton.1 hσ
    exact .prim _
  have hresult : (negatedSum.entry.infer withNumber none).result =
      .ok [⟨[], .fn .int .int⟩, ⟨[], .fn .float .float⟩] := by cbv
  obtain ⟨J, s, -, -, hschemes⟩ := overloads_resolved htext he henv none
  exact ⟨htext, he, henv, hresult, hschemes _ hresult⟩

end NixTyping
