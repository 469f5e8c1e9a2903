import Mathlib
import NixTyping.Infer
import NixTyping.Proofs.RecursiveSearch
/-!
# The limit on solutions

The search looks at its limit when it has found a solution and nodes are left. Until
then it does what the search without a limit does. So it either ends like that search,
with no more solutions than the limit allows, or it stops at the solution that reaches
the limit, and everything it has by then that search has too (`Explores.cutAt`).

Inference makes one scheme of each solution and looks at the errors only when there is
no solution, so a limit cuts off schemes at the end and changes nothing else
(`infer_limit`).
-/

namespace NixTyping

namespace Search

/-- Without a limit, what has been found stays in front of what is found later. -/
theorem prefix_explore (s : Stack) (p : Progress) :
    p.substs.toList <+: (explore none s p).substs.toList ∧ p.errors.toList <+: (explore none s p).errors.toList := by
  have hfound := ofProgress_explore s p
  exact ⟨⟨_, (congrArg Found.substs hfound).symm⟩, ⟨_, (congrArg Found.errors hfound).symm⟩⟩

/-- One progress is the other with at most `max` solutions, or the beginning of the other up to its solution
number `max`. -/
inductive Progress.CutAt (max : Nat) (p q : Progress) : Prop where
  | whole (same : p = q) (few : p.substs.size ≤ max)
  | cut (size : p.substs.size = max) (substs : p.substs.toList <+: q.substs.toList)
    (errors : p.errors.toList <+: q.errors.toList)

theorem stop?_eq_some {max : Nat} {p : Progress} {rest : List Node} {e : Event}
    (h : stop? (some max) p rest = some e) : max ≤ p.substs.size := by
  simp only [stop?, Option.ite_none_right_eq_some, Bool.and_eq_true, decide_eq_true_eq] at h
  exact h.1.1

theorem stop?_eq_none {max : Nat} {p : Progress} {rest : List Node} (h : stop? (some max) p rest = none) :
    p.substs.size < max ∨ rest = [] := by
  simp only [stop?, ite_eq_right_iff, reduceCtorEq, imp_false, Bool.and_eq_true, decide_eq_true_eq, not_and,
    Bool.not_eq_true', Bool.not_eq_false, List.isEmpty_iff] at h
  exact (Nat.lt_or_ge p.substs.size max).imp id h

/-- As long as the limit is not reached, the search with the limit is on the way of the search without it. -/
theorem Explores.cutAt {max : Nat} {s : Stack} {p q : Progress} (h : Explores (some max) s p q)
    (hp : p.substs.size < max) : q.CutAt max (explore none s p) := by
  induction h with
  | empty p =>
    rw [explore_nil]
    exact .whole rfl (Nat.le_of_lt hp)
  | @stop n rest p e solved stopped =>
    have hsize : (p.found n.subst).substs.size = p.substs.size + 1 := Array.size_push n.subst
    have hmax := stop?_eq_some stopped
    have hafter := prefix_explore ⟨rest⟩ (p.found n.subst)
    rw [explore_leaf solved]
    exact .cut (by show (p.found n.subst).substs.size = max; omega) hafter.1 hafter.2
  | @leaf n rest p q solved goesOn rounds ih =>
    have hsize : (p.found n.subst).substs.size = p.substs.size + 1 := Array.size_push n.subst
    rw [explore_leaf solved]
    rcases stop?_eq_none goesOn with hless | rfl
    · exact ih hless
    -- the limit may be reached with the last node of all
    · cases rounds
      show (p.found n.subst).CutAt max (explore none ⟨[]⟩ (p.found n.subst))
      rw [explore_nil]
      exact .whole rfl (by omega)
  | stuck unsolved take _ ih =>
    rw [explore_stuck unsolved take]
    exact ih hp
  | eq take _ ih =>
    rw [explore_eq take]
    exact ih (by simpa using hp)
  | implicit take _ ih =>
    rw [explore_implicit take]
    exact ih hp
  | explicit take _ ih =>
    rw [explore_explicit take]
    exact ih hp

theorem solve_cutAt {max : Nat} (hmax : 1 ≤ max) (cs : List Constraint) (next : Nat) :
    (solve cs next (some max)).CutAt max (solve cs next none) := by
  unfold solve
  dsimp only
  cases (explores_explore (some max) ⟨[⟨∅, cs⟩]⟩ { next := next }).cutAt hmax with
  | whole same few =>
    rw [same] at few ⊢
    exact .whole rfl few
  | cut size substs errors => exact .cut size substs errors

namespace Progress
variable {max : Nat} {p q : Progress}

theorem CutAt.substs_eq (h : p.CutAt max q) : p.substs.toList = q.substs.toList.take max := by
  cases h with
  | whole same few =>
    subst same
    exact (List.take_of_length_le (by simpa using few)).symm
  | cut size substs errors =>
    rw [List.prefix_iff_eq_take.1 substs, Array.length_toList, size]

theorem CutAt.prefix_errors (h : p.CutAt max q) : p.errors.toList <+: q.errors.toList := by
  cases h with
  | whole same few => exact same ▸ List.prefix_refl _
  | cut size substs errors => exact errors

end Progress

end Search

theorem schemesOf_cutAt {max : Nat} {p q : Search.Progress} (hmax : 1 ≤ max) (h : p.CutAt max q) (t : Ty) :
    schemesOf t p = (schemesOf t q).map (List.take max) := by
  have hsubsts := h.substs_eq
  have hsize : p.substs.size = min max q.substs.size := by simpa using congrArg List.length hsubsts
  by_cases hq : q.substs.size = 0
  -- without a solution there is nothing to cut off, and the errors are the same too
  · obtain rfl : p = q := by
      cases h with
      | whole same few => exact same
      | cut size substs errors => omega
    unfold schemesOf
    rw [if_pos (by simpa using hq)]
    split <;> rfl
  · have hp : p.substs.size ≠ 0 := by omega
    unfold schemesOf
    rw [if_neg (by simpa using hp), if_neg (by simpa using hq), hsubsts, List.map_take]
    rfl

/-- A limit of one or more solutions only cuts off: inference fails with and without it in the same way, and otherwise
gives the first of the schemes it gives without it; and the errors of a search are the first of those without it. -/
theorem infer_limit {max : Nat} (hmax : 1 ≤ max) :
    (∀ (e : Expr) (env : Env), (e.infer env (some max)).result = (e.infer env none).result.map (List.take max)) ∧
    ∀ (cs : List Constraint) (next : Nat),
      (solve cs next (some max)).errors.toList <+: (solve cs next none).errors.toList := by
  refine ⟨fun e env => ?_, fun cs next => (Search.solve_cutAt hmax cs next).prefix_errors⟩
  unfold Expr.infer
  split
  · rfl
  · split
    · exact schemesOf_cutAt hmax (Search.solve_cutAt hmax _ _) _
    · rfl

/-- The expression of `x: x + 1`. -/
def addOne : Expr :=
  .mk 3 none (.lambda (.name "x") (.mk 2 none (.binary .add (.mk 0 none (.ref "x")) (.mk 1 none (.literal (.int 1))))))

/-- Two of the ways to add take an integer on the right, and others fail between them; a limit of one leaves the
first. -/
theorem infer_limit_add_one :
    1 ≤ 1 ∧ (addOne.infer ∅ none).result = .ok [⟨[], .fn .int .int⟩, ⟨[], .fn .float .float⟩] ∧
    (addOne.infer ∅ (some 1)).result = .ok [⟨[], .fn .int .int⟩] := by
  have hall : (addOne.infer ∅ none).result = .ok [⟨[], .fn .int .int⟩, ⟨[], .fn .float .float⟩] := by cbv
  refine ⟨Nat.le_refl 1, hall, ?_⟩
  rw [(infer_limit (Nat.le_refl 1)).1, hall]
  rfl

end NixTyping
