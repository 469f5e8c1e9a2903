import Mathlib
import NixTyping.Proofs.SearchPath
import NixTyping.Proofs.UnifierCalls
/-!
# Unification and search end

The calls of the unifier are well founded, and its answers are those of the recursion
through them, whatever the types are (`Unification.wellFounded_calls`,
`Unification.answerBy_eq_answer`).

The search is a loop that visits one node in each round. `Loop.round` is one round, and
after finitely many of them the loop has ended (`iterate_round`).
-/

namespace NixTyping

namespace Search

/-! ## The loop of the search -/

/-- The loop of the search: it goes on with the nodes of a stack, or it has ended. -/
inductive Loop where
  | running (s : Stack) (p : Progress)
  | ended (p : Progress)

/-- One round of the loop: a node is visited, if there is one. -/
def Loop.round (limit : Option Nat) : Loop → Loop
  | .ended p => .ended p
  | .running ⟨[]⟩ p => .ended p
  | .running ⟨n :: rest⟩ p =>
    if n.constraints.isEmpty then
      match stop? limit (p.found n.subst) rest with
      | some e => .ended ((p.found n.subst).note e)
      | none => .running ⟨rest⟩ (p.found n.subst)
    else
      match Constraint.takeSolvable n.constraints with
      | none => .running ⟨rest⟩ ((p.note (.stuck n.constraints.length)).failed (.ambiguous n.constraints))
      | some (.eq l r, others) =>
        .running ⟨n.children others (l.unify r) ++ rest⟩
          ((p.note (.solving (.eq l r))).failedBranches (l.unify r).errors)
      | some (.implicit t mono bound, others) =>
        .running ⟨⟨n.subst, .explicit t (.generalize mono bound) :: others⟩ :: rest⟩
          (p.note (.solving (.implicit t mono bound)))
      | some (.explicit t scheme, others) =>
        .running ⟨⟨n.subst, .eq t (scheme.instantiate p.next).1 :: others⟩ :: rest⟩
          { p.note (.solving (.explicit t scheme)) with next := (scheme.instantiate p.next).2 }

/-- From every state the loop ends, with what the search returns. -/
theorem Explores.iterate {limit : Option Nat} {s : Stack} {p q : Progress} (h : Explores limit s p q) :
    ∃ rounds, (Loop.round limit)^[rounds] (.running s p) = .ended q := by
  have hnext : ∀ {loop next : Loop} {q : Progress}, loop.round limit = next →
      (∃ rounds, (Loop.round limit)^[rounds] next = .ended q) →
      ∃ rounds, (Loop.round limit)^[rounds] loop = .ended q := by
    rintro loop _ q rfl ⟨rounds, hrounds⟩
    exact ⟨rounds + 1, hrounds⟩
  induction h with
  | empty p => exact ⟨1, rfl⟩
  | stop solved stopped =>
    refine hnext ?_ ⟨0, rfl⟩
    simp [Loop.round, solved, stopped]
  | leaf solved goesOn _ ih =>
    refine hnext ?_ ih
    simp [Loop.round, solved, goesOn]
  | stuck unsolved take _ ih =>
    refine hnext ?_ ih
    simp [Loop.round, unsolved, take]
  | eq take _ ih =>
    refine hnext ?_ ih
    simp [Loop.round, not_isEmpty_of_take take, take]
  | implicit take _ ih =>
    refine hnext ?_ ih
    simp [Loop.round, not_isEmpty_of_take take, take]
  | explicit take _ ih =>
    refine hnext ?_ ih
    simp [Loop.round, not_isEmpty_of_take take, take, Scheme.instantiate_eq]

theorem iterate_round (limit : Option Nat) (s : Stack) (p : Progress) :
    ∃ rounds, (Loop.round limit)^[rounds] (.running s p) = .ended (explore limit s p) :=
  (explores_explore limit s p).iterate

end Search

/-- Unification and search end: the calls of the unifier, on any types at all, are well founded, and its answers are
those of the recursion through these calls; and the loop of the search, with any limit or none, ends after finitely many
rounds, with what the search returns. -/
theorem unification_and_search_end :
    WellFounded Unification.Calls ∧
    (∀ (c : Unification.Call) (ask : Unification.Call → Branches), (∀ d, Unification.Calls d c → ask d = d.answer) →
      c.answerBy ask = c.answer) ∧
    ∀ (cs : List Constraint) (next : Nat) (limit : Option Nat), ∃ rounds p,
      (Search.Loop.round limit)^[rounds] (.running ⟨[⟨∅, cs⟩]⟩ { next := next }) = .ended p ∧
      solve cs next limit = p.note (.finished p.substs.size p.errors.size) := by
  refine ⟨Unification.wellFounded_calls, fun c _ => Unification.answerBy_eq_answer c, fun cs next limit => ?_⟩
  obtain ⟨rounds, hended⟩ := Search.iterate_round limit ⟨[⟨∅, cs⟩]⟩ { next := next }
  exact ⟨rounds, _, hended, rfl⟩

/-- Two functions of two parameters. The first parameters bind a variable to an overload set, and what is left is larger
than before. -/
def growingCall : Unification.Call :=
  .types (.fn (.var 0) (.fn (.var 0) .int)) (.fn (.overload [.int, .float]) (.fn .float (.var 1)))

/-- One alternative of the set fails against what is left, the other does not. -/
theorem unification_and_search_end_growing_call :
    (∀ d, Unification.Calls d growingCall → Unification.Call.answer d = d.answer) ∧
    growingCall.answer.substs.map (·.bindings) = [[(0, .overload [.int, .float]), (1, .int)]] ∧
    growingCall.answer.errors = [.mismatch .int .float] ∧
    growingCall.answerBy Unification.Call.answer = growingCall.answer :=
  ⟨fun _ _ => rfl, by cbv, by cbv, unification_and_search_end.2.1 growingCall _ fun _ _ => rfl⟩

end NixTyping
