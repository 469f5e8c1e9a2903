import Mathlib
import NixTyping.Proofs.Layout
import NixTyping.Proofs.UnifierAnswers
/-!
# A laid out search is not stuck

Every step of the search keeps the layout of its constraints (`Step.laid`), so on
every way down some constraint can be solved as long as there are any. The errors
of a unification speak of two types only, so a search that starts with a layout
reports no ambiguous constraints (`solve_unambiguous`).
-/

namespace NixTyping

/-! ## Errors of unification -/

/-- An error that speaks of types. -/
def TypeError.OfTypes : TypeError → Prop
  | .mismatch _ _ | .infinite _ _ | .arity _ _ => True
  | .unbound _ | .ambiguous _ => False

namespace Branches

/-- Every branch that failed did so for its types. -/
def OfTypes (b : Branches) : Prop := ∀ e ∈ b.errors, e.OfTypes

theorem ofTypes_one (s : Subst) : (one s).OfTypes := by
  rintro e ⟨⟩

theorem ofTypes_none : none.OfTypes := by
  rintro e ⟨⟩

theorem ofTypes_fail {e : TypeError} (h : e.OfTypes) : (fail e).OfTypes := by
  intro e' he'
  obtain rfl := List.mem_singleton.1 he'
  exact h

theorem OfTypes.append {a b : Branches} (ha : a.OfTypes) (hb : b.OfTypes) : (a.append b).OfTypes := by
  intro e he
  rcases List.mem_append.1 he with he | he
  · exact ha e he
  · exact hb e he

theorem ofTypes_foldr {α : Type} {f : α → Branches} {xs : List α} (h : ∀ x ∈ xs, (f x).OfTypes) :
    (xs.foldr (fun x more => (f x).append more) .none).OfTypes := by
  induction xs with
  | nil => exact ofTypes_none
  | cons x xs ih => exact (h x List.mem_cons_self).append (ih fun y hy => h y (List.mem_cons_of_mem x hy))

theorem ofTypes_bindVar (v : Nat) (t : Ty) : (ofExcept (bindVar v t)).OfTypes := by
  unfold bindVar
  split
  · exact ofTypes_one _
  · split
    · exact ofTypes_fail trivial
    · exact ofTypes_one _

theorem OfTypes.andThen {b : Branches} {next : Subst → Branches} (hb : b.OfTypes)
    (hnext : ∀ s ∈ b.substs, (next s).OfTypes) : (b.andThen next).OfTypes := by
  intro e he
  rw [errors_andThen] at he
  rcases List.mem_append.1 he with he | he
  · exact hb e he
  · obtain ⟨s, hs, he⟩ := List.mem_flatMap.1 he
    exact hnext s hs e he

end Branches

theorem Unification.Call.Gives.ofTypes {c : Call} {b : Branches} (h : c.Gives b) : b.OfTypes := by
  induction h with
  | same _ | listEmpty _ _ _ | record _ _ | nil => exact Branches.ofTypes_one _
  | bindLeft _ | bindRight _ => exact Branches.ofTypes_bindVar _ _
  | listFail _ _ _ | recordFail _ _ | clash _ _ _ | short _ _ | long _ _ => exact Branches.ofTypes_fail trivial
  | listHead _ _ _ ih | listAll _ _ _ _ ih | fn _ _ ih => exact ih
  | left _ _ _ ih | right _ _ _ ih => exact Branches.ofTypes_foldr ih
  | cons _ _ ih ihTail => exact ih.andThen ihTail

theorem Ty.ofTypes_unify (l r : Ty) : (l.unify r).OfTypes := (Unification.gives_answer (.types l r)).ofTypes

/-! ## Steps -/

namespace Search

/-- The constraints of the node reach only variables that were issued, and they have
a layout. -/
structure Laid (k : Nat) (n : Node) : Prop where
  reached : ∀ c ∈ n.constraints, ∀ v, c.Reaches v → v < k
  layout : ∃ D, Layout {v | v < k} D n.constraints

theorem Laid.wait {k k' : Nat} {n : Node} (h : Laid k n) (hk : k ≤ k') : Laid k' n := by
  obtain ⟨D, hD⟩ := h.layout
  refine ⟨fun c hc v hv => Nat.lt_of_lt_of_le (h.reached c hc v hv) hk, D, ?_⟩
  exact hD.extend (fun v hv => Nat.lt_of_lt_of_le hv hk) (fun _ _ _ hc => .inl hc) fun _ hc _ => .inl hc

/-- A constraint may be replaced by one that is no implicit instance and reaches
beyond it only fresh variables. -/
theorem Laid.replace {k m : Nat} {n : Node} {c d : Constraint} {others : List Constraint} (h : Laid k n)
    (take : Constraint.takeSolvable n.constraints = some (c, others))
    (hd : ∀ v, d.Reaches v → c.Reaches v ∨ (k ≤ v ∧ v < k + m)) (hplain : ∀ t M b, d ≠ .implicit t M b) :
    Laid (k + m) ⟨n.subst, d :: others⟩ := by
  have hmem := fun {d : Constraint} => Constraint.mem_of_takeSolvable take (d := d)
  have hc := hmem.2 (.inl rfl)
  obtain ⟨D, hD⟩ := h.layout
  refine ⟨fun e he v hv => ?_, _, hD.replace h.reached hc (fun e he => hmem.2 (.inr he)) (Nat.le_refl k)
    (Nat.le_add_right k m) hd hplain⟩
  rcases List.mem_cons.1 he with rfl | he
  · rcases hd v hv with hv | hfresh
    · exact Nat.lt_of_lt_of_le (h.reached c hc v hv) (Nat.le_add_right k m)
    · exact hfresh.2
  · exact Nat.lt_of_lt_of_le (h.reached e (hmem.2 (.inr he)) v hv) (Nat.le_add_right k m)

theorem Step.laid {k k' : Nat} {n n' : Node} (hstep : Step k n k' n') (h : Laid k n) : Laid k' n' := by
  cases hstep with
  | @unify l r others su take mem =>
    have hmem := fun {d : Constraint} => Constraint.mem_of_takeSolvable take (d := d)
    have heq := hmem.2 (.inl rfl)
    have hsolved : su.SolvedIn {v | v ∈ l.free ∨ v ∈ r.free} :=
      (solvedIn_of_mem_unify mem).mono fun v hv => VarSet.mem_union.1 hv
    obtain ⟨D, hD⟩ := h.layout
    refine ⟨fun c hc v hv => ?_, _, hD.unify heq (fun c hc => hmem.2 (.inr hc)) hsolved⟩
    obtain ⟨d, hd, rfl⟩ := List.mem_map.1 hc
    obtain ⟨w, hw, hv⟩ := Constraint.reaches_apply hv
    rcases (hsolved.of_mem_toFun hv).2 with rfl | hv
    · exact h.reached d (hmem.2 (.inr hd)) v hw
    · exact h.reached _ heq v hv
  | @generalize t b M others take =>
    refine h.replace (m := 0) take (fun v hv => .inl ?_) (by simp)
    rcases hv with hv | hv
    · exact .inl hv
    · exact .inr (Scheme.mem_free_generalize.1 hv).2
  | @instantiate t σ others take =>
    refine h.replace take (fun v hv => ?_) (by simp)
    rcases hv with hv | hv
    · exact .inl (.inl hv)
    · exact (Scheme.free_instance hv).imp_left .inr

theorem Path.laid {k k' : Nat} {n n' : Node} (h : Path k n k' n') (hn : Laid k n) : Laid k' n' :=
  h.preserves (fun _ _ _ hk hn => hn.wait hk) (fun _ _ _ _ hstep hn => hstep.laid hn) hn

/-- No branch has failed for constraints that cannot be solved. -/
theorem keeps_unambiguous : Keeps Laid fun p => ∀ e ∈ p.errors, ∀ cs, e ≠ .ambiguous cs where
  wait _ _ _ hk h := h.wait hk
  step _ _ _ _ hstep h := hstep.laid h
  note _ _ hp := hp
  issue _ _ hp := hp
  found _ _ _ _ hp := hp
  failed p l r e he hp d hd := by
    rcases Array.mem_push.1 hd with hd | rfl
    · exact hp d hd
    · rintro cs rfl
      exact Ty.ofTypes_unify l r _ he
  stuck p n hn hne hnone hp := by
    obtain ⟨D, hD⟩ := hn.layout
    have hsome := hD.not_stuck hne
    rw [hnone] at hsome
    cases hsome

/-- A search that starts with a layout reports no ambiguous constraints. -/
theorem solve_unambiguous {cs : List Constraint} {next : Nat} (h : Laid next ⟨∅, cs⟩) (limit : Option Nat) :
    ∀ e ∈ (solve cs next limit).errors, ∀ left, e ≠ .ambiguous left := by
  refine explore_keeps keeps_unambiguous ?_ ?_
  · intro n hn
    obtain rfl := List.mem_singleton.1 hn
    exact h
  · simp

end Search

end NixTyping
