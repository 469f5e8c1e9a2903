import Mathlib
import NixTyping.Proofs.SearchPath
/-!
# Solutions are in solved form

A node of the search binds only variables that it has met: those of the first
constraints and those issued since. It never binds one that a constraint still
mentions, so each new unification works on the variables that are left, and what
it is composed with stays solved.
-/

namespace NixTyping

open Search

/-! ## Substitutions -/

/-- A substitution in solved form does all its work at once. -/
theorem Ty.apply_apply_of_solvedIn {s : Subst} {V : Set Nat} (hs : s.SolvedIn V) (hwf : s.WellFormed) {t : Ty}
    (ht : t.WellFormed) : (t.apply s).apply s = t.apply s := by
  rw [Ty.apply_eq_subst (hwf.apply ht)]
  refine Ty.subst_eq_self (hwf.apply ht) ?_
  intro v hv
  obtain ⟨w, -, hw⟩ := Ty.mem_free_apply.1 hv
  exact Subst.toFun_of_none (hs.of_mem_toFun hw).1

/-! ## Nodes -/

namespace Search

/-- The variables of some constraints, and those issued from `next` up to `k`. -/
def met (cs : List Constraint) (next k : Nat) : Set Nat := {v | (∃ c ∈ cs, c.Mentions v) ∨ (next ≤ v ∧ v < k)}

theorem met_mono (cs : List Constraint) (next : Nat) {k k' : Nat} (hk : k ≤ k') : met cs next k ⊆ met cs next k' :=
  fun _ hv => hv.imp_right fun hv => ⟨hv.1, Nat.lt_of_lt_of_le hv.2 hk⟩

/-- The substitution of the node is in solved form, and the node has only variables
that were met on the way from the constraints. -/
structure Solved (cs : List Constraint) (next k : Nat) (n : Node) : Prop where
  supply : next ≤ k
  tidy : Tidy k n
  subst : n.subst.SolvedIn (met cs next k)
  mentioned : ∀ c ∈ n.constraints, ∀ v, c.Mentions v → v ∈ met cs next k

section Steps
variable {cs : List Constraint} {next k k' : Nat} {n n' : Node}

theorem solved_root (h : ∀ c ∈ cs, ∀ v, c.Mentions v → v < next) : Solved cs next next ⟨∅, cs⟩ where
  supply := Nat.le_refl next
  tidy := tidy_root h
  subst := Subst.solvedIn_empty _
  mentioned c hc _ hv := .inl ⟨c, hc, hv⟩

theorem Solved.wait (h : Solved cs next k n) (hk : k ≤ k') : Solved cs next k' n where
  supply := Nat.le_trans h.supply hk
  tidy := h.tidy.wait hk
  subst := h.subst.mono (met_mono cs next hk)
  mentioned c hc v hv := met_mono cs next hk (h.mentioned c hc v hv)

theorem Step.solved (hstep : Step k n k' n') (h : Solved cs next k n) : Solved cs next k' n' := by
  have htidy := hstep.tidy h.tidy
  cases hstep with
  | @unify l r others su take mem =>
    have hmem := fun {d : Constraint} => Constraint.mem_of_takeSolvable take (d := d)
    -- the step works on variables of its equality, and these are met and unbound
    have hleft : su.SolvedIn {v | v ∈ met cs next k ∧ n.subst.get? v = none} := by
      refine (solvedIn_of_mem_unify mem).mono fun v hv => ?_
      have hv : (Constraint.eq l r).Mentions v := VarSet.mem_union.1 hv
      exact ⟨h.mentioned _ (hmem.2 (.inl rfl)) v hv, h.tidy.unbound _ (hmem.2 (.inl rfl)) v (.inl hv)⟩
    refine ⟨h.supply, htidy, h.subst.compose hleft, ?_⟩
    intro c hc v hv
    obtain ⟨d, hd, rfl⟩ := List.mem_map.1 hc
    obtain ⟨w, hw, hv⟩ := Constraint.mentions_apply hv
    rcases (hleft.of_mem_toFun hv).2 with rfl | hv
    · exact h.mentioned d (hmem.2 (.inr hd)) v hw
    · exact hv.1
  | @generalize t b M others take =>
    have hmem := fun {d : Constraint} => Constraint.mem_of_takeSolvable take (d := d)
    refine ⟨h.supply, htidy, h.subst, ?_⟩
    intro c hc v hv
    rcases List.mem_cons.1 hc with rfl | hc
    · exact h.mentioned _ (hmem.2 (.inl rfl)) v (hv.imp id fun hv => (Scheme.mem_free_generalize.1 hv).1)
    · exact h.mentioned c (hmem.2 (.inr hc)) v hv
  | @instantiate t σ others take =>
    have hmem := fun {d : Constraint} => Constraint.mem_of_takeSolvable take (d := d)
    have hlater := h.wait (Nat.le_add_right k σ.vars.length)
    refine ⟨hlater.supply, htidy, hlater.subst, ?_⟩
    intro c hc v hv
    rcases List.mem_cons.1 hc with rfl | hc
    · rcases hv with hv | hv
      · exact hlater.mentioned _ (hmem.2 (.inl rfl)) v (.inl hv)
      · rcases Scheme.free_instance hv with hv | hfresh
        · exact hlater.mentioned _ (hmem.2 (.inl rfl)) v (.inr hv)
        · exact .inr ⟨Nat.le_trans h.supply hfresh.1, hfresh.2⟩
    · exact hlater.mentioned c (hmem.2 (.inr hc)) v hv

end Steps

/-- Every solution found so far is in solved form, over variables met so far. -/
theorem keeps_solvedIn (cs : List Constraint) (next : Nat) :
    Keeps (Solved cs next) fun p => ∀ S ∈ p.substs, S.SolvedIn (met cs next p.next) where
  wait _ _ _ hk h := h.wait hk
  step _ _ _ _ hstep h := hstep.solved h
  note _ _ hp := hp
  issue p m hp S hS := (hp S hS).mono (met_mono cs next (Nat.le_add_right p.next m))
  found p n hn _ hp S hS := by
    rcases Array.mem_push.1 hS with hS | rfl
    · exact hp S hS
    · exact hn.subst
  failed _ _ _ _ _ hp := hp
  stuck _ _ _ _ _ hp := hp

end Search

/-! ## Solutions -/

/-- A solution binds only variables of the constraints or issued in the run, and
binds none that occurs in a type it binds. So it leaves alone what it has been
applied to. -/
theorem solved_form {cs : List Constraint} {next : Nat} {limit : Option Nat} {S : Subst}
    (hwf : ∀ c ∈ cs, c.WellFormed) (hbelow : ∀ c ∈ cs, ∀ v, c.Mentions v → v < next)
    (hS : S ∈ (solve cs next limit).substs) :
    (∀ v ∈ S.domain, (∃ c ∈ cs, c.Mentions v) ∨ (next ≤ v ∧ v < (solve cs next limit).next)) ∧
    (∀ v t, S.get? v = some t → ∀ w ∈ t.free, w ∉ S.domain) ∧
    ∀ t : Ty, t.WellFormed → (t.apply S).apply S = t.apply S := by
  have hsolved : S.SolvedIn (met cs next (solve cs next limit).next) := by
    refine explore_keeps (keeps_solvedIn cs next) ?_ (by simp) S hS
    intro n hn
    obtain rfl := List.mem_singleton.1 hn
    exact solved_root hbelow
  have hSwf : S.WellFormed := by
    obtain ⟨k, leaf, hpath, -, rfl⟩ := ends_of_mem_solve hS
    exact (hpath.wellFormed ⟨Subst.all_empty, hwf⟩).subst
  refine ⟨?_, ?_, ?_⟩
  · intro v hv
    obtain ⟨t, ht⟩ := Option.isSome_iff_exists.1 (Subst.mem_domain.1 hv)
    exact hsolved.bound v t ht
  · intro v t ht w hw hbound
    have hnone := (hsolved.range v t ht w hw).2
    rw [Subst.mem_domain, hnone] at hbound
    cases hbound
  · intro t ht
    exact Ty.apply_apply_of_solvedIn hsolved hSwf ht

/-- The second branch of an overloaded function, where the type that was instantiated
ends up inside a record of a mixed list. -/
theorem solved_form_instance_in_record :
    let cs : List Constraint :=
      [.eq (.fn (.var 0) (.var 1)) (.overload [.fn (.prim .int) (.prim .int), .fn (.prim .string) (.prim .string)]),
        .implicit (.var 2) ∅ (.fn (.var 3) (.var 3)),
        .eq (.list [.var 4, .prim .int]) (.list [.record [("a", .var 2)] false, .var 5])]
    let S : Subst :=
      .ofList [(0, .prim .string), (1, .prim .string), (2, .fn (.var 7) (.var 7)),
        (4, .record [("a", .fn (.var 7) (.var 7))] false), (5, .prim .int)]
    (∀ c ∈ cs, c.WellFormed) ∧ (∀ c ∈ cs, ∀ v, c.Mentions v → v < 6) ∧ S ∈ (solve cs 6 none).substs ∧
    (∀ v ∈ S.domain, (∃ c ∈ cs, c.Mentions v) ∨ (6 ≤ v ∧ v < (solve cs 6 none).next)) ∧
    (∀ v t, S.get? v = some t → ∀ w ∈ t.free, w ∉ S.domain) ∧
    ∀ t : Ty, t.WellFormed → (t.apply S).apply S = t.apply S := by
  intro cs S
  have hwf : ∀ c ∈ cs, c.WellFormed := by simp [cs, Constraint.WellFormed, Ty.Single]
  have hbelow : ∀ c ∈ cs, ∀ v, c.Mentions v → v < 6 := by simp [cs, Constraint.Mentions]
  have hS : S ∈ (solve cs 6 none).substs := by decide_cbv
  exact ⟨hwf, hbelow, hS, solved_form hwf hbelow hS⟩

end NixTyping
