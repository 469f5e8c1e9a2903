import Mathlib
import NixTyping.Proofs.SearchPath
/-!
# Solutions satisfy the constraints

A constraint is looked at once, under the substitution of that moment, and later
steps go on to change both of its sides. Read backwards, a path gives the function
by which the rest of it changes types (`Completes`): it makes every equality that
is still to be solved fit, it gives every closed scheme an instance, and it leaves
alone the variables that are active nowhere.
-/

namespace NixTyping

open Search

/-- What a solution does to an equality and to an instance of a closed scheme. -/
def Constraint.Holds (f : Nat → Ty) : Constraint → Prop
  | .eq l r => (l.subst f).Fits (r.subst f)
  | .explicit t σ => (∀ v, v ∉ σ.free) → ∃ ρ : Nat → Ty, (t.subst f).Fits (σ.ty.subst ρ)
  | .implicit _ _ _ => True

/-- The function takes a node to a solution below it. -/
structure Completes (f : Nat → Ty) (k : Nat) (n : Node) (S : Subst) : Prop where
  wellFormed : ∀ v, (f v).WellFormed
  subst : ∀ v, S.toFun v = (n.subst.toFun v).subst f
  holds : ∀ c ∈ n.constraints, c.Holds f
  avoids : ∀ v, Inactive v k n → Avoids f v

theorem completes_leaf {k : Nat} {n : Node} (hn : n.WellFormed) (h : n.constraints = []) :
    Completes .var k n n.subst where
  wellFormed v := .var v
  subst v := (Ty.subst_eq_self (hn.subst.toFun v) fun _ _ => rfl).symm
  holds c hc := by rw [h] at hc; cases hc
  avoids v _ := avoids_var v

/-- A closed scheme is left alone by every substitution. -/
theorem Scheme.apply_closed {σ : Scheme} (hwf : σ.ty.WellFormed) (h : ∀ v, v ∉ σ.free) (s : Subst) : σ.apply s = σ := by
  have hty : σ.ty.apply (s.without σ.vars) = σ.ty := by
    rw [Ty.apply_eq_subst hwf]
    refine Ty.subst_eq_self hwf fun v hv => Subst.toFun_of_none ?_
    rw [Subst.get?_without, if_pos]
    by_contra hvars
    exact h v (Scheme.mem_free.2 ⟨hv, hvars⟩)
  rw [Scheme.apply, hty]

theorem Constraint.Holds.of_apply {c : Constraint} {f : Nat → Ty} {su : Subst} (hc : c.WellFormed) (hsu : su.WellFormed)
    (hf : ∀ v, (f v).WellFormed) (h : (c.apply su).Holds f) : c.Holds fun v => (su.toFun v).subst f := by
  have happly : ∀ t : Ty, t.WellFormed → (t.apply su).subst f = t.subst fun v => (su.toFun v).subst f := by
    intro t ht
    rw [Ty.apply_eq_subst ht, Ty.subst_subst ht (fun v _ => hsu.toFun v) fun v _ => hf v]
  cases c with
  | eq l r =>
    show Ty.Fits _ _
    rw [← happly l hc.1, ← happly r hc.2]
    exact h
  | explicit t σ =>
    intro hclosed
    rw [Constraint.apply, Scheme.apply_closed hc.2 hclosed] at h
    obtain ⟨ρ, hρ⟩ := h hclosed
    rw [happly t hc.1] at hρ
    exact ⟨ρ, hρ⟩
  | implicit t M b => trivial

/-- A step extends the function of the rest of the path. -/
theorem Completes.of_step {f : Nat → Ty} {k k' : Nat} {n n' : Node} {S : Subst} (hstep : Step k n k' n')
    (hn : n.WellFormed) (h : Completes f k' n' S) : ∃ g, Completes g k n S := by
  have hn' := hstep.wellFormed hn
  have hinactive : ∀ v, Inactive v k n → Avoids f v := fun v hv => h.avoids v (hstep.inactive hv)
  cases hstep with
  | @unify l r others su take mem =>
    have hmem := fun {d : Constraint} => Constraint.mem_of_takeSolvable take (d := d)
    have hlr : l.WellFormed ∧ r.WellFormed := hn.constraints _ (hmem.2 (.inl rfl))
    have hbranch := Ty.unifies_of_mem mem
    have hsu : su.WellFormed := hbranch.wellFormed (by simpa using hlr.1) (by simpa using hlr.2)
    -- the step comes first, and then what the rest of the path does
    refine ⟨fun v => (su.toFun v).subst f, ⟨fun v => ?_, fun v => ?_, fun c hc => ?_, fun v hv => ?_⟩⟩
    · exact (hsu.toFun v).subst fun w _ => h.wellFormed w
    · rw [h.subst v, Subst.toFun_compose, Ty.apply_eq_subst (hn.subst.toFun v)]
      exact Ty.subst_subst (hn.subst.toFun v) (fun w _ => hsu.toFun w) fun w _ => h.wellFormed w
    · rcases hmem.1 hc with rfl | hc
      · have hfits := hbranch.fits (by simpa using hlr.1) (by simpa using hlr.2) (l, r) (by simp)
        have hafter :=
          hfits.subst (hlr.1.subst fun v _ => hsu.toFun v) (hlr.2.subst fun v _ => hsu.toFun v) h.wellFormed
        rw [Ty.subst_subst hlr.1 (fun v _ => hsu.toFun v) fun v _ => h.wellFormed v,
          Ty.subst_subst hlr.2 (fun v _ => hsu.toFun v) fun v _ => h.wellFormed v] at hafter
        exact hafter
      · exact (h.holds _ (List.mem_map_of_mem hc)).of_apply (hn.constraints c (hmem.2 (.inr hc))) hsu h.wellFormed
    · exact (avoids_of_mem_unify mem (hv.2 _ (hmem.2 (.inl rfl)))).comp (hinactive v hv)
  | @generalize t b M others take =>
    refine ⟨f, ⟨h.wellFormed, h.subst, fun c hc => ?_, hinactive⟩⟩
    rcases (Constraint.mem_of_takeSolvable take).1 hc with rfl | hc
    · trivial
    · exact h.holds c (by simp [hc])
  | @instantiate t σ others take =>
    refine ⟨f, ⟨h.wellFormed, h.subst, fun c hc => ?_, hinactive⟩⟩
    rcases (Constraint.mem_of_takeSolvable take).1 hc with rfl | hc
    · intro _
      have hσ : t.WellFormed ∧ σ.ty.WellFormed :=
        hn.constraints _ ((Constraint.mem_of_takeSolvable take).2 (.inl rfl))
      have hfits : Ty.Fits _ _ := h.holds (.eq t (σ.ty.apply (σ.freshening k))) (by simp)
      have hfresh : (σ.freshening k).WellFormed := σ.all_freshening k
      rw [Ty.apply_eq_subst hσ.2, Ty.subst_subst hσ.2 (fun v _ => hfresh.toFun v) fun v _ => h.wellFormed v] at hfits
      exact ⟨_, hfits⟩
    · exact h.holds c (by simp [hc])

theorem Completes.wait {f : Nat → Ty} {k k' : Nat} {n : Node} {S : Subst} (h : Completes f k' n S) (hk : k ≤ k') :
    Completes f k n S :=
  { h with avoids := fun v hv => h.avoids v ⟨Nat.lt_of_lt_of_le hv.1 hk, hv.2⟩ }

/-- Every node of a path to a solution is completed by a function. -/
theorem exists_completes {k k' : Nat} {n leaf : Node} (hpath : Path k n k' leaf) (hn : n.WellFormed)
    (hleaf : leaf.constraints = []) : ∃ f, Completes f k n leaf.subst := by
  -- backwards from the leaf, where nothing is left to change
  induction hpath with
  | refl n _ => exact ⟨_, completes_leaf hn hleaf⟩
  | step wait head _ ih =>
    obtain ⟨f, hf⟩ := ih (head.wellFormed hn) hleaf
    obtain ⟨g, hg⟩ := hf.of_step head hn
    exact ⟨g, hg.wait wait⟩

/-! ## Solutions -/

/-- Every solution makes the two sides of every equality fit, and makes the type
of every instance of a closed scheme fit an instance of its body. -/
theorem solution_satisfies {cs : List Constraint} {next : Nat} {limit : Option Nat} {S : Subst}
    (hwf : ∀ c ∈ cs, c.WellFormed) (hS : S ∈ (solve cs next limit).substs) :
    (∀ l r, .eq l r ∈ cs → (l.apply S).Fits (r.apply S)) ∧
    ∀ t σ, .explicit t σ ∈ cs → (∀ v, v ∉ σ.free) →
      ∃ θ : Subst, (∀ v ∈ θ.domain, v ∈ σ.vars) ∧ (t.apply S).Fits (σ.ty.apply θ) := by
  obtain ⟨k, leaf, hpath, hleaf, rfl⟩ := ends_of_mem_solve hS
  obtain ⟨f, hf⟩ := exists_completes hpath ⟨Subst.all_empty, hwf⟩ hleaf
  have happly : ∀ t : Ty, t.WellFormed → t.apply leaf.subst = t.subst f := fun t ht => by
    rw [Ty.apply_eq_subst ht]
    exact Ty.subst_congr fun v _ => hf.subst v
  refine ⟨fun l r hc => ?_, fun t σ hc hclosed => ?_⟩
  · rw [happly l (hwf _ hc).1, happly r (hwf _ hc).2]
    exact hf.holds _ hc
  · obtain ⟨ρ, hρ⟩ := hf.holds _ hc hclosed
    refine ⟨.tabulate ρ σ.vars, fun v hv => ?_, ?_⟩
    · by_contra hvars
      rw [Subst.mem_domain, Subst.get?_tabulate, if_neg hvars] at hv
      cases hv
    -- all variables of a closed scheme are quantified
    · have hvars : ∀ v ∈ σ.ty.free, (Subst.tabulate ρ σ.vars).toFun v = ρ v := by
        intro v hv
        have hmem : v ∈ σ.vars := by
          by_contra hvars
          exact hclosed v (Scheme.mem_free.2 ⟨hv, hvars⟩)
        exact Subst.toFun_of_some (by rw [Subst.get?_tabulate, if_pos hmem])
      rw [happly t (hwf _ hc).1, Ty.apply_eq_subst (hwf _ hc).2, Ty.subst_congr hvars]
      exact hρ

/-- The second resolution of an overloaded function, beside both kinds of
instances. -/
theorem solution_satisfies_second_alternative :
    let cs : List Constraint :=
      [.eq (.fn (.var 0) (.var 1)) (.overload [.fn (.prim .int) (.prim .int), .fn (.prim .string) (.prim .string)]),
        .explicit (.var 2) ⟨[0], .fn (.var 0) (.var 0)⟩, .implicit (.var 3) ∅ (.var 4)]
    let S : Subst := .ofList [(0, .prim .string), (1, .prim .string), (2, .fn (.var 7) (.var 7)), (3, .var 8)]
    (∀ c ∈ cs, c.WellFormed) ∧ S ∈ (solve cs 5 none).substs ∧
    (∀ l r, .eq l r ∈ cs → (l.apply S).Fits (r.apply S)) ∧
    ∃ θ : Subst, (∀ v ∈ θ.domain, v ∈ [0]) ∧ ((Ty.var 2).apply S).Fits ((Ty.fn (.var 0) (.var 0)).apply θ) := by
  intro cs S
  have hwf : ∀ c ∈ cs, c.WellFormed := by simp [cs, Constraint.WellFormed, Ty.Single]
  have hS : S ∈ (solve cs 5 none).substs := by decide_cbv
  obtain ⟨heq, hinst⟩ := solution_satisfies hwf hS
  exact ⟨hwf, hS, heq, hinst (.var 2) ⟨[0], .fn (.var 0) (.var 0)⟩ (by simp [cs]) (by simp [Scheme.mem_free])⟩

end NixTyping
