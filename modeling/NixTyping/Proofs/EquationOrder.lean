import Mathlib
import NixTyping.Proofs.Overloading
/-!
# The order of equations

The unifier looks at types as they are known at the moment. Lists of different
lengths are compared only once they are homogeneous, records only by their names,
and an overload set that meets a variable is bound to it as a whole. Whether
equations are solved can therefore depend on their order
(`order_decides_solvability`).

Where all lists have the same number of elements, there are no records and overload
sets stand opposite types that are no variables, equations are solved exactly when
one function makes alternatives of the two sides of each equation equal
(`adds_reconcilable`). No order is left in that condition (`solvable_perm`).
-/

namespace NixTyping

open Search

/-! ## Opposed types -/

/-- A uniform type or an overload set of uniform types. -/
def Ty.Choice (m : Nat) (t : Ty) : Prop := t.WellFormed ∧ ∀ a ∈ t.alternatives, a.Uniform m

/-- Neither the type nor an alternative of it is a variable. -/
def Ty.Rigid (t : Ty) : Prop := ∀ a ∈ t.alternatives, ∀ v, a ≠ .var v

/-- Two choices, each of them rigid where the other is an overload set. -/
structure Opposed (m : Nat) (l r : Ty) : Prop where
  left : l.Choice m
  right : r.Choice m
  leftRigid : ¬ r.Single → l.Rigid
  rightRigid : ¬ l.Single → r.Rigid

section Choice
variable {m : Nat} {t : Ty} {s : Subst}

theorem Ty.Choice.uniform (h : t.Choice m) (hsingle : t.Single) : t.Uniform m := by
  refine h.2 t ?_
  rw [alternatives_of_single hsingle]
  exact List.mem_singleton_self t

/-- A substitution changes the alternatives of a choice one by one. -/
theorem Ty.Choice.mem_alternatives_apply (h : t.Choice m) (hs : s.Uniform m) {a : Ty} :
    a ∈ (t.apply s).alternatives ↔ ∃ b ∈ t.alternatives, b.apply s = a := by
  have hmap : ∀ b ∈ t.alternatives, (b.apply s).alternatives = [b.apply s] := fun b hb =>
    alternatives_of_single (hs.apply (h.2 b hb)).single
  by_cases hsingle : t.Single
  · have ht := alternatives_of_single hsingle
    rw [hmap t (by simp [ht]), ht]
    simp [eq_comm]
  · obtain ⟨alts, rfl⟩ : ∃ alts, t = .overload alts := by simpa [Ty.Single] using hsingle
    have hsubst : ∀ b ∈ alts, b.subst s.toFun = b.apply s := fun b hb =>
      (Ty.apply_eq_subst (h.2 b hb).wellFormed s).symm
    have hsingles : ∀ u ∈ alts.map (Ty.subst s.toFun), ∀ c ∈ u.alternatives, c.Single := by
      intro u hu c hc
      obtain ⟨b, hb, rfl⟩ := List.mem_map.1 hu
      rw [hsubst b hb, hmap b hb, List.mem_singleton] at hc
      rw [hc]
      exact (hs.apply (h.2 b hb)).single
    rw [Ty.apply_eq_subst h.1, subst_overload, alternatives_overloads hsingles, mem_altsOf]
    constructor
    · rintro ⟨u, hu, ha⟩
      obtain ⟨b, hb, rfl⟩ := List.mem_map.1 hu
      rw [hsubst b hb, hmap b hb, List.mem_singleton] at ha
      exact ⟨b, hb, ha.symm⟩
    · rintro ⟨b, hb, rfl⟩
      refine ⟨_, List.mem_map_of_mem hb, ?_⟩
      rw [hsubst b hb, hmap b hb]
      exact List.mem_singleton_self _

theorem Ty.Choice.apply (h : t.Choice m) (hs : s.Uniform m) : (t.apply s).Choice m := by
  refine ⟨hs.wellFormed.apply h.1, ?_⟩
  intro a ha
  obtain ⟨b, hb, rfl⟩ := (h.mem_alternatives_apply hs).1 ha
  exact hs.apply (h.2 b hb)

theorem Ty.Choice.single_apply (h : t.Choice m) (hs : s.Uniform m) (hsingle : t.Single) : (t.apply s).Single :=
  (hs.apply (h.uniform hsingle)).single

theorem Ty.Choice.rigid_apply (h : t.Choice m) (hs : s.Uniform m) (hrigid : t.Rigid) : (t.apply s).Rigid := by
  intro a ha
  obtain ⟨b, hb, rfl⟩ := (h.mem_alternatives_apply hs).1 ha
  rw [Ty.apply_eq_subst (h.2 b hb).wellFormed]
  cases h.2 b hb with
  | var w => exact absurd rfl (hrigid _ hb w)
  | prim p => simp
  | fn _ _ => simp
  | list _ _ => simp

theorem Opposed.apply {l r : Ty} (h : Opposed m l r) (hs : s.Uniform m) : Opposed m (l.apply s) (r.apply s) := by
  refine ⟨h.left.apply hs, h.right.apply hs, ?_, ?_⟩
  -- only what was an overload set before is one after the substitution
  · intro hoverload
    exact h.left.rigid_apply hs (h.leftRigid fun hsingle => hoverload (h.right.single_apply hs hsingle))
  · intro hoverload
    exact h.right.rigid_apply hs (h.rightRigid fun hsingle => hoverload (h.left.single_apply hs hsingle))

end Choice

/-! ## Answers for alternatives -/

/-- Each answer makes alternatives of the two lists equal, and every function that
does so is an instance of an answer. -/
structure Answers (m : Nat) (as bs : List Ty) (ss : List Subst) : Prop where
  uniform : ∀ s ∈ ss, s.Uniform m
  sound : ∀ s ∈ ss, ∃ a ∈ as, ∃ b ∈ bs, a.apply s = b.apply s
  complete : ∀ θ, ∀ a ∈ as, ∀ b ∈ bs, a.subst θ = b.subst θ → ∃ s ∈ ss, FactorsThrough θ s

section Answers
variable {m : Nat} {as bs : List Ty}

theorem answers_same (hne : as ≠ []) : Answers m as as [∅] := by
  refine ⟨?_, ?_, ?_⟩
  · intro s hs
    rw [List.mem_singleton.1 hs]
    exact Subst.all_empty
  · intro s hs
    obtain ⟨a, ha⟩ := List.exists_mem_of_ne_nil as hne
    exact ⟨a, ha, a, ha, rfl⟩
  · intro θ a ha b hb hab
    exact ⟨∅, List.mem_singleton_self _, factorsThrough_empty θ⟩

theorem answers_unify {l r : Ty} (hl : l.Uniform m) (hr : r.Uniform m) : Answers m [l] [r] (l.unify r).substs := by
  rcases Ty.unify_uniform hl hr with ⟨he, hnone⟩ | ⟨s, he, huniform, hequal, hgeneral⟩
  · rw [he]
    refine ⟨by simp, by simp, ?_⟩
    intro θ a ha b hb hab
    rw [List.mem_singleton.1 ha, List.mem_singleton.1 hb] at hab
    exact absurd hab (hnone θ)
  · rw [he]
    refine ⟨by simpa using huniform, by simpa using hequal, ?_⟩
    intro θ a ha b hb hab
    rw [List.mem_singleton.1 ha, List.mem_singleton.1 hb] at hab
    exact ⟨s, List.mem_singleton_self s, hgeneral θ hab⟩

theorem answers_flatMap_left {f : Ty → List Subst} (h : ∀ a ∈ as, Answers m [a] bs (f a)) :
    Answers m as bs (as.flatMap f) := by
  refine ⟨?_, ?_, ?_⟩
  · intro s hs
    obtain ⟨a, ha, hs⟩ := List.mem_flatMap.1 hs
    exact (h a ha).uniform s hs
  · intro s hs
    obtain ⟨a, ha, hs⟩ := List.mem_flatMap.1 hs
    obtain ⟨a', ha', hb⟩ := (h a ha).sound s hs
    rw [List.mem_singleton.1 ha'] at hb
    exact ⟨a, ha, hb⟩
  · intro θ a ha b hb hab
    obtain ⟨s, hs, hfac⟩ := (h a ha).complete θ a (List.mem_singleton_self a) b hb hab
    exact ⟨s, List.mem_flatMap.2 ⟨a, ha, hs⟩, hfac⟩

theorem answers_flatMap_right {f : Ty → List Subst} (h : ∀ b ∈ bs, Answers m as [b] (f b)) :
    Answers m as bs (bs.flatMap f) := by
  refine ⟨?_, ?_, ?_⟩
  · intro s hs
    obtain ⟨b, hb, hs⟩ := List.mem_flatMap.1 hs
    exact (h b hb).uniform s hs
  · intro s hs
    obtain ⟨b, hb, hs⟩ := List.mem_flatMap.1 hs
    obtain ⟨a, ha, b', hb', hab⟩ := (h b hb).sound s hs
    rw [List.mem_singleton.1 hb'] at hab
    exact ⟨a, ha, b, hb, hab⟩
  · intro θ a ha b hb hab
    obtain ⟨s, hs, hfac⟩ := (h b hb).complete θ a ha b (List.mem_singleton_self b) hab
    exact ⟨s, List.mem_flatMap.2 ⟨b, hb, hs⟩, hfac⟩

/-- One alternative against a choice. -/
theorem answers_alternative {l r : Ty} (hl : l.Uniform m) (hr : ∀ b ∈ r.alternatives, b.Uniform m)
    (hrigid : ¬ r.Single → ∀ v, l ≠ .var v) : Answers m [l] r.alternatives (l.unify r).substs := by
  rw [Unification.substs_unify_alternatives hl.single hrigid]
  exact answers_flatMap_right fun b hb => answers_unify hl (hr b hb)

/-- Unification tries the alternatives of both sides. -/
theorem Opposed.answers {l r : Ty} (h : Opposed m l r) :
    Answers m l.alternatives r.alternatives (l.unify r).substs := by
  by_cases hsingle : l.Single
  · have halts := Ty.alternatives_of_single hsingle
    have hself : l ∈ l.alternatives := by simp [halts]
    rw [halts]
    exact answers_alternative (h.left.2 l hself) h.right.2 fun hoverload => h.leftRigid hoverload l hself
  · obtain ⟨alts, rfl⟩ : ∃ alts, l = .overload alts := by simpa [Ty.Single] using hsingle
    by_cases hsame : .overload alts = r
    · rw [← hsame, Ty.unify_same]
      exact answers_same h.left.1.alternatives_ne_nil
    · have hvar : ∀ v, r ≠ .var v := by
        rintro v rfl
        exact h.rightRigid hsingle (.var v) (List.mem_singleton_self _) v rfl
      rw [Unification.substs_unify_left hsame hvar]
      exact answers_flatMap_left fun a ha =>
        answers_alternative (h.left.2 a ha) h.right.2 fun hoverload => h.leftRigid hoverload a ha

end Answers

/-! ## All equations -/

/-- One function makes alternatives of the two sides of every equation equal. -/
def Reconcilable (eqs : List (Ty × Ty)) : Prop :=
  ∃ θ : Nat → Ty, ∀ e ∈ eqs, ∃ a ∈ e.1.alternatives, ∃ b ∈ e.2.alternatives, a.subst θ = b.subst θ

section Equations
variable {m : Nat} {l r : Ty} {eqs : List (Ty × Ty)}

/-- Equations can be reconciled when the first has an answer that leaves the others
so. -/
theorem reconcilable_cons (hlr : Opposed m l r) (heqs : ∀ e ∈ eqs, Opposed m e.1 e.2) :
    Reconcilable ((l, r) :: eqs) ↔ ∃ s ∈ (l.unify r).substs, Reconcilable (applyAll s eqs) := by
  have hanswers := hlr.answers
  constructor
  · rintro ⟨θ, hθ⟩
    obtain ⟨a, ha, b, hb, hab⟩ := hθ (l, r) (by simp)
    obtain ⟨s, hs, hfac⟩ := hanswers.complete θ a ha b hb hab
    have huniform := hanswers.uniform s hs
    refine ⟨s, hs, θ, ?_⟩
    intro e' he'
    obtain ⟨e, he, rfl⟩ := List.mem_map.1 he'
    obtain ⟨a, ha, b, hb, hab⟩ := hθ e (List.mem_cons_of_mem _ he)
    have hopposed := heqs e he
    refine ⟨a.apply s, (hopposed.left.mem_alternatives_apply huniform).2 ⟨a, ha, rfl⟩, b.apply s,
      (hopposed.right.mem_alternatives_apply huniform).2 ⟨b, hb, rfl⟩, ?_⟩
    rw [hfac.subst (hopposed.left.2 a ha), hfac.subst (hopposed.right.2 b hb), hab]
  · rintro ⟨s, hs, θ, hθ⟩
    have huniform := hanswers.uniform s hs
    have hafter : ∀ t : Ty, t.Uniform m → t.subst (fun v => (s.toFun v).subst θ) = (t.apply s).subst θ := by
      intro t ht
      rw [Ty.apply_eq_subst ht.wellFormed, ht.subst_subst]
    refine ⟨fun v => (s.toFun v).subst θ, ?_⟩
    intro e he
    rcases List.mem_cons.1 he with rfl | he
    · obtain ⟨a, ha, b, hb, hab⟩ := hanswers.sound s hs
      exact ⟨a, ha, b, hb, by rw [hafter a (hlr.left.2 a ha), hafter b (hlr.right.2 b hb), hab]⟩
    · have hopposed := heqs e he
      obtain ⟨a', ha', b', hb', hab⟩ := hθ _ (List.mem_map_of_mem he)
      obtain ⟨a, ha, rfl⟩ := (hopposed.left.mem_alternatives_apply huniform).1 ha'
      obtain ⟨b, hb, rfl⟩ := (hopposed.right.mem_alternatives_apply huniform).1 hb'
      exact ⟨a, ha, b, hb, by rw [hafter a (hopposed.left.2 a ha), hafter b (hopposed.right.2 b hb), hab]⟩

/-- Below some nodes there is a solution when there is one below one of them. -/
theorem adds_exists {k : Nat} {ss : List Subst} {f : Subst → Node} {P : Subst → Prop}
    (h : ∀ s ∈ ss, Adds k [f s] fun found => found ≠ [] ↔ P s) :
    Adds k (ss.map f) fun found => found ≠ [] ↔ ∃ s ∈ ss, P s := by
  induction ss with
  | nil => exact adds_nil (by simp)
  | cons s ss ih =>
    refine Adds.append (h s (by simp)) (ih fun s' hs' => h s' (by simp [hs'])) ?_
    intro found found' hfound hfound'
    simp only [List.mem_cons, exists_eq_or_imp]
    rw [← hfound, ← hfound', ne_eq, List.append_eq_nil_iff, not_and_or]

/-- A node with equations has a solution below it exactly when they can be
reconciled. -/
theorem adds_reconcilable (h : ∀ e ∈ eqs, Opposed m e.1 e.2) (s₀ : Subst) (k : Nat) :
    Adds k [⟨s₀, equations eqs⟩] fun found => found ≠ [] ↔ Reconcilable eqs := by
  -- on the number of equations, since a step changes those that are left
  induction hN : eqs.length generalizing eqs s₀ with
  | zero =>
    obtain rfl := List.length_eq_zero_iff.1 hN
    exact adds_leaf rfl (by simp [Reconcilable])
  | succ N ih =>
    obtain ⟨⟨l, r⟩, eqs, rfl⟩ := List.exists_cons_of_length_eq_add_one hN
    have hlr : Opposed m l r := h (l, r) (by simp)
    have hrest : ∀ e ∈ eqs, Opposed m e.1 e.2 := fun e he => h e (by simp [he])
    have htake : Constraint.takeSolvable (equations ((l, r) :: eqs)) = some (.eq l r, equations eqs) :=
      Constraint.takeSolvable_cons rfl
    refine adds_eq htake ?_
    rw [children_equations, reconcilable_cons hlr hrest]
    refine adds_exists fun s hs => ih ?_ _ (by simpa [applyAll] using hN)
    rw [applyAll, List.forall_mem_map]
    exact fun e he => (hrest e he).apply (hlr.answers.uniform s hs)

end Equations

/-! ## Permutations -/

/-- Three systems of well formed equations that have no solution from left to right
and have one from right to left: a mixed list opposite a shorter one, two closed
records, and an overload set opposite a variable. -/
theorem order_decides_solvability :
    let lists : List (Ty × Ty) := [(.list [.var 0, .var 1], .list [.prim .int]), (.var 0, .var 1)]
    let records : List (Ty × Ty) :=
      [(.var 0, .record [("a", .prim .int)] false),
        (.var 0, .record [("a", .prim .int), ("b", .prim .int)] false)]
    let overloads : List (Ty × Ty) :=
      [(.var 0, .prim .int), (.var 0, .prim .bool), (.var 0, .overload [.prim .int, .prim .bool])]
    ∀ eqs ∈ [lists, records, overloads],
      (∀ e ∈ eqs, e.1.WellFormed ∧ e.2.WellFormed) ∧ eqs.Perm eqs.reverse ∧
      (solve (equations eqs) 100 none).substs = #[] ∧ (solve (equations eqs.reverse) 100 none).substs ≠ #[] := by
  intro lists records overloads
  have hlists : (∀ e ∈ lists, e.1.WellFormed ∧ e.2.WellFormed) ∧
      (solve (equations lists) 100 none).substs = #[] ∧ (solve (equations lists.reverse) 100 none).substs ≠ #[] :=
    ⟨by simp [lists], by decide_cbv, by decide_cbv⟩
  have hrecords : (∀ e ∈ records, e.1.WellFormed ∧ e.2.WellFormed) ∧
      (solve (equations records) 100 none).substs = #[] ∧ (solve (equations records.reverse) 100 none).substs ≠ #[] :=
    ⟨by simp [records], by decide_cbv, by decide_cbv⟩
  have hoverloads : (∀ e ∈ overloads, e.1.WellFormed ∧ e.2.WellFormed) ∧
      (solve (equations overloads) 100 none).substs = #[] ∧
      (solve (equations overloads.reverse) 100 none).substs ≠ #[] :=
    ⟨by simp [overloads, Ty.Single], by decide_cbv, by decide_cbv⟩
  intro eqs heqs
  simp only [List.mem_cons, List.not_mem_nil, or_false] at heqs
  rcases heqs with rfl | rfl | rfl
  · exact ⟨hlists.1, (List.reverse_perm _).symm, hlists.2⟩
  · exact ⟨hrecords.1, (List.reverse_perm _).symm, hrecords.2⟩
  · exact ⟨hoverloads.1, (List.reverse_perm _).symm, hoverloads.2⟩

/-- Whether such equations have a solution does not depend on their order. -/
theorem solvable_perm {m : Nat} {eqs eqs' : List (Ty × Ty)} (h : ∀ e ∈ eqs, Opposed m e.1 e.2) (hperm : eqs.Perm eqs')
    (next next' : Nat) :
    (solve (equations eqs) next none).substs ≠ #[] ↔ (solve (equations eqs') next' none).substs ≠ #[] := by
  have hsolve : ∀ (es : List (Ty × Ty)) (k : Nat), (∀ e ∈ es, Opposed m e.1 e.2) →
      ((solve (equations es) k none).substs ≠ #[] ↔ Reconcilable es) := by
    intro es k hes
    rw [ne_eq, ← Array.toList_eq_nil_iff]
    exact solve_of_adds (adds_reconcilable hes ∅ k)
  rw [hsolve eqs next h, hsolve eqs' next' fun e he => h e (hperm.mem_iff.2 he)]
  simp only [Reconcilable, hperm.mem_iff]

/-- Two lists of two elements and an overload set with variables of its own, in both
orders. -/
theorem solvable_perm_pairs :
    let eqs : List (Ty × Ty) :=
      [(.list [.var 0, .var 1], .list [.var 2, .prim .int]),
        (.fn (.var 0) (.var 1), .overload [.fn (.var 3) (.prim .string), .fn (.var 3) (.var 3)])]
    (∀ e ∈ eqs, Opposed 2 e.1 e.2) ∧ (solve (equations eqs) 4 none).substs ≠ #[] ∧
    (solve (equations eqs.reverse) 4 none).substs ≠ #[] := by
  intro eqs
  have hopposed : ∀ e ∈ eqs, Opposed 2 e.1 e.2 := by
    intro e he
    simp only [eqs, List.mem_cons, List.not_mem_nil, or_false] at he
    rcases he with rfl | rfl
    · constructor <;> simp [Ty.Choice, Ty.Rigid, Ty.Single, Ty.alternatives]
    · constructor <;> simp [Ty.Choice, Ty.Rigid, Ty.Single, Ty.alternatives]
  have hsolved : (solve (equations eqs) 4 none).substs ≠ #[] := by decide_cbv
  exact ⟨hopposed, hsolved, (solvable_perm hopposed (List.reverse_perm _).symm 4 4).1 hsolved⟩

end NixTyping
