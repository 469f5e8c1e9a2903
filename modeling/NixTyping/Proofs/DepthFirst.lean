import NixTyping.Proofs.SearchPath
/-!
# The search without a limit

Without a limit the nodes of a stack are worked off one after the other
(`explore_append`), so the solutions below a stack are those below its nodes, in
order. `Adds k ns P` says that working off `ns`, with fresh variables from `k` on,
adds a list of solutions with the property `P`.
-/

namespace NixTyping.Search

theorem Explores.append {s : Stack} {p q : Progress} (h : Explores none s p q) (rest : List Node) :
    explore none ⟨s.nodes ++ rest⟩ p = explore none ⟨rest⟩ q := by
  induction h with
  | empty p => rfl
  | stop _ stopped => cases stopped
  | leaf solved _ _ ih =>
    rw [List.cons_append, explore_leaf solved]
    exact ih
  | stuck unsolved take _ ih =>
    rw [List.cons_append, explore_stuck unsolved take]
    exact ih
  | eq take _ ih =>
    rw [List.cons_append, explore_eq take, ← List.append_assoc]
    exact ih
  | implicit take _ ih =>
    rw [List.cons_append, explore_implicit take]
    exact ih
  | explicit take _ ih =>
    rw [List.cons_append, explore_explicit take]
    exact ih

theorem explore_append (ns rest : List Node) (p : Progress) :
    explore none ⟨ns ++ rest⟩ p = explore none ⟨rest⟩ (explore none ⟨ns⟩ p) :=
  (explores_explore none ⟨ns⟩ p).append rest

theorem next_le_explore (limit : Option Nat) (s : Stack) (p : Progress) : p.next ≤ (explore limit s p).next := by
  have hkeeps : Keeps (fun _ _ => True) fun q => p.next ≤ q.next :=
    ⟨fun _ _ _ _ _ => trivial, fun _ _ _ _ _ _ => trivial, fun _ _ hq => hq, fun _ m hq => Nat.le_add_right_of_le hq,
      fun _ _ _ _ hq => hq, fun _ _ _ _ _ hq => hq, fun _ _ _ _ _ hq => hq⟩
  exact explore_keeps hkeeps (fun _ _ => trivial) (Nat.le_refl _)

/-- Working off the nodes adds solutions with the property, in order. -/
def Adds (k : Nat) (ns : List Node) (P : List Subst → Prop) : Prop :=
  ∀ p : Progress, k ≤ p.next →
    ∃ ss, P ss ∧ (explore none ⟨ns⟩ p).substs.toList = p.substs.toList ++ ss

section Adds
variable {k : Nat} {n : Node} {P Q R : List Subst → Prop}

theorem adds_nil (h : P []) : Adds k [] P := by
  intro p _
  refine ⟨[], h, ?_⟩
  rw [explore_nil, List.append_nil]

theorem Adds.append {ns ms : List Node} (hns : Adds k ns P) (hms : Adds k ms Q)
    (h : ∀ ss ss', P ss → Q ss' → R (ss ++ ss')) : Adds k (ns ++ ms) R := by
  intro p hk
  obtain ⟨ss, hss, hp⟩ := hns p hk
  obtain ⟨ss', hss', hp'⟩ := hms (explore none ⟨ns⟩ p) (Nat.le_trans hk (next_le_explore _ _ _))
  refine ⟨ss ++ ss', h ss ss' hss hss', ?_⟩
  rw [explore_append, hp', hp, List.append_assoc]

theorem Adds.imp {ns : List Node} (h : Adds k ns P) (hPQ : ∀ ss, P ss → Q ss) : Adds k ns Q := by
  intro p hk
  obtain ⟨ss, hss, hp⟩ := h p hk
  exact ⟨ss, hPQ ss hss, hp⟩

theorem adds_leaf (hn : n.constraints = []) (h : P [n.subst]) : Adds k [n] P := by
  intro p _
  refine ⟨[n.subst], h, ?_⟩
  rw [explore_leaf hn]
  show (explore none ⟨[]⟩ (p.found n.subst)).substs.toList = _
  rw [explore_nil]
  exact Array.toList_push

theorem adds_eq {l r : Ty} {others : List Constraint}
    (htake : Constraint.takeSolvable n.constraints = some (.eq l r, others))
    (h : Adds k (n.children others (l.unify r)) P) : Adds k [n] P := by
  intro p hk
  obtain ⟨ss, hss, hp⟩ := h ((p.note (.solving (.eq l r))).failedBranches (l.unify r).errors) (by simpa using hk)
  refine ⟨ss, hss, ?_⟩
  rw [explore_eq htake, List.append_nil, hp]
  simp

theorem adds_implicit {t b : Ty} {M : VarSet} {others : List Constraint}
    (htake : Constraint.takeSolvable n.constraints = some (.implicit t M b, others))
    (h : Adds k [⟨n.subst, .explicit t (.generalize M b) :: others⟩] P) : Adds k [n] P := by
  intro p hk
  obtain ⟨ss, hss, hp⟩ := h (p.note (.solving (.implicit t M b))) hk
  refine ⟨ss, hss, ?_⟩
  rw [explore_implicit htake, hp]
  rfl

theorem adds_explicit {t : Ty} {σ : Scheme} {others : List Constraint}
    (htake : Constraint.takeSolvable n.constraints = some (.explicit t σ, others))
    (h : ∀ k' ≥ k, Adds (k' + σ.vars.length) [⟨n.subst, .eq t (σ.ty.apply (σ.freshening k')) :: others⟩] P) :
    Adds k [n] P := by
  intro p hk
  obtain ⟨ss, hss, hp⟩ := h p.next hk { p.note (.solving (.explicit t σ)) with next := p.next + σ.vars.length }
    (Nat.le_refl _)
  refine ⟨ss, hss, ?_⟩
  rw [explore_explicit htake, hp]
  rfl

end Adds

/-- The solutions of a list of constraints are what its root adds. -/
theorem solve_of_adds {cs : List Constraint} {next : Nat} {P : List Subst → Prop} (h : Adds next [⟨∅, cs⟩] P) :
    P (solve cs next none).substs.toList := by
  obtain ⟨ss, hss, hp⟩ := h { next := next } (Nat.le_refl next)
  have hsubsts : (solve cs next none).substs.toList = ss := hp
  rwa [hsubsts]

end NixTyping.Search
