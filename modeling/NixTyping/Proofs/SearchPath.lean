import NixTyping.Proofs.Unification
import NixTyping.Search
/-!
# Paths of the search

`Step` is one step down the search tree and `Path` a chain of them. Fresh
variables are shared by all branches, so between two steps of one path the supply
may grow. Every solution is the substitution at the end of a path from the root
(`ends_of_mem_solve`), whatever the limit. `Explores` lists the rounds of the
search, which visit the nodes of a stack; what holds of all that it returns is an
induction over it.

The invariants of a path are proved here for one step each: types stay well
formed, the substitution binds no variable that a constraint still mentions
(`Tidy`), and a variable that is active nowhere stays so (`Step.inactive`).
-/

namespace NixTyping

/-! ## Taking a constraint out -/

namespace Constraint

theorem takeSolvableAfter_some {before cs others : List Constraint} {c : Constraint}
    (h : takeSolvableAfter before cs = some (c, others)) :
    ∃ front back, before ++ cs = front ++ c :: back ∧ others = front ++ back ∧ c.solvable others = true := by
  induction cs generalizing before with
  | nil => cases h
  | cons d cs ih =>
    rw [takeSolvableAfter] at h
    split at h
    · next hd =>
      cases h
      exact ⟨before, cs, rfl, rfl, hd⟩
    · simpa using ih h

theorem takeSolvable_some {cs others : List Constraint} {c : Constraint} (h : takeSolvable cs = some (c, others)) :
    ∃ front back, cs = front ++ c :: back ∧ others = front ++ back ∧ c.solvable others = true :=
  takeSolvableAfter_some h

theorem mem_of_takeSolvable {cs others : List Constraint} {c : Constraint} (h : takeSolvable cs = some (c, others))
    {d : Constraint} : d ∈ cs ↔ d = c ∨ d ∈ others := by
  obtain ⟨front, back, rfl, rfl, -⟩ := takeSolvable_some h
  simp only [List.mem_append, List.mem_cons]
  tauto

theorem takeSolvable_cons {c : Constraint} {cs : List Constraint} (h : c.solvable cs = true) :
    takeSolvable (c :: cs) = some (c, cs) := by
  rw [takeSolvable, takeSolvableAfter, List.nil_append, if_pos h]

theorem solvable_implicit {others : List Constraint} {t b : Ty} {M : VarSet}
    (h : (Constraint.implicit t M b).solvable others = true) {v : Nat} (hv : v ∈ b.free) (hM : v ∉ M) {c : Constraint}
    (hc : c ∈ others) : v ∉ c.active := by
  have hq : v ∈ (b.free.diff M).toList := VarSet.mem_diff.2 ⟨hv, hM⟩
  simpa using List.all_eq_true.1 (List.all_eq_true.1 h v hq) c hc

end Constraint

/-! ## Steps and paths -/

namespace Search

/-- A step down the search tree, with the next fresh variable before and after it. -/
inductive Step : Nat → Node → Nat → Node → Prop where
  | unify {k : Nat} {n : Node} {l r : Ty} {others : List Constraint} {su : Subst}
    (take : Constraint.takeSolvable n.constraints = some (.eq l r, others)) (mem : su ∈ (l.unify r).substs) :
    Step k n k ⟨su.compose n.subst, others.map (Constraint.apply su)⟩
  | generalize {k : Nat} {n : Node} {t b : Ty} {M : VarSet} {others : List Constraint}
    (take : Constraint.takeSolvable n.constraints = some (.implicit t M b, others)) :
    Step k n k ⟨n.subst, .explicit t (.generalize M b) :: others⟩
  | instantiate {k : Nat} {n : Node} {t : Ty} {σ : Scheme} {others : List Constraint}
    (take : Constraint.takeSolvable n.constraints = some (.explicit t σ, others)) :
    Step k n (k + σ.vars.length) ⟨n.subst, .eq t (σ.ty.apply (σ.freshening k)) :: others⟩

/-- A chain of steps; other branches may take fresh variables in between. -/
inductive Path : Nat → Node → Nat → Node → Prop where
  | refl {k k' : Nat} (n : Node) (wait : k ≤ k') : Path k n k' n
  | step {k k₁ k₂ k' : Nat} {n m n' : Node} (wait : k ≤ k₁) (head : Step k₁ n k₂ m) (tail : Path k₂ m k' n') :
    Path k n k' n'

theorem Path.wait {k k₁ k' : Nat} {n n' : Node} (hk : k ≤ k₁) (h : Path k₁ n k' n') : Path k n k' n' := by
  cases h with
  | refl _ wait => exact .refl n (by omega)
  | step wait head tail => exact .step (by omega) head tail

theorem Path.trans {k k₁ k' : Nat} {n m n' : Node} (h : Path k n k₁ m) (h' : Path k₁ m k' n') : Path k n k' n' := by
  induction h with
  | refl n wait => exact h'.wait wait
  | step wait head _ ih => exact .step wait head (ih h')

/-- What every step keeps, and every growth of the supply, is kept along a path. -/
theorem Path.preserves {I : Nat → Node → Prop} (wait : ∀ k k' n, k ≤ k' → I k n → I k' n)
    (step : ∀ k k' n n', Step k n k' n' → I k n → I k' n') {k k' : Nat} {n n' : Node} (h : Path k n k' n')
    (hi : I k n) : I k' n' := by
  induction h with
  | refl n hk => exact wait _ _ n hk hi
  | step hk head _ ih => exact ih (step _ _ _ _ head (wait _ _ _ hk hi))

/-! ## The search follows paths -/

namespace Progress

@[simp] theorem note_substs (p : Progress) (e : Event) : (p.note e).substs = p.substs := rfl

@[simp] theorem note_next (p : Progress) (e : Event) : (p.note e).next = p.next := rfl

@[simp] theorem failed_substs (p : Progress) (e : TypeError) : (p.failed e).substs = p.substs := rfl

@[simp] theorem failed_next (p : Progress) (e : TypeError) : (p.failed e).next = p.next := rfl

@[simp] theorem failedBranches_substs (p : Progress) (es : List TypeError) :
    (p.failedBranches es).substs = p.substs := by
  unfold failedBranches
  induction es generalizing p with
  | nil => rfl
  | cons e es ih => rw [List.foldl_cons, ih]; rfl

@[simp] theorem failedBranches_next (p : Progress) (es : List TypeError) : (p.failedBranches es).next = p.next := by
  unfold failedBranches
  induction es generalizing p with
  | nil => rfl
  | cons e es ih => rw [List.foldl_cons, ih]; rfl

end Progress

section Equations
variable {limit : Option Nat} {n : Node} {rest : List Node} {p : Progress}

theorem explore_nil (limit : Option Nat) (p : Progress) : explore limit ⟨[]⟩ p = p := by rw [explore]

theorem explore_leaf (h : n.constraints = []) :
    explore limit ⟨n :: rest⟩ p =
      match stop? limit (p.found n.subst) rest with
      | some e => (p.found n.subst).note e
      | none => explore limit ⟨rest⟩ (p.found n.subst) := by
  rw [explore.eq_def]
  exact if_pos (by rw [h]; rfl)

theorem not_isEmpty_of_take {c : Constraint} {others : List Constraint}
    (h : Constraint.takeSolvable n.constraints = some (c, others)) : ¬ n.constraints.isEmpty = true := by
  intro he
  rw [List.isEmpty_iff.1 he] at h
  cases h

theorem explore_stuck (hne : n.constraints ≠ []) (h : Constraint.takeSolvable n.constraints = none) :
    explore limit ⟨n :: rest⟩ p =
      explore limit ⟨rest⟩ ((p.note (.stuck n.constraints.length)).failed (.ambiguous n.constraints)) := by
  rw [explore.eq_def]
  refine (if_neg (by simpa using hne)).trans ?_
  split <;> simp_all

theorem explore_eq {l r : Ty} {others : List Constraint}
    (h : Constraint.takeSolvable n.constraints = some (.eq l r, others)) :
    explore limit ⟨n :: rest⟩ p = explore limit ⟨n.children others (l.unify r) ++ rest⟩
      ((p.note (.solving (.eq l r))).failedBranches (l.unify r).errors) := by
  rw [explore.eq_def]
  refine (if_neg (not_isEmpty_of_take h)).trans ?_
  split <;> simp_all

theorem explore_implicit {t b : Ty} {M : VarSet} {others : List Constraint}
    (h : Constraint.takeSolvable n.constraints = some (.implicit t M b, others)) :
    explore limit ⟨n :: rest⟩ p = explore limit ⟨⟨n.subst, .explicit t (.generalize M b) :: others⟩ :: rest⟩
      (p.note (.solving (.implicit t M b))) := by
  rw [explore.eq_def]
  refine (if_neg (not_isEmpty_of_take h)).trans ?_
  split <;> simp_all

theorem explore_explicit {t : Ty} {σ : Scheme} {others : List Constraint}
    (h : Constraint.takeSolvable n.constraints = some (.explicit t σ, others)) :
    explore limit ⟨n :: rest⟩ p =
      explore limit ⟨⟨n.subst, .eq t (σ.ty.apply (σ.freshening p.next)) :: others⟩ :: rest⟩
        { p.note (.solving (.explicit t σ)) with next := p.next + σ.vars.length } := by
  rw [explore.eq_def]
  refine (if_neg (not_isEmpty_of_take h)).trans ?_
  split <;> simp_all [Scheme.instantiate_eq]

end Equations

/-- The rounds of a search, from a stack and what has been found before to what it returns. -/
inductive Explores (limit : Option Nat) : Stack → Progress → Progress → Prop where
  | empty (p : Progress) : Explores limit ⟨[]⟩ p p
  | stop {n : Node} {rest : List Node} {p : Progress} {e : Event} (solved : n.constraints = [])
    (stopped : stop? limit (p.found n.subst) rest = some e) : Explores limit ⟨n :: rest⟩ p ((p.found n.subst).note e)
  | leaf {n : Node} {rest : List Node} {p q : Progress} (solved : n.constraints = [])
    (goesOn : stop? limit (p.found n.subst) rest = none) (rounds : Explores limit ⟨rest⟩ (p.found n.subst) q) :
    Explores limit ⟨n :: rest⟩ p q
  | stuck {n : Node} {rest : List Node} {p q : Progress} (unsolved : n.constraints ≠ [])
    (take : Constraint.takeSolvable n.constraints = none)
    (rounds : Explores limit ⟨rest⟩ ((p.note (.stuck n.constraints.length)).failed (.ambiguous n.constraints)) q) :
    Explores limit ⟨n :: rest⟩ p q
  | eq {n : Node} {rest : List Node} {p q : Progress} {l r : Ty} {others : List Constraint}
    (take : Constraint.takeSolvable n.constraints = some (.eq l r, others))
    (rounds : Explores limit ⟨n.children others (l.unify r) ++ rest⟩
      ((p.note (.solving (.eq l r))).failedBranches (l.unify r).errors) q) : Explores limit ⟨n :: rest⟩ p q
  | implicit {n : Node} {rest : List Node} {p q : Progress} {t b : Ty} {M : VarSet} {others : List Constraint}
    (take : Constraint.takeSolvable n.constraints = some (.implicit t M b, others))
    (rounds : Explores limit ⟨⟨n.subst, .explicit t (.generalize M b) :: others⟩ :: rest⟩
      (p.note (.solving (.implicit t M b))) q) : Explores limit ⟨n :: rest⟩ p q
  | explicit {n : Node} {rest : List Node} {p q : Progress} {t : Ty} {σ : Scheme} {others : List Constraint}
    (take : Constraint.takeSolvable n.constraints = some (.explicit t σ, others))
    (rounds : Explores limit ⟨⟨n.subst, .eq t (σ.ty.apply (σ.freshening p.next)) :: others⟩ :: rest⟩
      { p.note (.solving (.explicit t σ)) with next := p.next + σ.vars.length } q) : Explores limit ⟨n :: rest⟩ p q

theorem explores_explore (limit : Option Nat) (s : Stack) (p : Progress) : Explores limit s p (explore limit s p) := by
  induction s, p using explore.induct limit with
  | case1 p =>
    rw [explore_nil]
    exact .empty p
  | case2 p n rest hn p' e he =>
    rw [explore_leaf (List.isEmpty_iff.1 hn), he]
    exact .stop (List.isEmpty_iff.1 hn) he
  | case3 p n rest hn p' he ih =>
    rw [explore_leaf (List.isEmpty_iff.1 hn), he]
    exact .leaf (List.isEmpty_iff.1 hn) he ih
  | case4 p n rest hn hnone ih =>
    have hne : n.constraints ≠ [] := by simpa using hn
    rw [explore_stuck hne hnone]
    exact .stuck hne hnone ih
  | case5 p n rest hn l r others htake b ih =>
    rw [explore_eq htake]
    exact .eq htake ih
  | case6 p n rest hn t M b others htake child ih =>
    rw [explore_implicit htake]
    exact .implicit htake ih
  | case7 p n rest hn t σ others htake u next hinst child ih =>
    obtain ⟨rfl, rfl⟩ : _ = u ∧ _ = next := by simpa [Scheme.instantiate_eq] using hinst
    rw [explore_explicit htake]
    exact .explicit htake ih

/-- The substitution is found at the end of a path from the node. -/
def Ends (k : Nat) (n : Node) (S : Subst) : Prop :=
  ∃ k' leaf, Path k n k' leaf ∧ leaf.constraints = [] ∧ leaf.subst = S

/-- What a progress keeps while the search visits nodes with the property `I`. -/
structure Keeps (I : Nat → Node → Prop) (Q : Progress → Prop) : Prop where
  wait : ∀ k k' n, k ≤ k' → I k n → I k' n
  step : ∀ k k' n n', Step k n k' n' → I k n → I k' n'
  note : ∀ p e, Q p → Q (p.note e)
  issue : ∀ p m, Q p → Q { p with next := p.next + m }
  found : ∀ p n, I p.next n → n.constraints = [] → Q p → Q (p.found n.subst)
  failed : ∀ p (l r : Ty), ∀ e ∈ (l.unify r).errors, Q p → Q (p.failed e)
  stuck : ∀ p n, I p.next n → n.constraints ≠ [] → Constraint.takeSolvable n.constraints = none → Q p →
    Q (p.failed (.ambiguous n.constraints))

theorem Keeps.failedBranches {I : Nat → Node → Prop} {Q : Progress → Prop} (h : Keeps I Q) {p : Progress} {l r : Ty}
    (hp : Q p) : Q (p.failedBranches (l.unify r).errors) := by
  have hall : ∀ es : List TypeError, (∀ e ∈ es, e ∈ (l.unify r).errors) → ∀ p, Q p → Q (p.failedBranches es) := by
    intro es
    induction es with
    | nil => exact fun _ p hp => hp
    | cons e es ih =>
      intro hes p hp
      exact ih (fun d hd => hes d (List.mem_cons_of_mem e hd)) _
        (h.failed _ l r e (hes e List.mem_cons_self) (h.note p _ hp))
  exact hall _ (fun _ he => he) p hp

/-- The search keeps what every visit of a node keeps. -/
theorem Explores.keeps {I : Nat → Node → Prop} {Q : Progress → Prop} (h : Keeps I Q) {limit : Option Nat} {s : Stack}
    {p q : Progress} (hq : Explores limit s p q) (hs : ∀ n ∈ s.nodes, I p.next n) (hp : Q p) : Q q := by
  induction hq with
  | empty p => exact hp
  | @stop n rest p e solved _ => exact h.note _ _ (h.found p n (hs n List.mem_cons_self) solved hp)
  | @leaf n rest p q solved _ _ ih =>
    exact ih (fun m hm => hs m (List.mem_cons_of_mem _ hm)) (h.found p n (hs n List.mem_cons_self) solved hp)
  | @stuck n rest p q unsolved take _ ih =>
    refine ih (fun m hm => hs m (List.mem_cons_of_mem _ hm)) ?_
    exact h.stuck _ n (hs n List.mem_cons_self) unsolved take (h.note p _ hp)
  | @eq n rest p q l r others take _ ih =>
    refine ih (fun m hm => ?_) (h.failedBranches (h.note p _ hp))
    rw [Progress.failedBranches_next, Progress.note_next]
    rcases List.mem_append.1 hm with hm | hm
    · obtain ⟨su, hsu, rfl⟩ := List.mem_map.1 hm
      exact h.step _ _ n _ (.unify take hsu) (hs n List.mem_cons_self)
    · exact hs m (List.mem_cons_of_mem _ hm)
  | @implicit n rest p q t b M others take _ ih =>
    refine ih (fun m hm => ?_) (h.note p _ hp)
    rcases List.mem_cons.1 hm with rfl | hm
    · exact h.step _ _ n _ (.generalize take) (hs n List.mem_cons_self)
    · exact hs m (List.mem_cons_of_mem _ hm)
  | @explicit n rest p q t σ others take _ ih =>
    refine ih (fun m hm => ?_) (h.issue _ _ (h.note p _ hp))
    rcases List.mem_cons.1 hm with rfl | hm
    · exact h.step _ _ n _ (.instantiate take) (hs n List.mem_cons_self)
    -- the other nodes wait while the fresh variables are issued
    · exact h.wait _ _ m (Nat.le_add_right _ _) (hs m (List.mem_cons_of_mem _ hm))

theorem explore_keeps {I : Nat → Node → Prop} {Q : Progress → Prop} (h : Keeps I Q) {limit : Option Nat} {s : Stack}
    {p : Progress} (hs : ∀ n ∈ s.nodes, I p.next n) (hp : Q p) : Q (explore limit s p) :=
  (explores_explore limit s p).keeps h hs hp

/-- What the search finds stands at the end of a path from a node of the stack. -/
theorem mem_explore {limit : Option Nat} {s : Stack} {p : Progress} {S : Subst} (h : S ∈ (explore limit s p).substs) :
    S ∈ p.substs ∨ ∃ n ∈ s.nodes, Ends p.next n S := by
  have hkeeps : Keeps (fun k m => ∃ n ∈ s.nodes, Path p.next n k m)
      fun q => ∀ S ∈ q.substs, S ∈ p.substs ∨ ∃ n ∈ s.nodes, Ends p.next n S := by
    refine ⟨?_, ?_, fun q e hq => hq, fun q m hq => hq, ?_, fun q l r e he hq => hq, fun q n hn hne htake hq => hq⟩
    · rintro k k' m hk ⟨n, hn, hpath⟩
      exact ⟨n, hn, hpath.trans (.refl m hk)⟩
    · rintro k k' m m' hstep ⟨n, hn, hpath⟩
      exact ⟨n, hn, hpath.trans (.step (Nat.le_refl k) hstep (.refl m' (Nat.le_refl k')))⟩
    · rintro q leaf ⟨n, hn, hpath⟩ hleaf hq S hS
      rcases Array.mem_push.1 hS with hS | rfl
      · exact hq S hS
      · exact .inr ⟨n, hn, q.next, leaf, hpath, hleaf, rfl⟩
  exact explore_keeps hkeeps (fun n hn => ⟨n, hn, .refl n (Nat.le_refl _)⟩) (fun S hS => .inl hS) S h

/-- Every solution stands at the end of a path from the root. -/
theorem ends_of_mem_solve {cs : List Constraint} {next : Nat} {limit : Option Nat} {S : Subst}
    (h : S ∈ (solve cs next limit).substs) : Ends next ⟨∅, cs⟩ S := by
  rcases mem_explore h with h | ⟨n, hn, hends⟩
  · simp at h
  · obtain rfl := List.mem_singleton.1 hn
    exact hends

/-! ## Well formed nodes -/

end Search

/-- All types of the constraint are well formed. -/
def Constraint.WellFormed : Constraint → Prop
  | .eq l r => l.WellFormed ∧ r.WellFormed
  | .explicit t σ => t.WellFormed ∧ σ.ty.WellFormed
  | .implicit t _ b => t.WellFormed ∧ b.WellFormed

theorem Constraint.WellFormed.apply {c : Constraint} {s : Subst} (h : c.WellFormed) (hs : s.WellFormed) :
    (c.apply s).WellFormed := by
  cases c with
  | eq l r => exact ⟨hs.apply h.1, hs.apply h.2⟩
  | explicit t σ => exact ⟨hs.apply h.1, (hs.without σ.vars).apply h.2⟩
  | implicit t M b => exact ⟨hs.apply h.1, hs.apply h.2⟩

namespace Search

structure Node.WellFormed (n : Node) : Prop where
  subst : n.subst.WellFormed
  constraints : ∀ c ∈ n.constraints, c.WellFormed

theorem Step.wellFormed {k k' : Nat} {n n' : Node} (h : Step k n k' n') (hn : n.WellFormed) : n'.WellFormed := by
  cases h with
  | @unify l r others su take mem =>
    have hlr : l.WellFormed ∧ r.WellFormed := hn.constraints _ ((Constraint.mem_of_takeSolvable take).2 (.inl rfl))
    have hsu := (Ty.unifies_of_mem mem).wellFormed (by simpa using hlr.1) (by simpa using hlr.2)
    refine ⟨hsu.compose hn.subst, fun c hc => ?_⟩
    obtain ⟨d, hd, rfl⟩ := List.mem_map.1 hc
    exact (hn.constraints d ((Constraint.mem_of_takeSolvable take).2 (.inr hd))).apply hsu
  | @generalize t b M others take =>
    have htb := hn.constraints _ ((Constraint.mem_of_takeSolvable take).2 (.inl rfl))
    refine ⟨hn.subst, fun c hc => ?_⟩
    rcases List.mem_cons.1 hc with rfl | hc
    · exact htb
    · exact hn.constraints c ((Constraint.mem_of_takeSolvable take).2 (.inr hc))
  | @instantiate t σ others take =>
    have htσ : t.WellFormed ∧ σ.ty.WellFormed :=
      hn.constraints _ ((Constraint.mem_of_takeSolvable take).2 (.inl rfl))
    refine ⟨hn.subst, fun c hc => ?_⟩
    rcases List.mem_cons.1 hc with rfl | hc
    · exact ⟨htσ.1, (σ.all_freshening k).apply htσ.2⟩
    · exact hn.constraints c ((Constraint.mem_of_takeSolvable take).2 (.inr hc))

theorem Path.wellFormed {k k' : Nat} {n n' : Node} (h : Path k n k' n') (hn : n.WellFormed) : n'.WellFormed :=
  h.preserves (I := fun _ n => n.WellFormed) (fun _ _ _ _ hn => hn) (fun _ _ _ _ => Step.wellFormed) hn

/-! ## Inactive variables -/

theorem solvedIn_of_mem_unify {l r : Ty} {su : Subst} (h : su ∈ (l.unify r).substs) :
    su.SolvedIn {v | v ∈ (Constraint.eq l r).active} := by
  refine (Ty.unifies_of_mem h).solvedIn ?_ ?_
  · simpa [Constraint.active] using fun v hv => .inl hv
  · simpa [Constraint.active] using fun v hv => .inr hv

/-- The substitution of a step leaves alone what the equality does not mention. -/
theorem avoids_of_mem_unify {l r : Ty} {su : Subst} (h : su ∈ (l.unify r).substs) {v : Nat}
    (hv : v ∉ (Constraint.eq l r).active) : Avoids su.toFun v := (solvedIn_of_mem_unify h).avoids hv

theorem mem_active_apply {c : Constraint} {su : Subst} {v : Nat} (hsu : Avoids su.toFun v)
    (h : v ∈ (c.apply su).active) : v ∈ c.active := by
  have hfree : ∀ {t : Ty}, v ∈ (t.apply su).free → v ∈ t.free := by
    intro t ht
    obtain ⟨w, hw, hv⟩ := Ty.mem_free_apply.1 ht
    exact hsu.2 w hv ▸ hw
  cases c with
  | eq l r =>
    rcases VarSet.mem_union.1 h with h | h
    · exact VarSet.mem_union.2 (.inl (hfree h))
    · exact VarSet.mem_union.2 (.inr (hfree h))
  | explicit t σ =>
    rcases VarSet.mem_union.1 h with h | h
    · exact VarSet.mem_union.2 (.inl (hfree h))
    · obtain ⟨w, hw, hv⟩ := Scheme.free_apply h
      exact VarSet.mem_union.2 (.inr (hsu.2 w hv ▸ hw))
  | implicit t M b =>
    rcases VarSet.mem_union.1 h with h | h
    · exact VarSet.mem_union.2 (.inl (hfree h))
    · obtain ⟨hM, hb⟩ := VarSet.mem_inter.1 h
      obtain ⟨w, hw, hv⟩ := Subst.mem_image.1 hM
      exact VarSet.mem_union.2 (.inr (VarSet.mem_inter.2 ⟨hsu.2 w hv ▸ hw, hfree hb⟩))

/-- The variable has been issued and is active in no constraint of the node. -/
def Inactive (v k : Nat) (n : Node) : Prop := v < k ∧ ∀ c ∈ n.constraints, v ∉ c.active

theorem Step.inactive {v k k' : Nat} {n n' : Node} (h : Step k n k' n') (hv : Inactive v k n) : Inactive v k' n' := by
  obtain ⟨hk, hv⟩ := hv
  cases h with
  | @unify l r others su take mem =>
    have hsu := avoids_of_mem_unify mem (hv _ ((Constraint.mem_of_takeSolvable take).2 (.inl rfl)))
    refine ⟨hk, fun c hc hmem => ?_⟩
    obtain ⟨d, hd, rfl⟩ := List.mem_map.1 hc
    exact hv d ((Constraint.mem_of_takeSolvable take).2 (.inr hd)) (mem_active_apply hsu hmem)
  | @generalize t b M others take =>
    have hgen := hv _ ((Constraint.mem_of_takeSolvable take).2 (.inl rfl))
    refine ⟨hk, fun c hc hmem => ?_⟩
    rcases List.mem_cons.1 hc with rfl | hc
    -- a generalisation has the free variables that were active in the implicit instance
    · simp only [Constraint.active, VarSet.mem_union, VarSet.mem_inter, Scheme.mem_free_generalize] at hgen hmem
      tauto
    · exact hv c ((Constraint.mem_of_takeSolvable take).2 (.inr hc)) hmem
  | @instantiate t σ others take =>
    have hinst := hv _ ((Constraint.mem_of_takeSolvable take).2 (.inl rfl))
    refine ⟨by omega, fun c hc hmem => ?_⟩
    rcases List.mem_cons.1 hc with rfl | hc
    · simp only [Constraint.active, VarSet.mem_union] at hinst hmem
      rcases hmem with ht | hu
      · exact hinst (.inl ht)
      · rcases Scheme.free_instance hu with hσ | hfresh
        · exact hinst (.inr hσ)
        · omega
    · exact hv c ((Constraint.mem_of_takeSolvable take).2 (.inr hc)) hmem

theorem Path.inactive {v k k' : Nat} {n n' : Node} (h : Path k n k' n') (hv : Inactive v k n) : Inactive v k' n' :=
  h.preserves (fun _ _ _ hk hv => ⟨Nat.lt_of_lt_of_le hv.1 hk, hv.2⟩) (fun _ _ _ _ => Step.inactive) hv

/-! ## Tidy nodes -/

end Search

namespace Constraint

/-- The variable is free in a type of the constraint. -/
def Mentions : Constraint → Nat → Prop
  | .eq l r, v => v ∈ l.free ∨ v ∈ r.free
  | .explicit t σ, v => v ∈ t.free ∨ v ∈ σ.free
  | .implicit t _ b, v => v ∈ t.free ∨ v ∈ b.free

/-- The variables that the constraint may not generalise. -/
def fixed : Constraint → VarSet
  | .implicit _ M _ => M
  | _ => ∅

theorem mentions_apply {c : Constraint} {su : Subst} {v : Nat} (h : (c.apply su).Mentions v) :
    ∃ w, c.Mentions w ∧ v ∈ (su.toFun w).free := by
  cases c with
  | eq l r | implicit l _ r =>
    rcases h with h | h
    · obtain ⟨w, hw, hv⟩ := Ty.mem_free_apply.1 h
      exact ⟨w, .inl hw, hv⟩
    · obtain ⟨w, hw, hv⟩ := Ty.mem_free_apply.1 h
      exact ⟨w, .inr hw, hv⟩
  | explicit t σ =>
    rcases h with h | h
    · obtain ⟨w, hw, hv⟩ := Ty.mem_free_apply.1 h
      exact ⟨w, .inl hw, hv⟩
    · obtain ⟨w, hw, hv⟩ := Scheme.free_apply h
      exact ⟨w, .inr hw, hv⟩

theorem mem_fixed_apply {c : Constraint} {su : Subst} {v : Nat} (h : v ∈ (c.apply su).fixed) :
    ∃ w ∈ c.fixed, v ∈ (su.toFun w).free := by
  cases c with
  | eq l r => simp [apply, fixed] at h
  | explicit t σ => simp [apply, fixed] at h
  | implicit t M b => exact Subst.mem_image.1 h

end Constraint

namespace Search

/-- All variables in sight have been issued, and the substitution binds none that
a constraint still has. -/
structure Tidy (k : Nat) (n : Node) : Prop where
  mentioned : ∀ c ∈ n.constraints, ∀ v, c.Mentions v → v < k
  bound : ∀ v t, n.subst.get? v = some t → v < k
  unbound : ∀ c ∈ n.constraints, ∀ v, c.Mentions v ∨ v ∈ c.fixed → n.subst.get? v = none

theorem tidy_root {k : Nat} {cs : List Constraint} (h : ∀ c ∈ cs, ∀ v, c.Mentions v → v < k) : Tidy k ⟨∅, cs⟩ where
  mentioned := h
  bound v t hv := by simp at hv
  unbound c _ v _ := rfl

theorem Tidy.wait {k k' : Nat} {n : Node} (h : Tidy k n) (hk : k ≤ k') : Tidy k' n where
  mentioned c hc v hv := Nat.lt_of_lt_of_le (h.mentioned c hc v hv) hk
  bound v t hv := Nat.lt_of_lt_of_le (h.bound v t hv) hk
  unbound := h.unbound

theorem Step.tidy {k k' : Nat} {n n' : Node} (h : Step k n k' n') (hn : Tidy k n) : Tidy k' n' := by
  cases h with
  | @unify l r others su take mem =>
    have hmem := fun {d : Constraint} => Constraint.mem_of_takeSolvable take (d := d)
    have hsolved := solvedIn_of_mem_unify mem
    -- what the step brings in is mentioned by its equality
    have hV : ∀ v ∈ (Constraint.eq l r).active, (Constraint.eq l r).Mentions v := fun v hv => VarSet.mem_union.1 hv
    refine ⟨fun c hc v hv => ?_, fun v t hv => ?_, fun c hc v hv => ?_⟩
    · obtain ⟨d, hd, rfl⟩ := List.mem_map.1 hc
      obtain ⟨w, hw, hv⟩ := Constraint.mentions_apply hv
      rcases (hsolved.of_mem_toFun hv).2 with rfl | hv
      · exact hn.mentioned d (hmem.2 (.inr hd)) v hw
      · exact hn.mentioned _ (hmem.2 (.inl rfl)) v (hV v hv)
    · rcases Subst.get?_compose_cases hv with ⟨u, hu, -⟩ | ⟨-, hu⟩
      · exact hn.bound v u hu
      · exact hn.mentioned _ (hmem.2 (.inl rfl)) v (hV v (hsolved.bound v t hu))
    · obtain ⟨d, hd, rfl⟩ := List.mem_map.1 hc
      obtain ⟨w, hw, hv⟩ : ∃ w, (d.Mentions w ∨ w ∈ d.fixed) ∧ v ∈ (su.toFun w).free := by
        rcases hv with hv | hv
        · obtain ⟨w, hw, hv⟩ := Constraint.mentions_apply hv
          exact ⟨w, .inl hw, hv⟩
        · obtain ⟨w, hw, hv⟩ := Constraint.mem_fixed_apply hv
          exact ⟨w, .inr hw, hv⟩
      obtain ⟨hnone, hv⟩ := hsolved.of_mem_toFun hv
      -- neither the old substitution nor that of the step binds what is left
      have hold : n.subst.get? v = none := by
        rcases hv with rfl | hv
        · exact hn.unbound d (hmem.2 (.inr hd)) v hw
        · exact hn.unbound _ (hmem.2 (.inl rfl)) v (.inl (hV v hv))
      show (su.compose n.subst).get? v = none
      rw [Subst.get?_compose, hold, hnone]
  | @generalize t b M others take =>
    have hmem := fun {d : Constraint} => Constraint.mem_of_takeSolvable take (d := d)
    have hlink : ∀ v, (Constraint.explicit t (.generalize M b)).Mentions v → (Constraint.implicit t M b).Mentions v :=
      fun v hv => hv.imp id fun hv => (Scheme.mem_free_generalize.1 hv).1
    refine ⟨fun c hc v hv => ?_, hn.bound, fun c hc v hv => ?_⟩
    · rcases List.mem_cons.1 hc with rfl | hc
      · exact hn.mentioned _ (hmem.2 (.inl rfl)) v (hlink v hv)
      · exact hn.mentioned c (hmem.2 (.inr hc)) v hv
    · rcases List.mem_cons.1 hc with rfl | hc
      · exact hn.unbound _ (hmem.2 (.inl rfl)) v (.inl (hlink v (hv.resolve_right (by simp [Constraint.fixed]))))
      · exact hn.unbound c (hmem.2 (.inr hc)) v hv
  | @instantiate t σ others take =>
    have hmem := fun {d : Constraint} => Constraint.mem_of_takeSolvable take (d := d)
    have hlink : ∀ v, (Constraint.eq t (σ.ty.apply (σ.freshening k))).Mentions v →
        (Constraint.explicit t σ).Mentions v ∨ (k ≤ v ∧ v < k + σ.vars.length) := by
      intro v hv
      rcases hv with hv | hv
      · exact .inl (.inl hv)
      · exact (Scheme.free_instance hv).imp .inr id
    refine ⟨fun c hc v hv => ?_, fun v t hv => ?_, fun c hc v hv => ?_⟩
    · rcases List.mem_cons.1 hc with rfl | hc
      · rcases hlink v hv with hv | hv
        · exact Nat.lt_add_right _ (hn.mentioned _ (hmem.2 (.inl rfl)) v hv)
        · exact hv.2
      · exact Nat.lt_add_right _ (hn.mentioned c (hmem.2 (.inr hc)) v hv)
    · exact Nat.lt_add_right _ (hn.bound v t hv)
    · rcases List.mem_cons.1 hc with rfl | hc
      · rcases hlink v (hv.resolve_right (by simp [Constraint.fixed])) with hv | hv
        · exact hn.unbound _ (hmem.2 (.inl rfl)) v (.inl hv)
        · -- a fresh variable is too large to be bound
          cases hget : n.subst.get? v with
          | none => rfl
          | some u =>
            have := hn.bound v u hget
            omega
      · exact hn.unbound c (hmem.2 (.inr hc)) v hv

theorem Path.tidy {k k' : Nat} {n n' : Node} (h : Path k n k' n') (hn : Tidy k n) : Tidy k' n' :=
  h.preserves (fun _ _ _ hk hn => hn.wait hk) (fun _ _ _ _ => Step.tidy) hn

end Search

end NixTyping
