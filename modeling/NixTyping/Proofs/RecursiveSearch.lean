import NixTyping.Proofs.DepthFirst
/-!
# The search as a recursion

`depthFirst` walks the tree below a node by recursion and returns lists. It has no
stack: the searches below the children of a node are run one after the other, and
the fresh variables go from each to the next (`Found.each`).

A stack of nodes stands for the searches below its nodes, one after the other. Every
visit of a node keeps what the stack stands for together with what has been found
(`Explores.ofProgress`), so the search without a limit is this recursion, with the
same solutions, the same errors and the same fresh variables (`solve_depthFirst`).
-/

namespace NixTyping

namespace Constraint

/-- The first constraint of a list that can be solved before all others, and these others. -/
def firstSolvable (cs : List Constraint) : Option (Constraint × List Constraint) :=
  (cs.zipIdx.find? fun e => e.1.solvable (cs.eraseIdx e.2)).map fun e => (e.1, cs.eraseIdx e.2)

theorem takeSolvableAfter_eq (before cs : List Constraint) :
    takeSolvableAfter before cs =
      ((cs.zipIdx before.length).find? fun e => e.1.solvable ((before ++ cs).eraseIdx e.2)).map
        fun e => (e.1, (before ++ cs).eraseIdx e.2) := by
  induction cs generalizing before with
  | nil => rfl
  | cons c cs ih =>
    have hothers : (before ++ c :: cs).eraseIdx before.length = before ++ cs := by
      rw [List.eraseIdx_append_of_length_le (Nat.le_refl _), Nat.sub_self, List.eraseIdx_cons_zero]
    rw [takeSolvableAfter, List.zipIdx_cons, List.find?_cons]
    simp only [hothers]
    split
    · next h => rw [h, Option.map_some, hothers]
    · next h =>
      rw [eq_false_of_ne_true h, ih, List.length_append, List.length_singleton, List.append_assoc]
      rfl

theorem firstSolvable_eq_takeSolvable (cs : List Constraint) : firstSolvable cs = takeSolvable cs :=
  (takeSolvableAfter_eq [] cs).symm

end Constraint

namespace Search

/-- What a search finds: solutions and errors in order, and the next fresh variable after it. -/
structure Found where
  substs : List Subst
  errors : List TypeError
  next : Nat

namespace Found

/-- What is found first, and then by a search that goes on from its fresh variables. -/
def andThen (found : Found) (search : Nat → Found) : Found :=
  let more := search found.next
  ⟨found.substs ++ more.substs, found.errors ++ more.errors, more.next⟩

/-- One search for each entry of a list, in order. -/
def each {α : Type} (search : α → Nat → Found) : List α → Nat → Found
  | [], next => ⟨[], [], next⟩
  | a :: as, next => (search a next).andThen (each search as)

end Found

/-- The depth-first search below a node, with fresh variables from `next` on. -/
def depthFirst (n : Node) (next : Nat) : Found :=
  if n.constraints.isEmpty then ⟨[n.subst], [], next⟩
  else
    match _h : Constraint.firstSolvable n.constraints with
    | none => ⟨[], [.ambiguous n.constraints], next⟩
    | some (.eq l r, others) =>
      Found.andThen ⟨[], (l.unify r).errors, next⟩ (Found.each
        (fun su next => depthFirst ⟨su.compose n.subst, others.map (Constraint.apply su)⟩ next) (l.unify r).substs)
    | some (.implicit t mono bound, others) =>
      depthFirst ⟨n.subst, .explicit t (.generalize mono bound) :: others⟩ next
    | some (.explicit t scheme, others) =>
      depthFirst ⟨n.subst, .eq t (scheme.instantiate next).1 :: others⟩ (scheme.instantiate next).2
termination_by n.weight
decreasing_by
  all_goals
    rw [Constraint.firstSolvable_eq_takeSolvable] at _h
    have := Constraint.weight_takeSolvable _h
    simp only [Node.weight, Constraint.weightAll, Constraint.weightAll_map_apply, Constraint.weight] at this ⊢
    omega

/-! ## Searches one after the other -/

namespace Found
variable {α β : Type}

theorem andThen_nothing (found : Found) : found.andThen (fun next => ⟨[], [], next⟩) = found := by
  simp [andThen]

theorem nothing_andThen (next : Nat) (search : Nat → Found) : andThen ⟨[], [], next⟩ search = search next := rfl

theorem andThen_assoc (found : Found) (search more : Nat → Found) :
    (found.andThen search).andThen more = found.andThen fun next => (search next).andThen more := by
  simp [andThen, List.append_assoc]

theorem andThen_congr {found found' : Found} {search search' : Nat → Found} (hsubsts : found.substs = found'.substs)
    (herrors : found.errors = found'.errors) (h : search found.next = search' found'.next) :
    found.andThen search = found'.andThen search' := by
  simp only [andThen, hsubsts, herrors, h]

theorem each_append (search : α → Nat → Found) (as bs : List α) (next : Nat) :
    each search (as ++ bs) next = (each search as next).andThen (each search bs) := by
  induction as generalizing next with
  | nil => exact (nothing_andThen next _).symm
  | cons a as ih =>
    rw [List.cons_append, each, each, andThen_assoc]
    congr 1
    exact funext ih

theorem each_map (search : β → Nat → Found) (f : α → β) (as : List α) (next : Nat) :
    each search (as.map f) next = each (fun a => search (f a)) as next := by
  induction as generalizing next with
  | nil => rfl
  | cons a as ih =>
    rw [List.map_cons, each, each]
    congr 1
    exact funext ih

end Found

/-! ## The recursion node by node -/

section Equations
variable {n : Node} {others : List Constraint} {next : Nat}

theorem depthFirst_leaf (h : n.constraints = []) : depthFirst n next = ⟨[n.subst], [], next⟩ := by
  rw [depthFirst.eq_def, if_pos (by rw [h]; rfl)]

theorem depthFirst_stuck (hne : n.constraints ≠ []) (h : Constraint.takeSolvable n.constraints = none) :
    depthFirst n next = ⟨[], [.ambiguous n.constraints], next⟩ := by
  rw [← Constraint.firstSolvable_eq_takeSolvable] at h
  rw [depthFirst.eq_def, if_neg (by simpa using hne)]
  split <;> simp_all

theorem depthFirst_eq {l r : Ty} (h : Constraint.takeSolvable n.constraints = some (.eq l r, others)) :
    depthFirst n next =
      Found.andThen ⟨[], (l.unify r).errors, next⟩ (Found.each depthFirst (n.children others (l.unify r))) := by
  have hchildren : Found.each depthFirst (n.children others (l.unify r)) = Found.each
      (fun su next => depthFirst ⟨su.compose n.subst, others.map (Constraint.apply su)⟩ next) (l.unify r).substs :=
    funext (Found.each_map depthFirst _ _)
  rw [depthFirst.eq_def, if_neg (not_isEmpty_of_take h), hchildren]
  rw [← Constraint.firstSolvable_eq_takeSolvable] at h
  split <;> simp_all

theorem depthFirst_implicit {t b : Ty} {M : VarSet}
    (h : Constraint.takeSolvable n.constraints = some (.implicit t M b, others)) :
    depthFirst n next = depthFirst ⟨n.subst, .explicit t (.generalize M b) :: others⟩ next := by
  rw [depthFirst.eq_def, if_neg (not_isEmpty_of_take h)]
  rw [← Constraint.firstSolvable_eq_takeSolvable] at h
  split <;> simp_all

theorem depthFirst_explicit {t : Ty} {σ : Scheme}
    (h : Constraint.takeSolvable n.constraints = some (.explicit t σ, others)) :
    depthFirst n next =
      depthFirst ⟨n.subst, .eq t (σ.ty.apply (σ.freshening next)) :: others⟩ (next + σ.vars.length) := by
  rw [depthFirst.eq_def, if_neg (not_isEmpty_of_take h)]
  rw [← Constraint.firstSolvable_eq_takeSolvable] at h
  split <;> simp_all [Scheme.instantiate_eq]

end Equations

/-! ## What a stack stands for -/

namespace Found

/-- What has been found so far. -/
def ofProgress (p : Progress) : Found := ⟨p.substs.toList, p.errors.toList, p.next⟩

@[simp] theorem ofProgress_note (p : Progress) (e : Event) : ofProgress (p.note e) = ofProgress p := rfl

theorem ofProgress_found (p : Progress) (su : Subst) :
    ofProgress (p.found su) = (ofProgress p).andThen fun next => ⟨[su], [], next⟩ := by
  simp [ofProgress, Progress.found, andThen]

theorem ofProgress_failed (p : Progress) (e : TypeError) :
    ofProgress (p.failed e) = (ofProgress p).andThen fun next => ⟨[], [e], next⟩ := by
  simp [ofProgress, Progress.failed, andThen]

theorem ofProgress_failedBranches (p : Progress) (es : List TypeError) :
    ofProgress (p.failedBranches es) = (ofProgress p).andThen fun next => ⟨[], es, next⟩ := by
  induction es generalizing p with
  | nil => exact (andThen_nothing _).symm
  | cons e es ih =>
    have hfirst : p.failedBranches (e :: es) = ((p.note (.branchFailed e)).failed e).failedBranches es := rfl
    rw [hfirst, ih, ofProgress_failed, ofProgress_note, andThen_assoc]
    rfl

end Found

/-- What has been found and what the stack stands for stay the same, put together, while the search goes on. -/
theorem Explores.ofProgress {s : Stack} {p q : Progress} (h : Explores none s p q) :
    Found.ofProgress q = (Found.ofProgress p).andThen (Found.each depthFirst s.nodes) := by
  induction h with
  | empty p => exact (Found.andThen_nothing _).symm
  | stop _ stopped => cases stopped
  | @leaf n rest p q solved _ _ ih =>
    have hstack : ∀ next, Found.each depthFirst (n :: rest) next =
        Found.andThen ⟨[n.subst], [], next⟩ (Found.each depthFirst rest) := fun next => by
      rw [Found.each, depthFirst_leaf solved]
    rw [ih, Found.ofProgress_found, Found.andThen_assoc]
    exact Found.andThen_congr rfl rfl (hstack _).symm
  | @stuck n rest p q unsolved take _ ih =>
    have hstack : ∀ next, Found.each depthFirst (n :: rest) next =
        Found.andThen ⟨[], [.ambiguous n.constraints], next⟩ (Found.each depthFirst rest) := fun next => by
      rw [Found.each, depthFirst_stuck unsolved take]
    rw [ih, Found.ofProgress_failed, Found.ofProgress_note, Found.andThen_assoc]
    exact Found.andThen_congr rfl rfl (hstack _).symm
  | @eq n rest p q l r others take _ ih =>
    -- the children come in front of the stack, and their searches before those of the stack
    have hstack : ∀ next, Found.each depthFirst (n :: rest) next =
        Found.andThen ⟨[], (l.unify r).errors, next⟩
          (Found.each depthFirst (n.children others (l.unify r) ++ rest)) := fun next => by
      rw [Found.each, depthFirst_eq take, Found.andThen_assoc]
      exact Found.andThen_congr rfl rfl (Found.each_append _ _ _ _).symm
    rw [ih, Found.ofProgress_failedBranches, Found.ofProgress_note, Found.andThen_assoc]
    exact Found.andThen_congr rfl rfl (hstack _).symm
  | @implicit n rest p q t b M others take _ ih =>
    have hstack : ∀ next, Found.each depthFirst (n :: rest) next =
        Found.each depthFirst (⟨n.subst, .explicit t (.generalize M b) :: others⟩ :: rest) next := fun next => by
      rw [Found.each, Found.each, depthFirst_implicit take]
    exact ih.trans (Found.andThen_congr rfl rfl (hstack _).symm)
  | @explicit n rest p q t σ others take _ ih =>
    have hstack : Found.each depthFirst (n :: rest) p.next =
        Found.each depthFirst (⟨n.subst, .eq t (σ.ty.apply (σ.freshening p.next)) :: others⟩ :: rest)
          (p.next + σ.vars.length) := by
      rw [Found.each, Found.each, depthFirst_explicit take]
    exact ih.trans (Found.andThen_congr rfl rfl hstack.symm)

theorem ofProgress_explore (s : Stack) (p : Progress) :
    Found.ofProgress (explore none s p) = (Found.ofProgress p).andThen (Found.each depthFirst s.nodes) :=
  (explores_explore none s p).ofProgress

/-- The search without a limit is the depth-first search below its root. -/
theorem solve_depthFirst (cs : List Constraint) (next : Nat) :
    let p := solve cs next none
    ⟨p.substs.toList, p.errors.toList, p.next⟩ = depthFirst ⟨∅, cs⟩ next := by
  intro p
  calc Found.ofProgress p
    _ = Found.ofProgress (explore none ⟨[⟨∅, cs⟩]⟩ { next := next }) := rfl
    _ = Found.each depthFirst [⟨∅, cs⟩] next := ofProgress_explore _ _
    _ = depthFirst ⟨∅, cs⟩ next := Found.andThen_nothing _

end Search

end NixTyping
