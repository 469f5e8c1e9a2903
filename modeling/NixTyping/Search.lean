import NixTyping.Log
import NixTyping.Unify
/-!
Solving constraints is a search in a tree. A node is a substitution and the constraints still to be solved. To
solve an equality may branch; every other step has one child. A node without constraints is a solution. The tree
is walked depth first, children in the order of the unifier, so solutions come in the order of the alternatives.

The nodes still to be visited form a stack. A step replaces the node on top by nodes of smaller weight, which
can go on only finitely often.
-/

namespace NixTyping

/-! ## Which constraint comes next -/

namespace Constraint

/-- Whether a constraint can be solved before the others: an implicit instance waits while a variable that it
would quantify is active elsewhere. -/
def solvable (others : List Constraint) : Constraint → Bool
  | .eq _ _ | .explicit _ _ => true
  | .implicit _ mono bound =>
    (bound.free.diff mono).toList.all fun v => others.all fun c => decide (v ∉ c.active)

/-- Take out the first constraint that can be solved, where `before` stand in front of the list and cannot. -/
def takeSolvableAfter (before : List Constraint) : List Constraint → Option (Constraint × List Constraint)
  | [] => none
  | c :: after =>
    if c.solvable (before ++ after) then some (c, before ++ after) else takeSolvableAfter (before ++ [c]) after

/-- Take out the first constraint, in list order, that can be solved. -/
def takeSolvable (cs : List Constraint) : Option (Constraint × List Constraint) := takeSolvableAfter [] cs

/-- How many steps lead from a constraint to its last equality. -/
def weight : Constraint → Nat
  | .eq _ _ => 1
  | .explicit _ _ => 2
  | .implicit _ _ _ => 3

def weightAll : List Constraint → Nat
  | [] => 0
  | c :: cs => c.weight + weightAll cs

theorem weightAll_append (cs ds : List Constraint) : weightAll (cs ++ ds) = weightAll cs + weightAll ds := by
  induction cs with
  | nil => simp [weightAll]
  | cons c cs ih => simp only [List.cons_append, weightAll, ih]; omega

theorem weight_apply (su : Subst) (c : Constraint) : (c.apply su).weight = c.weight := by
  cases c <;> rfl

theorem weightAll_map_apply (su : Subst) (cs : List Constraint) :
    weightAll (cs.map (apply su)) = weightAll cs := by
  induction cs with
  | nil => rfl
  | cons c cs ih => simp only [List.map_cons, weightAll, weight_apply, ih]

theorem weight_takeSolvableAfter {before cs rest : List Constraint} {c : Constraint}
    (h : takeSolvableAfter before cs = some (c, rest)) :
    c.weight + weightAll rest = weightAll before + weightAll cs := by
  induction cs generalizing before with
  | nil => simp [takeSolvableAfter] at h
  | cons d cs ih =>
    simp only [takeSolvableAfter] at h
    split at h
    · simp only [Option.some.injEq, Prod.mk.injEq] at h
      obtain ⟨rfl, rfl⟩ := h
      simp only [weightAll_append, weightAll]
      omega
    · have := ih h
      simp only [weightAll_append, weightAll] at this ⊢
      omega

theorem weight_takeSolvable {cs rest : List Constraint} {c : Constraint} (h : takeSolvable cs = some (c, rest)) :
    c.weight + weightAll rest = weightAll cs := by
  simpa [weightAll] using weight_takeSolvableAfter h

end Constraint

/-! ## The stack of open nodes -/

namespace Search

/-- A node of the search tree. -/
structure Node where
  subst : Subst
  constraints : List Constraint

def Node.weight (n : Node) : Nat := Constraint.weightAll n.constraints

/-- The nodes still to be visited, the next one first. -/
structure Stack where
  nodes : List Node

/-- One step down: the node on top is replaced by lighter ones. -/
inductive Stack.Below : Stack → Stack → Prop where
  | step (children : List Node) (n : Node) (rest : List Node) (lighter : ∀ c ∈ children, c.weight < n.weight) :
    Below ⟨children ++ rest⟩ ⟨n :: rest⟩

theorem Stack.acc_append (children rest : List Node) (hrest : Acc Below ⟨rest⟩)
    (h : ∀ c ∈ children, ∀ rest, Acc Below ⟨rest⟩ → Acc Below ⟨c :: rest⟩) : Acc Below ⟨children ++ rest⟩ := by
  induction children with
  | nil => exact hrest
  | cons c children ih =>
    exact h c (by simp) _ (ih fun d hd => h d (by simp [hd]))

theorem Stack.acc_cons (n : Node) (rest : List Node) (hrest : Acc Below ⟨rest⟩) : Acc Below ⟨n :: rest⟩ := by
  induction hw : n.weight using Nat.strongRecOn generalizing n rest with
  | ind w ih =>
    constructor
    rintro ⟨below⟩ hbelow
    cases hbelow with
    | step children _ _ lighter =>
      refine acc_append children rest hrest fun c hc rest' hrest' => ?_
      exact ih c.weight (hw ▸ lighter c hc) c rest' hrest' rfl

theorem Stack.acc (nodes : List Node) : Acc Below ⟨nodes⟩ := by
  induction nodes with
  | nil => exact ⟨_, fun _ h => nomatch h⟩
  | cons n nodes ih => exact acc_cons n nodes ih

instance : WellFoundedRelation Stack := ⟨Stack.Below, ⟨fun ⟨nodes⟩ => Stack.acc nodes⟩⟩

/-! ## The search -/

/-- What the search tells on its way. -/
inductive Event where
  | branchFailed (e : TypeError)
  | solving (c : Constraint)
  | stuck (left : Nat)
  | stopped (max dropped : Nat)
  | finished (solutions errors : Nat)
  deriving DecidableEq

def Event.line : Event → LogLine
  | .branchFailed e => ⟨.trace, "unification branch failed: " ++ e.message⟩
  | .solving c => ⟨.trace, "solving " ++ c.text⟩
  | .stuck left => ⟨.trace, s!"no solvable constraint among {left}"⟩
  | .stopped max dropped => ⟨.warn, s!"stopping after {max} solutions, dropping {dropped} unexplored branches"⟩
  | .finished solutions errors => ⟨.debug, s!"solver finished with {solutions} solutions and {errors} errors"⟩

/-- A search so far, or at its end: solutions and errors in the order of their discovery, and the next fresh
variable. Fresh variables are shared by all branches and only count up. -/
structure Progress where
  substs : Array Subst := #[]
  errors : Array TypeError := #[]
  next : Nat
  events : Array Event := #[]

namespace Progress

def note (p : Progress) (e : Event) : Progress := { p with events := p.events.push e }

def found (p : Progress) (s : Subst) : Progress := { p with substs := p.substs.push s }

def failed (p : Progress) (e : TypeError) : Progress := { p with errors := p.errors.push e }

/-- Record the failed branches of a unification. -/
def failedBranches (p : Progress) (es : List TypeError) : Progress :=
  es.foldl (fun p e => (p.note (.branchFailed e)).failed e) p

end Progress

/-- The event that ends the search early: the limit is reached and nodes are left. -/
def stop? (limit : Option Nat) (p : Progress) (rest : List Node) : Option Event :=
  match limit with
  | none => none
  | some max => if max ≤ p.substs.size && !rest.isEmpty then some (.stopped max rest.length) else none

/-- The nodes that follow when an equality has been unified. -/
def Node.children (n : Node) (rest : List Constraint) (b : Branches) : List Node :=
  b.substs.map fun su => ⟨su.compose n.subst, rest.map (Constraint.apply su)⟩

/-- Visit the nodes of a stack until none is left or the limit is reached. -/
def explore (limit : Option Nat) (s : Stack) (p : Progress) : Progress :=
  match s with
  | ⟨[]⟩ => p
  | ⟨n :: rest⟩ =>
    if n.constraints.isEmpty then
      let p := p.found n.subst
      match stop? limit p rest with
      | some e => p.note e
      | none => explore limit ⟨rest⟩ p
    else
      match _h : Constraint.takeSolvable n.constraints with
      | none =>
        explore limit ⟨rest⟩ ((p.note (.stuck n.constraints.length)).failed (.ambiguous n.constraints))
      | some (.eq l r, others) =>
        let b := l.unify r
        explore limit ⟨n.children others b ++ rest⟩ ((p.note (.solving (.eq l r))).failedBranches b.errors)
      | some (.implicit t mono bound, others) =>
        let child : Node := ⟨n.subst, .explicit t (.generalize mono bound) :: others⟩
        explore limit ⟨[child] ++ rest⟩ (p.note (.solving (.implicit t mono bound)))
      | some (.explicit t scheme, others) =>
        let (instance', next) := scheme.instantiate p.next
        let child : Node := ⟨n.subst, .eq t instance' :: others⟩
        explore limit ⟨[child] ++ rest⟩ { p.note (.solving (.explicit t scheme)) with next }
termination_by s
decreasing_by
  · exact .step [] n rest (by simp)
  · exact .step [] n rest (by simp)
  · refine .step _ n rest fun c hc => ?_
    obtain ⟨su, _, rfl⟩ := List.mem_map.1 hc
    have := Constraint.weight_takeSolvable _h
    simp only [Node.weight, Constraint.weightAll_map_apply, Constraint.weight] at this ⊢
    omega
  · refine .step [_] n rest fun c hc => ?_
    have := Constraint.weight_takeSolvable _h
    simp only [List.mem_singleton] at hc
    subst hc
    simp only [Node.weight, Constraint.weightAll, Constraint.weight] at this ⊢
    omega
  · refine .step [_] n rest fun c hc => ?_
    have := Constraint.weight_takeSolvable _h
    simp only [List.mem_singleton] at hc
    subst hc
    simp only [Node.weight, Constraint.weightAll, Constraint.weight] at this ⊢
    omega

end Search

/-- Solve constraints, taking fresh variables from `next` on; `limit` is the number of solutions after which
the search stops. -/
def solve (constraints : List Constraint) (next : Nat) (limit : Option Nat) : Search.Progress :=
  let p := Search.explore limit ⟨[⟨∅, constraints⟩]⟩ { next := next }
  p.note (.finished p.substs.size p.errors.size)

end NixTyping
