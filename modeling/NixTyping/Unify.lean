import NixTyping.Error
/-!
Unification with branches. An overload set on either side is tried one alternative at a time, so the answer is a
list of substitutions, one for each branch that succeeds, in the order of the alternatives, beside the errors of
the branches that fail. A failed branch contributes nothing and stops none of the others.

Unification descends by (variables left, size): a step that substitutes eliminates a variable from what is left,
and a step that does not leaves the rest of the types as they are.
-/

namespace NixTyping

/-- The outcome of a unification: the substitution of every branch that succeeded, and every error. -/
structure Branches where
  substs : List Subst
  errors : List TypeError
  deriving DecidableEq

namespace Branches

def one (s : Subst) : Branches := ⟨[s], []⟩

def fail (e : TypeError) : Branches := ⟨[], [e]⟩

def none : Branches := ⟨[], []⟩

def append (a b : Branches) : Branches := ⟨a.substs ++ b.substs, a.errors ++ b.errors⟩

def ofExcept : Except TypeError Subst → Branches
  | .ok s => one s
  | .error e => fail e

/-- Run `next` in every branch, after the whole log so far; its substitutions come after the branch's own. -/
def andThen (b : Branches) (next : Subst → Branches) : Branches :=
  b.substs.foldl (fun acc s =>
    let more := next s
    acc.append ⟨more.substs.map (·.compose s), more.errors⟩) ⟨[], b.errors⟩

end Branches

/-- Bind a variable to a type, refusing cyclic types. -/
def bindVar (v : Nat) (t : Ty) : Except TypeError Subst :=
  if t = .var v then .ok ∅
  else if t.occurs v then .error (.infinite v t)
  else .ok (.single v t)

/-- Whether two record types fit. Only names are compared: an open record asks for its names, and of two closed
ones the left has all names of the right. -/
def recordsFit (fs : List (String × Ty)) (fsOpen : Bool) (gs : List (String × Ty)) (gsOpen : Bool) : Bool :=
  match fsOpen, gsOpen with
  | true, true => true
  | false, true => Ty.coversKeys fs gs
  | true, false => Ty.coversKeys gs fs
  | false, false => Ty.coversKeys fs gs

namespace Ty

mutual

/-- Unify two types in which at most `n` variables are left. -/
def unifyWithin (n : Nat) (l r : Ty) : Branches :=
  if l = r then .one ∅
  else match l, r with
    | .var v, t => .ofExcept (bindVar v t)
    | t, .var v => .ofExcept (bindVar v t)
    | .list ts, .list us =>
      if homogeneous ts && homogeneous us then
        match ts, us with
        | t :: _, u :: _ => unifyWithin n t u
        | _, _ => .one ∅
      else if ts.length = us.length then unifyAllWithin n ts us
      else .fail (.mismatch (.list ts) (.list us))
    | .record fs o, .record gs o' =>
      if recordsFit fs o gs o' then .one ∅ else .fail (.mismatch (.record fs o) (.record gs o'))
    | .fn p b, .fn q c => unifyAllWithin n [p, b] [q, c]
    | .overload alts, t => unifyLeft n alts t
    | t, .overload alts => unifyRight n t alts
    | l, r => .fail (.mismatch l r)
termination_by (n, l.size + r.size)
decreasing_by all_goals simp only [size, sizeAll]; omega

/-- Unify pairwise; the substitution of each pair is applied to the pairs that are left. A substitution that is
not empty has eliminated one of the variables. -/
def unifyAllWithin (n : Nat) (ls rs : List Ty) : Branches :=
  match ls, rs with
  | [], [] => .one ∅
  | l :: ls, r :: rs =>
    (unifyWithin n l r).andThen fun s =>
      if s.isEmpty then unifyAllWithin n ls rs
      else match n with
        | 0 => .none
        | n + 1 => unifyAllWithin n (ls.map (apply s)) (rs.map (apply s))
  | ls, rs => .fail (.arity ls rs)
termination_by (n, sizeAll ls + sizeAll rs)
decreasing_by all_goals simp only [sizeAll]; omega

/-- Unify every alternative of a left side with the right side. -/
def unifyLeft (n : Nat) (alts : List Ty) (r : Ty) : Branches :=
  match alts with
  | [] => .none
  | alt :: alts => (unifyWithin n alt r).append (unifyLeft n alts r)
termination_by (n, sizeAll alts + r.size)
decreasing_by all_goals simp only [sizeAll]; omega

/-- Unify the left side with every alternative of a right side. -/
def unifyRight (n : Nat) (l : Ty) (alts : List Ty) : Branches :=
  match alts with
  | [] => .none
  | alt :: alts => (unifyWithin n l alt).append (unifyRight n l alts)
termination_by (n, l.size + sizeAll alts)
decreasing_by all_goals simp only [sizeAll]; omega

end

/-- All ways to unify two types. -/
def unify (l r : Ty) : Branches := unifyWithin (l.free.union r.free).toList.length l r

/-- All ways to unify two lists of types pair by pair. -/
def unifyAll (ls rs : List Ty) : Branches :=
  unifyAllWithin ((freeAll ls).union (freeAll rs)).toList.length ls rs

end Ty

end NixTyping
