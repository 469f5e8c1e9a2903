import NixTyping.Ty.Basic
/-!
Finite sets of type variables, as ascending lists without repeats. The order makes the list canonical: sets with
the same members are equal.
-/

namespace NixTyping

/-- Put a variable into an ascending list. -/
def insertVar (v : Nat) : List Nat → List Nat
  | [] => [v]
  | w :: ws => if v < w then v :: w :: ws else if v = w then w :: ws else w :: insertVar v ws

theorem mem_insertVar {v x : Nat} {ws : List Nat} : x ∈ insertVar v ws ↔ x = v ∨ x ∈ ws := by
  induction ws with
  | nil => simp [insertVar]
  | cons w ws ih =>
    simp only [insertVar]
    split
    · simp
    · split
      · next h => subst h; simp
      · simp only [List.mem_cons, ih]
        constructor
        · rintro (h | h | h) <;> simp [h]
        · rintro (h | h | h) <;> simp [h]

theorem pairwise_insertVar {v : Nat} {ws : List Nat} (h : ws.Pairwise (· < ·)) :
    (insertVar v ws).Pairwise (· < ·) := by
  induction ws with
  | nil => simp [insertVar]
  | cons w ws ih =>
    rw [List.pairwise_cons] at h
    simp only [insertVar]
    split
    · next hv =>
      refine List.pairwise_cons.2 ⟨?_, List.pairwise_cons.2 h⟩
      intro x hx
      rcases List.mem_cons.1 hx with rfl | hx
      · exact hv
      · exact Nat.lt_trans hv (h.1 x hx)
    · split
      · exact List.pairwise_cons.2 h
      · next hv hne =>
        refine List.pairwise_cons.2 ⟨?_, ih h.2⟩
        intro x hx
        rcases mem_insertVar.1 hx with rfl | hx
        · omega
        · exact h.1 x hx

structure VarSet where
  toList : List Nat
  sorted : toList.Pairwise (· < ·)
  deriving DecidableEq

namespace VarSet

instance : Membership Nat VarSet := ⟨fun s v => v ∈ s.toList⟩

theorem mem_def {s : VarSet} {v : Nat} : v ∈ s ↔ v ∈ s.toList := Iff.rfl

instance (v : Nat) (s : VarSet) : Decidable (v ∈ s) := inferInstanceAs (Decidable (v ∈ s.toList))

def empty : VarSet := ⟨[], .nil⟩

instance : EmptyCollection VarSet := ⟨empty⟩

instance : Inhabited VarSet := ⟨empty⟩

def insert (v : Nat) (s : VarSet) : VarSet := ⟨insertVar v s.toList, pairwise_insertVar s.sorted⟩

/-- The members of a list. -/
def ofList (vs : List Nat) : VarSet := vs.foldl (fun s v => s.insert v) ∅

def union (s t : VarSet) : VarSet := t.toList.foldl (fun s v => s.insert v) s

def diff (s t : VarSet) : VarSet := ⟨s.toList.filter fun v => decide (v ∉ t), s.sorted.filter _⟩

def inter (s t : VarSet) : VarSet := ⟨s.toList.filter fun v => decide (v ∈ t), s.sorted.filter _⟩

def disjoint (s t : VarSet) : Bool := s.toList.all fun v => decide (v ∉ t)

@[simp] theorem mem_empty {v : Nat} : v ∉ (∅ : VarSet) := List.not_mem_nil

@[simp] theorem mem_insert {v x : Nat} {s : VarSet} : x ∈ s.insert v ↔ x = v ∨ x ∈ s := mem_insertVar

@[simp] theorem mem_diff {v : Nat} {s t : VarSet} : v ∈ s.diff t ↔ v ∈ s ∧ v ∉ t := by
  simp [mem_def, diff]

@[simp] theorem mem_inter {v : Nat} {s t : VarSet} : v ∈ s.inter t ↔ v ∈ s ∧ v ∈ t := by
  simp [mem_def, inter]

theorem mem_foldl_insert {v : Nat} {vs : List Nat} {s : VarSet} :
    v ∈ vs.foldl (fun s v => s.insert v) s ↔ v ∈ s ∨ v ∈ vs := by
  induction vs generalizing s with
  | nil => simp
  | cons w vs ih => simp only [List.foldl_cons, ih, mem_insert, List.mem_cons]; grind

@[simp] theorem mem_ofList {v : Nat} {vs : List Nat} : v ∈ ofList vs ↔ v ∈ vs := by
  simp [ofList, mem_foldl_insert]

@[simp] theorem mem_union {v : Nat} {s t : VarSet} : v ∈ s.union t ↔ v ∈ s ∨ v ∈ t :=
  mem_foldl_insert

end VarSet

/-- The variables of a type. -/
def Ty.free (t : Ty) : VarSet := .ofList t.mentions

/-- The variables of the types of a list. -/
def Ty.freeAll (ts : List Ty) : VarSet := .ofList (Ty.mentionsAll ts)

end NixTyping
