import Mathlib
import NixTyping.Proofs.IssuedTypes
/-!
# Labels of the environment

The schemes of an environment bind their variables under labels, and these are numbers as
the variables of a walk are. A walk keeps records of the environment as they stand, so the
two kinds of numbers lie side by side in its state. `Env.relabel` changes the labels of an
environment, and `Judgment.relabelSchemes` those in the schemes of a judgment alone.
-/

namespace NixTyping

namespace Ty

mutual

/-- The type with other labels for its variables, and as it is otherwise: overload sets are not rebuilt. -/
def relabel (ρ : Nat → Nat) : Ty → Ty
  | .var v => .var (ρ v)
  | .prim p => .prim p
  | .list ts => .list (relabelAll ρ ts)
  | .fn p b => .fn (relabel ρ p) (relabel ρ b)
  | .record fs o => .record (relabelFields ρ fs) o
  | .overload ts => .overload (relabelAll ρ ts)

def relabelAll (ρ : Nat → Nat) : List Ty → List Ty
  | [] => []
  | t :: ts => relabel ρ t :: relabelAll ρ ts

def relabelFields (ρ : Nat → Nat) : List (String × Ty) → List (String × Ty)
  | [] => []
  | (k, t) :: fs => (k, relabel ρ t) :: relabelFields ρ fs

end

theorem relabelAll_eq (ρ : Nat → Nat) (ts : List Ty) : relabelAll ρ ts = ts.map (relabel ρ) := by
  induction ts with
  | nil => rfl
  | cons t ts ih => rw [relabelAll, ih, List.map_cons]

theorem relabel_record (ρ : Nat → Nat) (fs : List (String × Ty)) (o : Bool) :
    (Ty.record fs o).relabel ρ = .record (fs.map fun f => (f.1, f.2.relabel ρ)) o := by
  have hfields : relabelFields ρ fs = fs.map fun f => (f.1, f.2.relabel ρ) := by
    induction fs with
    | nil => rfl
    | cons f fs ih => rw [relabelFields, ih, List.map_cons]
  rw [relabel, hfields]

@[simp] theorem relabel_id (t : Ty) : t.relabel id = t := by
  have hall : ∀ ts : List Ty, (∀ t ∈ ts, t.relabel id = t) → relabelAll id ts = ts := by
    intro ts hts
    rw [relabelAll_eq, List.map_congr_left hts, List.map_id']
  induction t using Ty.ind with
  | var v => rfl
  | prim p => rfl
  | list ts ih => rw [relabel, hall ts ih]
  | fn p b ihp ihb => rw [relabel, ihp, ihb]
  | record fs o ih =>
    have hfields : ∀ f ∈ fs, (f.1, f.2.relabel id) = f := fun f hf => by rw [ih f hf]
    rw [relabel_record, List.map_congr_left hfields, List.map_id']
  | overload ts ih => rw [relabel, hall ts ih]

end Ty

variable (ρ : Nat → Nat)

def Scheme.relabel (σ : Scheme) : Scheme := ⟨σ.vars.map ρ, σ.ty.relabel ρ⟩

@[simp] theorem Scheme.relabel_id (σ : Scheme) : σ.relabel id = σ := by
  rw [relabel, List.map_id, Ty.relabel_id]

def Env.relabel (env : Env) : Env := ⟨env.entries.map fun e => (e.1, e.2.map (·.relabel ρ))⟩

theorem Env.lookup_relabel (env : Env) (x : String) :
    (env.relabel ρ).lookup x = (env.lookup x).map (List.map (·.relabel ρ)) :=
  findKey_map _ x env.entries

/-- The constraint with other labels in its scheme, if it has one. -/
def Constraint.relabelScheme : Constraint → Constraint
  | .explicit t σ => .explicit t (σ.relabel ρ)
  | c => c

@[simp] theorem Constraint.relabelScheme_id (c : Constraint) : c.relabelScheme id = c := by
  cases c with
  | explicit t σ => rw [relabelScheme, Scheme.relabel_id]
  | _ => rfl

/-- The judgment with other labels in the schemes of its constraints, and nowhere else. -/
def Judgment.relabelSchemes (j : Judgment) : Judgment := { j with constraints := j.constraints.map (·.relabelScheme ρ) }

@[simp] theorem Judgment.relabelSchemes_id (j : Judgment) : j.relabelSchemes id = j := by
  simp [relabelSchemes]

end NixTyping
