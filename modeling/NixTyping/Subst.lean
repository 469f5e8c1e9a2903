import NixTyping.Ty.Printer
import NixTyping.VarSet
/-!
Substitutions: finite maps from type variables to types. Applying a substitution rebuilds overload sets, so that
alternatives which become overload sets or become equal are merged; the empty substitution leaves a type as it is.
-/

namespace NixTyping

section Keyed

variable {α : Type}

theorem mem_keys_insertKey {k x : Nat} {v : α} {m : List (Nat × α)} :
    x ∈ (insertKey k v m).map (·.1) ↔ x = k ∨ x ∈ m.map (·.1) := by
  induction m with
  | nil => simp [insertKey]
  | cons e m ih =>
    obtain ⟨k', v'⟩ := e
    simp only [insertKey]
    split
    · simp
    · split
      · next h => subst h; simp
      · simp only [List.map_cons, List.mem_cons, ih]; grind

theorem sortedKeys_insertKey {k : Nat} {v : α} {m : List (Nat × α)} (h : SortedKeys m) :
    SortedKeys (insertKey k v m) := by
  induction m with
  | nil => simp [insertKey, SortedKeys]
  | cons e m ih =>
    obtain ⟨k', v'⟩ := e
    have hh := List.pairwise_cons.1 h
    simp only [insertKey]
    split
    · next hk =>
      refine List.pairwise_cons.2 ⟨?_, h⟩
      intro x hx
      rcases List.mem_cons.1 hx with rfl | hx
      · exact hk
      · exact Nat.lt_trans hk (hh.1 x hx)
    · split
      · next hk => exact List.pairwise_cons.2 ⟨fun x hx => hk ▸ hh.1 x hx, hh.2⟩
      · next hk hne =>
        refine List.pairwise_cons.2 ⟨?_, ih hh.2⟩
        intro x hx
        have hx' : x.1 ∈ (insertKey k v m).map (·.1) := List.mem_map.2 ⟨x, hx, rfl⟩
        rcases mem_keys_insertKey.1 hx' with he | hm
        · show k' < x.1
          omega
        · obtain ⟨y, hy, hyx⟩ := List.mem_map.1 hm
          have := hh.1 y hy
          simp only at this ⊢
          omega

end Keyed

structure Subst where
  bindings : List (Nat × Ty)
  sorted : SortedKeys bindings
  deriving DecidableEq

namespace Subst

def empty : Subst := ⟨[], .nil⟩

instance : EmptyCollection Subst := ⟨empty⟩

instance : Inhabited Subst := ⟨empty⟩

def single (v : Nat) (t : Ty) : Subst := ⟨[(v, t)], List.pairwise_singleton _ _⟩

def get? (s : Subst) (v : Nat) : Option Ty := findKey v s.bindings

def isEmpty (s : Subst) : Bool := s.bindings.isEmpty

def size (s : Subst) : Nat := s.bindings.length

/-- The variables bound by the substitution. -/
def domain (s : Subst) : List Nat := s.bindings.map (·.1)

def insert (s : Subst) (v : Nat) (t : Ty) : Subst := ⟨insertKey v t s.bindings, sortedKeys_insertKey s.sorted⟩

/-- The substitution of a list of bindings; of two bindings of one variable the later stays. -/
def ofList (bs : List (Nat × Ty)) : Subst := bs.foldl (fun s (v, t) => s.insert v t) ∅

/-- Change every bound type. -/
def mapTypes (f : Ty → Ty) (s : Subst) : Subst :=
  ⟨s.bindings.map fun b => (b.1, f b.2), by simpa [SortedKeys, List.pairwise_map] using s.sorted⟩

/-- The same substitution without bindings for `vs`. -/
def without (s : Subst) (vs : List Nat) : Subst :=
  ⟨s.bindings.filter fun b => decide (b.1 ∉ vs), s.sorted.filter _⟩

end Subst

namespace Ty

mutual

/-- Replace variables everywhere and rebuild overload sets. -/
def replace (s : Subst) : Ty → Ty
  | .var v => (s.get? v).getD (.var v)
  | .prim p => .prim p
  | .list ts => .list (replaceAll s ts)
  | .fn p b => .fn (replace s p) (replace s b)
  | .record fs o => .record (replaceFields s fs) o
  | .overload ts => overloads (replaceAll s ts)

def replaceAll (s : Subst) : List Ty → List Ty
  | [] => []
  | t :: ts => replace s t :: replaceAll s ts

def replaceFields (s : Subst) : List (String × Ty) → List (String × Ty)
  | [] => []
  | (k, t) :: fs => (k, replace s t) :: replaceFields s fs

end

/-- Apply a substitution. The empty one changes nothing, not even an overload set that `overloads` would build
in another way. -/
def apply (s : Subst) (t : Ty) : Ty := if s.isEmpty then t else replace s t

end Ty

namespace Subst

/-- The substitution that applies `older` first and `s` after it: the types of `older` are changed by `s`, and
`s` keeps its own bindings for variables that `older` leaves alone. -/
def compose (s older : Subst) : Subst :=
  s.bindings.foldl (fun m (v, t) => if (older.get? v).isSome then m else m.insert v t) (older.mapTypes (·.apply s))

/-- The variables of the images of a set of variables. -/
def image (s : Subst) (vs : VarSet) : VarSet :=
  .ofList (vs.toList.flatMap fun v => ((Ty.var v).apply s).free.toList)

def text (s : Subst) : String :=
  bracketed "[" (s.bindings.map fun (v, t) => varName v ++ " := " ++ t.text) "]"

def debug (s : Subst) : String :=
  bracketed "Subst(\x7b" (s.bindings.map fun (v, t) => varDebug v ++ ": " ++ t.debug) "\x7d)"

end Subst

end NixTyping
