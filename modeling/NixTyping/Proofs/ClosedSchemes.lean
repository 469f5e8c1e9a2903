import Mathlib
import NixTyping.Proofs.ConstraintRenaming
/-!
# Closed schemes are canonical

Closing a type over its variables numbers them 0, 1, 2, .. as they first appear. Types
that differ in the names of their variables only get the same scheme, and no others do
(`closed_schemes_canonical`), so schemes that were found apart can be compared as they are.
-/

namespace NixTyping

/-! ## Renamings as substitutions -/

namespace Subst

/-- The substitution gives the variables of a set other names, no two of them the same. -/
structure RenamesApart (r : Subst) (vs : VarSet) : Prop where
  toVar : ∀ v ∈ vs, ∃ w, r.toFun v = .var w
  apart : ∀ v ∈ vs, ∀ w ∈ vs, r.toFun v = r.toFun w → v = w

/-- The substitution that renames the variables of a set. -/
def ofRenaming (ρ : Nat → Nat) (vs : VarSet) : Subst := .tabulate (fun v => .var (ρ v)) vs.toList

section OfRenaming
variable {ρ : Nat → Nat} {vs : VarSet}

theorem toFun_ofRenaming {v : Nat} (hv : v ∈ vs) : (ofRenaming ρ vs).toFun v = .var (ρ v) :=
  toFun_of_some ((get?_tabulate _ _ v).trans (if_pos hv))

theorem renamesApart_ofRenaming (hinj : ∀ v ∈ vs, ∀ w ∈ vs, ρ v = ρ w → v = w) : (ofRenaming ρ vs).RenamesApart vs := by
  refine ⟨fun v hv => ⟨ρ v, toFun_ofRenaming hv⟩, fun v hv w hw h => hinj v hv w hw ?_⟩
  rw [toFun_ofRenaming hv, toFun_ofRenaming hw] at h
  exact Ty.var.inj h

end OfRenaming

end Subst

theorem Ty.apply_ofRenaming {t : Ty} (ht : t.WellFormed) (ρ : Nat → Nat) :
    t.apply (.ofRenaming ρ t.free) = t.rename ρ := by
  rw [apply_eq_subst ht]
  exact subst_congr fun v hv => Subst.toFun_ofRenaming hv

/-! ## The order of variables -/

/-- Both lists hold each variable of the type once. -/
theorem Ty.length_varsInOrder (t : Ty) : t.varsInOrder.length = t.free.toList.length := by
  refine ((List.perm_ext_iff_of_nodup t.nodup_varsInOrder (t.free.sorted.imp Nat.ne_of_lt)).2 fun v => ?_).length_eq
  exact Ty.mem_varsInOrder

/-- The variables of an order get their places in it. -/
theorem map_rank {order : List Nat} (h : order.Nodup) : order.map (rank order) = List.range order.length := by
  refine List.ext_getElem (by simp) fun i hi _ => ?_
  rw [List.length_map] at hi
  rw [List.getElem_map, List.getElem_range]
  have hsome : order[i]? = some order[i] := List.getElem?_eq_getElem hi
  rcases rank_cases order order[i] with ⟨hget, -⟩ | ⟨hnot, -⟩
  · exact ((List.getElem?_inj hi h).1 (hsome.trans hget.symm)).symm
  · exact absurd (List.getElem_mem hi) hnot

namespace Scheme
variable {t u : Ty}

/-- The body of a closed scheme mentions the quantified variables, in their order. -/
theorem varsInOrder_closeOver (ht : t.WellFormed) : (closeOver t).ty.varsInOrder = (closeOver t).vars := by
  rw [closeOver_ty ht, Ty.varsInOrder_rename (rank_injective _) ht, map_rank t.nodup_varsInOrder, vars_closeOver]

theorem mem_free_closeOver (ht : t.WellFormed) {v : Nat} : v ∈ (closeOver t).ty.free ↔ v ∈ (closeOver t).vars := by
  rw [← Ty.mem_varsInOrder, varsInOrder_closeOver ht]

theorem normalize_closeOver (ht : t.WellFormed) : (closeOver t).normalize = .ok (closeOver t) := by
  have hagain : closeOver (closeOver t).ty = closeOver t := by
    rw [closeOver_ty ht, closeOver_rename (rank_injective _) ht]
  rw [normalize_of_forall_mem fun v => (mem_free_closeOver ht).1, ← closeOver_eq, hagain]

/-! ## The same closed scheme -/

/-- The renaming that closing a type amounts to. -/
theorem exists_closing (ht : t.WellFormed) :
    ∃ r : Subst, r.RenamesApart t.free ∧ (closeOver t).ty = t.apply r ∧
      t.varsInOrder.map r.toFun = (closeOver t).vars.map .var := by
  refine ⟨.ofRenaming (rank t.varsInOrder) t.free, ?_, ?_, ?_⟩
  · exact Subst.renamesApart_ofRenaming fun v _ w _ h => rank_injective t.varsInOrder h
  · rw [Ty.apply_ofRenaming ht, closeOver_ty ht]
  · rw [vars_closeOver, ← map_rank t.nodup_varsInOrder, List.map_map]
    exact List.map_congr_left fun v hv => Subst.toFun_ofRenaming (Ty.mem_varsInOrder.1 hv)

theorem closeOver_of_renamesApart (ht : t.WellFormed) {r : Subst} (hr : r.RenamesApart t.free) :
    closeOver (t.apply r) = closeOver t := by
  have hvar : ∀ v, ∃ w, v ∈ t.free → r.toFun v = .var w := by
    intro v
    by_cases hv : v ∈ t.free
    · exact (hr.toVar v hv).imp fun w hw _ => hw
    · exact ⟨0, fun h => absurd h hv⟩
  choose a ha using hvar
  refine closeOver_apply ht ha fun v w hv hw hvw => hr.apart v hv w hw ?_
  rw [ha v hv, ha w hw, hvw]

/-- Types with the same closed scheme: the second is the first with its variables numbered and then named as the second
names them. -/
theorem exists_renamesApart (ht : t.WellFormed) (hu : u.WellFormed) (h : closeOver t = closeOver u) :
    ∃ r : Subst, r.RenamesApart t.free ∧ u = t.apply r := by
  have hty : t.rename (rank t.varsInOrder) = u.rename (rank u.varsInOrder) := by
    rw [← closeOver_ty ht, ← closeOver_ty hu, h]
  obtain ⟨name, hname⟩ := (rank_injective u.varsInOrder).hasLeftInverse
  -- a number that a variable of the first gets is one that a variable of the second gets
  have hrank : ∀ v ∈ t.free, rank u.varsInOrder (name (rank t.varsInOrder v)) = rank t.varsInOrder v := by
    intro v hv
    have hv' : rank t.varsInOrder v ∈ (u.rename (rank u.varsInOrder)).free := hty ▸ Ty.mem_free_rename.2 ⟨v, hv, rfl⟩
    obtain ⟨w, -, hw⟩ := Ty.mem_free_rename.1 hv'
    rw [← hw, hname w]
  have hrename : u = t.rename fun v => name (rank t.varsInOrder v) := by
    rw [← Ty.rename_rename ht, hty, Ty.rename_rename hu]
    exact (Ty.rename_eq_self hu fun v _ => hname v).symm
  refine ⟨.ofRenaming (fun v => name (rank t.varsInOrder v)) t.free, ?_, hrename.trans (Ty.apply_ofRenaming ht _).symm⟩
  refine Subst.renamesApart_ofRenaming fun v hv w hw hvw => rank_injective t.varsInOrder ?_
  rw [← hrank v hv, hvw, hrank w hw]

end Scheme

/-- Two types have the same closed scheme iff one is the other with other names for its variables. The scheme quantifies
0, 1, 2, .. for the variables of the type as they first appear, its body mentions just these, and it is normal. -/
theorem closed_schemes_canonical {t u : Ty} (ht : t.WellFormed) (hu : u.WellFormed) :
    (Scheme.closeOver t = Scheme.closeOver u ↔ ∃ r : Subst, r.RenamesApart t.free ∧ u = t.apply r) ∧
    (Scheme.closeOver t).vars = List.range t.free.toList.length ∧
    (∃ r : Subst, r.RenamesApart t.free ∧ (Scheme.closeOver t).ty = t.apply r ∧
      t.varsInOrder.map r.toFun = (Scheme.closeOver t).vars.map .var) ∧
    (Scheme.closeOver t).ty.varsInOrder = (Scheme.closeOver t).vars ∧
    (∀ v, v ∈ (Scheme.closeOver t).ty.free ↔ v ∈ (Scheme.closeOver t).vars) ∧
    (Scheme.closeOver t).normalize = .ok (Scheme.closeOver t) := by
  refine ⟨⟨Scheme.exists_renamesApart ht hu, ?_⟩, ?_, Scheme.exists_closing ht, Scheme.varsInOrder_closeOver ht,
    fun v => Scheme.mem_free_closeOver ht, Scheme.normalize_closeOver ht⟩
  · rintro ⟨r, hr, rfl⟩
    exact (Scheme.closeOver_of_renamesApart ht hr).symm
  · rw [Scheme.vars_closeOver, Ty.length_varsInOrder]

/-- The renaming exchanges two numbers. -/
theorem closed_schemes_canonical_exchanged :
    let t : Ty := .fn (.overload [.var 1, .list [.var 0]]) (.record [("key", .var 1), ("of", .var 0)] true)
    let u : Ty := .fn (.overload [.var 0, .list [.var 1]]) (.record [("key", .var 0), ("of", .var 1)] true)
    let r : Subst := .ofRenaming (1 - ·) t.free
    t.WellFormed ∧ u.WellFormed ∧ r.RenamesApart t.free ∧ u = t.apply r ∧ Scheme.closeOver t = Scheme.closeOver u ∧
      (Scheme.closeOver t).vars = [0, 1] ∧ (Scheme.closeOver t).normalize = .ok (Scheme.closeOver t) := by
  intro t u r
  have ht : t.WellFormed := by simp [t, Ty.Single]
  have hu : u.WellFormed := by simp [u, Ty.Single]
  have hfree : t.free = .ofList [0, 1] := by decide
  have hr : r.RenamesApart t.free := by
    refine Subst.renamesApart_ofRenaming ?_
    rw [hfree]
    decide
  have happly : u = t.apply r := by decide
  obtain ⟨hcanon, hvars, -, -, -, hnormal⟩ := closed_schemes_canonical ht hu
  exact ⟨ht, hu, hr, happly, hcanon.2 ⟨r, hr, happly⟩, hvars, hnormal⟩

end NixTyping
