import Mathlib
import NixTyping.Proofs.SearchPath
import NixTyping.Proofs.VariableRenaming
/-!
# Constraints with other names for their variables

A search over constraints and one over the same constraints, with other names for their
variables, take out the next constraint at the same place, also where the second has one
constraint more that keeps apart from the others (`Constraint.Takes`). Instances of a
scheme and of its copy are the same up to a renaming that goes on from the one so far
(`Scheme.Copies.exists_renaming`).

Schemes are to be closed (`Constraint.Regular`), so that a renaming and a substitution
leave them alone.
-/

namespace NixTyping

open Function

/-! ## Constraints -/

theorem Scheme.apply_eq_self {σ : Scheme} (hσ : σ.ty.WellFormed) (hclosed : ∀ v, v ∉ σ.free) (s : Subst) :
    σ.apply s = σ := by
  have hty : σ.ty.apply (s.without σ.vars) = σ.ty := by
    rw [Ty.apply_eq_subst hσ]
    refine Ty.subst_eq_self hσ fun v hv => Subst.toFun_of_none ?_
    have hmem : v ∈ σ.vars := by
      by_contra hnot
      exact hclosed v (mem_free.2 ⟨hv, hnot⟩)
    rw [Subst.get?_without, if_pos hmem]
  rw [Scheme.apply, hty]

namespace Constraint

/-- Well formed, with a closed scheme if it has one. -/
def Regular : Constraint → Prop
  | .eq l r => l.WellFormed ∧ r.WellFormed
  | .explicit t σ => t.WellFormed ∧ σ.ty.WellFormed ∧ ∀ v, v ∉ σ.free
  | .implicit t _ b => t.WellFormed ∧ b.WellFormed

/-- A variable that a renaming of the constraint has to keep apart. -/
def Sees (c : Constraint) (v : Nat) : Prop := c.Mentions v ∨ v ∈ c.fixed

section Regular
variable {c : Constraint} {ρ τ : Nat → Nat} {s s' : Subst}

theorem Regular.wellFormed (h : c.Regular) : c.WellFormed := by
  cases c with
  | eq l r | implicit l _ r => exact h
  | explicit t σ => exact ⟨h.1, h.2.1⟩

theorem Regular.apply (h : c.Regular) (hs : s.WellFormed) : (c.apply s).Regular := by
  cases c with
  | eq l r | implicit l _ r => exact ⟨hs.apply h.1, hs.apply h.2⟩
  | explicit t σ =>
    rw [Constraint.apply, Scheme.apply_eq_self h.2.1 h.2.2]
    exact ⟨hs.apply h.1, h.2⟩

theorem Regular.rename (h : c.Regular) (ρ : Nat → Nat) : (c.rename ρ).Regular := by
  cases c with
  | eq l r | implicit l _ r => exact ⟨h.1.rename ρ, h.2.rename ρ⟩
  | explicit t σ => exact ⟨h.1.rename ρ, h.2⟩

theorem rename_congr (h : ∀ v, c.Sees v → ρ v = τ v) : c.rename ρ = c.rename τ := by
  cases c with
  | eq l r =>
    rw [Constraint.rename, Constraint.rename, Ty.rename_congr fun v hv => h v (.inl (.inl hv)),
      Ty.rename_congr fun v hv => h v (.inl (.inr hv))]
  | explicit t σ => rw [Constraint.rename, Constraint.rename, Ty.rename_congr fun v hv => h v (.inl (.inl hv))]
  | implicit t M b =>
    have hM : M.rename ρ = M.rename τ := by
      refine VarSet.ext fun w => ?_
      rw [VarSet.mem_rename, VarSet.mem_rename]
      refine exists_congr fun v => and_congr_right fun hv => ?_
      rw [h v (.inr hv)]
    rw [Constraint.rename, Constraint.rename, Ty.rename_congr fun v hv => h v (.inl (.inl hv)),
      Ty.rename_congr fun v hv => h v (.inl (.inr hv)), hM]

/-- A substitution of renamed variables does to the renamed constraint what the other does to the constraint. -/
theorem apply_rename (h : c.Regular) (hs : s.Renames ρ s') (hwf : s.WellFormed) :
    (c.rename ρ).apply s' = (c.apply s).rename ρ := by
  cases c with
  | eq l r => rw [Constraint.rename, Constraint.apply, hs.apply hwf h.1, hs.apply hwf h.2]; rfl
  | explicit t σ =>
    rw [Constraint.rename, Constraint.apply, hs.apply hwf h.1, Scheme.apply_eq_self h.2.1 h.2.2, Constraint.apply,
      Scheme.apply_eq_self h.2.1 h.2.2]
    rfl
  | implicit t M b =>
    have hM : s'.image (M.rename ρ) = (s.image M).rename ρ := by
      refine VarSet.ext fun w => ?_
      simp only [Subst.mem_image, VarSet.mem_rename]
      constructor
      · rintro ⟨_, ⟨v, hv, rfl⟩, hw⟩
        rw [hs.toFun, Ty.mem_free_rename] at hw
        obtain ⟨u, hu, rfl⟩ := hw
        exact ⟨u, ⟨v, hv, hu⟩, rfl⟩
      · rintro ⟨u, ⟨v, hv, hu⟩, rfl⟩
        refine ⟨ρ v, ⟨v, hv, rfl⟩, ?_⟩
        rw [hs.toFun, Ty.mem_free_rename]
        exact ⟨u, hu, rfl⟩
    rw [Constraint.rename, Constraint.apply, hs.apply hwf h.1, hs.apply hwf h.2, hM]
    rfl

theorem apply_eq_self (h : c.Regular) (hs : ∀ v, c.Sees v → s.toFun v = .var v) : c.apply s = c := by
  have hty : ∀ {t : Ty}, t.WellFormed → (∀ v ∈ t.free, c.Mentions v) → t.apply s = t := by
    intro t ht hfree
    rw [Ty.apply_eq_subst ht]
    exact Ty.subst_eq_self ht fun v hv => hs v (.inl (hfree v hv))
  cases c with
  | eq l r => rw [Constraint.apply, hty h.1 fun v => .inl, hty h.2 fun v => .inr]
  | explicit t σ => rw [Constraint.apply, hty h.1 fun v => .inl, Scheme.apply_eq_self h.2.1 h.2.2]
  | implicit t M b =>
    have hM : s.image M = M := by
      refine VarSet.ext fun v => ?_
      rw [Subst.mem_image]
      constructor
      · rintro ⟨w, hw, hv⟩
        rw [hs w (.inr hw), Ty.mem_free_var] at hv
        exact hv ▸ hw
      · intro hv
        exact ⟨v, hv, by rw [hs v (.inr hv), Ty.mem_free_var]⟩
    rw [Constraint.apply, hty h.1 fun v => .inl, hty h.2 fun v => .inr, hM]

theorem mentions_of_mem_active {v : Nat} (h : v ∈ c.active) : c.Mentions v := by
  cases c with
  | eq l r | explicit t σ => exact VarSet.mem_union.1 h
  | implicit t M b => exact (VarSet.mem_union.1 h).imp_right fun h => (VarSet.mem_inter.1 h).2

theorem Regular.sees_rename (hc : c.Regular) {w : Nat} (h : (c.rename ρ).Sees w) : ∃ v, c.Sees v ∧ ρ v = w := by
  have hty : ∀ {t : Ty}, (∀ v ∈ t.free, c.Mentions v) → w ∈ (t.rename ρ).free → ∃ v, c.Sees v ∧ ρ v = w := by
    intro t ht hw
    obtain ⟨v, hv, hvw⟩ := Ty.mem_free_rename.1 hw
    exact ⟨v, .inl (ht v hv), hvw⟩
  cases c with
  | eq l r =>
    rcases h with (h | h) | h
    · exact hty (fun v => .inl) h
    · exact hty (fun v => .inr) h
    · exact absurd h VarSet.mem_empty
  | explicit t σ =>
    rcases h with (h | h) | h
    · exact hty (fun v => .inl) h
    · exact absurd h (hc.2.2 w)
    · exact absurd h VarSet.mem_empty
  | implicit t M b =>
    rcases h with (h | h) | h
    · exact hty (fun v => .inl) h
    · exact hty (fun v => .inr) h
    · obtain ⟨v, hv, hvw⟩ := VarSet.mem_rename.1 h
      exact ⟨v, .inr hv, hvw⟩

theorem mem_active_rename (hρ : Injective ρ) (h : c.Regular) {w : Nat} :
    w ∈ (c.rename ρ).active ↔ ∃ v ∈ c.active, ρ v = w := by
  cases c with
  | eq l r =>
    simp only [Constraint.rename, active, VarSet.mem_union, Ty.mem_free_rename]
    grind
  | explicit t σ =>
    have hclosed := h.2.2
    simp only [Constraint.rename, active, VarSet.mem_union, Ty.mem_free_rename]
    grind
  | implicit t M b =>
    simp only [Constraint.rename, active, VarSet.mem_union, VarSet.mem_inter, Ty.mem_free_rename, VarSet.mem_rename]
    constructor
    · rintro (⟨v, hv, rfl⟩ | ⟨⟨v, hv, rfl⟩, u, hu, huv⟩)
      · exact ⟨v, .inl hv, rfl⟩
      · obtain rfl := hρ huv
        exact ⟨u, .inr ⟨hv, hu⟩, rfl⟩
    · rintro ⟨v, hv | ⟨hM, hb⟩, rfl⟩
      · exact .inl ⟨v, hv, rfl⟩
      · exact .inr ⟨⟨v, hM, rfl⟩, v, hb, rfl⟩

/-- What can be solved among some constraints can be solved among their renamings and others that have none of its
variables. -/
theorem solvable_rename (hρ : Injective ρ) {cs ds extra : List Constraint} (hcs : ∀ d ∈ cs, d.Regular)
    (hds : ∀ d, d ∈ ds ↔ d ∈ cs.map (·.rename ρ) ∨ d ∈ extra)
    (hextra : ∀ d ∈ extra, ∀ v, c.Mentions v → ρ v ∉ d.active) : (c.rename ρ).solvable ds = c.solvable cs := by
  cases c with
  | eq l r | explicit t σ => rfl
  | implicit t M b =>
    rw [Bool.eq_iff_iff]
    simp only [Constraint.rename, solvable, List.all_eq_true, decide_eq_true_eq, ← VarSet.mem_def, VarSet.mem_diff,
      Ty.mem_free_rename, VarSet.mem_rename]
    constructor
    · rintro h v ⟨hb, hM⟩ d hd hactive
      have hM' : ¬ ∃ u ∈ M, ρ u = ρ v := by
        rintro ⟨u, hu, huv⟩
        exact hM (hρ huv ▸ hu)
      exact h (ρ v) ⟨⟨v, hb, rfl⟩, hM'⟩ (d.rename ρ) ((hds _).2 (.inl (List.mem_map_of_mem hd)))
        ((mem_active_rename hρ (hcs d hd)).2 ⟨v, hactive, rfl⟩)
    · rintro h _ ⟨⟨v, hb, rfl⟩, hM⟩ d hd hactive
      rcases (hds d).1 hd with hd | hd
      · obtain ⟨e, he, rfl⟩ := List.mem_map.1 hd
        obtain ⟨u, hu, huv⟩ := (mem_active_rename hρ (hcs e he)).1 hactive
        obtain rfl := hρ huv
        exact h u ⟨hb, fun hv => hM ⟨u, hv, rfl⟩⟩ e he hu
      · exact hextra d hd v (.inr hb) hactive

end Regular

/-! ## Which constraint comes next -/

/-- Both searches take a constraint out of the same part of their lists, at the same place, or pass over the part. -/
theorem takeSolvableAfter_map {f : Constraint → Constraint} {before before' cs rest rest' : List Constraint}
    (h : ∀ front c back, cs = front ++ c :: back →
      (f c).solvable (before' ++ front.map f ++ back.map f ++ rest') = c.solvable (before ++ front ++ back ++ rest)) :
    (∃ front c back, cs = front ++ c :: back ∧
      takeSolvableAfter before (cs ++ rest) = some (c, before ++ front ++ back ++ rest) ∧
      takeSolvableAfter before' (cs.map f ++ rest') = some (f c, before' ++ front.map f ++ back.map f ++ rest')) ∨
    takeSolvableAfter before (cs ++ rest) = takeSolvableAfter (before ++ cs) rest ∧
      takeSolvableAfter before' (cs.map f ++ rest') = takeSolvableAfter (before' ++ cs.map f) rest' := by
  induction cs generalizing before before' with
  | nil => exact .inr ⟨by simp, by simp⟩
  | cons c cs ih =>
    have hhead := h [] c cs rfl
    simp only [List.map_nil, List.append_nil] at hhead
    by_cases hc : c.solvable (before ++ cs ++ rest) = true
    · refine .inl ⟨[], c, cs, rfl, ?_, ?_⟩
      · rw [List.cons_append, takeSolvableAfter, ← List.append_assoc, if_pos hc, List.append_nil]
      · rw [List.map_cons, List.cons_append, takeSolvableAfter, ← List.append_assoc, if_pos (hhead.trans hc),
          List.map_nil, List.append_nil]
    · have hrest := @ih (before ++ [c]) (before' ++ [f c]) fun front d back hsplit => by
        have hlater := h (c :: front) d back (by rw [hsplit, List.cons_append])
        simpa using hlater
      have hleft : takeSolvableAfter before (c :: cs ++ rest) = takeSolvableAfter (before ++ [c]) (cs ++ rest) := by
        rw [List.cons_append, takeSolvableAfter, ← List.append_assoc, if_neg hc]
      have hright : takeSolvableAfter before' ((c :: cs).map f ++ rest') =
          takeSolvableAfter (before' ++ [f c]) (cs.map f ++ rest') := by
        rw [List.map_cons, List.cons_append, takeSolvableAfter, ← List.append_assoc, if_neg (by rwa [hhead])]
      rw [hleft, hright]
      rcases hrest with ⟨front, d, back, hsplit, htake, htake'⟩ | ⟨hskip, hskip'⟩
      · exact .inl ⟨c :: front, d, back, by rw [hsplit, List.cons_append], by simp [htake], by simp [htake']⟩
      · exact .inr ⟨by simp [hskip], by simp [hskip']⟩

/-- What two searches take out next, where one has a constraint that the other has not. -/
inductive Takes (f : Constraint → Constraint) (L R extra : List Constraint) : Prop where
  | both {c : Constraint} (L₁ R₁ : List Constraint) (mem : ∀ d, d ∈ L ++ R ↔ d = c ∨ d ∈ L₁ ++ R₁)
    (left : takeSolvable (L ++ R) = some (c, L₁ ++ R₁))
    (right : takeSolvable (L.map f ++ extra ++ R.map f) = some (f c, L₁.map f ++ extra ++ R₁.map f))
  | extra {e : Constraint} (eq : extra = [e]) (solvable : e.solvable ((L ++ R).map f) = true)
    (right : takeSolvable (L.map f ++ extra ++ R.map f) = some (e, (L ++ R).map f))
  | stuck (left : takeSolvable (L ++ R) = none) (right : takeSolvable (L.map f ++ extra ++ R.map f) = none)

theorem takes_of_solvable {f : Constraint → Constraint} {L R extra : List Constraint} (hextra : extra.length ≤ 1)
    (h : ∀ front c back, L ++ R = front ++ c :: back → ∀ ds : List Constraint,
      (∀ d, d ∈ ds ↔ d ∈ (front ++ back).map f ∨ d ∈ extra) → (f c).solvable ds = c.solvable (front ++ back)) :
    Takes f L R extra := by
  have hleft : ∀ front c back, L = front ++ c :: back →
      (f c).solvable ([] ++ front.map f ++ back.map f ++ (extra ++ R.map f)) =
        c.solvable ([] ++ front ++ back ++ R) := by
    intro front c back hsplit
    have hc := h front c (back ++ R) (by rw [hsplit, List.append_assoc, List.cons_append])
      ([] ++ front.map f ++ back.map f ++ (extra ++ R.map f)) fun d => by
        simp only [List.map_append, List.mem_append, List.nil_append]
        tauto
    simpa using hc
  have hright : ∀ front c back, R = front ++ c :: back →
      (f c).solvable (L.map f ++ extra ++ front.map f ++ back.map f ++ []) = c.solvable (L ++ front ++ back ++ []) := by
    intro front c back hsplit
    have hc := h (L ++ front) c back (by rw [hsplit, List.append_assoc])
      (L.map f ++ extra ++ front.map f ++ back.map f ++ []) fun d => by
        simp only [List.map_append, List.mem_append, List.append_nil]
        tauto
    simpa using hc
  have hsame : takeSolvable (L.map f ++ extra ++ R.map f) = takeSolvableAfter [] (L.map f ++ (extra ++ R.map f)) := by
    rw [takeSolvable, List.append_assoc]
  rcases takeSolvableAfter_map hleft with ⟨front, c, back, rfl, htake, htake'⟩ | ⟨hskip, hskip'⟩
  · refine .both (c := c) (front ++ back) R (fun d => ?_) ?_ ?_
    · simp only [List.mem_append, List.mem_cons]
      tauto
    · rw [takeSolvable, htake]
      simp
    · rw [hsame, htake']
      simp
  rw [List.nil_append] at hskip hskip'
  have hpass : takeSolvableAfter (L.map f) (extra ++ R.map f) = takeSolvableAfter (L.map f ++ extra) (R.map f) →
      Takes f L R extra := by
    intro hpass
    rcases takeSolvableAfter_map hright with ⟨front, c, back, rfl, htake, htake'⟩ | ⟨hskip₂, hskip₂'⟩
    · refine .both (c := c) L (front ++ back) (fun d => ?_) ?_ ?_
      · simp only [List.mem_append, List.mem_cons]
        tauto
      · rw [takeSolvable, hskip]
        simpa using htake
      · rw [hsame, hskip', hpass]
        simpa using htake'
    · refine .stuck ?_ ?_
      · rw [takeSolvable, hskip]
        simpa [takeSolvableAfter] using hskip₂
      · rw [hsame, hskip', hpass]
        simpa [takeSolvableAfter] using hskip₂'
  cases extra with
  | nil => exact hpass (by simp)
  | cons e more =>
    obtain rfl : more = [] := by simpa using hextra
    by_cases he : e.solvable (L.map f ++ R.map f) = true
    · refine .extra rfl (by rwa [List.map_append]) ?_
      rw [hsame, hskip', List.singleton_append, takeSolvableAfter, if_pos he, List.map_append]
    · refine hpass ?_
      rw [List.singleton_append, takeSolvableAfter, if_neg he]

end Constraint

theorem Ty.substs_unify_var {v : Nat} {t : Ty} (hv : v ∉ t.free) : ((Ty.var v).unify t).substs = [.single v t] := by
  have hne : Ty.var v ≠ t := by
    rintro rfl
    exact hv (Ty.mem_free_var.2 rfl)
  have hbind : bindVar v t = .ok (.single v t) := by
    rw [bindVar, if_neg (Ne.symm hne), if_neg fun ho => hv (Ty.occurs_iff.1 ho)]
  rw [Ty.unify_var_left hne, hbind]
  rfl

/-! ## Instances of a scheme and of its copy -/

/-- A renaming of old variables can be given values on new ones. -/
theorem exists_extension {ρ : Nat → Nat} (hρ : Injective ρ) (Z : Nat → Prop) (a a' : Nat → Nat) {k k' bound : Nat}
    (ha : ∀ v, Z v → k ≤ a v) (ha' : ∀ v, Z v → k' ≤ a' v ∧ a' v < bound) (hinj : ∀ v w, Z v → Z w → a v = a w → v = w)
    (hinj' : ∀ v w, Z v → Z w → a' v = a' w → v = w) :
    ∃ ρ' : Nat → Nat, Injective ρ' ∧ (∀ v, v < k → ρ v < k' → ρ' v = ρ v) ∧ ∀ v, Z v → ρ' (a v) = a' v := by
  classical
  -- what is neither old nor given a value goes out of the way
  let ρ' : Nat → Nat := fun w =>
    if w < k ∧ ρ w < k' then ρ w else if h : ∃ v, Z v ∧ a v = w then a' h.choose else w + (k' + bound)
  have hold : ∀ w, w < k → ρ w < k' → ρ' w = ρ w := fun w hw hw' => if_pos ⟨hw, hw'⟩
  have hnew : ∀ v, Z v → ρ' (a v) = a' v := by
    intro v hv
    have hex : ∃ u, Z u ∧ a u = a v := ⟨v, hv, rfl⟩
    have hak := ha v hv
    have hchosen : hex.choose = v := hinj _ _ hex.choose_spec.1 hv hex.choose_spec.2
    simp only [ρ', if_neg (show ¬ (a v < k ∧ ρ (a v) < k') by omega), dif_pos hex, hchosen]
  have hrest : ∀ w, ¬ (w < k ∧ ρ w < k') → (¬ ∃ v, Z v ∧ a v = w) → ρ' w = w + (k' + bound) := by
    intro w hw hex
    simp only [ρ', if_neg hw, dif_neg hex]
  refine ⟨ρ', fun w u hwu => ?_, hold, hnew⟩
  have hcases : ∀ w, (w < k ∧ ρ w < k' ∧ ρ' w = ρ w) ∨ (∃ v, Z v ∧ a v = w ∧ ρ' w = a' v) ∨
      ρ' w = w + (k' + bound) := by
    intro w
    by_cases hw : w < k ∧ ρ w < k'
    · exact .inl ⟨hw.1, hw.2, hold w hw.1 hw.2⟩
    · by_cases hex : ∃ v, Z v ∧ a v = w
      · obtain ⟨v, hv, rfl⟩ := hex
        exact .inr (.inl ⟨v, hv, rfl, hnew v hv⟩)
      · exact .inr (.inr (hrest w hw hex))
  rcases hcases w with ⟨-, hw, hw'⟩ | ⟨v, hv, rfl, hw'⟩ | hw' <;>
    rcases hcases u with ⟨-, hu, hu'⟩ | ⟨z, hz, rfl, hu'⟩ | hu'
  · exact hρ (by omega)
  · have := ha' z hz; omega
  · omega
  · have := ha' v hv; omega
  · rw [hinj' v z hv hz (by omega)]
  · have := ha' v hv; omega
  · omega
  · have := ha' z hz; omega
  · omega

namespace Scheme

/-- The variables of an instance are numbered apart. -/
theorem exists_numbers (σ : Scheme) (next : Nat) :
    ∃ a : Nat → Nat,
      (∀ v ∈ σ.vars, (σ.freshening next).toFun v = .var (a v) ∧ next ≤ a v ∧ a v < next + σ.vars.length) ∧
      ∀ v w, v ∈ σ.vars → w ∈ σ.vars → a v = a w → v = w := by
  have hplace : ∀ v, ∃ i, v ∈ σ.vars → σ.vars[i]? = some v ∧ (σ.freshening next).get? v = some (.var (next + i)) := by
    intro v
    by_cases hv : v ∈ σ.vars
    · obtain ⟨i, hi⟩ := get?_freshening_of_mem next hv
      exact ⟨i, fun _ => hi⟩
    · exact ⟨0, fun h => absurd h hv⟩
  choose place hplace using hplace
  refine ⟨fun v => next + place v, fun v hv => ⟨Subst.toFun_of_some (hplace v hv).2, Nat.le_add_right _ _, ?_⟩,
    fun v w hv hw h => ?_⟩
  · exact Nat.add_lt_add_left (List.getElem?_eq_some_iff.1 (hplace v hv).1).1 next
  · have hv' := (hplace v hv).1
    rw [Nat.add_left_cancel h, (hplace w hw).1] at hv'
    exact (Option.some.inj hv').symm

/-- The scheme is another with its variables renamed, quantified and free alike. -/
structure Copies (θ : Nat → Nat) (σ σ' : Scheme) : Prop where
  injective : Injective θ
  ty : σ'.ty = σ.ty.rename θ
  vars : ∀ v ∈ σ.ty.free, θ v ∈ σ'.vars ↔ v ∈ σ.vars

section Copies
variable {θ ρ : Nat → Nat} {σ σ' : Scheme}

theorem copies_self {σ : Scheme} (hσ : σ.ty.WellFormed) : Copies id σ σ :=
  ⟨injective_id, (Ty.rename_eq_self hσ fun _ _ => rfl).symm, fun _ _ => Iff.rfl⟩

theorem copies_generalize (hρ : Injective ρ) (M : VarSet) (b : Ty) :
    Copies ρ (generalize M b) (generalize (M.rename ρ) (b.rename ρ)) where
  injective := hρ
  ty := rfl
  vars v hv := by
    simp only [mem_vars_generalize, Ty.mem_free_rename, VarSet.mem_rename, not_exists, not_and]
    constructor
    · rintro ⟨-, hM⟩
      exact ⟨hv, fun hmem => hM v hmem rfl⟩
    · rintro ⟨-, hM⟩
      exact ⟨⟨v, hv, rfl⟩, fun u hu huv => hM (hρ huv ▸ hu)⟩

theorem Copies.mem_free (h : Copies θ σ σ') {w : Nat} : w ∈ σ'.free ↔ ∃ v ∈ σ.free, θ v = w := by
  rw [Scheme.mem_free, h.ty, Ty.mem_free_rename]
  constructor
  · rintro ⟨⟨v, hv, rfl⟩, hnot⟩
    exact ⟨v, Scheme.mem_free.2 ⟨hv, fun hmem => hnot ((h.vars v hv).2 hmem)⟩, rfl⟩
  · rintro ⟨v, hv, rfl⟩
    obtain ⟨hv, hnot⟩ := Scheme.mem_free.1 hv
    exact ⟨⟨v, hv, rfl⟩, fun hmem => hnot ((h.vars v hv).1 hmem)⟩

/-- Instances of a scheme and of its copy are the same, up to a renaming that goes on from the one so far. -/
theorem Copies.exists_renaming (h : Copies θ σ σ') (hσ : σ.ty.WellFormed) (hρ : Injective ρ) {k k' j j' : Nat}
    (hj : k ≤ j) (hj' : k' ≤ j') (hfree : ∀ v ∈ σ.free, v < k ∧ ρ v < k' ∧ θ v = ρ v) :
    ∃ ρ', Injective ρ' ∧ (∀ v, v < k → ρ v < k' → ρ' v = ρ v) ∧
      σ'.ty.apply (σ'.freshening j') = (σ.ty.apply (σ.freshening j)).rename ρ' := by
  obtain ⟨a, ha, hinj⟩ := σ.exists_numbers j
  obtain ⟨a', ha', hinj'⟩ := σ'.exists_numbers j'
  have hZ : ∀ v, v ∈ σ.ty.free ∧ v ∈ σ.vars → θ v ∈ σ'.vars := fun v hv => (h.vars v hv.1).2 hv.2
  obtain ⟨ρ', hρ', hold, hnew⟩ := exists_extension hρ (fun v => v ∈ σ.ty.free ∧ v ∈ σ.vars) a (fun v => a' (θ v))
    (fun v hv => hj.trans (ha v hv.2).2.1)
    (fun v hv => ⟨hj'.trans (ha' _ (hZ v hv)).2.1, (ha' _ (hZ v hv)).2.2⟩) (fun v w hv hw => hinj v w hv.2 hw.2)
    fun v w hv hw hvw => h.injective (hinj' _ _ (hZ v hv) (hZ w hw) hvw)
  refine ⟨ρ', hρ', hold, ?_⟩
  have hwf : (σ.freshening j).WellFormed := σ.all_freshening j
  have hwf' : (σ'.freshening j').WellFormed := σ'.all_freshening j'
  rw [h.ty, Ty.apply_eq_subst (hσ.rename θ), hσ.rename_subst fun v => hwf'.toFun _, Ty.apply_eq_subst hσ,
    hσ.subst_rename fun v _ => hwf.toFun v]
  refine Ty.subst_congr fun v hv => ?_
  by_cases hmem : v ∈ σ.vars
  · rw [(ha v hmem).1, (ha' _ (hZ v ⟨hv, hmem⟩)).1, Ty.rename_var, hnew v ⟨hv, hmem⟩]
  · obtain ⟨hk, hk', hθ⟩ := hfree v (Scheme.mem_free.2 ⟨hv, hmem⟩)
    have hmem' : θ v ∉ σ'.vars := fun h' => hmem ((h.vars v hv).1 h')
    rw [Subst.toFun_of_none (get?_freshening_of_not_mem hmem), Subst.toFun_of_none (get?_freshening_of_not_mem hmem'),
      Ty.rename_var, hold v hk hk', hθ]

end Copies

/-- All variables of an instance of a type that is quantified as a whole are fresh. -/
theorem fresh_of_mem_instance {t : Ty} {next v : Nat} (hv : v ∈ (t.apply ((generalize ∅ t).freshening next)).free) :
    next ≤ v ∧ v < next + (generalize ∅ t).vars.length := by
  rcases free_instance (σ := generalize ∅ t) hv with hfree | hrange
  · exact absurd (mem_free_generalize.1 hfree).2 VarSet.mem_empty
  · exact hrange

/-- Other names for the variables of a type, no two of them the same, do not show in its closed scheme. -/
theorem closeOver_apply {t : Ty} (ht : t.WellFormed) {r : Subst} {a : Nat → Nat}
    (hr : ∀ v ∈ t.free, r.toFun v = .var (a v)) (hinj : ∀ v w, v ∈ t.free → w ∈ t.free → a v = a w → v = w) :
    closeOver (t.apply r) = closeOver t := by
  have hbound : ∀ v ∈ t.free, a v < t.free.toList.toFinset.sup a + 1 := fun v hv =>
    Nat.lt_succ_of_le (Finset.le_sup (f := a) (List.mem_toFinset.2 hv))
  obtain ⟨τ, hτ, -, hnew⟩ := exists_extension injective_id (fun v => v ∈ t.free) id a (fun v _ => Nat.zero_le v)
    (fun v hv => ⟨Nat.zero_le _, hbound v hv⟩) (fun _ _ _ _ h => h) hinj
  have hrename : t.apply r = t.rename τ := by
    rw [Ty.apply_eq_subst ht]
    exact Ty.subst_congr fun v hv => (hr v hv).trans (congrArg Ty.var (hnew v hv).symm)
  rw [hrename, closeOver_rename hτ ht]

/-- An instance of a type that is quantified as a whole is the type with other names. -/
theorem closeOver_instance {t : Ty} (ht : t.WellFormed) (next : Nat) :
    closeOver (t.apply ((generalize ∅ t).freshening next)) = closeOver t := by
  have hvars : ∀ v ∈ t.free, v ∈ (generalize ∅ t).vars := fun v hv => mem_vars_generalize.2 ⟨hv, VarSet.mem_empty⟩
  obtain ⟨a, ha, hinj⟩ := (generalize ∅ t).exists_numbers next
  exact closeOver_apply ht (fun v hv => (ha v (hvars v hv)).1) fun v w hv hw => hinj v w (hvars v hv) (hvars w hw)

end Scheme

end NixTyping
