import NixTyping.Proofs.UnifierAnswers
/-!
# Unification of uniform types

On uniform types, those without records and overload sets in which all lists have
the same number of elements, the unifier does not branch: it has no answer when
nothing unifies the two sides, and otherwise one answer, which is most general
(`Ty.unify_uniform`). Unifiers are taken to be arbitrary functions from
variables to types. Plain types are the case of one element (`Ty.unify_exact`).
-/

namespace NixTyping

/-- The function makes the two lists equal. -/
def Solves (θ : Nat → Ty) (ls rs : List Ty) : Prop := ls.map (Ty.subst θ) = rs.map (Ty.subst θ)

/-- The function is an instance of the substitution. -/
def FactorsThrough (θ : Nat → Ty) (s : Subst) : Prop := ∀ v, (s.toFun v).subst θ = θ v

/-- No answer and no unifier, or one answer that every unifier is an instance of. -/
def Exact (ls rs : List Ty) (ss : List Subst) : Prop :=
  (ss = [] ∧ ∀ θ, ¬ Solves θ ls rs) ∨ ∃ s, ss = [s] ∧ ∀ θ, Solves θ ls rs → FactorsThrough θ s

theorem solves_cons {θ : Nat → Ty} {l r : Ty} {ls rs : List Ty} :
    Solves θ (l :: ls) (r :: rs) ↔ l.subst θ = r.subst θ ∧ Solves θ ls rs := by
  simp [Solves]

theorem solves_singleton {θ : Nat → Ty} {l r : Ty} : Solves θ [l] [r] ↔ l.subst θ = r.subst θ := by
  simp [Solves]

theorem exact_congr {ls rs ls' rs' : List Ty} {ss : List Subst} (h : Exact ls rs ss)
    (hiff : ∀ θ, Solves θ ls' rs' ↔ Solves θ ls rs) : Exact ls' rs' ss := by
  rcases h with ⟨rfl, hnone⟩ | ⟨s, rfl, hs⟩
  · exact .inl ⟨rfl, fun θ hθ => hnone θ ((hiff θ).1 hθ)⟩
  · exact .inr ⟨s, rfl, fun θ hθ => hs θ ((hiff θ).1 hθ)⟩

theorem exact_fail {ls rs : List Ty} (e : TypeError) (h : ∀ θ, ¬ Solves θ ls rs) :
    Exact ls rs (Branches.fail e).substs := .inl ⟨rfl, h⟩

theorem factorsThrough_empty (θ : Nat → Ty) : FactorsThrough θ ∅ := fun _ => rfl

theorem exact_one (ls rs : List Ty) : Exact ls rs (Branches.one ∅).substs :=
  .inr ⟨∅, rfl, fun θ _ => factorsThrough_empty θ⟩

/-! ## Binding a variable -/

theorem size_le_of_mem_free {m : Nat} {θ : Nat → Ty} {t : Ty} {v : Nat} (ht : t.Uniform m) (hv : v ∈ t.free) :
    (θ v).size ≤ (t.subst θ).size := by
  induction ht with
  | var w =>
    rw [Ty.mem_free_var.1 hv]
    exact Nat.le_refl _
  | prim p => exact absurd hv Ty.mem_free_prim
  | fn _ _ ihp ihb =>
    simp only [Ty.subst_fn, Ty.size]
    rcases Ty.mem_free_fn.1 hv with hv | hv
    · have := ihp hv
      omega
    · have := ihb hv
      omega
  | @list ts _ _ ih =>
    obtain ⟨u, hu, hv⟩ := Ty.mem_free_list.1 hv
    have hle : (θ v).size ≤ (u.subst θ).size := ih u hu hv
    have := size_le_sizeAll (List.mem_map_of_mem (f := Ty.subst θ) hu)
    simp only [Ty.subst_list, Ty.size]
    omega

/-- No substitution makes a variable equal to a larger type that mentions it. -/
theorem size_lt_of_mem_free {m : Nat} {θ : Nat → Ty} {t : Ty} {v : Nat} (ht : t.Uniform m) (hv : v ∈ t.free)
    (hne : t ≠ .var v) : (θ v).size < (t.subst θ).size := by
  cases ht with
  | var w => exact absurd (Ty.mem_free_var.1 hv ▸ rfl) hne
  | prim p => exact absurd hv Ty.mem_free_prim
  | fn hp hb =>
    simp only [Ty.subst_fn, Ty.size]
    rcases Ty.mem_free_fn.1 hv with hv | hv
    · have : (θ v).size ≤ _ := size_le_of_mem_free hp hv
      omega
    · have : (θ v).size ≤ _ := size_le_of_mem_free hb hv
      omega
  | @list ts _ parts =>
    obtain ⟨u, hu, hv⟩ := Ty.mem_free_list.1 hv
    have hle : (θ v).size ≤ (u.subst θ).size := size_le_of_mem_free (parts u hu) hv
    have := size_le_sizeAll (List.mem_map_of_mem (f := Ty.subst θ) hu)
    simp only [Ty.subst_list, Ty.size]
    omega

theorem exact_bindVar {m v : Nat} {t : Ty} (ht : t.Uniform m) (hne : t ≠ .var v) :
    Exact [.var v] [t] (Branches.ofExcept (bindVar v t)).substs := by
  rw [bindVar, if_neg hne]
  split
  · next ho =>
    refine exact_fail _ fun θ hθ => ?_
    -- both sides would have the same size
    have hlt : (θ v).size < (t.subst θ).size := size_lt_of_mem_free ht (Ty.occurs_iff.1 ho) hne
    rw [← solves_singleton.1 hθ, Ty.subst_var] at hlt
    exact Nat.lt_irrefl _ hlt
  · refine .inr ⟨.single v t, rfl, fun θ hθ w => ?_⟩
    have heq : θ v = t.subst θ := solves_singleton.1 hθ
    by_cases hw : w = v
    · rw [hw, Subst.toFun_single, heq]
    · rw [Subst.toFun_of_none (by rw [Subst.get?_single, if_neg hw]), Ty.subst_var]

/-! ## Unifying pair by pair -/

theorem FactorsThrough.subst {m : Nat} {θ : Nat → Ty} {s : Subst} (h : FactorsThrough θ s) {t : Ty} (ht : t.Uniform m) :
    (t.apply s).subst θ = t.subst θ := by
  rw [Ty.apply_eq_subst ht.wellFormed, ht.subst_subst]
  exact Ty.subst_congr fun v _ => h v

theorem FactorsThrough.compose {m : Nat} {θ : Nat → Ty} {s s' : Subst} (hs : s.Uniform m) (h : FactorsThrough θ s)
    (h' : FactorsThrough θ s') : FactorsThrough θ (s'.compose s) := by
  intro v
  rw [Subst.toFun_compose, h'.subst (hs.toFun v), h v]

theorem FactorsThrough.solves {m : Nat} {θ : Nat → Ty} {s : Subst} (h : FactorsThrough θ s) {ls rs : List Ty}
    (hl : ∀ t ∈ ls, t.Uniform m) (hr : ∀ t ∈ rs, t.Uniform m) :
    Solves θ (ls.map (Ty.apply s)) (rs.map (Ty.apply s)) ↔ Solves θ ls rs := by
  have hmap : ∀ ts : List Ty, (∀ t ∈ ts, t.Uniform m) →
      (ts.map (Ty.apply s)).map (Ty.subst θ) = ts.map (Ty.subst θ) := by
    intro ts hts
    rw [List.map_map]
    exact List.map_congr_left fun t ht => h.subst (hts t ht)
  rw [Solves, Solves, hmap ls hl, hmap rs hr]

theorem exact_cons {m : Nat} {l r : Ty} {ls rs : List Ty} {s : Subst} {ss : List Subst} (hs : s.Uniform m)
    (hgen : ∀ θ, Solves θ [l] [r] → FactorsThrough θ s) (hl : ∀ t ∈ ls, t.Uniform m) (hr : ∀ t ∈ rs, t.Uniform m)
    (h : Exact (ls.map (Ty.apply s)) (rs.map (Ty.apply s)) ss) : Exact (l :: ls) (r :: rs) (ss.map (·.compose s)) := by
  -- a solution factors through the first answer, so it solves the rest as that answer leaves it
  have hsplit : ∀ θ, Solves θ (l :: ls) (r :: rs) →
      FactorsThrough θ s ∧ Solves θ (ls.map (Ty.apply s)) (rs.map (Ty.apply s)) := by
    intro θ hθ
    have hfac := hgen θ (solves_singleton.2 (solves_cons.1 hθ).1)
    exact ⟨hfac, (hfac.solves hl hr).2 (solves_cons.1 hθ).2⟩
  rcases h with ⟨rfl, hnone⟩ | ⟨s', rfl, hs'⟩
  · exact .inl ⟨rfl, fun θ hθ => hnone θ (hsplit θ hθ).2⟩
  · exact .inr ⟨s'.compose s, rfl, fun θ hθ => (hsplit θ hθ).1.compose hs (hs' θ (hsplit θ hθ).2)⟩

theorem Ty.hereditary_uniform (m : Nat) : Ty.Hereditary (Ty.Uniform m) where
  toStable := inferInstance
  list _ h := (uniform_list.1 h).2
  fn _ _ := uniform_fn.1
  overload _ h := by cases h

/-- Two homogeneous lists of one length are equal when their heads are. -/
theorem solves_homogeneous {θ : Nat → Ty} {t u : Ty} {ts us : List Ty} (ht : Ty.homogeneous (t :: ts) = true)
    (hu : Ty.homogeneous (u :: us) = true) (hlength : ts.length = us.length) :
    Solves θ [.list (t :: ts)] [.list (u :: us)] ↔ Solves θ [t] [u] := by
  rw [Ty.eq_replicate_of_homogeneous ht, Ty.eq_replicate_of_homogeneous hu, hlength, solves_singleton, solves_singleton,
    Ty.subst_list, Ty.subst_list, ← List.replicate_succ, ← List.replicate_succ, List.map_replicate, List.map_replicate]
  simp

/-- On uniform types the answers are exact. -/
theorem Unification.Call.Gives.exact {m : Nat} {c : Call} {b : Branches} (h : c.Gives b)
    (hc : ∀ t ∈ c.sides, t.Uniform m) : Exact c.lefts c.rights b.substs := by
  have hmade := fun {c d : Call} (h : Calls d c) => h.hereditary (Ty.hereditary_uniform m)
  induction h with
  | same t => exact exact_one [t] [t]
  | @bindLeft v t ne => exact exact_bindVar (forall_sides_types.1 hc).2 ne.symm
  | @bindRight v t noVar =>
    refine exact_congr (exact_bindVar (forall_sides_types.1 hc).1 (noVar v)) fun θ => ?_
    exact solves_singleton.trans (eq_comm.trans solves_singleton.symm)
  | @listHead t u ts us _ homogeneous _ ih =>
    obtain ⟨hts, hus⟩ := forall_sides_types.1 hc
    obtain ⟨ht, hu⟩ := Bool.and_eq_true_iff.1 homogeneous
    refine exact_congr (ih (hmade (.head t u ts us) hc)) fun θ => solves_homogeneous ht hu ?_
    simpa using (Ty.uniform_list.1 hts).1.trans (Ty.uniform_list.1 hus).1.symm
  | @listEmpty ts us ne _ empty =>
    obtain ⟨hts, hus⟩ := forall_sides_types.1 hc
    have hlength := (Ty.uniform_list.1 hts).1.trans (Ty.uniform_list.1 hus).1.symm
    -- two lists of one length are both empty, and then equal, or both not
    rcases empty with rfl | rfl
    · exact absurd (congrArg Ty.list (List.length_eq_zero_iff.1 hlength.symm).symm) ne
    · exact absurd (congrArg Ty.list (List.length_eq_zero_iff.1 hlength)) ne
  | @listAll ts us _ _ _ _ ih =>
    refine exact_congr (ih (hmade (.elems ts us) hc)) fun θ => ?_
    simp [Call.lefts, Call.rights, Solves]
  | listFail _ _ length =>
    obtain ⟨hts, hus⟩ := forall_sides_types.1 hc
    exact absurd ((Ty.uniform_list.1 hts).1.trans (Ty.uniform_list.1 hus).1.symm) length
  | record _ _ | recordFail _ _ => cases (forall_sides_types.1 hc).1
  | @fn p b q c _ _ ih =>
    refine exact_congr (ih (hmade (.fn p b q c) hc)) fun θ => ?_
    simp [Call.lefts, Call.rights, Solves]
  | left _ _ _ => cases (forall_sides_types.1 hc).1
  | right _ _ _ => cases (forall_sides_types.1 hc).2
  | clash left right ne =>
    refine exact_fail _ fun θ hθ => ne ?_
    -- a substitution changes no head
    have hshape := congrArg Ty.shape? (solves_singleton.1 hθ)
    rw [Ty.shape?_subst left, Ty.shape?_subst right] at hshape
    exact Option.some.inj hshape
  | nil => exact exact_one [] []
  | @cons l r ls rs _ _ ih ihTail =>
    obtain ⟨hls, hrs⟩ := forall_sides_pairs.1 hc
    have hfirst := hmade (.first l r ls rs) hc
    rw [Branches.substs_andThen]
    rcases ih hfirst with ⟨he, hnone⟩ | ⟨s, he, hgen⟩
    · rw [he]
      exact .inl ⟨rfl, fun θ hθ => hnone θ (solves_singleton.2 (solves_cons.1 hθ).1)⟩
    · have hmem : s ∈ (l.unify r).substs := by simp [he]
      obtain ⟨hl, hr⟩ := forall_sides_types.1 hfirst
      have hs : s.Uniform m :=
        (Ty.unifies_of_mem hmem).hereditary (Ty.hereditary_uniform m) (by simpa using hl) (by simpa using hr)
      rw [he, List.flatMap_singleton]
      exact exact_cons hs hgen (fun t ht => hls t (List.mem_cons_of_mem l ht))
        (fun t ht => hrs t (List.mem_cons_of_mem r ht))
        (ihTail s hmem (hmade (.rest ls rs hmem) hc))
  | short _ _ | long _ _ => exact exact_fail _ fun θ hθ => by cases hθ

/-! ## Answers of the unifier -/

/-- Uniform types have no answer and no unifier, or one answer, which makes them equal
and of which every unifier is an instance. -/
theorem Ty.unify_uniform {m : Nat} {l r : Ty} (hl : l.Uniform m) (hr : r.Uniform m) :
    ((l.unify r).substs = [] ∧ ∀ θ, l.subst θ ≠ r.subst θ) ∨
    ∃ s, (l.unify r).substs = [s] ∧ s.Uniform m ∧ l.apply s = r.apply s ∧
      ∀ θ, l.subst θ = r.subst θ → FactorsThrough θ s := by
  rcases (Unification.gives_answer (.types l r)).exact (Unification.Call.forall_sides_types.2 ⟨hl, hr⟩) with
    ⟨he, hnone⟩ | ⟨s, he, hgen⟩
  · exact .inl ⟨he, fun θ hθ => hnone θ (solves_singleton.2 hθ)⟩
  · have hbranch : Unifies [l] [r] s := Ty.unifies_of_mem (by simp [show (l.unify r).substs = [s] from he])
    have hs : s.Uniform m := hbranch.hereditary (Ty.hereditary_uniform m) (by simpa using hl) (by simpa using hr)
    have hfits := hbranch.fits (by simpa using hl.wellFormed) (by simpa using hr.wellFormed) (l, r) (by simp)
    refine .inr ⟨s, he, hs, ?_, fun θ hθ => hgen θ (solves_singleton.2 hθ)⟩
    rw [Ty.apply_eq_subst hl.wellFormed, Ty.apply_eq_subst hr.wellFormed]
    exact hfits.eq_of_uniform (hl.subst fun v _ => hs.toFun v) (hr.subst fun v _ => hs.toFun v)

/-- The substitution makes the two types equal, and every function that does so is
an instance of it. -/
structure MostGeneral (l r : Ty) (s : Subst) : Prop where
  plain : s.Plain
  solved : s.SolvedIn {v | v ∈ l.free ∨ v ∈ r.free}
  equal : l.apply s = r.apply s
  general : ∀ θ, l.subst θ = r.subst θ → FactorsThrough θ s

/-- Plain types have no answer and no unifier, or one answer, which is most general. -/
theorem Ty.unify_exact {l r : Ty} (hl : l.Plain) (hr : r.Plain) :
    ((l.unify r).substs = [] ∧ ∀ θ, l.subst θ ≠ r.subst θ) ∨
    ∃ s, (l.unify r).substs = [s] ∧ MostGeneral l r s := by
  rcases unify_uniform hl.uniform hr.uniform with hnone | ⟨s, he, hs, hequal, hgeneral⟩
  · exact .inl hnone
  · have hbranch : Unifies [l] [r] s := unifies_of_mem (by simp [he])
    refine .inr ⟨s, he, Subst.plain_iff_uniform.2 hs, hbranch.solvedIn ?_ ?_, hequal, hgeneral⟩
    · simpa using fun v hv => .inl hv
    · simpa using fun v hv => .inr hv

end NixTyping
