import Mathlib
import NixTyping.Proofs.PrincipalTyping
/-!
# Other names for variables

A type with its variables renamed, one to one, is the same type for all that inference
does. Unification has the same branches, with the answers renamed (`Ty.unify_rename`),
and the closed scheme of the type is the same (`Scheme.closeOver_rename`).
-/

namespace NixTyping

open Function

/-! ## Types -/

namespace Ty

section Rename
variable {ρ τ : Nat → Nat} {t u : Ty} {ts : List Ty}

@[simp] theorem rename_var (ρ : Nat → Nat) (v : Nat) : (Ty.var v).rename ρ = .var (ρ v) := rfl

@[simp] theorem rename_prim (ρ : Nat → Nat) (p : Prim) : (Ty.prim p).rename ρ = .prim p := rfl

@[simp] theorem rename_fn (ρ : Nat → Nat) (p b : Ty) : (Ty.fn p b).rename ρ = .fn (p.rename ρ) (b.rename ρ) := rfl

@[simp] theorem rename_list (ρ : Nat → Nat) (ts : List Ty) : (Ty.list ts).rename ρ = .list (ts.map (rename ρ)) :=
  subst_list _ ts

@[simp] theorem rename_record (ρ : Nat → Nat) (fs : List (String × Ty)) (o : Bool) :
    (Ty.record fs o).rename ρ = .record (fs.map fun f => (f.1, f.2.rename ρ)) o := subst_record _ fs o

theorem mem_free_rename {w : Nat} : w ∈ (t.rename ρ).free ↔ ∃ v ∈ t.free, ρ v = w := by
  simp [rename, mem_free_subst, eq_comm]

theorem mem_free_rename_of_injective (hρ : Injective ρ) {v : Nat} : ρ v ∈ (t.rename ρ).free ↔ v ∈ t.free := by
  rw [mem_free_rename]
  exact ⟨fun ⟨w, hw, h⟩ => hρ h ▸ hw, fun h => ⟨v, h, rfl⟩⟩

theorem WellFormed.rename (h : t.WellFormed) (ρ : Nat → Nat) : (t.rename ρ).WellFormed := h.subst fun _ _ => .var _

theorem rename_congr (h : ∀ v ∈ t.free, ρ v = τ v) : t.rename ρ = t.rename τ := subst_congr fun v hv => by rw [h v hv]

theorem rename_eq_self (ht : t.WellFormed) (h : ∀ v ∈ t.free, ρ v = v) : t.rename ρ = t :=
  subst_eq_self ht fun v hv => by rw [h v hv]

theorem WellFormed.rename_subst (ht : t.WellFormed) {g : Nat → Ty} (hg : ∀ v, (g (ρ v)).WellFormed) :
    (t.rename ρ).subst g = t.subst fun v => g (ρ v) := by
  refine subst_subst ht (fun _ _ => .var _) fun w hw => ?_
  obtain ⟨v, -, rfl⟩ := mem_free_rename.1 hw
  exact hg v

theorem WellFormed.subst_rename (ht : t.WellFormed) {f : Nat → Ty} (hf : ∀ v ∈ t.free, (f v).WellFormed) :
    (t.subst f).rename ρ = t.subst fun v => (f v).rename ρ :=
  subst_subst ht hf fun _ _ => .var _

theorem rename_rename (ht : t.WellFormed) : (t.rename ρ).rename τ = t.rename fun v => τ (ρ v) :=
  ht.subst_rename fun _ _ => .var _

theorem rename_inj (hρ : Injective ρ) (ht : t.WellFormed) (hu : u.WellFormed) : t.rename ρ = u.rename ρ ↔ t = u := by
  refine ⟨fun h => ?_, fun h => h ▸ rfl⟩
  have hback : ∀ {t : Ty}, t.WellFormed → (t.rename ρ).rename (invFun ρ) = t := fun {t} ht => by
    rw [rename_rename ht]
    exact rename_eq_self ht fun v _ => leftInverse_invFun hρ v
  rw [← hback ht, h, hback hu]

theorem single_rename (hs : t.Single) : (t.rename ρ).Single := by
  cases t with
  | overload ts => exact absurd rfl (hs ts)
  | _ => simp [Single]

/-- No alternatives fall together. -/
theorem rename_overload (hρ : Injective ρ) (h : (Ty.overload ts).WellFormed) :
    (Ty.overload ts).rename ρ = .overload (ts.map (rename ρ)) := by
  obtain ⟨hparts, hnodup, hmany⟩ := wellFormed_overload.1 h
  have hmap : (ts.map (rename ρ)).Nodup := by
    refine (List.nodup_map_iff_inj_on hnodup).2 fun t ht u hu heq => ?_
    exact (rename_inj hρ (hparts t ht).1 (hparts u hu).1).1 heq
  rw [rename, subst_overload]
  refine overloads_eq_self (.overload ?_ ?_ hmap (by simpa using hmany))
  · exact List.forall_mem_map.2 fun t ht => (hparts t ht).1.rename ρ
  · exact List.forall_mem_map.2 fun t ht => single_rename (hparts t ht).2

theorem homogeneous_rename (hρ : Injective ρ) (h : ∀ t ∈ ts, t.WellFormed) :
    homogeneous (ts.map (rename ρ)) = homogeneous ts := by
  fun_induction homogeneous ts with
  | case1 t u rest ih =>
    obtain ⟨ht, hu, -⟩ : t.WellFormed ∧ u.WellFormed ∧ _ := by simpa using h
    have htail := ih fun v hv => h v (List.mem_cons_of_mem _ hv)
    simp only [List.map_cons] at htail
    simp only [List.map_cons, homogeneous, htail, rename_inj hρ ht hu]
  | case2 ts hfew =>
    rcases ts with _ | ⟨t, _ | ⟨u, rest⟩⟩
    · rfl
    · rfl
    · exact (hfew t u rest rfl).elim

theorem coversKeys_rename (ρ : Nat → Nat) (fs gs : List (String × Ty)) :
    coversKeys (fs.map fun f => (f.1, f.2.rename ρ)) (gs.map fun f => (f.1, f.2.rename ρ)) = coversKeys fs gs := by
  unfold coversKeys
  rw [List.all_map]
  refine congrArg (List.all gs) (funext fun g => ?_)
  simp [findKey_map]

theorem recordsFit_rename (ρ : Nat → Nat) (fs gs : List (String × Ty)) (o o' : Bool) :
    recordsFit (fs.map fun f => (f.1, f.2.rename ρ)) o (gs.map fun f => (f.1, f.2.rename ρ)) o' =
      recordsFit fs o gs o' := by
  cases o <;> cases o' <;> simp only [recordsFit, coversKeys_rename]

theorem rename_ne_var (ht : t.WellFormed) (hρ : Injective ρ) (h : ∀ v, t ≠ .var v) (w : Nat) : t.rename ρ ≠ .var w := by
  cases t with
  | var v => exact absurd rfl (h v)
  | overload ts => simp [rename_overload hρ ht]
  | _ => simp

theorem shape?_rename {a : Shape} (h : t.shape? = some a) (ρ : Nat → Nat) : (t.rename ρ).shape? = some a :=
  shape?_subst h _

theorem exists_record_of_rename (ht : t.WellFormed) (hρ : Injective ρ) {fs : List (String × Ty)} {o : Bool}
    (h : t.rename ρ = .record fs o) : ∃ gs o', t = .record gs o' := by
  cases t with
  | record gs o' => exact ⟨gs, o', rfl⟩
  | overload us => simp [rename_overload hρ ht] at h
  | _ => simp at h

end Rename

end Ty

/-! ## Substitutions -/

namespace Subst

/-- The substitution does to renamed types what the other does to the types. -/
structure Renames (ρ : Nat → Nat) (s s' : Subst) : Prop where
  empty : s'.isEmpty = s.isEmpty
  toFun : ∀ v, s'.toFun (ρ v) = (s.toFun v).rename ρ

section Renames
variable {ρ : Nat → Nat} {s s' : Subst}

theorem renames_empty (ρ : Nat → Nat) : Renames ρ ∅ ∅ := ⟨rfl, fun _ => rfl⟩

theorem renames_single (hρ : Injective ρ) (v : Nat) (t : Ty) : Renames ρ (single v t) (single (ρ v) (t.rename ρ)) := by
  refine ⟨rfl, fun w => ?_⟩
  by_cases h : w = v
  · rw [h, toFun_single, toFun_single]
  · rw [toFun_single_of_ne h, toFun_single_of_ne fun he => h (hρ he)]
    rfl

theorem Renames.apply (h : Renames ρ s s') (hs : s.WellFormed) {t : Ty} (ht : t.WellFormed) :
    (t.rename ρ).apply s' = (t.apply s).rename ρ := by
  have hs' : ∀ v, (s'.toFun (ρ v)).WellFormed := fun v => h.toFun v ▸ (hs.toFun v).rename ρ
  rw [Ty.apply_eq_subst (ht.rename ρ), ht.rename_subst hs', Ty.apply_eq_subst ht,
    ht.subst_rename fun v _ => hs.toFun v]
  exact Ty.subst_congr fun v _ => h.toFun v

theorem Renames.map_apply (h : Renames ρ s s') (hs : s.WellFormed) {ts : List Ty} (hts : ∀ t ∈ ts, t.WellFormed) :
    (ts.map (Ty.rename ρ)).map (Ty.apply s') = (ts.map (Ty.apply s)).map (Ty.rename ρ) := by
  rw [List.map_map, List.map_map]
  exact List.map_congr_left fun t ht => h.apply hs (hts t ht)

theorem isEmpty_iff : s.isEmpty = true ↔ ∀ v, s.get? v = none := by
  refine ⟨fun h v => by rw [eq_empty_of_isEmpty h, get?_empty], fun h => ?_⟩
  by_contra hne
  obtain ⟨v, t, hv⟩ := exists_get?_of_not_isEmpty (by simpa using hne)
  rw [h v] at hv
  cases hv

theorem isEmpty_compose (s older : Subst) : (s.compose older).isEmpty = (s.isEmpty && older.isEmpty) := by
  rw [Bool.eq_iff_iff, Bool.and_eq_true, isEmpty_iff, isEmpty_iff, isEmpty_iff, ← forall_and]
  refine forall_congr' fun v => ?_
  rw [get?_compose]
  cases older.get? v <;> simp

theorem Renames.compose {older older' : Subst} (h : Renames ρ s s') (ho : Renames ρ older older') (hs : s.WellFormed)
    (hwell : older.WellFormed) : Renames ρ (s.compose older) (s'.compose older') := by
  refine ⟨by rw [isEmpty_compose, isEmpty_compose, h.empty, ho.empty], fun v => ?_⟩
  rw [toFun_compose, toFun_compose, ho.toFun, h.apply hs (hwell.toFun v)]

end Renames

end Subst

/-! ## Unification -/

section Unify
variable {ρ : Nat → Nat}

theorem renames_bindVar (hρ : Injective ρ) {v : Nat} {t : Ty} (ht : t.WellFormed) :
    List.Forall₂ (Subst.Renames ρ) (Branches.ofExcept (bindVar v t)).substs
      (Branches.ofExcept (bindVar (ρ v) (t.rename ρ))).substs := by
  have heq : t.rename ρ = .var (ρ v) ↔ t = .var v := Ty.rename_inj (u := .var v) hρ ht (.var v)
  have hoccurs : (t.rename ρ).occurs (ρ v) = t.occurs v := by
    rw [Bool.eq_iff_iff, Ty.occurs_iff, Ty.occurs_iff, Ty.mem_free_rename_of_injective hρ]
  unfold bindVar
  by_cases h : t = .var v
  · rw [if_pos h, if_pos (heq.2 h)]
    exact .cons (Subst.renames_empty ρ) .nil
  · rw [if_neg h, if_neg (mt heq.1 h), hoccurs]
    split
    · exact .nil
    · exact .cons (Subst.renames_single hρ v t) .nil

theorem forall₂_flatMap {α β γ : Type} {R : β → γ → Prop} {xs : List α} {f : α → List β} {g : α → List γ}
    (h : ∀ x ∈ xs, List.Forall₂ R (f x) (g x)) : List.Forall₂ R (xs.flatMap f) (xs.flatMap g) := by
  induction xs with
  | nil => exact .nil
  | cons x xs ih => exact List.rel_append (h x List.mem_cons_self) (ih fun y hy => h y (List.mem_cons_of_mem x hy))

namespace Unification.Call

def rename (ρ : Nat → Nat) : Call → Call
  | .types l r => .types (l.rename ρ) (r.rename ρ)
  | .pairs ls rs => .pairs (ls.map (Ty.rename ρ)) (rs.map (Ty.rename ρ))

/-- A renamed call has the same branches, and each answer is renamed. -/
theorem Gives.rename (hρ : Injective ρ) {c : Call} {b : Branches} (h : c.Gives b) (hc : ∀ t ∈ c.sides, t.WellFormed) :
    List.Forall₂ (Subst.Renames ρ) b.substs (c.rename ρ).answer.substs := by
  have hmade := fun {c d : Call} (h : Calls d c) => h.hereditary Ty.hereditary_wellFormed
  have hone : List.Forall₂ (Subst.Renames ρ) (Branches.one ∅).substs (Branches.one ∅).substs :=
    .cons (Subst.renames_empty ρ) .nil
  have hne : ∀ {l r : Ty}, (∀ t ∈ (types l r).sides, t.WellFormed) → l ≠ r → l.rename ρ ≠ r.rename ρ :=
    fun hc h heq => h ((Ty.rename_inj hρ (forall_sides_types.1 hc).1 (forall_sides_types.1 hc).2).1 heq)
  have hlist : ∀ {ts us : List Ty}, (∀ t ∈ (types (.list ts) (.list us)).sides, t.WellFormed) → Ty.list ts ≠ .list us →
      Ty.list (ts.map (Ty.rename ρ)) ≠ .list (us.map (Ty.rename ρ)) := by
    intro ts us hc h
    rw [← Ty.rename_list, ← Ty.rename_list]
    exact hne hc h
  have hhom : ∀ {ts us : List Ty}, (∀ t ∈ (types (.list ts) (.list us)).sides, t.WellFormed) →
      (Ty.homogeneous (ts.map (Ty.rename ρ)) && Ty.homogeneous (us.map (Ty.rename ρ))) =
        (Ty.homogeneous ts && Ty.homogeneous us) := by
    intro ts us hc
    obtain ⟨hts, hus⟩ := forall_sides_types.1 hc
    rw [Ty.homogeneous_rename hρ (Ty.wellFormed_list.1 hts), Ty.homogeneous_rename hρ (Ty.wellFormed_list.1 hus)]
  induction h with
  | same t =>
    rw [Call.rename, answer, Ty.unify_same]
    exact hone
  | @bindLeft v t ne =>
    have ne' := hne hc ne
    rw [Ty.rename_var] at ne'
    rw [Call.rename, answer, Ty.rename_var, Ty.unify_var_left ne']
    exact renames_bindVar hρ (forall_sides_types.1 hc).2
  | @bindRight v t noVar =>
    have ht := (forall_sides_types.1 hc).1
    rw [Call.rename, answer, Ty.rename_var, Ty.unify_var_right (Ty.rename_ne_var ht hρ noVar)]
    exact renames_bindVar hρ ht
  | @listHead t u ts us ne homogeneous _ ih =>
    rw [Call.rename, answer, Ty.rename_list, Ty.rename_list, List.map_cons, List.map_cons,
      Ty.unify_listHead (hlist hc ne) ((hhom hc).trans homogeneous)]
    exact ih (hmade (.head t u ts us) hc)
  | listEmpty ne homogeneous empty =>
    rw [Call.rename, answer, Ty.rename_list, Ty.rename_list,
      Ty.unify_listEmpty (hlist hc ne) ((hhom hc).trans homogeneous) (by simpa using empty)]
    exact hone
  | @listAll ts us ne mixed length _ ih =>
    rw [Call.rename, answer, Ty.rename_list, Ty.rename_list, Ty.unify_listMixed (hlist hc ne) (by rwa [hhom hc]),
      if_pos (by simpa using length)]
    exact ih (hmade (.elems ts us) hc)
  | listFail ne mixed length =>
    rw [Call.rename, answer, Ty.rename_list, Ty.rename_list, Ty.unify_listMixed (hlist hc ne) (by rwa [hhom hc]),
      if_neg (by simpa using length)]
    exact .nil
  | record ne names =>
    have ne' := hne hc ne
    rw [Ty.rename_record, Ty.rename_record] at ne'
    rw [Call.rename, answer, Ty.rename_record, Ty.rename_record, Ty.unify_record ne',
      if_pos (by rwa [Ty.recordsFit_rename])]
    exact hone
  | recordFail ne names =>
    have ne' := hne hc ne
    rw [Ty.rename_record, Ty.rename_record] at ne'
    rw [Call.rename, answer, Ty.rename_record, Ty.rename_record, Ty.unify_record ne',
      if_neg (by rwa [Ty.recordsFit_rename])]
    exact .nil
  | @fn p b q c ne _ ih =>
    have ne' := hne hc ne
    rw [Ty.rename_fn, Ty.rename_fn] at ne'
    rw [Call.rename, answer, Ty.rename_fn, Ty.rename_fn, Ty.unify_fn ne']
    exact ih (hmade (.fn p b q c) hc)
  | @left alts t ne noVar _ ih =>
    obtain ⟨halts, ht⟩ := forall_sides_types.1 hc
    have ne' := hne hc ne
    rw [Ty.rename_overload hρ halts] at ne'
    rw [Call.rename, answer, Ty.rename_overload hρ halts, substs_unify_left ne' (Ty.rename_ne_var ht hρ noVar),
      substs_foldr_append, List.flatMap_map]
    exact forall₂_flatMap fun alt halt => ih alt halt (hmade (.left t halt) hc)
  | @right alts t single noVar _ ih =>
    obtain ⟨ht, halts⟩ := forall_sides_types.1 hc
    rw [Call.rename, answer, Ty.rename_overload hρ halts,
      substs_unify_right (Ty.single_rename single) (Ty.rename_ne_var ht hρ noVar), substs_foldr_append,
      List.flatMap_map]
    exact forall₂_flatMap fun alt halt => ih alt halt (hmade (.right t halt) hc)
  | clash left right ne =>
    rw [Call.rename, answer, Ty.unify_clash (Ty.shape?_rename left ρ) (Ty.shape?_rename right ρ) ne]
    exact .nil
  | nil =>
    rw [Call.rename, answer, List.map_nil, Ty.unifyAll_nil]
    exact hone
  | @cons l r ls rs _ _ ih ihTail =>
    obtain ⟨hls, hrs⟩ := forall_sides_pairs.1 hc
    have hhead : ∀ s ∈ (l.unify r).substs, s.WellFormed := fun s hs =>
      (Ty.unifies_of_mem hs).wellFormed (by simpa using hls l List.mem_cons_self)
        (by simpa using hrs r List.mem_cons_self)
    rw [Call.rename, answer, List.map_cons, List.map_cons, substs_unifyAll_cons, Branches.substs_andThen]
    refine List.rel_flatMap ((List.forall₂_and_left _ _).2 ⟨fun s hs => hs, ih (hmade (.first l r ls rs) hc)⟩) ?_
    rintro s s' ⟨hmem, hrel⟩
    have hs := hhead s hmem
    have hrest := hmade (.rest ls rs hmem) hc
    have htail : ∀ a ∈ (Ty.unifyAll (ls.map (Ty.apply s)) (rs.map (Ty.apply s))).substs, a.WellFormed := fun a ha =>
      (Ty.unifies_of_mem_all ha).wellFormed (forall_sides_pairs.1 hrest).1 (forall_sides_pairs.1 hrest).2
    beta_reduce
    rw [hrel.map_apply hs fun t ht => hls t (List.mem_cons_of_mem l ht),
      hrel.map_apply hs fun t ht =>
        hrs t (List.mem_cons_of_mem r ht), List.forall₂_map_left_iff, List.forall₂_map_right_iff]
    refine ((List.forall₂_and_left _ _).2 ⟨htail, ihTail s hmem hrest⟩).imp ?_
    rintro a a' ⟨ha, hrename⟩
    exact hrename.compose hrel ha hs
  | short r rs =>
    rw [Call.rename, answer, List.map_nil, List.map_cons, Ty.unifyAll_short]
    exact .nil
  | long l ls =>
    rw [Call.rename, answer, List.map_nil, List.map_cons, Ty.unifyAll_long]
    exact .nil

end Unification.Call

theorem Ty.unify_rename (hρ : Injective ρ) {l r : Ty} (hl : l.WellFormed) (hr : r.WellFormed) :
    List.Forall₂ (Subst.Renames ρ) (l.unify r).substs ((l.rename ρ).unify (r.rename ρ)).substs :=
  (Unification.gives_answer (.types l r)).rename hρ (Unification.Call.forall_sides_types.2 ⟨hl, hr⟩)

theorem Ty.unifyAll_rename (hρ : Injective ρ) {ls rs : List Ty} (hl : ∀ t ∈ ls, t.WellFormed)
    (hr : ∀ t ∈ rs, t.WellFormed) : List.Forall₂ (Subst.Renames ρ) (Ty.unifyAll ls rs).substs
      (Ty.unifyAll (ls.map (Ty.rename ρ)) (rs.map (Ty.rename ρ))).substs :=
  (Unification.gives_answer (.pairs ls rs)).rename hρ (Unification.Call.forall_sides_pairs.2 ⟨hl, hr⟩)

end Unify

/-! ## Closed schemes -/

section ClosedSchemes
variable {ρ : Nat → Nat}

theorem distinct_map (hρ : Injective ρ) (xs : List Nat) : distinct (xs.map ρ) = (distinct xs).map ρ := by
  induction xs using List.reverseRecOn with
  | nil => rfl
  | append_singleton xs x ih =>
    rw [List.map_append, List.map_singleton, distinct_concat, distinct_concat, ih]
    simp only [List.mem_map_of_injective hρ]
    split <;> simp

theorem Ty.mentions_rename (hρ : Injective ρ) {t : Ty} (ht : t.WellFormed) :
    (t.rename ρ).mentions = t.mentions.map ρ := by
  have hall : ∀ ts : List Ty, (∀ t ∈ ts, (t.rename ρ).mentions = t.mentions.map ρ) →
      mentionsAll (ts.map (rename ρ)) = (mentionsAll ts).map ρ := by
    intro ts h
    induction ts with
    | nil => rfl
    | cons t ts ih =>
      rw [List.map_cons, mentionsAll, mentionsAll, List.map_append, h t (by simp), ih fun t ht => h t (by simp [ht])]
  have hfields : ∀ fs : List (String × Ty), (∀ f ∈ fs, (f.2.rename ρ).mentions = f.2.mentions.map ρ) →
      mentionsFields (fs.map fun f => (f.1, f.2.rename ρ)) = (mentionsFields fs).map ρ := by
    intro fs h
    induction fs with
    | nil => rfl
    | cons f fs ih =>
      rw [List.map_cons, mentionsFields, mentionsFields, List.map_append, h f (by simp),
        ih fun f hf => h f (by simp [hf])]
  induction ht with
  | var v => rfl
  | prim p => rfl
  | @list ts _ ih =>
    rw [rename_list]
    exact hall ts ih
  | fn _ _ ihp ihb => rw [rename_fn, mentions, mentions, List.map_append, ihp, ihb]
  | @record fs o _ ih =>
    rw [rename_record]
    exact hfields fs ih
  | @overload ts parts single nodup many ih =>
    rw [rename_overload hρ (.overload parts single nodup many)]
    exact hall ts ih

theorem Ty.varsInOrder_rename (hρ : Injective ρ) {t : Ty} (ht : t.WellFormed) :
    (t.rename ρ).varsInOrder = t.varsInOrder.map ρ := by
  rw [varsInOrder, mentions_rename hρ ht, distinct_map hρ]
  rfl

theorem rank_rename (hρ : Injective ρ) {order : List Nat} (h : order.Nodup) {v : Nat} (hv : v ∈ order) :
    rank (order.map ρ) (ρ v) = rank order v := by
  rcases rank_cases order v with ⟨hget, -⟩ | ⟨hnot, -⟩
  · rcases rank_cases (order.map ρ) (ρ v) with ⟨hget', -⟩ | ⟨hnot', -⟩
    · rw [List.getElem?_map] at hget'
      obtain ⟨w, hw, heq⟩ := Option.map_eq_some_iff.1 hget'
      obtain rfl := hρ heq
      exact (List.getElem?_inj (List.getElem?_eq_some_iff.1 hw).1 h).1 (hw.trans hget.symm)
    · exact absurd (List.mem_map_of_mem hv) hnot'
  · exact absurd hv hnot

/-- The closed scheme of a type does not depend on the names of its variables. -/
theorem Scheme.closeOver_rename (hρ : Injective ρ) {t : Ty} (ht : t.WellFormed) :
    closeOver (t.rename ρ) = closeOver t := by
  have horder := Ty.varsInOrder_rename hρ ht
  have hty : (closeOver (t.rename ρ)).ty = (closeOver t).ty := by
    rw [closeOver_ty (ht.rename ρ), closeOver_ty ht, Ty.rename_rename ht, horder]
    exact Ty.rename_congr fun v hv => rank_rename hρ t.nodup_varsInOrder (Ty.mem_varsInOrder.2 hv)
  have hvars : (closeOver (t.rename ρ)).vars = (closeOver t).vars := by
    rw [vars_closeOver, vars_closeOver, horder, List.length_map]
  exact congrArg₂ Scheme.mk hvars hty

end ClosedSchemes

/-! ## Constraints -/

namespace VarSet

theorem ext {s t : VarSet} (h : ∀ v, v ∈ s ↔ v ∈ t) : s = t := by
  obtain ⟨vs, hvs⟩ := s
  obtain ⟨ws, hws⟩ := t
  obtain rfl : vs = ws := hvs.eq_of_mem_iff hws h
  rfl

/-- The set with other names for its variables. -/
def rename (ρ : Nat → Nat) (s : VarSet) : VarSet := .ofList (s.toList.map ρ)

@[simp] theorem mem_rename {ρ : Nat → Nat} {s : VarSet} {w : Nat} : w ∈ s.rename ρ ↔ ∃ v ∈ s, ρ v = w := by
  rw [rename, mem_ofList, List.mem_map]
  rfl

end VarSet

/-- The constraint with other names for its variables. A scheme has none but those that it quantifies. -/
def Constraint.rename (ρ : Nat → Nat) : Constraint → Constraint
  | .eq l r => .eq (l.rename ρ) (r.rename ρ)
  | .explicit t σ => .explicit (t.rename ρ) σ
  | .implicit t M b => .implicit (t.rename ρ) (M.rename ρ) (b.rename ρ)

@[simp] theorem Constraint.rename_eq (ρ : Nat → Nat) (l r : Ty) :
    (Constraint.eq l r).rename ρ = .eq (l.rename ρ) (r.rename ρ) := rfl

/-! ## Judgments -/

/-- The assumptions with other names for their variables. -/
def Assumptions.rename (ρ : Nat → Nat) (a : Assumptions) : Assumptions := ⟨a.entries.map fun e => (e.1, e.2.rename ρ)⟩

/-- The judgment with other names for its variables. -/
def Judgment.rename (ρ : Nat → Nat) (j : Judgment) : Judgment :=
  ⟨j.assumptions.rename ρ, j.constraints.map (·.rename ρ), j.ty.rename ρ⟩

end NixTyping
