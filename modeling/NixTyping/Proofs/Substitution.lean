import Mathlib.Data.Set.Basic
import NixTyping.Constraint
import NixTyping.Proofs.Types
/-!
# Finite substitutions

`Subst.toFun` reads a substitution as a function. On well formed types
`Ty.apply` is `Ty.subst` with that function, and `Subst.compose` is composition
(`Ty.apply_compose`). A substitution is solved in a set of variables when it
binds only variables of the set, to types over the set that mention no variable
it binds.
-/

namespace NixTyping

/-! ## Keyed lists -/

section Keyed
variable {κ α : Type} [LT κ] [DecidableLT κ] [DecidableEq κ]

theorem findKey_insertKey_self (k : κ) (v : α) (m : List (κ × α)) : findKey k (insertKey k v m) = some v := by
  induction m with
  | nil => simp [insertKey, findKey]
  | cons e m ih =>
    obtain ⟨k', v'⟩ := e
    simp only [insertKey]
    split
    · simp [findKey]
    · split
      · simp [findKey]
      · next hne => simp [findKey, hne, ih]

theorem findKey_insertKey_of_ne {k x : κ} (hne : x ≠ k) (v : α) (m : List (κ × α)) :
    findKey x (insertKey k v m) = findKey x m := by
  induction m with
  | nil => simp [insertKey, findKey, hne]
  | cons e m ih =>
    obtain ⟨k', v'⟩ := e
    simp only [insertKey]
    split
    · simp [findKey, hne]
    · split
      · next hk => subst hk; simp [findKey, hne]
      · simp only [findKey, ih]

omit [LT κ] [DecidableLT κ] in
theorem findKey_isSome {k : κ} {m : List (κ × α)} : (findKey k m).isSome ↔ k ∈ m.map (·.1) := by
  induction m with
  | nil => simp
  | cons e m ih =>
    obtain ⟨k', v'⟩ := e
    by_cases h : k = k' <;> simp [findKey, h, ih]

omit [LT κ] [DecidableLT κ] in
theorem findKey_map {β : Type} (f : α → β) (k : κ) (m : List (κ × α)) :
    findKey k (m.map fun e => (e.1, f e.2)) = (findKey k m).map f := by
  induction m with
  | nil => rfl
  | cons e m ih =>
    obtain ⟨k', v'⟩ := e
    by_cases h : k = k' <;> simp [findKey, h, ih]

omit [LT κ] [DecidableLT κ] in
theorem findKey_filter (p : κ → Bool) (k : κ) (m : List (κ × α)) :
    findKey k (m.filter fun e => p e.1) = if p k then findKey k m else none := by
  induction m with
  | nil => simp
  | cons e m ih =>
    obtain ⟨k', v'⟩ := e
    by_cases h : k = k'
    · subst h
      by_cases hp : p k = true <;> simp [findKey, hp, ih]
    · by_cases hp : p k' = true <;> simp [findKey, hp, h, ih]

omit [LT κ] [DecidableLT κ] in
theorem mem_of_findKey {k : κ} {v : α} {m : List (κ × α)} (h : findKey k m = some v) : (k, v) ∈ m := by
  induction m with
  | nil => cases h
  | cons e m ih =>
    obtain ⟨k', v'⟩ := e
    by_cases hk : k = k'
    · simp_all [findKey]
    · exact List.mem_cons_of_mem _ (ih (by simpa [findKey, hk] using h))

omit [LT κ] [DecidableLT κ] in
/-- Where the keys are apart, what is found under one of them is what stands there. -/
theorem findKey_of_mem {m : List (κ × α)} (hm : (m.map (·.1)).Nodup) {e : κ × α} (he : e ∈ m) :
    findKey e.1 m = some e.2 := by
  induction m with
  | nil => cases he
  | cons e' m ih =>
    obtain ⟨k', v'⟩ := e'
    obtain ⟨hkey, hrest⟩ := List.nodup_cons.1 hm
    rcases List.mem_cons.1 he with rfl | he
    · simp [findKey]
    · have hne : e.1 ≠ k' := fun heq => hkey (List.mem_map.2 ⟨e, he, heq⟩)
      simpa [findKey, hne] using ih hrest he

theorem mem_of_mem_insertKey {k : κ} {v : α} {e : κ × α} {m : List (κ × α)} (h : e ∈ insertKey k v m) :
    e = (k, v) ∨ e ∈ m := by
  induction m with
  | nil => exact .inl (List.mem_singleton.1 h)
  | cons e' m ih =>
    obtain ⟨k', v'⟩ := e'
    simp only [insertKey] at h
    split at h
    · exact List.mem_cons.1 h
    · split at h
      · exact (List.mem_cons.1 h).imp_right (List.mem_cons_of_mem _)
      · rcases List.mem_cons.1 h with rfl | h
        · exact .inr List.mem_cons_self
        · exact (ih h).imp_right (List.mem_cons_of_mem _)

theorem mem_of_mem_sortKeys {e : κ × α} {entries : List (κ × α)} (h : e ∈ sortKeys entries) : e ∈ entries := by
  have hfold : ∀ (xs m : List (κ × α)), e ∈ xs.foldl (fun m x => insertKey x.1 x.2 m) m → e ∈ xs ∨ e ∈ m := by
    intro xs
    induction xs with
    | nil => exact fun m hm => .inr hm
    | cons x xs ih =>
      intro m hm
      rcases ih _ hm with he | he
      · exact .inl (List.mem_cons_of_mem _ he)
      · rcases mem_of_mem_insertKey he with rfl | he
        · exact .inl List.mem_cons_self
        · exact .inr he
  exact (hfold entries [] h).resolve_right List.not_mem_nil

end Keyed

namespace Subst

/-! ## Look-ups -/

@[simp] theorem get?_empty (v : Nat) : (∅ : Subst).get? v = none := rfl

theorem get?_single (v w : Nat) (t : Ty) : (single v t).get? w = if w = v then some t else none := rfl

theorem eq_of_get?_single {v w : Nat} {t u : Ty} (h : (single v t).get? w = some u) : w = v ∧ t = u := by
  rw [get?_single] at h
  split at h
  · next hw => exact ⟨hw, Option.some.inj h⟩
  · cases h

theorem get?_insert (s : Subst) (v w : Nat) (t : Ty) :
    (s.insert v t).get? w = if w = v then some t else s.get? w := by
  by_cases h : w = v
  · subst h; simp [get?, insert, findKey_insertKey_self]
  · simp [get?, insert, findKey_insertKey_of_ne h, h]

theorem get?_mapTypes (f : Ty → Ty) (s : Subst) (v : Nat) : (s.mapTypes f).get? v = (s.get? v).map f :=
  findKey_map f v s.bindings

theorem get?_without (s : Subst) (vs : List Nat) (v : Nat) :
    (s.without vs).get? v = if v ∈ vs then none else s.get? v := by
  have h := findKey_filter (fun v => decide (v ∉ vs)) v s.bindings
  by_cases hv : v ∈ vs
  · simpa [hv, get?, without] using h
  · simpa [hv, get?, without] using h

theorem mem_domain {s : Subst} {v : Nat} : v ∈ s.domain ↔ (s.get? v).isSome := findKey_isSome.symm

theorem eq_empty_of_isEmpty {s : Subst} (h : s.isEmpty = true) : s = ∅ := by
  obtain ⟨bs, hs⟩ := s
  cases bs with
  | nil => rfl
  | cons b bs => simp [isEmpty] at h

/-- A substitution that is not empty binds something. -/
theorem exists_get?_of_not_isEmpty {s : Subst} (h : s.isEmpty = false) : ∃ v t, s.get? v = some t := by
  obtain ⟨bs, hs⟩ := s
  cases bs with
  | nil => simp [isEmpty] at h
  | cons b bs => exact ⟨b.1, b.2, by simp [get?, findKey]⟩

/-- A fold that adds bindings to a substitution, except for some variables. -/
theorem get?_foldl_insert (skip : Nat → Bool) (bs : List (Nat × Ty)) (hs : SortedKeys bs) (m : Subst) (v : Nat) :
    (bs.foldl (fun m b => if skip b.1 then m else m.insert b.1 b.2) m).get? v =
      if skip v then m.get? v else (findKey v bs).or (m.get? v) := by
  induction bs generalizing m with
  | nil => simp
  | cons b bs ih =>
    obtain ⟨w, t⟩ := b
    have hw := List.pairwise_cons.1 hs
    rw [List.foldl_cons, ih hw.2]
    by_cases hvw : v = w
    · subst hvw
      have hnone : findKey v bs = none := by
        by_contra hne
        obtain ⟨e, he, hev⟩ := List.mem_map.1 (findKey_isSome.1 (Option.isSome_iff_ne_none.2 hne))
        have hlt : v < e.1 := hw.1 e he
        have hev : e.1 = v := hev
        omega
      by_cases hk : skip v = true <;> simp [hk, hnone, findKey, get?_insert]
    · by_cases hk : skip w = true <;> simp [hk, findKey, hvw, get?_insert]

theorem get?_compose (s older : Subst) (v : Nat) :
    (s.compose older).get? v = match older.get? v with
      | some t => some (t.apply s)
      | none => s.get? v := by
  have h := get?_foldl_insert (fun v => (older.get? v).isSome) s.bindings s.sorted (older.mapTypes (·.apply s)) v
  rw [compose, h, get?_mapTypes]
  cases ho : older.get? v with
  | some t => simp
  | none => simp [get?]

theorem get?_ofList_concat (bs : List (Nat × Ty)) (v w : Nat) (t : Ty) :
    (ofList (bs ++ [(v, t)])).get? w = if w = v then some t else (ofList bs).get? w := by
  rw [ofList, List.foldl_append]
  exact get?_insert _ v w t

theorem mem_of_get?_ofList {bs : List (Nat × Ty)} {v : Nat} {t : Ty} (h : (ofList bs).get? v = some t) :
    (v, t) ∈ bs := by
  induction bs using List.reverseRecOn with
  | nil => cases h
  | append_singleton bs b ih =>
    obtain ⟨w, u⟩ := b
    rw [get?_ofList_concat] at h
    split at h
    · next e => cases h; subst e; simp
    · exact List.mem_append_left _ (ih h)

theorem get?_ofList_isSome {bs : List (Nat × Ty)} {v : Nat} : ((ofList bs).get? v).isSome ↔ v ∈ bs.map (·.1) := by
  induction bs using List.reverseRecOn with
  | nil => simp [ofList]
  | append_singleton bs b ih =>
    obtain ⟨w, u⟩ := b
    rw [get?_ofList_concat]
    by_cases h : v = w <;> simp [h, ih]

/-- The restriction of a function to some variables. -/
def tabulate (f : Nat → Ty) (vs : List Nat) : Subst := ofList (vs.map fun v => (v, f v))

theorem get?_tabulate (f : Nat → Ty) (vs : List Nat) (v : Nat) :
    (tabulate f vs).get? v = if v ∈ vs then some (f v) else none := by
  induction vs using List.reverseRecOn with
  | nil => rfl
  | append_singleton vs w ih =>
    rw [tabulate, List.map_append, List.map_singleton, get?_ofList_concat, ← tabulate, ih]
    by_cases hw : v = w
    · simp [hw]
    · simp [hw]

/-! ## Substitutions as functions -/

/-- The type a variable stands for. -/
def toFun (s : Subst) (v : Nat) : Ty := (s.get? v).getD (.var v)

theorem toFun_of_none {s : Subst} {v : Nat} (h : s.get? v = none) : s.toFun v = .var v := by simp [toFun, h]

theorem toFun_of_some {s : Subst} {v : Nat} {t : Ty} (h : s.get? v = some t) : s.toFun v = t := by simp [toFun, h]

@[simp] theorem toFun_empty : (∅ : Subst).toFun = .var := rfl

theorem toFun_single (v : Nat) (t : Ty) : (single v t).toFun v = t := toFun_of_some (by rw [get?_single, if_pos rfl])

theorem toFun_single_of_ne {v w : Nat} (h : w ≠ v) (t : Ty) : (single v t).toFun w = .var w :=
  toFun_of_none (by rw [get?_single, if_neg h])

theorem toFun_without (s : Subst) (vs : List Nat) (v : Nat) :
    (s.without vs).toFun v = if v ∈ vs then .var v else s.toFun v := by
  rw [toFun, get?_without]
  split <;> rfl

/-! ### Properties of every bound type -/

/-- Every bound type has the property. -/
def All (P : Ty → Prop) (s : Subst) : Prop := ∀ v t, s.get? v = some t → P t

/-- Every bound type is well formed. -/
def WellFormed (s : Subst) : Prop := s.All Ty.WellFormed

/-- Every bound type is uniform. -/
def Uniform (m : Nat) (s : Subst) : Prop := s.All (Ty.Uniform m)

/-- Every bound type is plain. -/
def Plain (s : Subst) : Prop := s.All Ty.Plain

theorem All.imp {P Q : Ty → Prop} {s : Subst} (h : s.All P) (himp : ∀ t, P t → Q t) : s.All Q :=
  fun v t hv => himp t (h v t hv)

theorem all_empty {P : Ty → Prop} : (∅ : Subst).All P := fun _ _ h => by simp at h

theorem all_single {P : Ty → Prop} {t : Ty} (ht : P t) (v : Nat) : (single v t).All P :=
  fun _ _ h => (eq_of_get?_single h).2 ▸ ht

theorem All.without {P : Ty → Prop} {s : Subst} (h : s.All P) (vs : List Nat) : (s.without vs).All P := by
  intro v t hv
  rw [get?_without] at hv
  split at hv
  · cases hv
  · exact h v t hv

theorem All.toFun {P : Ty → Prop} [hP : Ty.Stable P] {s : Subst} (h : s.All P) (v : Nat) : P (s.toFun v) := by
  cases hv : s.get? v with
  | none => rw [toFun_of_none hv]; exact hP.var v
  | some t => rw [toFun_of_some hv]; exact h v t hv

theorem Uniform.wellFormed {m : Nat} {s : Subst} (h : s.Uniform m) : s.WellFormed :=
  All.imp h fun _ => Ty.Uniform.wellFormed

theorem plain_iff_uniform {s : Subst} : s.Plain ↔ s.Uniform 1 :=
  forall₂_congr fun _ _ => imp_congr_right fun _ => Ty.plain_iff_uniform

theorem Plain.uniform {s : Subst} (h : s.Plain) : s.Uniform 1 := plain_iff_uniform.1 h

end Subst

namespace Ty

theorem replaceAll_eq (s : Subst) (ts : List Ty) : replaceAll s ts = ts.map (replace s) := by
  induction ts with
  | nil => rfl
  | cons t ts ih => simp [replaceAll, ih]

theorem replaceFields_eq (s : Subst) (fs : List (String × Ty)) :
    replaceFields s fs = fs.map fun p => (p.1, p.2.replace s) := by
  induction fs with
  | nil => rfl
  | cons p fs ih => obtain ⟨k, t⟩ := p; simp [replaceFields, ih]

theorem replace_eq_subst (s : Subst) (t : Ty) : t.replace s = t.subst s.toFun := by
  induction t using Ty.ind with
  | var v => rfl
  | prim p => rfl
  | list ts ih => rw [replace, replaceAll_eq, subst_list, List.map_congr_left ih]
  | overload ts ih => rw [replace, replaceAll_eq, subst_overload, List.map_congr_left ih]
  | fn p b ihp ihb => rw [replace, ihp, ihb, subst_fn]
  | record fs o ih =>
    rw [replace, replaceFields_eq, subst_record]
    congr 1
    exact List.map_congr_left fun p hp => by rw [ih p hp]

@[simp] theorem apply_empty (t : Ty) : t.apply ∅ = t := rfl

@[simp] theorem map_apply_empty (ts : List Ty) : ts.map (apply ∅) = ts := List.map_id ts

/-- On well formed types the empty substitution is no special case. -/
theorem apply_eq_subst {t : Ty} (h : t.WellFormed) (s : Subst) : t.apply s = t.subst s.toFun := by
  rw [apply]
  split
  · next he => rw [Subst.eq_empty_of_isEmpty he, Subst.toFun_empty, subst_eq_self h fun _ _ => rfl]
  · exact replace_eq_subst s t

theorem subst_single_of_not_mem {v : Nat} {t u : Ty} (hu : u.WellFormed) (hv : v ∉ u.free) :
    u.subst (Subst.single v t).toFun = u := by
  refine subst_eq_self hu fun w hw => Subst.toFun_of_none ?_
  rw [Subst.get?_single, if_neg]
  rintro rfl
  exact hv hw

theorem apply_var (s : Subst) (v : Nat) : (Ty.var v).apply s = s.toFun v := apply_eq_subst (.var v) s

theorem mem_free_apply {s : Subst} {t : Ty} {v : Nat} :
    v ∈ (t.apply s).free ↔ ∃ w ∈ t.free, v ∈ (s.toFun w).free := by
  rw [apply]
  split
  · next he => rw [Subst.eq_empty_of_isEmpty he]; simp
  · rw [replace_eq_subst, mem_free_subst]

end Ty

namespace Subst

/-- What a type and every bound type have, the type has after the substitution. -/
theorem All.apply {P : Ty → Prop} [hP : Ty.Stable P] {s : Subst} (hs : s.All P) {t : Ty} (h : P t) : P (t.apply s) := by
  rw [Ty.apply]
  split
  · exact h
  · rw [Ty.replace_eq_subst]
    exact hP.subst h hs.toFun

theorem toFun_compose (s older : Subst) (v : Nat) : (s.compose older).toFun v = (older.toFun v).apply s := by
  cases ho : older.get? v with
  | some t => rw [toFun_of_some ho, toFun, get?_compose, ho]; rfl
  | none => rw [toFun_of_none ho, Ty.apply_var, toFun, get?_compose, ho]; rfl

/-- A binding of a composition is an older one changed, or a newer one. -/
theorem get?_compose_cases {s older : Subst} {v : Nat} {t : Ty} (h : (s.compose older).get? v = some t) :
    (∃ u, older.get? v = some u ∧ t = u.apply s) ∨ (older.get? v = none ∧ s.get? v = some t) := by
  rw [get?_compose] at h
  cases hv : older.get? v with
  | some u => rw [hv] at h; exact .inl ⟨u, rfl, (Option.some.inj h).symm⟩
  | none => rw [hv] at h; exact .inr ⟨rfl, h⟩

theorem All.compose {P : Ty → Prop} [Ty.Stable P] {s older : Subst} (hs : s.All P) (ho : older.All P) :
    (s.compose older).All P := by
  intro v t h
  rcases get?_compose_cases h with ⟨u, hu, rfl⟩ | ⟨-, h⟩
  · exact hs.apply (ho v u hu)
  · exact hs v t h

end Subst

/-- Applying a composition is applying the older substitution first. -/
theorem Ty.apply_compose {s older : Subst} {t : Ty} (h : t.WellFormed) (hs : s.WellFormed) (ho : older.WellFormed) :
    t.apply (s.compose older) = (t.apply older).apply s := by
  rw [apply_eq_subst h, apply_eq_subst (ho.apply h), apply_eq_subst h,
    subst_subst h (fun v _ => ho.toFun v) fun v _ => hs.toFun v]
  exact subst_congr fun v _ => by rw [Subst.toFun_compose, apply_eq_subst (ho.toFun v)]

/-- On plain types the newer substitution may be any. -/
theorem Ty.Plain.apply_compose {older : Subst} {t : Ty} (h : t.Plain) (ho : older.Plain) (s : Subst) :
    t.apply (s.compose older) = (t.apply older).apply s := by
  rw [apply_eq_subst h.wellFormed, apply_eq_subst (ho.apply h).wellFormed, apply_eq_subst h.wellFormed, h.subst_subst]
  exact subst_congr fun v _ => by rw [Subst.toFun_compose, apply_eq_subst (ho.toFun v).wellFormed]

/-! ## Variables from a set -/

namespace Ty

/-- A plain type with variables from a set. -/
def Over (U : Set Nat) (t : Ty) : Prop := t.Plain ∧ ∀ v ∈ t.free, v ∈ U

theorem Over.mono {U W : Set Nat} {t : Ty} (h : t.Over U) (hUW : U ⊆ W) : t.Over W :=
  ⟨h.1, fun v hv => hUW (h.2 v hv)⟩

theorem over_var {U : Set Nat} {v : Nat} : (Ty.var v).Over U ↔ v ∈ U := by
  refine ⟨fun h => h.2 v (by simp), fun h => ⟨.var v, fun w hw => ?_⟩⟩
  rwa [mem_free_var.1 hw]

theorem over_prim (U : Set Nat) (p : Prim) : (Ty.prim p).Over U := ⟨.prim p, fun _ hv => absurd hv mem_free_prim⟩

theorem over_fn {U : Set Nat} {p b : Ty} : (Ty.fn p b).Over U ↔ p.Over U ∧ b.Over U := by
  constructor
  · rintro ⟨hplain, hfree⟩
    cases hplain with | fn hp hb =>
    exact ⟨⟨hp, fun v hv => hfree v (by simp [hv])⟩, hb, fun v hv => hfree v (by simp [hv])⟩
  · rintro ⟨hp, hb⟩
    exact ⟨.fn hp.1 hb.1, fun v hv => (mem_free_fn.1 hv).elim (hp.2 v) (hb.2 v)⟩

end Ty

/-! ## Solved substitutions -/

namespace Subst

/-- Binds only variables of `V`, to types over `V` that mention no bound
variable. -/
structure SolvedIn (s : Subst) (V : Set Nat) : Prop where
  bound : ∀ v t, s.get? v = some t → v ∈ V
  range : ∀ v t, s.get? v = some t → ∀ w ∈ t.free, w ∈ V ∧ s.get? w = none

theorem solvedIn_empty (V : Set Nat) : (∅ : Subst).SolvedIn V where
  bound v t h := by simp at h
  range v t h := by simp at h

theorem solvedIn_single {V : Set Nat} {v : Nat} {t : Ty} (hv : v ∈ V) (ht : ∀ w ∈ t.free, w ∈ V) (hvt : v ∉ t.free) :
    (single v t).SolvedIn V where
  bound w u h := by
    rw [get?_single] at h
    split at h
    · next e => rwa [e]
    · cases h
  range w u h x hx := by
    rw [get?_single] at h
    split at h
    · obtain rfl := Option.some.inj h
      exact ⟨ht x hx, by rw [get?_single, if_neg]; rintro rfl; exact hvt hx⟩
    · cases h

theorem SolvedIn.mono {s : Subst} {V W : Set Nat} (h : s.SolvedIn V) (hVW : V ⊆ W) : s.SolvedIn W where
  bound v t hv := hVW (h.bound v t hv)
  range v t hv w hw := ⟨hVW (h.range v t hv w hw).1, (h.range v t hv w hw).2⟩

theorem SolvedIn.of_mem_toFun {s : Subst} {V : Set Nat} (h : s.SolvedIn V) {v w : Nat} (hv : v ∈ (s.toFun w).free) :
    s.get? v = none ∧ (v = w ∨ v ∈ V) := by
  cases hs : s.get? w with
  | none =>
    rw [toFun_of_none hs, Ty.mem_free_var] at hv
    subst hv
    exact ⟨hs, .inl rfl⟩
  | some t =>
    obtain ⟨hV, hnone⟩ := h.range w t hs v (by rwa [toFun_of_some hs] at hv)
    exact ⟨hnone, .inr hV⟩

/-- A solved substitution removes the variables it binds. -/
theorem SolvedIn.free_apply {s : Subst} {V : Set Nat} (h : s.SolvedIn V) {t : Ty} (ht : ∀ v ∈ t.free, v ∈ V) {w : Nat}
    (hw : w ∈ (t.apply s).free) : w ∈ V ∧ s.get? w = none := by
  obtain ⟨v, hv, hw⟩ := Ty.mem_free_apply.1 hw
  obtain ⟨hnone, rfl | hV⟩ := h.of_mem_toFun hw
  · exact ⟨ht w hv, hnone⟩
  · exact ⟨hV, hnone⟩

/-- What comes after a solved substitution sees only the variables it left. -/
theorem SolvedIn.compose {s older : Subst} {V : Set Nat} (ho : older.SolvedIn V)
    (hs : s.SolvedIn {v | v ∈ V ∧ older.get? v = none}) : (s.compose older).SolvedIn V := by
  have hnone : ∀ w, older.get? w = none → s.get? w = none → (s.compose older).get? w = none := by
    intro w h1 h2
    rw [get?_compose, h1, h2]
  refine ⟨fun v t h => ?_, fun v t h w hw => ?_⟩
  · rcases get?_compose_cases h with ⟨u, hu, -⟩ | ⟨-, h⟩
    · exact ho.bound v u hu
    · exact (hs.bound v t h).1
  · rcases get?_compose_cases h with ⟨u, hu, rfl⟩ | ⟨-, h⟩
    · obtain ⟨⟨hV, hold⟩, hnew⟩ := hs.free_apply (fun x hx => ho.range v u hu x hx) hw
      exact ⟨hV, hnone w hold hnew⟩
    · obtain ⟨⟨hV, hold⟩, hnew⟩ := hs.range v t h w hw
      exact ⟨hV, hnone w hold hnew⟩

theorem mem_image {s : Subst} {vs : VarSet} {v : Nat} : v ∈ s.image vs ↔ ∃ w ∈ vs, v ∈ (s.toFun w).free := by
  simp only [image, VarSet.mem_ofList, List.mem_flatMap, Ty.apply_var]
  rfl

end Subst

/-! ## Variables that a substitution leaves alone -/

/-- The function neither moves the variable nor brings it in anywhere else. -/
def Avoids (f : Nat → Ty) (v : Nat) : Prop := f v = .var v ∧ ∀ w, v ∈ (f w).free → w = v

theorem avoids_var (v : Nat) : Avoids .var v := ⟨rfl, fun _ h => (Ty.mem_free_var.1 h).symm⟩

theorem Avoids.comp {f g : Nat → Ty} {v : Nat} (hf : Avoids f v) (hg : Avoids g v) :
    Avoids (fun w => (f w).subst g) v := by
  refine ⟨?_, fun w h => ?_⟩
  · show (f v).subst g = .var v
    rw [hf.1, Ty.subst_var, hg.1]
  · obtain ⟨u, hu, hv⟩ := Ty.mem_free_subst.1 h
    obtain rfl := hg.2 u hv
    exact hf.2 w hu

theorem Subst.SolvedIn.avoids {s : Subst} {V : Set Nat} (h : s.SolvedIn V) {v : Nat} (hv : v ∉ V) :
    Avoids s.toFun v := by
  refine ⟨toFun_of_none ?_, fun w hw => ?_⟩
  · cases hs : s.get? v with
    | none => rfl
    | some t => exact absurd (h.bound v t hs) hv
  · cases hs : s.get? w with
    | none => rw [toFun_of_none hs] at hw; exact (Ty.mem_free_var.1 hw).symm
    | some t => exact absurd (h.range w t hs v (by rwa [toFun_of_some hs] at hw)).1 hv

/-! ## Schemes -/

namespace Scheme

theorem mem_free {σ : Scheme} {v : Nat} : v ∈ σ.free ↔ v ∈ σ.ty.free ∧ v ∉ σ.vars := by simp [free]

theorem mem_vars_generalize {M : VarSet} {t : Ty} {v : Nat} : v ∈ (generalize M t).vars ↔ v ∈ t.free ∧ v ∉ M := by
  rw [← VarSet.mem_diff]
  rfl

theorem mem_free_generalize {M : VarSet} {t : Ty} {v : Nat} : v ∈ (generalize M t).free ↔ v ∈ t.free ∧ v ∈ M := by
  rw [mem_free, mem_vars_generalize]
  show v ∈ t.free ∧ _ ↔ _
  grind

/-- A variable that a substitution brings into a scheme stays free there unless the scheme quantifies it. -/
theorem mem_free_apply {s : Subst} {σ : Scheme} {v : Nat} :
    v ∈ (σ.apply s).free ↔ (∃ w ∈ σ.free, v ∈ (s.toFun w).free) ∧ v ∉ σ.vars := by
  rw [mem_free]
  refine and_congr_left fun hvars => ?_
  show v ∈ (σ.ty.apply (s.without σ.vars)).free ↔ _
  rw [Ty.mem_free_apply]
  refine exists_congr fun w => ?_
  rw [Subst.toFun_without, mem_free, and_assoc]
  refine and_congr_right fun _ => ?_
  by_cases hq : w ∈ σ.vars
  · rw [if_pos hq, Ty.mem_free_var]
    exact ⟨fun h => absurd (h ▸ hq) hvars, fun h => absurd hq h.1⟩
  · rw [if_neg hq]
    exact (and_iff_right hq).symm

/-- Applying a substitution to a scheme brings in no variable from elsewhere. -/
theorem free_apply {s : Subst} {σ : Scheme} {v : Nat} (h : v ∈ (σ.apply s).free) :
    ∃ w ∈ σ.free, v ∈ (s.toFun w).free := (mem_free_apply.1 h).1

/-- A scheme that quantifies all it mentions can be normalised. -/
theorem normalize_of_forall_mem {σ : Scheme} (h : ∀ v ∈ σ.ty.free, v ∈ σ.vars) : σ.normalize = .ok (renumber σ.ty) := by
  have hnone : σ.ty.varsInOrder.find? (fun v => decide (v ∉ σ.vars)) = none := by
    rw [List.find?_eq_none]
    exact fun v hv => by simpa using h v (Ty.mem_varsInOrder.1 hv)
  rw [normalize, hnone]

theorem normalize_generalize_eq (t : Ty) : (generalize ∅ t).normalize = .ok (renumber t) :=
  normalize_of_forall_mem fun _ hv => mem_vars_generalize.2 ⟨hv, VarSet.mem_empty⟩

theorem closeOver_eq (t : Ty) : closeOver t = renumber t := by rw [closeOver, normalize_generalize_eq]

theorem vars_closeOver (t : Ty) : (closeOver t).vars = List.range t.varsInOrder.length := by rw [closeOver_eq, renumber]

/-- Closing over a type is generalising it over nothing and normalising. -/
theorem normalize_generalize (t : Ty) : (generalize ∅ t).normalize = .ok (closeOver t) := by
  rw [normalize_generalize_eq, closeOver_eq]

/-- The quantified variables renamed to fresh ones. -/
def freshening (σ : Scheme) (next : Nat) : Subst := .ofList (σ.vars.zipIdx.map fun (v, i) => (v, .var (next + i)))

theorem instantiate_eq (σ : Scheme) (next : Nat) :
    σ.instantiate next = (σ.ty.apply (σ.freshening next), next + σ.vars.length) := rfl

theorem get?_freshening {σ : Scheme} {next v : Nat} {t : Ty} (h : (σ.freshening next).get? v = some t) :
    ∃ i, σ.vars[i]? = some v ∧ t = .var (next + i) := by
  obtain ⟨⟨w, i⟩, hi, he⟩ := List.mem_map.1 (Subst.mem_of_get?_ofList h)
  cases he
  exact ⟨i, List.mem_zipIdx_iff_getElem?.1 hi, rfl⟩

theorem get?_freshening_of_not_mem {σ : Scheme} {next v : Nat} (hv : v ∉ σ.vars) :
    (σ.freshening next).get? v = none := by
  cases h : (σ.freshening next).get? v with
  | none => rfl
  | some t =>
    obtain ⟨i, hi, -⟩ := get?_freshening h
    exact absurd (List.mem_of_getElem? hi) hv

theorem get?_freshening_of_mem {σ : Scheme} (next : Nat) {v : Nat} (hv : v ∈ σ.vars) :
    ∃ i, σ.vars[i]? = some v ∧ (σ.freshening next).get? v = some (.var (next + i)) := by
  obtain ⟨j, hj⟩ := List.mem_iff_getElem?.1 hv
  have hmem : v ∈ (σ.vars.zipIdx.map fun (v, i) => (v, Ty.var (next + i))).map (·.1) :=
    List.mem_map.2 ⟨_, List.mem_map.2 ⟨(v, j), List.mem_zipIdx_iff_getElem?.2 hj, rfl⟩, rfl⟩
  obtain ⟨t, ht⟩ := Option.isSome_iff_exists.1 (Subst.get?_ofList_isSome.2 hmem)
  obtain ⟨i, hi, rfl⟩ := get?_freshening ht
  exact ⟨i, hi, ht⟩

theorem all_freshening {P : Ty → Prop} [hP : Ty.Stable P] (σ : Scheme) (next : Nat) : (σ.freshening next).All P := by
  intro v t h
  obtain ⟨i, -, rfl⟩ := get?_freshening h
  exact hP.var _

/-- The variables of an instance are free in the scheme or fresh. -/
theorem free_instance {σ : Scheme} {next v : Nat} (h : v ∈ (σ.ty.apply (σ.freshening next)).free) :
    v ∈ σ.free ∨ (next ≤ v ∧ v < next + σ.vars.length) := by
  obtain ⟨w, hw, hv⟩ := Ty.mem_free_apply.1 h
  by_cases hq : w ∈ σ.vars
  · obtain ⟨i, hi, hget⟩ := get?_freshening_of_mem next hq
    rw [Subst.toFun_of_some hget, Ty.mem_free_var] at hv
    have hlt := (List.getElem?_eq_some_iff.1 hi).1
    exact .inr (by omega)
  · rw [Subst.toFun_of_none (get?_freshening_of_not_mem hq), Ty.mem_free_var] at hv
    exact .inl (mem_free.2 ⟨hv ▸ hw, hv ▸ hq⟩)

end Scheme

end NixTyping
