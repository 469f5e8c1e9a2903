import Mathlib.Data.List.Basic
import Mathlib.Data.List.Induction
import NixTyping.Subst
/-!
# Types under substitution

`Ty.subst` replaces the variables of a type by a function and rebuilds overload
sets as `Ty.apply` does. A type is well formed when each of its overload sets
has at least two distinct alternatives and none of them is an overload set.

`Ty.mem_free_subst` holds of every type: the variables of the result are those
of the images. `Ty.subst_subst` needs well formed types: two substitutions in a
row are one, although the first may flatten, shorten or collapse an overload set.
-/

namespace NixTyping

/-! ## Distinct elements -/

section Distinct
variable {α β : Type} [DecidableEq α]

theorem distinct_concat (xs : List α) (x : α) :
    distinct (xs ++ [x]) = if x ∈ distinct xs then distinct xs else distinct xs ++ [x] := by
  rw [distinct, List.foldl_append]; rfl

@[simp] theorem mem_distinct {xs : List α} {x : α} : x ∈ distinct xs ↔ x ∈ xs := by
  induction xs using List.reverseRecOn generalizing x with
  | nil => simp [distinct]
  | append_singleton xs y ih =>
    rw [distinct_concat, List.mem_append, List.mem_singleton]
    split
    · next h => exact ⟨fun hx => .inl (ih.1 hx), fun hx => hx.elim ih.2 fun e => e ▸ h⟩
    · rw [List.mem_append, List.mem_singleton, ih]

theorem nodup_distinct (xs : List α) : (distinct xs).Nodup := by
  induction xs using List.reverseRecOn with
  | nil => exact List.nodup_nil
  | append_singleton xs y ih =>
    rw [distinct_concat]
    split
    · exact ih
    · next h => exact List.nodup_append.2 ⟨ih, by simp, by rintro x hx _ hy rfl; simp_all⟩

theorem distinct_append (xs ys : List α) :
    distinct (xs ++ ys) = distinct xs ++ (distinct ys).filter fun y => decide (y ∉ xs) := by
  induction ys using List.reverseRecOn with
  | nil => simp [distinct]
  | append_singleton ys y ih =>
    rw [← List.append_assoc, distinct_concat, distinct_concat, ih]
    by_cases hy : y ∈ ys
    · simp [hy]
    · by_cases hx : y ∈ xs <;> simp [hx, hy]

theorem distinct_of_nodup {xs : List α} (h : xs.Nodup) : distinct xs = xs := by
  induction xs using List.reverseRecOn with
  | nil => rfl
  | append_singleton xs y ih =>
    rw [List.nodup_append] at h
    have hy : y ∉ xs := fun hy => h.2.2 y hy y (by simp) rfl
    rw [distinct_concat, ih h.1, if_neg hy]

/-- Repeats in a list only repeat what `f` makes of them. -/
theorem distinct_flatMap_distinct [DecidableEq β] (f : β → List α) (xs : List β) :
    distinct ((distinct xs).flatMap f) = distinct (xs.flatMap f) := by
  induction xs using List.reverseRecOn with
  | nil => rfl
  | append_singleton xs y ih =>
    rw [distinct_concat, List.flatMap_append, distinct_append]
    split
    · next hy =>
      have hin : ∀ a ∈ f y, a ∈ xs.flatMap f := fun a ha => List.mem_flatMap.2 ⟨y, mem_distinct.1 hy, ha⟩
      have hnil : (distinct ([y].flatMap f)).filter (fun a => decide (a ∉ xs.flatMap f)) = [] := by
        rw [List.filter_eq_nil_iff]
        intro a ha
        simpa using hin a (by simpa using ha)
      rw [hnil, List.append_nil, ih]
    · rw [List.flatMap_append, distinct_append, ih]
      simp

theorem distinct_flatMap_congr {f g : β → List α} {xs : List β} (h : ∀ x ∈ xs, distinct (f x) = distinct (g x)) :
    distinct (xs.flatMap f) = distinct (xs.flatMap g) := by
  induction xs using List.reverseRecOn with
  | nil => rfl
  | append_singleton xs y ih =>
    have hy : distinct (f y) = distinct (g y) := h y (by simp)
    have hxs := ih fun x hx => h x (by simp [hx])
    have hmem : ∀ a, a ∈ xs.flatMap f ↔ a ∈ xs.flatMap g := fun a => by
      rw [← mem_distinct, hxs, mem_distinct]
    simp only [List.flatMap_append, List.flatMap_cons, List.flatMap_nil, List.append_nil]
    rw [distinct_append, distinct_append, hxs, hy]
    simp only [hmem]
end Distinct

namespace Ty

/-! ## Induction -/

/-- Induction on types: a property of all parts passes to the whole. -/
@[elab_as_elim]
theorem ind {P : Ty → Prop} (var : ∀ v, P (.var v)) (prim : ∀ p, P (.prim p))
    (list : ∀ ts, (∀ t ∈ ts, P t) → P (.list ts)) (fn : ∀ p b, P p → P b → P (.fn p b))
    (record : ∀ fs o, (∀ f ∈ fs, P f.2) → P (.record fs o))
    (overload : ∀ ts, (∀ t ∈ ts, P t) → P (.overload ts)) (t : Ty) : P t := by
  refine @Ty.rec P (fun ts => ∀ t ∈ ts, P t) (fun fs => ∀ f ∈ fs, P f.2) (fun f => P f.2)
    var prim list fn record overload (by simp) ?_ (by simp) ?_ (fun _ _ ih => ih) t
  · intro t ts iht ihts u hu
    rcases List.mem_cons.1 hu with rfl | hu
    · exact iht
    · exact ihts u hu
  · intro f fs ihf ihfs g hg
    rcases List.mem_cons.1 hg with rfl | hg
    · exact ihf
    · exact ihfs g hg

/-! ## Variables -/

theorem mem_free {t : Ty} {v : Nat} : v ∈ t.free ↔ v ∈ t.mentions := VarSet.mem_ofList

theorem mem_varsInOrder {t : Ty} {v : Nat} : v ∈ t.varsInOrder ↔ v ∈ t.free := mem_distinct.trans mem_free.symm

theorem nodup_varsInOrder (t : Ty) : t.varsInOrder.Nodup := nodup_distinct _

theorem mem_mentionsAll {ts : List Ty} {v : Nat} : v ∈ mentionsAll ts ↔ ∃ t ∈ ts, v ∈ t.free := by
  induction ts with
  | nil => simp [mentionsAll]
  | cons t ts ih => simp [mentionsAll, ih, mem_free]

theorem mem_mentionsFields {fs : List (String × Ty)} {v : Nat} :
    v ∈ mentionsFields fs ↔ ∃ f ∈ fs, v ∈ f.2.free := by
  induction fs with
  | nil => simp [mentionsFields]
  | cons f fs ih => obtain ⟨k, t⟩ := f; simp [mentionsFields, ih, mem_free]

@[simp] theorem mem_free_var {v w : Nat} : v ∈ (Ty.var w).free ↔ v = w := by simp [mem_free, mentions]

@[simp] theorem mem_free_prim {v : Nat} {p : Prim} : v ∉ (Ty.prim p).free := by simp [mem_free, mentions]

@[simp] theorem mem_free_list {v : Nat} {ts : List Ty} : v ∈ (Ty.list ts).free ↔ ∃ t ∈ ts, v ∈ t.free := by
  simp [mem_free, mentions, mem_mentionsAll]

@[simp] theorem mem_free_fn {v : Nat} {p b : Ty} : v ∈ (Ty.fn p b).free ↔ v ∈ p.free ∨ v ∈ b.free := by
  simp [mem_free, mentions]

@[simp] theorem mem_free_record {v : Nat} {fs : List (String × Ty)} {o : Bool} :
    v ∈ (Ty.record fs o).free ↔ ∃ f ∈ fs, v ∈ f.2.free := by
  simp [mem_free, mentions, mem_mentionsFields]

@[simp] theorem mem_free_overload {v : Nat} {ts : List Ty} :
    v ∈ (Ty.overload ts).free ↔ ∃ t ∈ ts, v ∈ t.free := by
  simp [mem_free, mentions, mem_mentionsAll]

theorem occursAny_eq (v : Nat) (ts : List Ty) : occursAny v ts = ts.any (occurs v) := by
  induction ts with
  | nil => rfl
  | cons t ts ih => simp [occursAny, ih]

theorem occursField_eq (v : Nat) (fs : List (String × Ty)) : occursField v fs = fs.any (fun f => occurs v f.2) := by
  induction fs with
  | nil => rfl
  | cons f fs ih => obtain ⟨k, t⟩ := f; simp [occursField, ih]

theorem occurs_iff {v : Nat} {t : Ty} : t.occurs v = true ↔ v ∈ t.free := by
  induction t using Ty.ind with
  | var w => simp [occurs, eq_comm]
  | prim p => simp [occurs]
  | list ts ih | overload ts ih =>
    simp only [occurs, occursAny_eq, List.any_eq_true, mem_free_list, mem_free_overload]
    exact exists_congr fun t => and_congr_right (ih t)
  | fn p b ihp ihb => simp [occurs, ihp, ihb]
  | record fs o ih =>
    simp only [occurs, occursField_eq, List.any_eq_true, mem_free_record]
    exact exists_congr fun f => and_congr_right (ih f)

/-! ## Overload sets -/

/-- The type is not an overload set. -/
def Single (t : Ty) : Prop := ∀ alts, t ≠ .overload alts

theorem alternatives_of_single {t : Ty} (h : t.Single) : t.alternatives = [t] := by
  cases t with
  | overload alts => exact absurd rfl (h alts)
  | _ => rfl

theorem mem_free_alternatives {t : Ty} {v : Nat} : (∃ a ∈ t.alternatives, v ∈ a.free) ↔ v ∈ t.free := by
  cases t <;> simp [alternatives]

/-- The alternatives that the overload set of a list of types has. -/
def altsOf (ts : List Ty) : List Ty := distinct (ts.flatMap alternatives)

theorem overloads_cases (ts : List Ty) :
    (∃ t, altsOf ts = [t] ∧ overloads ts = t) ∨ ((∀ t, altsOf ts ≠ [t]) ∧ overloads ts = .overload (altsOf ts)) := by
  unfold overloads altsOf
  split
  · next t h => exact .inl ⟨t, h, rfl⟩
  · next h => exact .inr ⟨fun t ht => h t ht, rfl⟩

theorem mem_altsOf {ts : List Ty} {a : Ty} : a ∈ altsOf ts ↔ ∃ t ∈ ts, a ∈ t.alternatives := by simp [altsOf]

theorem mem_free_overloads {ts : List Ty} {v : Nat} : v ∈ (overloads ts).free ↔ ∃ t ∈ ts, v ∈ t.free := by
  have hm : (∃ a ∈ altsOf ts, v ∈ a.free) ↔ ∃ t ∈ ts, v ∈ t.free := by
    constructor
    · rintro ⟨a, ha, hv⟩
      obtain ⟨t, ht, hat⟩ := mem_altsOf.1 ha
      exact ⟨t, ht, mem_free_alternatives.1 ⟨a, hat, hv⟩⟩
    · rintro ⟨t, ht, hv⟩
      obtain ⟨a, ha, hv⟩ := mem_free_alternatives.2 hv
      exact ⟨a, mem_altsOf.2 ⟨t, ht, ha⟩, hv⟩
  rcases overloads_cases ts with ⟨t, ht, he⟩ | ⟨-, he⟩
  · rw [he, ← hm, ht]; simp
  · rw [he, mem_free_overload, hm]

/-- Opening the overload set of a list gives its alternatives back. -/
theorem alternatives_overloads {ts : List Ty} (h : ∀ t ∈ ts, ∀ a ∈ t.alternatives, a.Single) :
    (overloads ts).alternatives = altsOf ts := by
  rcases overloads_cases ts with ⟨t, ht, he⟩ | ⟨-, he⟩
  · obtain ⟨u, hu, htu⟩ := mem_altsOf.1 (show t ∈ altsOf ts by simp [ht])
    rw [he, ht, alternatives_of_single (h u hu t htu)]
  · rw [he]; rfl

/-! ## Substitution by a function -/

mutual

/-- Replace every variable by its image and rebuild overload sets. -/
def subst (f : Nat → Ty) : Ty → Ty
  | .var v => f v
  | .prim p => .prim p
  | .list ts => .list (substAll f ts)
  | .fn p b => .fn (subst f p) (subst f b)
  | .record fs o => .record (substFields f fs) o
  | .overload ts => overloads (substAll f ts)

def substAll (f : Nat → Ty) : List Ty → List Ty
  | [] => []
  | t :: ts => subst f t :: substAll f ts

def substFields (f : Nat → Ty) : List (String × Ty) → List (String × Ty)
  | [] => []
  | (k, t) :: fs => (k, subst f t) :: substFields f fs

end

theorem substAll_eq (f : Nat → Ty) (ts : List Ty) : substAll f ts = ts.map (subst f) := by
  induction ts with
  | nil => rfl
  | cons t ts ih => simp [substAll, ih]

theorem substFields_eq (f : Nat → Ty) (fs : List (String × Ty)) :
    substFields f fs = fs.map fun p => (p.1, p.2.subst f) := by
  induction fs with
  | nil => rfl
  | cons p fs ih => obtain ⟨k, t⟩ := p; simp [substFields, ih]

@[simp] theorem subst_var (f : Nat → Ty) (v : Nat) : (Ty.var v).subst f = f v := rfl

@[simp] theorem subst_prim (f : Nat → Ty) (p : Prim) : (Ty.prim p).subst f = .prim p := rfl

@[simp] theorem subst_fn (f : Nat → Ty) (p b : Ty) : (Ty.fn p b).subst f = .fn (p.subst f) (b.subst f) := rfl

@[simp] theorem subst_list (f : Nat → Ty) (ts : List Ty) : (Ty.list ts).subst f = .list (ts.map (subst f)) := by
  rw [subst, substAll_eq]

@[simp] theorem subst_record (f : Nat → Ty) (fs : List (String × Ty)) (o : Bool) :
    (Ty.record fs o).subst f = .record (fs.map fun p => (p.1, p.2.subst f)) o := by
  rw [subst, substFields_eq]

@[simp] theorem subst_overload (f : Nat → Ty) (ts : List Ty) :
    (Ty.overload ts).subst f = overloads (ts.map (subst f)) := by
  rw [subst, substAll_eq]

/-- The variables of the result are those of the images. -/
theorem mem_free_subst {f : Nat → Ty} {t : Ty} {v : Nat} :
    v ∈ (t.subst f).free ↔ ∃ w ∈ t.free, v ∈ (f w).free := by
  induction t using Ty.ind with
  | var w => simp
  | prim p => simp
  | list ts ih | overload ts ih =>
    simp only [subst_list, subst_overload, mem_free_overloads, mem_free_list, mem_free_overload, List.mem_map]
    constructor
    · rintro ⟨_, ⟨t, ht, rfl⟩, hv⟩
      obtain ⟨w, hw, hv⟩ := (ih t ht).1 hv
      exact ⟨w, ⟨t, ht, hw⟩, hv⟩
    · rintro ⟨w, ⟨t, ht, hw⟩, hv⟩
      exact ⟨_, ⟨t, ht, rfl⟩, (ih t ht).2 ⟨w, hw, hv⟩⟩
  | fn p b ihp ihb =>
    simp only [subst_fn, mem_free_fn, ihp, ihb]
    constructor
    · rintro (⟨w, hw, hv⟩ | ⟨w, hw, hv⟩)
      · exact ⟨w, .inl hw, hv⟩
      · exact ⟨w, .inr hw, hv⟩
    · rintro ⟨w, hw | hw, hv⟩
      · exact .inl ⟨w, hw, hv⟩
      · exact .inr ⟨w, hw, hv⟩
  | record fs o ih =>
    simp only [subst_record, mem_free_record, List.mem_map]
    constructor
    · rintro ⟨_, ⟨p, hp, rfl⟩, hv⟩
      obtain ⟨w, hw, hv⟩ := (ih p hp).1 hv
      exact ⟨w, ⟨p, hp, hw⟩, hv⟩
    · rintro ⟨w, ⟨p, hp, hw⟩, hv⟩
      exact ⟨_, ⟨p, hp, rfl⟩, (ih p hp).2 ⟨w, hw, hv⟩⟩

theorem subst_congr {f g : Nat → Ty} {t : Ty} (h : ∀ v ∈ t.free, f v = g v) : t.subst f = t.subst g := by
  induction t using Ty.ind with
  | var v => exact h v (by simp)
  | prim p => rfl
  | list ts ih | overload ts ih =>
    have hmap : ts.map (subst f) = ts.map (subst g) :=
      List.map_congr_left fun t ht => ih t ht fun v hv => h v (by simpa using ⟨t, ht, hv⟩)
    simp only [subst_list, subst_overload, hmap]
  | fn p b ihp ihb =>
    rw [subst_fn, subst_fn, ihp fun v hv => h v (by simp [hv]), ihb fun v hv => h v (by simp [hv])]
  | record fs o ih =>
    rw [subst_record, subst_record]
    congr 1
    exact List.map_congr_left fun p hp => by rw [ih p hp fun v hv => h v (mem_free_record.2 ⟨p, hp, hv⟩)]

/-! ## Well formed types -/

/-- Every overload set has at least two alternatives, all distinct, and none of
them is an overload set. -/
inductive WellFormed : Ty → Prop where
  | var (v : Nat) : WellFormed (.var v)
  | prim (p : Prim) : WellFormed (.prim p)
  | list {ts : List Ty} (parts : ∀ t ∈ ts, WellFormed t) : WellFormed (.list ts)
  | fn {p b : Ty} (param : WellFormed p) (body : WellFormed b) : WellFormed (.fn p b)
  | record {fs : List (String × Ty)} {o : Bool} (parts : ∀ f ∈ fs, WellFormed f.2) : WellFormed (.record fs o)
  | overload {ts : List Ty} (parts : ∀ t ∈ ts, WellFormed t) (single : ∀ t ∈ ts, t.Single) (nodup : ts.Nodup)
    (many : 2 ≤ ts.length) : WellFormed (.overload ts)

@[simp] theorem wellFormed_var (v : Nat) : (Ty.var v).WellFormed := .var v

@[simp] theorem wellFormed_prim (p : Prim) : (Ty.prim p).WellFormed := .prim p

@[simp] theorem wellFormed_fn {p b : Ty} : (Ty.fn p b).WellFormed ↔ p.WellFormed ∧ b.WellFormed :=
  ⟨fun h => by cases h with | fn hp hb => exact ⟨hp, hb⟩, fun h => .fn h.1 h.2⟩

@[simp] theorem wellFormed_list {ts : List Ty} : (Ty.list ts).WellFormed ↔ ∀ t ∈ ts, t.WellFormed :=
  ⟨fun h => by cases h with | list parts => exact parts, .list⟩

@[simp] theorem wellFormed_record {fs : List (String × Ty)} {o : Bool} :
    (Ty.record fs o).WellFormed ↔ ∀ f ∈ fs, f.2.WellFormed :=
  ⟨fun h => by cases h with | record parts => exact parts, .record⟩

@[simp] theorem wellFormed_overload {ts : List Ty} :
    (Ty.overload ts).WellFormed ↔ (∀ t ∈ ts, t.WellFormed ∧ t.Single) ∧ ts.Nodup ∧ 2 ≤ ts.length := by
  constructor
  · intro h
    cases h with | overload parts single nodup many => exact ⟨fun t ht => ⟨parts t ht, single t ht⟩, nodup, many⟩
  · rintro ⟨parts, nodup, many⟩
    exact .overload (fun t ht => (parts t ht).1) (fun t ht => (parts t ht).2) nodup many

theorem WellFormed.alternatives {t a : Ty} (h : t.WellFormed) (ha : a ∈ t.alternatives) : a.WellFormed ∧ a.Single := by
  cases h with
  | overload parts single _ _ => exact ⟨parts a ha, single a ha⟩
  | _ =>
    simp only [Ty.alternatives, List.mem_singleton] at ha
    subst ha
    exact ⟨by constructor <;> assumption, by rintro alts ⟨⟩⟩

theorem WellFormed.alternatives_nodup {t : Ty} (h : t.WellFormed) : t.alternatives.Nodup := by
  cases h with
  | overload _ _ nodup _ => exact nodup
  | _ => simp [Ty.alternatives]

theorem WellFormed.alternatives_ne_nil {t : Ty} (h : t.WellFormed) : t.alternatives ≠ [] := by
  cases h with
  | overload _ _ _ many => rintro rfl; simp at many
  | _ => simp [Ty.alternatives]

theorem overloads_congr {ts us : List Ty} (h : altsOf ts = altsOf us) : overloads ts = overloads us := by
  unfold altsOf at h
  rw [overloads, overloads, h]

theorem overloads_singleton {t : Ty} (h : t.WellFormed) : overloads [t] = t := by
  have ha : altsOf [t] = t.alternatives := by
    rw [altsOf, List.flatMap_singleton, distinct_of_nodup h.alternatives_nodup]
  rcases overloads_cases [t] with ⟨u, hu, he⟩ | ⟨hne, he⟩
  · cases h with
    | overload _ _ _ many => rw [ha] at hu; simp [Ty.alternatives] at hu; simp [hu] at many
    | _ => rw [ha] at hu; simp [Ty.alternatives] at hu; rw [he, hu]
  · cases h with
    | overload _ _ _ many => rw [he, ha]; rfl
    | _ => exact absurd ha (hne _)

theorem overloads_eq_self {ts : List Ty} (h : (Ty.overload ts).WellFormed) : overloads ts = .overload ts := by
  rw [← overloads_singleton h]
  exact overloads_congr (by
    cases h with
    | overload parts single nodup _ =>
      have hflat : ts.flatMap Ty.alternatives = ts := by
        rw [List.flatMap_congr fun t ht => alternatives_of_single (single t ht)]
        simp
      rw [altsOf, altsOf, hflat, List.flatMap_singleton]
      rfl)

theorem WellFormed.overloads {ts : List Ty} (hne : ts ≠ []) (h : ∀ t ∈ ts, t.WellFormed) :
    (Ty.overloads ts).WellFormed := by
  have hmem : ∀ a ∈ altsOf ts, a.WellFormed ∧ a.Single := by
    intro a ha
    obtain ⟨t, ht, hat⟩ := mem_altsOf.1 ha
    exact (h t ht).alternatives hat
  rcases overloads_cases ts with ⟨t, ht, he⟩ | ⟨hsingle, he⟩
  · rw [he]
    exact (hmem t (by simp [ht])).1
  · rw [he]
    refine .overload (fun a ha => (hmem a ha).1) (fun a ha => (hmem a ha).2) (nodup_distinct _) ?_
    obtain ⟨t, ht⟩ := List.exists_mem_of_ne_nil ts hne
    obtain ⟨a, ha⟩ := List.exists_mem_of_ne_nil _ (h t ht).alternatives_ne_nil
    have hin : a ∈ altsOf ts := mem_altsOf.2 ⟨t, ht, ha⟩
    generalize altsOf ts = as at hin hsingle
    match as, hin, hsingle with
    | [b], _, hsingle => exact absurd rfl (hsingle b)
    | _ :: _ :: _, _, _ => simp

theorem WellFormed.subst {f : Nat → Ty} {t : Ty} (h : t.WellFormed) (hf : ∀ v ∈ t.free, (f v).WellFormed) :
    (t.subst f).WellFormed := by
  induction h with
  | var v => exact hf v (by simp)
  | prim p => exact .prim p
  | list parts ih =>
    rw [subst_list]
    refine .list fun u hu => ?_
    obtain ⟨t, ht, rfl⟩ := List.mem_map.1 hu
    exact ih t ht fun v hv => hf v (mem_free_list.2 ⟨t, ht, hv⟩)
  | fn param body ihp ihb =>
    exact .fn (ihp fun v hv => hf v (by simp [hv])) (ihb fun v hv => hf v (by simp [hv]))
  | record parts ih =>
    rw [subst_record]
    refine .record fun g hg => ?_
    obtain ⟨p, hp, rfl⟩ := List.mem_map.1 hg
    exact ih p hp fun v hv => hf v (mem_free_record.2 ⟨p, hp, hv⟩)
  | overload parts single nodup many ih =>
    rw [subst_overload]
    refine WellFormed.overloads (by rintro h; simp_all) fun u hu => ?_
    obtain ⟨t, ht, rfl⟩ := List.mem_map.1 hu
    exact ih t ht fun v hv => hf v (mem_free_overload.2 ⟨t, ht, hv⟩)

/-- A substitution that moves no variable of a type leaves the type alone. -/
theorem subst_eq_self {f : Nat → Ty} {t : Ty} (h : t.WellFormed) (hf : ∀ v ∈ t.free, f v = .var v) : t.subst f = t := by
  induction h with
  | var v => exact hf v (by simp)
  | prim p => rfl
  | @list ts parts ih =>
    have hmap : ts.map (Ty.subst f) = ts :=
      (List.map_congr_left fun t ht => ih t ht fun v hv => hf v (mem_free_list.2 ⟨t, ht, hv⟩)).trans (List.map_id ts)
    rw [subst_list, hmap]
  | fn param body ihp ihb =>
    rw [subst_fn, ihp fun v hv => hf v (by simp [hv]), ihb fun v hv => hf v (by simp [hv])]
  | @record fs o parts ih =>
    have hmap : fs.map (fun p => (p.1, p.2.subst f)) = fs :=
      (List.map_congr_left fun p hp => by
        rw [ih p hp fun v hv => hf v (mem_free_record.2 ⟨p, hp, hv⟩)]; rfl).trans (List.map_id fs)
    rw [subst_record, hmap]
  | @overload ts parts single nodup many ih =>
    have hmap : ts.map (Ty.subst f) = ts :=
      (List.map_congr_left fun t ht => ih t ht fun v hv => hf v (mem_free_overload.2 ⟨t, ht, hv⟩)).trans
        (List.map_id ts)
    rw [subst_overload, hmap, overloads_eq_self (.overload parts single nodup many)]

theorem distinct_alternatives_subst {g : Nat → Ty} {t : Ty} (h : t.WellFormed) (hg : ∀ v ∈ t.free, (g v).WellFormed) :
    distinct (t.alternatives.flatMap fun a => (a.subst g).alternatives) = distinct (t.subst g).alternatives := by
  cases h with
  | @overload ts parts single nodup many =>
    have hsingle : ∀ u ∈ ts.map (subst g), ∀ a ∈ u.alternatives, a.Single := by
      intro u hu a ha
      obtain ⟨t, ht, rfl⟩ := List.mem_map.1 hu
      exact (((parts t ht).subst fun v hv => hg v (mem_free_overload.2 ⟨t, ht, hv⟩)).alternatives ha).2
    rw [subst_overload, alternatives_overloads hsingle, altsOf, distinct_of_nodup (nodup_distinct _), List.flatMap_map]
    rfl
  | _ => simp [alternatives]

/-- Building an overload set and substituting can be done in either order. -/
theorem subst_overloads {g : Nat → Ty} {ts : List Ty} (h : ∀ t ∈ ts, t.WellFormed)
    (hg : ∀ t ∈ ts, ∀ v ∈ t.free, (g v).WellFormed) : (overloads ts).subst g = overloads (ts.map (subst g)) := by
  -- both sides have the same alternatives in the same order, so `overloads` builds the same type
  have halts : altsOf ((altsOf ts).map (subst g)) = altsOf (ts.map (subst g)) := by
    rw [altsOf, altsOf, altsOf, List.flatMap_map, List.flatMap_map, distinct_flatMap_distinct, List.flatMap_assoc]
    exact distinct_flatMap_congr fun t ht => distinct_alternatives_subst (h t ht) (hg t ht)
  rcases overloads_cases ts with ⟨t, ht, he⟩ | ⟨-, he⟩
  · have hwf : (t.subst g).WellFormed := by
      obtain ⟨u, hu, htu⟩ := mem_altsOf.1 (show t ∈ altsOf ts by simp [ht])
      exact ((h u hu).alternatives htu).1.subst fun v hv => hg u hu v (mem_free_alternatives.1 ⟨t, htu, hv⟩)
    rw [he, ← overloads_singleton hwf]
    exact overloads_congr (by rw [← halts, ht]; rfl)
  · rw [he, subst_overload]
    exact overloads_congr halts

/-- Two substitutions in a row are one. -/
theorem subst_subst {f g : Nat → Ty} {t : Ty} (h : t.WellFormed) (hf : ∀ v ∈ t.free, (f v).WellFormed)
    (hg : ∀ v ∈ (t.subst f).free, (g v).WellFormed) : (t.subst f).subst g = t.subst fun v => (f v).subst g := by
  induction h with
  | var v => rfl
  | prim p => rfl
  | @list ts parts ih =>
    simp only [subst_list, List.map_map, list.injEq]
    refine List.map_congr_left fun t ht => ih t ht (fun v hv => hf v (mem_free_list.2 ⟨t, ht, hv⟩)) fun v hv => hg v ?_
    rw [subst_list]
    exact mem_free_list.2 ⟨_, List.mem_map_of_mem ht, hv⟩
  | fn param body ihp ihb =>
    rw [subst_fn, subst_fn, subst_fn, ihp (fun v hv => hf v (by simp [hv])) fun v hv => hg v (by simp [hv]),
      ihb (fun v hv => hf v (by simp [hv])) fun v hv => hg v (by simp [hv])]
  | @record fs o parts ih =>
    simp only [subst_record, List.map_map, record.injEq, and_true]
    refine List.map_congr_left fun p hp => ?_
    rw [Function.comp_apply, ih p hp (fun v hv => hf v (mem_free_record.2 ⟨p, hp, hv⟩)) fun v hv => hg v ?_]
    rw [subst_record]
    exact mem_free_record.2 ⟨_, List.mem_map_of_mem hp, hv⟩
  | @overload ts parts single nodup many ih =>
    have hfree : ∀ t ∈ ts, ∀ v ∈ (t.subst f).free, v ∈ ((Ty.overload ts).subst f).free := by
      intro t ht v hv
      rw [subst_overload]
      exact mem_free_overloads.2 ⟨_, List.mem_map_of_mem ht, hv⟩
    have hwf : ∀ t ∈ ts, (t.subst f).WellFormed := fun t ht =>
      (parts t ht).subst fun v hv => hf v (mem_free_overload.2 ⟨t, ht, hv⟩)
    have hmap : (ts.map (subst f)).map (subst g) = ts.map (subst fun v => (f v).subst g) := by
      rw [List.map_map]
      exact List.map_congr_left fun t ht =>
        ih t ht (fun v hv => hf v (mem_free_overload.2 ⟨t, ht, hv⟩)) fun v hv => hg v (hfree t ht v hv)
    rw [subst_overload, subst_overload, ← hmap]
    -- the first substitution may flatten the set or collapse it, so the second meets `overloads`
    refine subst_overloads (fun u hu => ?_) fun u hu v hv => ?_
    · obtain ⟨t, ht, rfl⟩ := List.mem_map.1 hu
      exact hwf t ht
    · obtain ⟨t, ht, rfl⟩ := List.mem_map.1 hu
      exact hg v (hfree t ht v hv)

/-! ## Uniform and plain types -/

/-- Types of variables, primitives, functions and lists of `m` elements. -/
inductive Uniform (m : Nat) : Ty → Prop where
  | var (v : Nat) : Uniform m (.var v)
  | prim (p : Prim) : Uniform m (.prim p)
  | fn {p b : Ty} (param : Uniform m p) (body : Uniform m b) : Uniform m (.fn p b)
  | list {ts : List Ty} (length : ts.length = m) (parts : ∀ t ∈ ts, Uniform m t) : Uniform m (.list ts)

@[simp] theorem uniform_var (m v : Nat) : (Ty.var v).Uniform m := .var v

@[simp] theorem uniform_prim (m : Nat) (p : Prim) : (Ty.prim p).Uniform m := .prim p

@[simp] theorem uniform_fn {m : Nat} {p b : Ty} : (Ty.fn p b).Uniform m ↔ p.Uniform m ∧ b.Uniform m :=
  ⟨fun h => by cases h with | fn hp hb => exact ⟨hp, hb⟩, fun h => .fn h.1 h.2⟩

@[simp] theorem uniform_list {m : Nat} {ts : List Ty} :
    (Ty.list ts).Uniform m ↔ ts.length = m ∧ ∀ t ∈ ts, t.Uniform m :=
  ⟨fun h => by cases h with | list length parts => exact ⟨length, parts⟩, fun h => .list h.1 h.2⟩

theorem Uniform.wellFormed {m : Nat} {t : Ty} (h : t.Uniform m) : t.WellFormed := by
  induction h with
  | var v => exact .var v
  | prim p => exact .prim p
  | fn _ _ ihp ihb => exact .fn ihp ihb
  | list _ _ ih => exact .list ih

theorem Uniform.single {m : Nat} {t : Ty} (h : t.Uniform m) : t.Single := by
  rintro alts rfl
  cases h

theorem Uniform.subst {m : Nat} {f : Nat → Ty} {t : Ty} (h : t.Uniform m) (hf : ∀ v ∈ t.free, (f v).Uniform m) :
    (t.subst f).Uniform m := by
  induction h with
  | var v => exact hf v (by simp)
  | prim p => exact .prim p
  | fn _ _ ihp ihb => exact .fn (ihp fun v hv => hf v (by simp [hv])) (ihb fun v hv => hf v (by simp [hv]))
  | list length _ ih =>
    rw [subst_list]
    refine .list (by simpa using length) fun u hu => ?_
    obtain ⟨t, ht, rfl⟩ := List.mem_map.1 hu
    exact ih t ht fun v hv => hf v (mem_free_list.2 ⟨t, ht, hv⟩)

theorem Uniform.subst_subst {m : Nat} {f g : Nat → Ty} {t : Ty} (h : t.Uniform m) :
    (t.subst f).subst g = t.subst fun v => (f v).subst g := by
  induction h with
  | var v => rfl
  | prim p => rfl
  | fn _ _ ihp ihb => rw [subst_fn, subst_fn, subst_fn, ihp, ihb]
  | list _ _ ih =>
    rw [subst_list, subst_list, subst_list, List.map_map]
    exact congrArg Ty.list (List.map_congr_left ih)

/-- Types of variables, primitives, functions and lists of one element. -/
inductive Plain : Ty → Prop where
  | var (v : Nat) : Plain (.var v)
  | prim (p : Prim) : Plain (.prim p)
  | fn {p b : Ty} (param : Plain p) (body : Plain b) : Plain (.fn p b)
  | list {t : Ty} (elem : Plain t) : Plain (.list [t])

theorem plain_iff_uniform {t : Ty} : t.Plain ↔ t.Uniform 1 := by
  constructor
  · intro h
    induction h with
    | var v => exact .var v
    | prim p => exact .prim p
    | fn _ _ ihp ihb => exact .fn ihp ihb
    | list _ ih => exact .list rfl (by simpa using ih)
  · intro h
    induction h with
    | var v => exact .var v
    | prim p => exact .prim p
    | fn _ _ ihp ihb => exact .fn ihp ihb
    | list length _ ih =>
      obtain ⟨t, rfl⟩ := List.length_eq_one_iff.1 length
      exact .list (ih t (by simp))

theorem Plain.uniform {t : Ty} (h : t.Plain) : t.Uniform 1 := plain_iff_uniform.1 h

theorem Plain.wellFormed {t : Ty} (h : t.Plain) : t.WellFormed := h.uniform.wellFormed

theorem Plain.single {t : Ty} (h : t.Plain) : t.Single := h.uniform.single

theorem Plain.subst {f : Nat → Ty} {t : Ty} (h : t.Plain) (hf : ∀ v ∈ t.free, (f v).Plain) : (t.subst f).Plain :=
  plain_iff_uniform.2 (h.uniform.subst fun v hv => (hf v hv).uniform)

theorem Plain.subst_subst {f g : Nat → Ty} {t : Ty} (h : t.Plain) :
    (t.subst f).subst g = t.subst fun v => (f v).subst g := h.uniform.subst_subst

/-! ## Stable properties -/

/-- A property that variables have and that substitution keeps. -/
class Stable (P : Ty → Prop) : Prop where
  var (v : Nat) : P (.var v)
  subst {f : Nat → Ty} {t : Ty} (h : P t) (hf : ∀ v, P (f v)) : P (t.subst f)

instance : Stable WellFormed where
  var := .var
  subst h hf := h.subst fun v _ => hf v

instance (m : Nat) : Stable (Uniform m) where
  var := .var
  subst h hf := h.subst fun v _ => hf v

instance : Stable Plain where
  var := .var
  subst h hf := h.subst fun v _ => hf v

end Ty

end NixTyping
