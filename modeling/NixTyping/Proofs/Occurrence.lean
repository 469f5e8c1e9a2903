import NixTyping.Proofs.Unification
/-!
# Occurrence

A type occurs in another as a part of it, at any depth. After a substitution a type occurs
where it was brought in for a variable, or it is the image of a part (`OccursIn.traced`).
That no closed record occurs in a type is kept by substitution and handed down to parts
(`hereditary_recordsOpen`).
-/

namespace NixTyping

namespace Ty

/-- The first type occurs in the second. -/
inductive OccursIn : Ty → Ty → Prop where
  | self (t : Ty) : OccursIn t t
  | elem {ts : List Ty} {t u : Ty} (mem : t ∈ ts) (occurs : OccursIn u t) : OccursIn u (.list ts)
  | param {p u : Ty} (b : Ty) (occurs : OccursIn u p) : OccursIn u (.fn p b)
  | body {b u : Ty} (p : Ty) (occurs : OccursIn u b) : OccursIn u (.fn p b)
  | field {fs : List (String × Ty)} {f : String × Ty} {u : Ty} (o : Bool) (mem : f ∈ fs) (occurs : OccursIn u f.2) :
    OccursIn u (.record fs o)
  | alt {ts : List Ty} {t u : Ty} (mem : t ∈ ts) (occurs : OccursIn u t) : OccursIn u (.overload ts)

section OccursIn
variable {s t u : Ty}

theorem OccursIn.free_subset (h : u.OccursIn t) {v : Nat} (hv : v ∈ u.free) : v ∈ t.free := by
  induction h with
  | self t => exact hv
  | elem mem _ ih => exact mem_free_list.2 ⟨_, mem, ih hv⟩
  | param _ _ ih => exact mem_free_fn.2 (.inl (ih hv))
  | body _ _ ih => exact mem_free_fn.2 (.inr (ih hv))
  | field _ mem _ ih => exact mem_free_record.2 ⟨_, mem, ih hv⟩
  | alt mem _ ih => exact mem_free_overload.2 ⟨_, mem, ih hv⟩

theorem OccursIn.wellFormed (h : u.OccursIn t) (ht : t.WellFormed) : u.WellFormed := by
  induction h with
  | self t => exact ht
  | elem mem _ ih => exact ih (wellFormed_list.1 ht _ mem)
  | param _ _ ih => exact ih (wellFormed_fn.1 ht).1
  | body _ _ ih => exact ih (wellFormed_fn.1 ht).2
  | field _ mem _ ih => exact ih (wellFormed_record.1 ht _ mem)
  | alt mem _ ih => exact ih ((wellFormed_overload.1 ht).1 _ mem).1

theorem OccursIn.trans (h : s.OccursIn t) (h' : t.OccursIn u) : s.OccursIn u := by
  induction h' with
  | self u => exact h
  | elem mem _ ih => exact .elem mem (ih h)
  | param b _ ih => exact .param b (ih h)
  | body p _ ih => exact .body p (ih h)
  | field o mem _ ih => exact .field o mem (ih h)
  | alt mem _ ih => exact .alt mem (ih h)

@[simp] theorem occursIn_var {v : Nat} : t.OccursIn (.var v) ↔ t = .var v :=
  ⟨fun h => by cases h; rfl, fun h => h ▸ .self _⟩

@[simp] theorem occursIn_prim {p : Prim} : t.OccursIn (.prim p) ↔ t = .prim p :=
  ⟨fun h => by cases h; rfl, fun h => h ▸ .self _⟩

@[simp] theorem occursIn_list {ts : List Ty} : t.OccursIn (.list ts) ↔ t = .list ts ∨ ∃ u ∈ ts, t.OccursIn u := by
  constructor
  · intro h
    cases h with
    | self => exact .inl rfl
    | elem mem occurs => exact .inr ⟨_, mem, occurs⟩
  · rintro (rfl | ⟨u, hu, h⟩)
    · exact .self _
    · exact .elem hu h

@[simp] theorem occursIn_fn {p b : Ty} : t.OccursIn (.fn p b) ↔ t = .fn p b ∨ t.OccursIn p ∨ t.OccursIn b := by
  constructor
  · intro h
    cases h with
    | self => exact .inl rfl
    | param _ occurs => exact .inr (.inl occurs)
    | body _ occurs => exact .inr (.inr occurs)
  · rintro (rfl | h | h)
    · exact .self _
    · exact .param b h
    · exact .body p h

@[simp] theorem occursIn_record {fs : List (String × Ty)} {o : Bool} :
    t.OccursIn (.record fs o) ↔ t = .record fs o ∨ ∃ f ∈ fs, t.OccursIn f.2 := by
  constructor
  · intro h
    cases h with
    | self => exact .inl rfl
    | field _ mem occurs => exact .inr ⟨_, mem, occurs⟩
  · rintro (rfl | ⟨f, hf, h⟩)
    · exact .self _
    · exact .field o hf h

@[simp] theorem occursIn_overload {ts : List Ty} :
    t.OccursIn (.overload ts) ↔ t = .overload ts ∨ ∃ u ∈ ts, t.OccursIn u := by
  constructor
  · intro h
    cases h with
    | self => exact .inl rfl
    | alt mem occurs => exact .inr ⟨_, mem, occurs⟩
  · rintro (rfl | ⟨u, hu, h⟩)
    · exact .self _
    · exact .alt hu h

theorem occursIn_of_mem_alternatives {a : Ty} (h : a ∈ t.alternatives) : a.OccursIn t := by
  cases t with
  | overload ts => exact .alt h (.self a)
  | _ => rw [List.mem_singleton.1 h]; exact .self _

/-- What occurs in an overload set that is built occurs in what it is built from, unless it is the set. -/
theorem OccursIn.of_overloads {ts : List Ty} (h : u.OccursIn (overloads ts)) :
    u = .overload (altsOf ts) ∧ overloads ts = .overload (altsOf ts) ∨ ∃ t ∈ ts, u.OccursIn t := by
  have hmem : ∀ a ∈ altsOf ts, u.OccursIn a → ∃ t ∈ ts, u.OccursIn t := by
    intro a ha hu
    obtain ⟨t, ht, hat⟩ := mem_altsOf.1 ha
    exact ⟨t, ht, hu.trans (occursIn_of_mem_alternatives hat)⟩
  rcases overloads_cases ts with ⟨a, ha, heq⟩ | ⟨-, heq⟩
  · rw [heq] at h
    exact .inr (hmem a (by simp [ha]) h)
  · rw [heq] at h
    cases h with
    | self => exact .inl ⟨rfl, heq⟩
    | alt mem occurs => exact .inr (hmem _ mem occurs)

end OccursIn

/-! ## Substitution -/

/-- Where a type comes from that occurs after a substitution: it was brought in for a variable, or it is the image of a
part. The part is no variable, and it is an overload set only if its image is one. -/
def Traced (f : Nat → Ty) (t u : Ty) : Prop :=
  (∃ v ∈ t.free, u.OccursIn (f v)) ∨
    ∃ u' : Ty, u'.OccursIn t ∧ u = u'.subst f ∧ (∀ v, u' ≠ .var v) ∧ (u.Single → u'.Single)

section Traced
variable {f : Nat → Ty} {s t u : Ty}

theorem Traced.of_part (h : Traced f s u) (hs : s.OccursIn t) : Traced f t u := by
  rcases h with ⟨v, hv, hu⟩ | ⟨u', hu', hrest⟩
  · exact .inl ⟨v, hs.free_subset hv, hu⟩
  · exact .inr ⟨u', hu'.trans hs, hrest⟩

theorem OccursIn.traced (h : u.OccursIn (t.subst f)) : Traced f t u := by
  induction t using Ty.ind with
  | var v => exact .inl ⟨v, by simp, h⟩
  | prim p => exact .inr ⟨.prim p, .self _, by cases h; rfl, by simp, by simp [Single]⟩
  | list ts ih =>
    rw [subst_list] at h
    cases h with
    | self => exact .inr ⟨.list ts, .self _, by simp, by simp, by simp [Single]⟩
    | elem mem occurs =>
      obtain ⟨t, ht, rfl⟩ := List.mem_map.1 mem
      exact (ih t ht occurs).of_part (.elem ht (.self t))
  | fn p b ihp ihb =>
    cases h with
    | self => exact .inr ⟨.fn p b, .self _, by simp, by simp, by simp [Single]⟩
    | param _ occurs => exact (ihp occurs).of_part (.param b (.self p))
    | body _ occurs => exact (ihb occurs).of_part (.body p (.self b))
  | record fs o ih =>
    rw [subst_record] at h
    cases h with
    | self => exact .inr ⟨.record fs o, .self _, by simp, by simp, by simp [Single]⟩
    | field _ mem occurs =>
      obtain ⟨g, hg, rfl⟩ := List.mem_map.1 mem
      exact (ih g hg occurs).of_part (.field o hg (.self g.2))
  | overload ts ih =>
    rw [subst_overload] at h
    rcases h.of_overloads with ⟨rfl, heq⟩ | ⟨_, hmem, hu⟩
    · exact .inr ⟨.overload ts, .self _, by rw [subst_overload, heq], by simp, fun hs => absurd rfl (hs _)⟩
    · obtain ⟨t, ht, rfl⟩ := List.mem_map.1 hmem
      exact (ih t ht hu).of_part (.alt ht (.self t))

end Traced

/-! ## Closed records -/

/-- No closed record occurs in the type. -/
def RecordsOpen (t : Ty) : Prop := ∀ fs, ¬ (Ty.record fs false).OccursIn t

theorem RecordsOpen.eq_true {fs : List (String × Ty)} {o : Bool} (h : (Ty.record fs o).RecordsOpen) : o = true := by
  cases o with
  | true => rfl
  | false => exact absurd (.self _) (h fs)

instance : Stable RecordsOpen where
  var v fs hoccurs := by cases hoccurs
  subst {f _} ht hf fs hoccurs := by
    rcases hoccurs.traced with ⟨v, -, hv⟩ | ⟨u, hu, heq, hvar, hsingle⟩
    · exact hf v fs hv
    · cases u with
      | record gs o =>
        rw [subst_record] at heq
        obtain ⟨-, rfl⟩ := Ty.record.inj heq
        exact ht gs hu
      | var v => exact hvar v rfl
      | overload as => exact hsingle (by simp [Single]) as rfl
      | _ => simp at heq

theorem hereditary_recordsOpen : Hereditary RecordsOpen where
  toStable := inferInstance
  list _ h _ ht fs hoccurs := h fs (.elem ht hoccurs)
  fn p b h := ⟨fun fs hoccurs => h fs (.param b hoccurs), fun fs hoccurs => h fs (.body p hoccurs)⟩
  overload _ h _ ht fs hoccurs := h fs (.alt ht hoccurs)

end Ty

/-! ## Occurrence among types -/

/-- The type occurs in one of the types. -/
def Ty.OccursAmong (t : Ty) (C : Set Ty) : Prop := ∃ u ∈ C, t.OccursIn u

section OccursAmong
variable {C : Set Ty} {s t : Ty}

theorem Ty.occursAmong_of_mem (h : t ∈ C) : t.OccursAmong C := ⟨t, h, .self t⟩

theorem Ty.OccursAmong.part (h : t.OccursAmong C) (hs : s.OccursIn t) : s.OccursAmong C := by
  obtain ⟨u, hu, ht⟩ := h
  exact ⟨u, hu, hs.trans ht⟩

theorem Ty.OccursAmong.wellFormed (h : t.OccursAmong C) (hC : ∀ t ∈ C, t.WellFormed) : t.WellFormed := by
  obtain ⟨u, hu, ht⟩ := h
  exact ht.wellFormed (hC u hu)

end OccursAmong

end NixTyping
