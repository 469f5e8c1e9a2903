import NixTyping.Proofs.Types
/-!
# When two types fit

`Ty.Fits` is equality up to the rules of the unifier: an empty list fits every
homogeneous list, records are compared by their names only, and an overload set
fits what one of its alternatives fits.

`Ty.Fits.subst` says that fitting types stay so under every substitution by well
formed types, also when it flattens or collapses an overload set or makes the
elements of a list equal. On uniform types to fit is to be equal.
-/

namespace NixTyping.Ty

/-- Every name of the second record is one of the first. -/
def HasNames (fs gs : List (String × Ty)) : Prop := ∀ g ∈ gs, ∃ f ∈ fs, f.1 = g.1

/-- An open record asks for its names, and of two closed ones the left has all
names of the right. -/
def NamesFit (fs : List (String × Ty)) (fsOpen : Bool) (gs : List (String × Ty)) (gsOpen : Bool) : Prop :=
  match fsOpen, gsOpen with
  | true, true => True
  | false, true => HasNames fs gs
  | true, false => HasNames gs fs
  | false, false => HasNames fs gs

/-- Equality up to the rules for lists, records and overload sets. -/
inductive Fits : Ty → Ty → Prop where
  | refl (t : Ty) : Fits t t
  | fn {p q b c : Ty} (param : Fits p q) (body : Fits b c) : Fits (.fn p b) (.fn q c)
  | listEmpty {ts us : List Ty} (left : homogeneous ts = true) (right : homogeneous us = true)
    (empty : ts = [] ∨ us = []) : Fits (.list ts) (.list us)
  | listHead {t u : Ty} {ts us : List Ty} (left : homogeneous (t :: ts) = true) (right : homogeneous (u :: us) = true)
    (head : Fits t u) : Fits (.list (t :: ts)) (.list (u :: us))
  | listAll {ts us : List Ty} (length : ts.length = us.length) (each : ∀ p ∈ ts.zip us, Fits p.1 p.2) :
    Fits (.list ts) (.list us)
  | record {fs gs : List (String × Ty)} {o o' : Bool} (names : NamesFit fs o gs o') :
    Fits (.record fs o) (.record gs o')
  | left {alts : List Ty} {alt t : Ty} (mem : alt ∈ alts) (fits : Fits alt t) : Fits (.overload alts) t
  | right {alts : List Ty} {alt t : Ty} (mem : alt ∈ alts) (fits : Fits t alt) : Fits t (.overload alts)

/-! ## Stability -/

theorem homogeneous_map (f : Ty → Ty) {ts : List Ty} (h : homogeneous ts = true) : homogeneous (ts.map f) = true := by
  induction ts with
  | nil => rfl
  | cons t ts ih =>
    cases ts with
    | nil => rfl
    | cons u ts =>
      simp only [homogeneous, Bool.and_eq_true, decide_eq_true_eq] at h
      obtain ⟨rfl, h⟩ := h
      simpa [homogeneous] using ih h

theorem eq_replicate_of_homogeneous {t : Ty} {ts : List Ty} (h : homogeneous (t :: ts) = true) :
    ts = List.replicate ts.length t := by
  induction ts generalizing t with
  | nil => rfl
  | cons u ts ih =>
    simp only [homogeneous, Bool.and_eq_true, decide_eq_true_eq] at h
    obtain ⟨rfl, h⟩ := h
    rw [List.length_cons, List.replicate_succ, ← ih h]

theorem hasNames_map (f : Ty → Ty) {fs gs : List (String × Ty)} (h : HasNames fs gs) :
    HasNames (fs.map fun p => (p.1, f p.2)) (gs.map fun p => (p.1, f p.2)) := by
  intro g hg
  obtain ⟨p, hp, rfl⟩ := List.mem_map.1 hg
  obtain ⟨q, hq, he⟩ := h p hp
  exact ⟨_, List.mem_map_of_mem hq, he⟩

theorem namesFit_map (f : Ty → Ty) {fs gs : List (String × Ty)} {o o' : Bool} (h : NamesFit fs o gs o') :
    NamesFit (fs.map fun p => (p.1, f p.2)) o (gs.map fun p => (p.1, f p.2)) o' := by
  cases o <;> cases o' <;> first | exact hasNames_map f h | trivial

theorem exists_overload {t : Ty} (h : ¬ t.Single) : ∃ alts, t = .overload alts := by
  simpa [Single] using h

theorem Fits.of_alternatives_left {t u : Ty} (h : Fits t u) (ht : t.WellFormed) : ∃ a ∈ t.alternatives, Fits a u := by
  by_cases hs : t.Single
  · exact ⟨t, by simp [alternatives_of_single hs], h⟩
  obtain ⟨alts, e⟩ := exists_overload hs
  -- on the derivation: a set on the right may have been opened before the one on the left
  induction h with
  | refl t =>
    obtain ⟨a, ha⟩ := List.exists_mem_of_ne_nil _ ht.alternatives_ne_nil
    subst e
    exact ⟨a, ha, .right ha (.refl a)⟩
  | left mem fits _ => exact ⟨_, mem, fits⟩
  | right mem _ ih =>
    obtain ⟨a, ha, hf⟩ := ih ht hs e
    exact ⟨a, ha, .right mem hf⟩
  | _ => cases e

theorem Fits.of_alternatives_right {t u : Ty} (h : Fits t u) (hu : u.WellFormed) : ∃ a ∈ u.alternatives, Fits t a := by
  by_cases hs : u.Single
  · exact ⟨u, by simp [alternatives_of_single hs], h⟩
  obtain ⟨alts, e⟩ := exists_overload hs
  induction h with
  | refl t =>
    obtain ⟨a, ha⟩ := List.exists_mem_of_ne_nil _ hu.alternatives_ne_nil
    subst e
    exact ⟨a, ha, .left ha (.refl a)⟩
  | right mem fits _ => exact ⟨_, mem, fits⟩
  | left mem _ ih =>
    obtain ⟨a, ha, hf⟩ := ih hu hs e
    exact ⟨a, ha, .left mem hf⟩
  | _ => cases e

/-- The overload set of a list fits what one of its entries fits. -/
theorem Fits.overloads_left {ts : List Ty} {t u : Ty} (h : Fits t u) (ht : t.WellFormed) (hmem : t ∈ ts) :
    Fits (overloads ts) u := by
  obtain ⟨a, ha, hf⟩ := h.of_alternatives_left ht
  have hin : a ∈ altsOf ts := mem_altsOf.2 ⟨t, hmem, ha⟩
  rcases overloads_cases ts with ⟨b, hb, he⟩ | ⟨-, he⟩
  · rw [hb, List.mem_singleton] at hin
    rwa [he, ← hin]
  · rw [he]
    exact .left hin hf

theorem Fits.overloads_right {us : List Ty} {t u : Ty} (h : Fits t u) (hu : u.WellFormed) (hmem : u ∈ us) :
    Fits t (overloads us) := by
  obtain ⟨a, ha, hf⟩ := h.of_alternatives_right hu
  have hin : a ∈ altsOf us := mem_altsOf.2 ⟨u, hmem, ha⟩
  rcases overloads_cases us with ⟨b, hb, he⟩ | ⟨-, he⟩
  · rw [hb, List.mem_singleton] at hin
    rwa [he, ← hin]
  · rw [he]
    exact .right hin hf

/-- Types that fit go on fitting, whatever is substituted for their variables. -/
theorem Fits.subst {f : Nat → Ty} {t u : Ty} (h : Fits t u) (ht : t.WellFormed) (hu : u.WellFormed)
    (hf : ∀ v, (f v).WellFormed) : Fits (t.subst f) (u.subst f) := by
  induction h with
  | refl t => exact .refl _
  | fn _ _ ihp ihb =>
    cases ht with | fn htp htb =>
    cases hu with | fn hup hub => exact .fn (ihp htp hup) (ihb htb hub)
  | listEmpty left right empty =>
    rw [subst_list, subst_list]
    refine .listEmpty (homogeneous_map _ left) (homogeneous_map _ right) ?_
    rcases empty with rfl | rfl
    · exact .inl rfl
    · exact .inr rfl
  | listHead left right _ ih =>
    cases ht with | list hts =>
    cases hu with | list hus =>
    rw [subst_list, subst_list]
    exact .listHead (homogeneous_map _ left) (homogeneous_map _ right) (ih (hts _ (by simp)) (hus _ (by simp)))
  | listAll length _ ih =>
    cases ht with | list hts =>
    cases hu with | list hus =>
    rw [subst_list, subst_list]
    refine .listAll (by simpa using length) fun p hp => ?_
    rw [List.zip_map, List.mem_map] at hp
    obtain ⟨q, hq, rfl⟩ := hp
    exact ih q hq (hts _ (List.of_mem_zip hq).1) (hus _ (List.of_mem_zip hq).2)
  | record names =>
    rw [subst_record, subst_record]
    exact .record (namesFit_map _ names)
  | left mem _ ih =>
    cases ht with | overload parts single nodup many =>
    rw [subst_overload]
    -- the alternative may have become a set itself, whose alternatives the new set takes in
    exact (ih (parts _ mem) hu).overloads_left ((parts _ mem).subst fun v _ => hf v) (List.mem_map_of_mem mem)
  | right mem _ ih =>
    cases hu with | overload parts single nodup many =>
    rw [subst_overload]
    exact (ih ht (parts _ mem)).overloads_right ((parts _ mem).subst fun v _ => hf v) (List.mem_map_of_mem mem)

/-- Uniform types fit only themselves. -/
theorem Fits.eq_of_uniform {m : Nat} {t u : Ty} (h : Fits t u) (ht : t.Uniform m) (hu : u.Uniform m) : t = u := by
  induction h with
  | refl t => rfl
  | fn _ _ ihp ihb =>
    cases ht with | fn htp htb =>
    cases hu with | fn hup hub => rw [ihp htp hup, ihb htb hub]
  | listEmpty _ _ empty =>
    cases ht with | list ht _ =>
    cases hu with | list hu _ =>
    rcases empty with rfl | rfl
    · rw [List.length_eq_zero_iff.1 (hu.trans ht.symm)]
    · rw [List.length_eq_zero_iff.1 (ht.trans hu.symm)]
  | @listHead t u ts us left right _ ih =>
    cases ht with | list ht hts =>
    cases hu with | list hu hus =>
    have hlength : ts.length = us.length := by simpa using ht.trans hu.symm
    rw [eq_replicate_of_homogeneous left, eq_replicate_of_homogeneous right, ih (hts _ (by simp)) (hus _ (by simp)),
      hlength]
  | @listAll ts us length _ ih =>
    cases ht with | list ht hts =>
    cases hu with | list hu hus =>
    refine congrArg Ty.list (List.ext_getElem length fun i hi hi' => ?_)
    have hzip : (ts[i], us[i]) ∈ ts.zip us := List.mem_iff_getElem.2 ⟨i, by simp; omega, by simp⟩
    exact ih _ hzip (hts _ (List.getElem_mem hi)) (hus _ (List.getElem_mem hi'))
  | record _ => cases ht
  | left _ _ _ => cases ht
  | right _ _ _ => cases hu

end NixTyping.Ty
