import NixTyping.Proofs.Generation
import NixTyping.Proofs.SearchPath
/-!
# Regions of variables

The definition of a `let` is a region: it owns the variables issued for it, and
beyond them its constraints reach only variables that the context fixes. Every
other constraint stays outside. `Layout` says this of a list of constraints, with
the regions ordered so that an implicit instance lies outside the region that
hosts its bound type and outside all regions before it.

Two facts follow. The variables an implicit instance is to quantify do not occur
in the type that is to be the instance (`Homed.quantified`), and when only
implicit instances are left, one of them can be solved (`Layout.not_stuck`).
Judgments of the core language have a layout (`Judges.layout`), and both steps of
the search keep it.
-/

namespace NixTyping

/-- The variables through which solving a constraint can touch others. -/
def Constraint.Reaches : Constraint → Nat → Prop
  | .eq l r, v => v ∈ l.free ∨ v ∈ r.free
  | .explicit t σ, v => v ∈ t.free ∨ v ∈ σ.free
  | .implicit t M _, v => v ∈ t.free ∨ v ∈ M

theorem Constraint.reaches_of_mem_active {c : Constraint} {v : Nat} (h : v ∈ c.active) : c.Reaches v := by
  cases c with
  | eq l r | explicit t σ => exact VarSet.mem_union.1 h
  | implicit t M b =>
    simp only [active, VarSet.mem_union, VarSet.mem_inter] at h
    exact h.imp_right (·.1)

theorem Constraint.Over.reaches {c : Constraint} {U : Set Nat} (hc : c.Over U) {v : Nat} (h : c.Reaches v) : v ∈ U := by
  cases c with
  | eq l r => exact h.elim (hc.1.2 v) (hc.2.2 v)
  | explicit t σ => exact hc.elim
  | implicit t M b => exact h.elim (hc.1.2 v) (hc.2.2 v)

theorem Constraint.reaches_apply {c : Constraint} {su : Subst} {v : Nat} (h : (c.apply su).Reaches v) :
    ∃ w, c.Reaches w ∧ v ∈ (su.toFun w).free := by
  cases c with
  | eq l r =>
    rcases h with h | h
    · obtain ⟨w, hw, hv⟩ := Ty.mem_free_apply.1 h
      exact ⟨w, .inl hw, hv⟩
    · obtain ⟨w, hw, hv⟩ := Ty.mem_free_apply.1 h
      exact ⟨w, .inr hw, hv⟩
  | explicit t σ =>
    rcases h with h | h
    · obtain ⟨w, hw, hv⟩ := Ty.mem_free_apply.1 h
      exact ⟨w, .inl hw, hv⟩
    · obtain ⟨w, hw, hv⟩ := Scheme.free_apply h
      exact ⟨w, .inr hw, hv⟩
  | implicit t M b =>
    rcases h with h | h
    · obtain ⟨w, hw, hv⟩ := Ty.mem_free_apply.1 h
      exact ⟨w, .inl hw, hv⟩
    · obtain ⟨w, hw, hv⟩ := Subst.mem_image.1 h
      exact ⟨w, .inr hw, hv⟩

/-- The variables of a definition, with those that its context fixes. -/
structure Region where
  own : Set Nat
  mono : VarSet

namespace Region

/-- The constraint belongs to the definition. -/
def Inside (r : Region) (c : Constraint) : Prop := ∀ v, c.Reaches v → v ∈ r.own ∨ v ∈ r.mono

/-- The constraint does not reach the variables of the definition. -/
def Outside (r : Region) (c : Constraint) : Prop := ∀ v, c.Reaches v → v ∉ r.own

/-- The constraint is an instance of the type of the definition. -/
def Hosts (r : Region) : Constraint → Prop
  | .implicit _ M b => M = r.mono ∧ ∀ v ∈ b.free, v ∈ r.own ∨ v ∈ r.mono
  | _ => False

end Region

/-- The constraint is hosted by one of the regions and outside all regions up to
it. -/
def Homed : List Region → Constraint → Prop
  | [], _ => False
  | r :: D, c => r.Outside c ∧ (r.Hosts c ∨ Homed D c)

theorem Homed.append_right {D : List Region} {c : Constraint} (h : Homed D c) (E : List Region) : Homed (D ++ E) c := by
  induction D with
  | nil => exact h.elim
  | cons r D ih => exact ⟨h.1, h.2.imp_right ih⟩

theorem Homed.append_left {D E : List Region} {c : Constraint} (h : Homed E c) (hD : ∀ r ∈ D, r.Outside c) :
    Homed (D ++ E) c := by
  induction D with
  | nil => exact h
  | cons r D ih => exact ⟨hD r (by simp), .inr (ih fun r hr => hD r (by simp [hr]))⟩

theorem Homed.map {D : List Region} {c d : Constraint} (h : Homed D c) (f : Region → Region)
    (houtside : ∀ r ∈ D, r.Outside c → (f r).Outside d) (hhosts : ∀ r ∈ D, r.Hosts c → (f r).Hosts d) :
    Homed (D.map f) d := by
  induction D with
  | nil => exact h.elim
  | cons r D ih =>
    refine ⟨houtside r (by simp) h.1, h.2.imp (hhosts r (by simp)) fun h => ?_⟩
    exact ih h (fun r hr => houtside r (by simp [hr])) fun r hr => hhosts r (by simp [hr])

/-- The regions own variables of a set, every constraint is on one side of every
region, and every implicit instance has its home. -/
structure Layout (U : Set Nat) (D : List Region) (cs : List Constraint) : Prop where
  own : ∀ r ∈ D, ∀ v ∈ r.own, v ∈ U
  sided : ∀ r ∈ D, ∀ c ∈ cs, r.Inside c ∨ r.Outside c
  homed : ∀ c ∈ cs, (∃ t M b, c = .implicit t M b) → Homed D c

/-- What an implicit instance is to quantify belongs to a region outside of which
it lies. -/
theorem Homed.quantified {D : List Region} {t b : Ty} {M : VarSet} (h : Homed D (.implicit t M b)) {v : Nat}
    (hv : v ∈ b.free) (hM : v ∉ M) : v ∉ t.free := by
  induction D with
  | nil => exact h.elim
  | cons r D ih =>
    obtain ⟨houtside, ⟨rfl, hhosts⟩ | h⟩ := h
    · intro ht
      exact houtside v (.inl ht) ((hhosts v hv).resolve_right hM)
    · exact ih h

/-! ## Some constraint can be solved -/

theorem Constraint.takeSolvableAfter_isSome {before front back : List Constraint} {c : Constraint}
    (h : c.solvable (before ++ (front ++ back)) = true) :
    (takeSolvableAfter before (front ++ c :: back)).isSome := by
  induction front generalizing before with
  | nil =>
    rw [List.nil_append] at h
    rw [List.nil_append, takeSolvableAfter, if_pos h]
    rfl
  | cons d front ih =>
    rw [List.cons_append, takeSolvableAfter]
    split
    · rfl
    · exact ih (by simpa using h)

theorem Constraint.takeSolvable_isSome {cs : List Constraint} {c : Constraint} (hc : c ∈ cs)
    (h : ∀ others : List Constraint, others ⊆ cs → c.solvable others = true) : (takeSolvable cs).isSome := by
  obtain ⟨front, back, rfl⟩ := List.append_of_mem hc
  have hothers : [] ++ (front ++ back) ⊆ front ++ c :: back := by
    intro d hd
    simp only [List.nil_append, List.mem_append, List.mem_cons] at hd ⊢
    exact hd.imp_right .inr
  exact takeSolvableAfter_isSome (h _ hothers)

theorem Constraint.solvable_implicit_of {others : List Constraint} {t b : Ty} {M : VarSet}
    (h : ∀ v ∈ b.free, v ∉ M → ∀ c ∈ others, v ∉ c.active) : (Constraint.implicit t M b).solvable others = true := by
  simp only [solvable, List.all_eq_true, decide_eq_true_eq]
  intro v hv
  obtain ⟨hb, hM⟩ := VarSet.mem_diff.1 hv
  exact h v hb hM

/-- Where all constraints are implicit instances that have a home, one hosted by
the first region can be solved. -/
theorem exists_solvable {D : List Region} {cs : List Constraint} (hne : cs ≠ []) (h : ∀ c ∈ cs, Homed D c) :
    ∃ c ∈ cs, ∀ others, others ⊆ cs → c.solvable others = true := by
  induction D with
  | nil =>
    obtain ⟨c, hc⟩ := List.exists_mem_of_ne_nil cs hne
    exact (h c hc).elim
  | cons r D ih =>
    by_cases hhost : ∃ c ∈ cs, r.Hosts c
    · obtain ⟨c, hc, hhosts⟩ := hhost
      refine ⟨c, hc, fun others hothers => ?_⟩
      cases c with
      | eq _ _ | explicit _ _ => rfl
      | implicit t M b =>
        obtain ⟨rfl, hb⟩ := hhosts
        -- what it quantifies is owned by the first region, which every other constraint is outside of
        refine Constraint.solvable_implicit_of fun v hv hM d hd hactive => ?_
        exact (h d (hothers hd)).1 v (Constraint.reaches_of_mem_active hactive) ((hb v hv).resolve_right hM)
    · exact ih fun c hc => (h c hc).2.resolve_left fun hr => hhost ⟨c, hc, hr⟩

/-- The search is never stuck. -/
theorem Layout.not_stuck {U : Set Nat} {D : List Region} {cs : List Constraint} (h : Layout U D cs) (hne : cs ≠ []) :
    (Constraint.takeSolvable cs).isSome := by
  by_cases himplicit : ∀ c ∈ cs, ∃ t M b, c = .implicit t M b
  · obtain ⟨c, hc, hsolvable⟩ := exists_solvable hne fun c hc => h.homed c hc (himplicit c hc)
    exact Constraint.takeSolvable_isSome hc hsolvable
  · push Not at himplicit
    obtain ⟨c, hc, hother⟩ := himplicit
    refine Constraint.takeSolvable_isSome hc fun _ _ => ?_
    cases c with
    | eq l r | explicit t σ => rfl
    | implicit t M b => exact (hother t M b rfl).elim

/-! ## Steps keep the layout -/

section Unify
variable {r : Region} {su : Subst} {t u : Ty}

/-- The region after a substitution: what the context fixes takes variables over. -/
def Region.refine (su : Subst) (r : Region) : Region := ⟨{v | v ∈ r.own ∧ v ∉ su.image r.mono}, su.image r.mono⟩

/-- A unifier of types on one side of a region keeps the region together. -/
theorem Region.mem_refine (hsu : su.SolvedIn {v | v ∈ t.free ∨ v ∈ u.free})
    (hside : r.Inside (.eq t u) ∨ r.Outside (.eq t u)) {v w : Nat} (hw : w ∈ r.own ∨ w ∈ r.mono)
    (hv : v ∈ (su.toFun w).free) : v ∈ (r.refine su).own ∨ v ∈ (r.refine su).mono := by
  by_cases himage : v ∈ su.image r.mono
  · exact .inr himage
  have hown : w ∈ r.own := hw.resolve_right fun hm => himage (Subst.mem_image.2 ⟨w, hm, hv⟩)
  refine .inl ⟨?_, himage⟩
  rcases hside with hin | hout
  · obtain ⟨hnone, rfl | hV⟩ := hsu.of_mem_toFun hv
    · exact hown
    · -- a variable that the unifier brings in is not bound by it
      refine (hin v hV).resolve_right fun hm => himage (Subst.mem_image.2 ⟨v, hm, ?_⟩)
      rw [Subst.toFun_of_none hnone, Ty.mem_free_var]
  -- a unifier outside of the region does not touch what it owns
  · rw [(hsu.avoids fun hV => hout w hV hown).1, Ty.mem_free_var] at hv
    rwa [hv]

theorem Region.Outside.refine {c : Constraint} (hsu : su.SolvedIn {v | v ∈ t.free ∨ v ∈ u.free})
    (hside : r.Inside (.eq t u) ∨ r.Outside (.eq t u)) (h : r.Outside c) : (r.refine su).Outside (c.apply su) := by
  rintro v hv ⟨hown, himage⟩
  obtain ⟨w, hw, hvw⟩ := Constraint.reaches_apply hv
  have hmono : w ∉ r.mono := fun hm => himage (Subst.mem_image.2 ⟨w, hm, hvw⟩)
  obtain ⟨-, rfl | hV⟩ := hsu.of_mem_toFun hvw
  · exact h v hw hown
  rcases hside with hin | hout
  · rw [(hsu.avoids fun hV => (hin w hV).elim (h w hw) hmono).1, Ty.mem_free_var] at hvw
    exact h v (hvw ▸ hw) hown
  · exact hout v hV hown

theorem Region.Hosts.refine {c : Constraint} (hsu : su.SolvedIn {v | v ∈ t.free ∨ v ∈ u.free})
    (hside : r.Inside (.eq t u) ∨ r.Outside (.eq t u)) (h : r.Hosts c) : (r.refine su).Hosts (c.apply su) := by
  cases c with
  | eq _ _ | explicit _ _ => exact h.elim
  | implicit t' M b =>
    obtain ⟨rfl, hb⟩ := h
    refine ⟨rfl, fun v hv => ?_⟩
    obtain ⟨w, hw, hv⟩ := Ty.mem_free_apply.1 hv
    exact Region.mem_refine hsu hside (hb w hw) hv

theorem Layout.unify {U : Set Nat} {D : List Region} {cs others : List Constraint} (h : Layout U D cs)
    (heq : .eq t u ∈ cs) (hothers : others ⊆ cs)
    (hsu : su.SolvedIn {v | v ∈ t.free ∨ v ∈ u.free}) :
    Layout U (D.map (Region.refine su)) (others.map (Constraint.apply su)) := by
  refine ⟨fun r' hr' v hv => ?_, fun r' hr' c' hc' => ?_, fun c' hc' himplicit => ?_⟩
  · obtain ⟨r, hr, rfl⟩ := List.mem_map.1 hr'
    exact h.own r hr v hv.1
  · obtain ⟨r, hr, rfl⟩ := List.mem_map.1 hr'
    obtain ⟨c, hc, rfl⟩ := List.mem_map.1 hc'
    rcases h.sided r hr c (hothers hc) with hin | hout
    · refine .inl fun v hv => ?_
      obtain ⟨w, hw, hv⟩ := Constraint.reaches_apply hv
      exact Region.mem_refine hsu (h.sided r hr _ heq) (hin w hw) hv
    · exact .inr (hout.refine hsu (h.sided r hr _ heq))
  · obtain ⟨c, hc, rfl⟩ := List.mem_map.1 hc'
    have hhome : Homed D c := h.homed c (hothers hc) (by
      cases c with
      | eq _ _ | explicit _ _ => obtain ⟨_, _, _, he⟩ := himplicit; cases he
      | implicit t M b => exact ⟨t, M, b, rfl⟩)
    refine hhome.map _ (fun r hr hout => ?_) fun r hr hhosts => ?_
    · exact hout.refine hsu (h.sided r hr _ heq)
    · exact hhosts.refine hsu (h.sided r hr _ heq)

end Unify

section Instantiate
variable {k k₁ k₂ : Nat} {r : Region} {c d : Constraint}

/-- The region after fresh variables have been issued for a constraint. -/
def Region.grow (c : Constraint) (k₁ k₂ : Nat) (r : Region) : Region :=
  ⟨{v | v ∈ r.own ∨ (r.Inside c ∧ k₁ ≤ v ∧ v < k₂)}, r.mono⟩

theorem Region.Outside.grow (hk : k ≤ k₁) (hd : ∀ v, d.Reaches v → v < k) (h : r.Outside d) :
    (r.grow c k₁ k₂).Outside d := by
  rintro v hv (hown | ⟨-, hle, -⟩)
  · exact h v hv hown
  · have hlt := hd v hv
    omega

theorem Region.Hosts.grow (h : r.Hosts d) : (r.grow c k₁ k₂).Hosts d := by
  cases d with
  | eq _ _ | explicit _ _ => exact h.elim
  | implicit t M b => exact ⟨h.1, fun v hv => (h.2 v hv).imp_left .inl⟩

/-- A constraint may be replaced by one that is no implicit instance and reaches
beyond it only fresh variables. -/
theorem Layout.replace {D : List Region} {cs others : List Constraint} (h : Layout {v | v < k} D cs)
    (hreach : ∀ c ∈ cs, ∀ v, c.Reaches v → v < k) (hc : c ∈ cs) (hothers : others ⊆ cs) (hk : k ≤ k₁) (hk₂ : k₁ ≤ k₂)
    (hd : ∀ v, d.Reaches v → c.Reaches v ∨ (k₁ ≤ v ∧ v < k₂)) (hplain : ∀ t M b, d ≠ .implicit t M b) :
    Layout {v | v < k₂} (D.map (Region.grow c k₁ k₂)) (d :: others) := by
  refine ⟨fun r' hr' v hv => ?_, fun r' hr' e he => ?_, fun e he himplicit => ?_⟩
  · obtain ⟨r, hr, rfl⟩ := List.mem_map.1 hr'
    rcases hv with hv | ⟨-, -, hv⟩
    · have hlt : v < k := h.own r hr v hv
      show v < k₂
      omega
    · exact hv
  · obtain ⟨r, hr, rfl⟩ := List.mem_map.1 hr'
    rcases List.mem_cons.1 he with rfl | he
    -- the new constraint stays on the side of the old one, and takes its fresh variables there
    · by_cases hin : r.Inside c
      · refine .inl fun v hv => ?_
        rcases hd v hv with hv | hfresh
        · exact (hin v hv).imp_left .inl
        · exact .inl (.inr ⟨hin, hfresh⟩)
      · have hout := (h.sided r hr _ hc).resolve_left hin
        refine .inr fun v hv hown => ?_
        have hown : v ∈ r.own := hown.resolve_right fun hfresh => hin hfresh.1
        rcases hd v hv with hv | hfresh
        · exact hout v hv hown
        · have hlt : v < k := h.own r hr v hown
          omega
    · refine (h.sided r hr e (hothers he)).imp (fun hin v hv => (hin v hv).imp_left .inl) fun hout => ?_
      exact hout.grow hk (hreach e (hothers he))
  · rcases List.mem_cons.1 he with rfl | he
    · obtain ⟨t, M, b, heq⟩ := himplicit
      exact (hplain t M b heq).elim
    · refine (h.homed e (hothers he) himplicit).map _ (fun r _ hout => ?_) fun r _ hhosts => hhosts.grow
      exact hout.grow hk (hreach e (hothers he))

end Instantiate

/-! ## The layout of a judgment -/

theorem layout_nil (U : Set Nat) : Layout U [] [] where
  own _ hr := (nomatch hr)
  sided _ hr := (nomatch hr)
  homed _ hc := (nomatch hc)

/-- More constraints find their place in the regions that are there. -/
theorem Layout.extend {U W : Set Nat} {D : List Region} {cs ds : List Constraint} (h : Layout U D cs) (hUW : U ⊆ W)
    (hside : ∀ r ∈ D, ∀ c ∈ ds, c ∈ cs ∨ r.Inside c ∨ r.Outside c)
    (hhome : ∀ c ∈ ds, (∃ t M b, c = .implicit t M b) → c ∈ cs ∨ Homed D c) : Layout W D ds where
  own r hr v hv := hUW (h.own r hr v hv)
  sided r hr c hc := (hside r hr c hc).elim (h.sided r hr c) (·)
  homed c hc himplicit := (hhome c hc himplicit).elim (h.homed c · himplicit) (·)

/-- Regions for constraints and types over the variables `V` issued under `M`. The
context of `M` is fixed in all of them, and none owns a variable of the types. -/
structure LaidOut (M : VarSet) (V : List Nat) (D : List Region) (cs : List Constraint) (ts : List Ty) : Prop where
  layout : Layout {v | v ∈ V} D cs
  mono : ∀ r ∈ D, ∀ v ∈ M, v ∈ r.mono
  constraints : ∀ c ∈ cs, c.Over (issued M V)
  types : ∀ t ∈ ts, t.Over (issued M V)
  apart : ∀ r ∈ D, ∀ t ∈ ts, ∀ v ∈ t.free, v ∉ r.own

section LaidOut
variable {M : VarSet} {V V₁ V₂ : List Nat} {D D₁ D₂ : List Region} {cs cs₁ cs₂ : List Constraint} {ts ts₁ ts₂ : List Ty}

/-- Layouts over separate variables stand side by side. -/
theorem LaidOut.append (h₁ : LaidOut M V₁ D₁ cs₁ ts₁) (h₂ : LaidOut M V₂ D₂ cs₂ ts₂) (hV : FreshFor M (V₁ ++ V₂)) :
    LaidOut M (V₁ ++ V₂) (D₁ ++ D₂) (cs₁ ++ cs₂) (ts₁ ++ ts₂) := by
  have hapart := hV.apart (List.Subset.refl V₁)
  have hnot₁ : ∀ r ∈ D₁, ∀ v ∈ issued M V₂, v ∉ r.own := by
    rintro r hr v (hv | hv) hown
    · exact (hapart v hv).1 (h₁.layout.own r hr v hown)
    · exact hV.left.outside v (h₁.layout.own r hr v hown) hv
  have hnot₂ : ∀ r ∈ D₂, ∀ v ∈ issued M V₁, v ∉ r.own := by
    rintro r hr v (hv | hv) hown
    · exact (hapart v (h₂.layout.own r hr v hown)).1 hv
    · exact (hapart v (h₂.layout.own r hr v hown)).2 hv
  refine ⟨⟨fun r hr v hv => List.mem_append.2 ?_, fun r hr c hc => ?_, fun c hc himplicit => ?_⟩, fun r hr => ?_,
    fun c hc => ?_, fun t ht => ?_, fun r hr t ht v hv => ?_⟩
  · exact (List.mem_append.1 hr).imp (h₁.layout.own r · v hv) (h₂.layout.own r · v hv)
  · rcases List.mem_append.1 hr with hr | hr <;> rcases List.mem_append.1 hc with hc | hc
    · exact h₁.layout.sided r hr c hc
    · exact .inr fun v hv => hnot₁ r hr v ((h₂.constraints c hc).reaches hv)
    · exact .inr fun v hv => hnot₂ r hr v ((h₁.constraints c hc).reaches hv)
    · exact h₂.layout.sided r hr c hc
  · rcases List.mem_append.1 hc with hc | hc
    · exact (h₁.layout.homed c hc himplicit).append_right D₂
    · refine (h₂.layout.homed c hc himplicit).append_left fun r hr v hv => ?_
      exact hnot₁ r hr v ((h₂.constraints c hc).reaches hv)
  · exact (List.mem_append.1 hr).elim (h₁.mono r) (h₂.mono r)
  · rcases List.mem_append.1 hc with hc | hc
    · exact (h₁.constraints c hc).mono (issued_subset (by simp))
    · exact (h₂.constraints c hc).mono (issued_subset (by simp))
  · rcases List.mem_append.1 ht with ht | ht
    · exact (h₁.types t ht).mono (issued_subset (by simp))
    · exact (h₂.types t ht).mono (issued_subset (by simp))
  · rcases List.mem_append.1 hr with hr | hr <;> rcases List.mem_append.1 ht with ht | ht
    · exact h₁.apart r hr t ht v hv
    · exact hnot₁ r hr v ((h₂.types t ht).2 v hv)
    · exact hnot₂ r hr v ((h₁.types t ht).2 v hv)
    · exact h₂.apart r hr t ht v hv

/-- A definition becomes a region of its own, and its type a matter of the region. -/
theorem LaidOut.enclose (h : LaidOut M V D cs ts) : LaidOut M V (D ++ [⟨{v | v ∈ V}, M⟩]) cs [] := by
  refine ⟨⟨fun r hr v hv => ?_, fun r hr c hc => ?_, fun c hc himplicit => ?_⟩, fun r hr v hv => ?_, h.constraints,
    fun _ ht => (nomatch ht), fun _ _ _ ht => (nomatch ht)⟩
  · rcases List.mem_append.1 hr with hr | hr
    · exact h.layout.own r hr v hv
    · cases List.mem_singleton.1 hr
      exact hv
  · rcases List.mem_append.1 hr with hr | hr
    · exact h.layout.sided r hr c hc
    · cases List.mem_singleton.1 hr
      exact .inl fun v hv => (h.constraints c hc).reaches hv
  · exact (h.layout.homed c hc himplicit).append_right _
  · rcases List.mem_append.1 hr with hr | hr
    · exact h.mono r hr v hv
    · cases List.mem_singleton.1 hr
      exact hv

/-- A constraint on the type of an occurrence belongs to a region if the occurrence
does. -/
theorem Region.sided_of_occurrence (r : Region) {c : Constraint} (w : Nat)
    (h : ∀ v, c.Reaches v → v = w ∨ (v ∈ r.mono ∧ v ∉ r.own)) : r.Inside c ∨ r.Outside c := by
  by_cases hw : w ∈ r.own
  · refine .inl fun v hv => ?_
    rcases h v hv with rfl | ⟨hm, -⟩
    · exact .inl hw
    · exact .inr hm
  · refine .inr fun v hv => ?_
    rcases h v hv with rfl | ⟨-, hown⟩
    · exact hw
    · exact hown

end LaidOut

theorem Judges.laidOut {M : VarSet} {e : Expr} {J : Judgment} {V : List Nat} {D : List Region} (h : Judges M e J V)
    (layout : Layout {v | v ∈ V} D J.constraints) (mono : ∀ r ∈ D, ∀ v ∈ M, v ∈ r.mono)
    (apart : ∀ r ∈ D, ∀ v ∈ J.ty.free, v ∉ r.own) : LaidOut M V D J.constraints [J.ty] := by
  refine ⟨layout, mono, fun c => h.constraint, fun t ht => ?_, fun r hr t ht => ?_⟩
  · cases List.mem_singleton.1 ht
    exact h.ty
  · cases List.mem_singleton.1 ht
    exact apart r hr

/-- Every judgment of the core language has a layout. -/
theorem Judges.layout {M : VarSet} {e : Expr} {J : Judgment} {V : List Nat} (h : Judges M e J V) (hV : FreshFor M V) :
    ∃ D, LaidOut M V D J.constraints [J.ty] := by
  induction h with
  | @literal M id span l =>
    refine ⟨[], (@Judges.literal M id span l).laidOut (layout_nil _) ?_ ?_⟩ <;> exact fun _ hr => (nomatch hr)
  | @ref M id span x v =>
    refine ⟨[], (@Judges.ref M id span x v).laidOut (layout_nil _) ?_ ?_⟩ <;> exact fun _ hr => (nomatch hr)
  | @lambda M id v span x b J V body ih =>
    obtain ⟨D, hD⟩ := ih hV.tail
    have hout : ∀ r ∈ D, v ∉ r.own := fun r hr hown => (List.nodup_cons.1 hV.nodup).1 (hD.layout.own r hr v hown)
    have hJ : Judges M (.mk id span (.lambda (.name x) b)) _ (v :: V) := .lambda body
    refine ⟨D, hJ.laidOut (hD.layout.extend (fun w hw => List.mem_cons_of_mem v hw) (fun r hr c hc => ?_)
      fun c hc himplicit => ?_) (fun r hr w hw => hD.mono r hr w (by simp [hw])) fun r hr w hw => ?_⟩
    · rcases Judgment.mem_constraints_lambda.1 hc with hc | ⟨o, ho, rfl⟩
      · exact .inl hc
      · obtain ⟨u, -, rfl⟩ := body.assumption ho
        refine .inr (r.sided_of_occurrence u fun w hw => ?_)
        rcases hw with hw | hw
        · exact .inl (Ty.mem_free_var.1 hw)
        · obtain rfl := Ty.mem_free_var.1 hw
          exact .inr ⟨hD.mono r hr w (by simp), hout r hr⟩
    · rcases Judgment.mem_constraints_lambda.1 hc with hc | ⟨o, ho, rfl⟩
      · exact .inl hc
      · obtain ⟨_, _, _, he⟩ := himplicit
        cases he
    · rcases Ty.mem_free_fn.1 hw with hw | hw
      · obtain rfl := Ty.mem_free_var.1 hw
        exact hout r hr
      · exact hD.apart r hr J.ty (by simp) w hw
  | @apply M id v span f a Jf Ja Vf Va fn arg ihFn ihArg =>
    obtain ⟨Df, hDf⟩ := ihFn hV.left.left
    obtain ⟨Da, hDa⟩ := ihArg hV.left.right
    have hD := hDf.append hDa hV.left
    have hlast : ∀ r ∈ Df ++ Da, v ∉ r.own :=
      fun r hr hown => (hV.apart (List.Subset.refl _) v (by simp)).1 (hD.layout.own r hr v hown)
    have hJ : Judges M (.mk id span (.apply f a)) _ (Vf ++ Va ++ [v]) := .apply fn arg
    refine ⟨Df ++ Da, hJ.laidOut (hD.layout.extend (fun w hw => List.mem_append_left _ hw)
      (fun r hr c hc => ?_) fun c hc himplicit => ?_) hD.mono fun r hr w hw => ?_⟩
    · rcases Judgment.mem_constraints_apply.1 hc with hc | rfl
      · exact .inl (List.mem_append.2 hc)
      · refine .inr (.inr fun w hw => ?_)
        rcases hw with hw | hw
        · exact hD.apart r hr Jf.ty (by simp) w hw
        · rcases Ty.mem_free_fn.1 hw with hw | hw
          · exact hD.apart r hr Ja.ty (by simp) w hw
          · obtain rfl := Ty.mem_free_var.1 hw
            exact hlast r hr
    · rcases Judgment.mem_constraints_apply.1 hc with hc | rfl
      · exact .inl (List.mem_append.2 hc)
      · obtain ⟨_, _, _, he⟩ := himplicit
        cases he
    · obtain rfl := Ty.mem_free_var.1 hw
      exact hlast r hr
  | @ifElse M id span c y n Jc Jy Jn Vc Vy Vn cond yes no ihCond ihYes ihNo =>
    obtain ⟨Dc, hDc⟩ := ihCond hV.left.left
    obtain ⟨Dy, hDy⟩ := ihYes hV.left.right
    obtain ⟨Dn, hDn⟩ := ihNo hV.right
    have hD := (hDc.append hDy hV.left).append hDn hV
    have hJ : Judges M (.mk id span (.ifElse c y n)) _ (Vc ++ Vy ++ Vn) := .ifElse cond yes no
    refine ⟨Dc ++ Dy ++ Dn, hJ.laidOut (hD.layout.extend (fun w hw => hw)
      (fun r hr c hc => ?_) fun c hc himplicit => ?_) hD.mono fun r hr => hD.apart r hr Jy.ty (by simp)⟩
    · rcases Judgment.mem_constraints_ifElse.1 hc with hc | rfl | rfl
      · exact .inl (by simpa [or_assoc] using hc)
      · refine .inr (.inr fun w hw => ?_)
        exact hD.apart r hr Jc.ty (by simp) w (hw.resolve_right Ty.mem_free_prim)
      · exact .inr (.inr fun w hw => hw.elim (hD.apart r hr Jy.ty (by simp) w) (hD.apart r hr Jn.ty (by simp) w))
    · rcases Judgment.mem_constraints_ifElse.1 hc with hc | rfl | rfl
      · exact .inl (by simpa [or_assoc] using hc)
      · obtain ⟨_, _, _, he⟩ := himplicit
        cases he
      · obtain ⟨_, _, _, he⟩ := himplicit
        cases he
  | @letIn M id span x d b Jd Jb Vd Vb definition body ihDef ihBody =>
    obtain ⟨Dd, hDd⟩ := ihDef hV.left
    obtain ⟨Db, hDb⟩ := ihBody hV.right
    have hD := hDd.enclose.append hDb hV
    have hJ : Judges M (.mk id span (.letIn ⟨[(x, .expr d)], [], []⟩ b)) _ (Vd ++ Vb) := .letIn definition body
    refine ⟨Dd ++ [⟨{v | v ∈ Vd}, M⟩] ++ Db, hJ.laidOut (hD.layout.extend (fun w hw => hw)
      (fun r hr c hc => ?_) fun c hc himplicit => ?_) hD.mono fun r hr => hD.apart r hr Jb.ty (by simp)⟩
    · rcases Judgment.mem_constraints_letIn.1 hc with hc | ⟨o, ho, rfl⟩
      · exact .inl (List.mem_append.2 hc)
      · obtain ⟨u, hu, rfl⟩ := body.assumption ho
        refine .inr (r.sided_of_occurrence u fun w hw => ?_)
        rcases hw with hw | hw
        · exact .inl (Ty.mem_free_var.1 hw)
        · exact .inr ⟨hD.mono r hr w hw, fun hown => hV.outside w (hD.layout.own r hr w hown) hw⟩
    · rcases Judgment.mem_constraints_letIn.1 hc with hc | ⟨o, ho, rfl⟩
      · exact .inl (List.mem_append.2 hc)
      · obtain ⟨u, hu, rfl⟩ := body.assumption ho
        -- the occurrence lies in the body, so outside the definition and its regions
        have hout : ∀ r : Region, (∀ v ∈ r.own, v ∈ Vd) → r.Outside (.implicit (.var u) M Jd.ty) := by
          rintro r hr v (hv | hv) hown
          · obtain rfl := Ty.mem_free_var.1 hv
            exact (hV.apart (List.Subset.refl Vd) v hu).1 (hr v hown)
          · exact hV.left.outside v (hr v hown) hv
        refine .inr (Homed.append_right (Homed.append_left ?_ fun r hr => hout r (hDd.layout.own r hr)) Db)
        exact ⟨hout _ fun v hv => hv, .inl ⟨rfl, definition.ty.2⟩⟩

end NixTyping
