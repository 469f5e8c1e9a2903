import Mathlib
import NixTyping.Proofs.ConstraintRenaming
import NixTyping.Proofs.DepthFirst
/-!
# Two searches side by side

One search solves the constraints of an expression. The other solves the same, with
other names for their variables, and among them one more: a variable `x` is to be an
instance of the type of the expression. `TwinsBy` relates a node of the one search to
a node of the other, before that constraint is solved and after it.

The constraint that is added blocks no other, as `x` is active nowhere else. It is
solved when all variables of the type are inactive, and these stay as they are from
then on. So both searches branch in the same way, and at the end `x` stands for the
type, up to the names of variables (`TwinsBy.parallel`).
-/

namespace NixTyping

open Function

namespace Search

/-! ## Types that have their final form -/

/-- No variable of the type can change any more. -/
def Settled (t : Ty) (k : Nat) (n : Node) : Prop := ∀ v ∈ (t.apply n.subst).free, Inactive v k n

section Settled
variable {t : Ty} {k k' : Nat} {n n' : Node}

theorem Settled.wait (hs : Settled t k n) (hk : k ≤ k') : Settled t k' n :=
  fun v hv => ⟨(hs v hv).1.trans_le hk, (hs v hv).2⟩

theorem Step.apply_of_settled (h : Step k n k' n') (ht : t.WellFormed) (hn : n.WellFormed) (hs : Settled t k n) :
    t.apply n'.subst = t.apply n.subst := by
  cases h with
  | @unify l r others su take mem =>
    have hlr := hn.constraints _ ((Constraint.mem_of_takeSolvable take).2 (.inl rfl))
    have hsu := (Ty.unifies_of_mem mem).wellFormed (by simpa using hlr.1) (by simpa using hlr.2)
    rw [Ty.apply_compose ht hsu hn.subst, Ty.apply_eq_subst (hn.subst.apply ht)]
    refine Ty.subst_eq_self (hn.subst.apply ht) fun v hv => ?_
    exact (avoids_of_mem_unify mem ((hs v hv).2 _ ((Constraint.mem_of_takeSolvable take).2 (.inl rfl)))).1
  | generalize take | instantiate take => rfl

theorem Path.settled (h : Path k n k' n') (ht : t.WellFormed) (hn : n.WellFormed) (hs : Settled t k n) :
    Settled t k' n' ∧ t.apply n'.subst = t.apply n.subst := by
  induction h with
  | refl n wait => exact ⟨hs.wait wait, rfl⟩
  | step wait head tail ih =>
    have happly := head.apply_of_settled ht hn (hs.wait wait)
    obtain ⟨hlast, hsame⟩ := ih (head.wellFormed hn) fun v hv => head.inactive (hs.wait wait v (happly ▸ hv))
    exact ⟨hlast, hsame.trans happly⟩

end Settled

/-! ## Nodes whose solutions correspond -/

/-- The search replaces a node by others, and has found nothing yet. -/
structure Unfolds (j : Nat) (n : Node) (j₁ : Nat) (ms : List Node) : Prop where
  explored : ∀ p : Progress, p.next = j →
    ∃ q : Progress, q.next = j₁ ∧ q.substs = p.substs ∧ explore none ⟨[n]⟩ p = explore none ⟨ms⟩ q
  path : ∀ m ∈ ms, Path j n j₁ m

section Unfolds
variable {j : Nat} {n : Node} {others : List Constraint}

theorem unfolds_self (j : Nat) (n : Node) : Unfolds j n j [n] where
  explored p hp := ⟨p, hp, rfl, rfl⟩
  path m hm := by
    obtain rfl := List.mem_singleton.1 hm
    exact .refl m (Nat.le_refl j)

theorem Unfolds.trans {j₁ j₂ : Nat} {m : Node} {ms : List Node} (h : Unfolds j n j₁ [m]) (h' : Unfolds j₁ m j₂ ms) :
    Unfolds j n j₂ ms where
  explored p hp := by
    obtain ⟨q, hq, hsubsts, heq⟩ := h.explored p hp
    obtain ⟨q', hq', hsubsts', heq'⟩ := h'.explored q hq
    exact ⟨q', hq', hsubsts'.trans hsubsts, heq.trans heq'⟩
  path m' hm' := (h.path m (List.mem_singleton.2 rfl)).trans (h'.path m' hm')

theorem unfolds_eq {l r : Ty} (h : Constraint.takeSolvable n.constraints = some (.eq l r, others)) :
    Unfolds j n j (n.children others (l.unify r)) where
  explored p hp := by
    refine ⟨_, ?_, ?_, by rw [explore_eq h, List.append_nil]⟩
    · simpa using hp
    · simp
  path m hm := by
    obtain ⟨su, hsu, rfl⟩ := List.mem_map.1 hm
    exact .step (Nat.le_refl j) (.unify h hsu) (.refl _ (Nat.le_refl j))

theorem unfolds_explicit {t : Ty} {σ : Scheme}
    (h : Constraint.takeSolvable n.constraints = some (.explicit t σ, others)) :
    Unfolds j n (j + σ.vars.length) [⟨n.subst, .eq t (σ.ty.apply (σ.freshening j)) :: others⟩] where
  explored p hp := by
    subst hp
    exact ⟨{ p.note (.solving (.explicit t σ)) with next := p.next + σ.vars.length }, rfl, rfl, explore_explicit h⟩
  path m hm := by
    obtain rfl := List.mem_singleton.1 hm
    exact .step (Nat.le_refl j) (.instantiate h) (.refl _ (Nat.le_refl _))

theorem unfolds_implicit {t b : Ty} {M : VarSet}
    (h : Constraint.takeSolvable n.constraints = some (.implicit t M b, others)) :
    Unfolds j n (j + (Scheme.generalize M b).vars.length)
      [⟨n.subst, .eq t (b.apply ((Scheme.generalize M b).freshening j)) :: others⟩] := by
  have hgeneralized : Unfolds j n j [⟨n.subst, .explicit t (.generalize M b) :: others⟩] := by
    refine ⟨fun p hp => ⟨p.note (.solving (.implicit t M b)), hp, rfl, explore_implicit h⟩, fun m hm => ?_⟩
    obtain rfl := List.mem_singleton.1 hm
    exact .step (Nat.le_refl j) (.generalize h) (.refl _ (Nat.le_refl j))
  exact hgeneralized.trans (unfolds_explicit (Constraint.takeSolvable_cons rfl))

end Unfolds

/-- Working off the two stacks finds solutions that correspond, in order. -/
def Parallel (Q : Subst → Subst → Prop) (k k' : Nat) (ns ns' : List Node) : Prop :=
  ∀ p p' : Progress, k ≤ p.next → k' ≤ p'.next → ∃ ss ss', List.Forall₂ Q ss ss' ∧
    (explore none ⟨ns⟩ p).substs.toList = p.substs.toList ++ ss ∧
    (explore none ⟨ns'⟩ p').substs.toList = p'.substs.toList ++ ss'

section Parallel
variable {Q : Subst → Subst → Prop} {k k' : Nat} {n n' : Node}

theorem parallel_of_forall₂ {ns ns' : List Node} (h : List.Forall₂ (fun n n' => Parallel Q k k' [n] [n']) ns ns') :
    Parallel Q k k' ns ns' := by
  induction h with
  | nil =>
    intro p p' _ _
    exact ⟨[], [], .nil, by rw [explore_nil, List.append_nil], by rw [explore_nil, List.append_nil]⟩
  | @cons n n' ns ns' head _ ih =>
    intro p p' hk hk'
    obtain ⟨ss, ss', hQ, hp, hp'⟩ := head p p' hk hk'
    obtain ⟨ts, ts', hQ₂, hq, hq'⟩ := ih (explore none ⟨[n]⟩ p) (explore none ⟨[n']⟩ p')
      (hk.trans (next_le_explore _ _ _)) (hk'.trans (next_le_explore _ _ _))
    refine ⟨ss ++ ts, ss' ++ ts', List.rel_append hQ hQ₂, ?_, ?_⟩
    · rw [← List.singleton_append, explore_append, hq, hp, List.append_assoc]
    · rw [← List.singleton_append, explore_append, hq', hp', List.append_assoc]

theorem parallel_of_unfolds (h : ∀ j ≥ k, ∀ j' ≥ k', ∃ j₁ j₁' ms ms',
    Unfolds j n j₁ ms ∧ Unfolds j' n' j₁' ms' ∧ Parallel Q j₁ j₁' ms ms') : Parallel Q k k' [n] [n'] := by
  intro p p' hk hk'
  obtain ⟨j₁, j₁', ms, ms', hms, hms', hpar⟩ := h p.next hk p'.next hk'
  obtain ⟨q, hq, hsubsts, heq⟩ := hms.explored p rfl
  obtain ⟨q', hq', hsubsts', heq'⟩ := hms'.explored p' rfl
  rw [heq, heq', ← hsubsts, ← hsubsts']
  exact hpar q q' hq.ge hq'.ge

theorem parallel_leaf (hn : n.constraints = []) (hn' : n'.constraints = []) (h : Q n.subst n'.subst) :
    Parallel Q k k' [n] [n'] := by
  have hleaf : ∀ {n : Node} (p : Progress), n.constraints = [] →
      (explore none ⟨[n]⟩ p).substs.toList = p.substs.toList ++ [n.subst] := by
    intro n p hn
    rw [explore_leaf hn]
    show (explore none ⟨[]⟩ (p.found n.subst)).substs.toList = _
    rw [explore_nil]
    exact Array.toList_push
  intro p p' _ _
  exact ⟨[n.subst], [n'.subst], .cons h .nil, hleaf p hn, hleaf p' hn'⟩

theorem parallel_stuck (hn : n.constraints ≠ []) (hn' : n'.constraints ≠ [])
    (h : Constraint.takeSolvable n.constraints = none) (h' : Constraint.takeSolvable n'.constraints = none) :
    Parallel Q k k' [n] [n'] := by
  intro p p' _ _
  refine ⟨[], [], .nil, ?_, ?_⟩
  · rw [explore_stuck hn h, explore_nil, List.append_nil]
    rfl
  · rw [explore_stuck hn' h', explore_nil, List.append_nil]
    rfl

end Parallel

/-! ## Twin nodes -/

/-- The variable has been issued, in both searches, and is not `x`. -/
def Known (x : Nat) (ρ : Nat → Nat) (k k' v : Nat) : Prop := v < k ∧ ρ v < k' ∧ ρ v ≠ x

/-- How `x` is bound to the type `T`: there is still a constraint for it, or the two are the same for good. -/
inductive Link (T : Ty) (x : Nat) (ρ : Nat → Nat) (k k' : Nat) (n n' : Node) : List Constraint → Prop where
  | waiting (unbound : n'.subst.get? x = none) (seen : ∀ v ∈ (T.apply n.subst).free, Known x ρ k k' v) :
    Link T x ρ k k' n n' [.implicit (.var x) ∅ ((T.apply n.subst).rename ρ)]
  | settled (left : Settled T k n) (right : Settled (.var x) k' n')
    (same : Scheme.closeOver (T.apply n.subst) = Scheme.closeOver ((Ty.var x).apply n'.subst)) :
    Link T x ρ k k' n n' []

/-- Two nodes with the same constraints up to the names of variables, where the second has also one that makes `x`
an instance of `T`, or had it. -/
structure TwinsBy (T : Ty) (x : Nat) (ρ : Nat → Nat) (k k' : Nat) (L R extra : List Constraint) (n n' : Node) :
    Prop where
  left : n.constraints = L ++ R
  right : n'.constraints = L.map (·.rename ρ) ++ extra ++ R.map (·.rename ρ)
  injective : Injective ρ
  target : T.WellFormed
  issued : x < k'
  regular : ∀ c ∈ L ++ R, c.Regular
  subst : n.subst.WellFormed
  subst' : n'.subst.WellFormed
  seen : ∀ c ∈ L ++ R, ∀ v, c.Sees v → Known x ρ k k' v
  link : Link T x ρ k k' n n' extra

section Twins
variable {T : Ty} {x : Nat} {ρ : Nat → Nat} {k k' : Nat} {L R extra : List Constraint} {n n' : Node}

theorem Known.mono {j j' v : Nat} (h : Known x ρ k k' v) (hj : k ≤ j) (hj' : k' ≤ j') : Known x ρ j j' v :=
  ⟨h.1.trans_le hj, h.2.1.trans_le hj', h.2.2⟩

theorem TwinsBy.left_wellFormed (h : TwinsBy T x ρ k k' L R extra n n') : n.WellFormed :=
  ⟨h.subst, fun c hc => (h.regular c (h.left ▸ hc)).wellFormed⟩

theorem TwinsBy.right_wellFormed (h : TwinsBy T x ρ k k' L R extra n n') : n'.WellFormed := by
  refine ⟨h.subst', fun c hc => ?_⟩
  rw [h.right, List.mem_append, List.mem_append] at hc
  have hcopy : ∀ c, c ∈ (L ++ R).map (·.rename ρ) → c.WellFormed := by
    intro c hc
    obtain ⟨d, hd, rfl⟩ := List.mem_map.1 hc
    exact ((h.regular d hd).rename ρ).wellFormed
  rw [List.map_append] at hcopy
  rcases hc with (hc | hc) | hc
  · exact hcopy c (List.mem_append_left _ hc)
  · cases h.link with
    | settled => cases hc
    | waiting =>
      obtain rfl := List.mem_singleton.1 hc
      exact ⟨.var x, (h.subst.apply h.target).rename ρ⟩
  · exact hcopy c (List.mem_append_right _ hc)

theorem TwinsBy.wait {j j' : Nat} (h : TwinsBy T x ρ k k' L R extra n n') (hj : k ≤ j) (hj' : k' ≤ j') :
    TwinsBy T x ρ j j' L R extra n n' := by
  refine { h with issued := h.issued.trans_le hj', seen := fun c hc v hv => (h.seen c hc v hv).mono hj hj', link := ?_ }
  cases h.link with
  | waiting unbound seen => exact .waiting unbound fun v hv => (seen v hv).mono hj hj'
  | settled left right same => exact .settled (left.wait hj) (right.wait hj') same

/-- What is settled stays so along paths of both searches. -/
theorem TwinsBy.settled_of_path (h : TwinsBy T x ρ k k' L R [] n n') {j j' : Nat} {m m' : Node} (hm : Path k n j m)
    (hm' : Path k' n' j' m') (ρ' : Nat → Nat) : Link T x ρ' j j' m m' [] := by
  cases h.link with
  | settled left right same =>
    obtain ⟨hleft, hsame⟩ := hm.settled h.target h.left_wellFormed left
    obtain ⟨hright, hsame'⟩ := hm'.settled (.var x) h.right_wellFormed right
    exact .settled hleft hright (by rw [hsame, hsame', same])

/-- The constraint for `x` is not in the way of the others. -/
theorem TwinsBy.takes (h : TwinsBy T x ρ k k' L R extra n n') : Constraint.Takes (·.rename ρ) L R extra := by
  have hlength : extra.length ≤ 1 := by
    cases h.link with
    | waiting | settled => simp
  refine Constraint.takes_of_solvable hlength fun front c back hsplit ds hds => ?_
  have hmem : ∀ d ∈ front ++ back, d ∈ L ++ R := by
    intro d hd
    rw [hsplit, List.mem_append, List.mem_cons]
    rcases List.mem_append.1 hd with hd | hd
    · exact .inl hd
    · exact .inr (.inr hd)
  refine Constraint.solvable_rename h.injective (fun d hd => h.regular d (hmem d hd)) hds fun d hd v hv hactive => ?_
  have hc : c ∈ L ++ R := by simp [hsplit]
  cases h.link with
  | settled => cases hd
  | waiting =>
    obtain rfl := List.mem_singleton.1 hd
    simp only [Constraint.active, VarSet.mem_union, VarSet.mem_inter, VarSet.mem_empty, false_and, or_false,
      Ty.mem_free_var] at hactive
    exact (h.seen c hc v (.inl hv)).2.2 hactive

/-! ## One step of both -/

/-- An equality and its copy are unified in the same ways. -/
theorem TwinsBy.unify {L₁ R₁ : List Constraint} {l r : Ty} (h : TwinsBy T x ρ k k' L R extra n n')
    (hmem : ∀ d, d ∈ L ++ R ↔ d = .eq l r ∨ d ∈ L₁ ++ R₁) {su su' : Subst} (hsu : su ∈ (l.unify r).substs)
    (hsu' : su' ∈ ((l.rename ρ).unify (r.rename ρ)).substs) (hcopy : su.Renames ρ su') {m m' : Node}
    (hm : m = ⟨su.compose n.subst, (L₁ ++ R₁).map (Constraint.apply su)⟩)
    (hm' : m' = ⟨su'.compose n'.subst,
      (L₁.map (·.rename ρ) ++ extra ++ R₁.map (·.rename ρ)).map (Constraint.apply su')⟩)
    (hpath : Path k n k m) (hpath' : Path k' n' k' m') :
    TwinsBy T x ρ k k' (L₁.map (Constraint.apply su)) (R₁.map (Constraint.apply su))
      (extra.map (Constraint.apply su')) m m' := by
  have heq : (Constraint.eq l r).Regular := h.regular _ ((hmem _).2 (.inl rfl))
  have hwf : su.WellFormed := (Ty.unifies_of_mem hsu).wellFormed (by simpa using heq.1) (by simpa using heq.2)
  have hwf' : su'.WellFormed :=
    (Ty.unifies_of_mem hsu').wellFormed (by simpa using heq.1.rename ρ) (by simpa using heq.2.rename ρ)
  have hrest : ∀ d ∈ L₁ ++ R₁, d ∈ L ++ R := fun d hd => (hmem d).2 (.inr hd)
  have hknown : ∀ v w, v ∈ (su.toFun w).free → Known x ρ k k' w → Known x ρ k k' v := by
    intro v w hv hw
    rcases ((solvedIn_of_mem_unify hsu).of_mem_toFun hv).2 with rfl | hv
    · exact hw
    · exact h.seen _ ((hmem _).2 (.inl rfl)) v (.inl (VarSet.mem_union.1 hv))
  have hx : su'.get? x = none := by
    cases hget : su'.get? x with
    | none => rfl
    | some t =>
      have hactive := (solvedIn_of_mem_unify hsu').bound x t hget
      obtain ⟨v, hv, hvx⟩ := (Constraint.mem_active_rename h.injective heq).1 hactive
      exact absurd hvx (h.seen _ ((hmem _).2 (.inl rfl)) v (.inl (VarSet.mem_union.1 hv))).2.2
  have hmap : ∀ cs : List Constraint, (∀ c ∈ cs, c ∈ L₁ ++ R₁) →
      (cs.map (·.rename ρ)).map (Constraint.apply su') = (cs.map (Constraint.apply su)).map (·.rename ρ) := by
    intro cs hcs
    rw [List.map_map, List.map_map]
    exact List.map_congr_left fun c hc => Constraint.apply_rename (h.regular c (hrest c (hcs c hc))) hcopy hwf
  have hlink : Link T x ρ k k' m m' (extra.map (Constraint.apply su')) := by
    cases hl : h.link with
    | settled => exact h.settled_of_path hpath hpath' ρ
    | waiting unbound seen =>
      have htarget : ((T.apply n.subst).rename ρ).apply su' = (T.apply m.subst).rename ρ := by
        rw [hcopy.apply hwf (h.subst.apply h.target), hm, Ty.apply_compose h.target hwf h.subst]
      have himage : su'.image ∅ = ∅ := VarSet.ext fun v => by simp [Subst.mem_image]
      rw [List.map_singleton, Constraint.apply, Ty.apply_var, Subst.toFun_of_none hx, htarget, himage]
      refine .waiting ?_ fun v hv => ?_
      · rw [hm', Subst.get?_compose, unbound, hx]
      · rw [hm, Ty.apply_compose h.target hwf h.subst] at hv
        obtain ⟨w, hw, hv⟩ := Ty.mem_free_apply.1 hv
        exact hknown v w hv (seen w hw)
  refine ⟨?_, ?_, h.injective, h.target, h.issued, ?_, ?_, ?_, ?_, hlink⟩
  · rw [hm, List.map_append]
  · rw [hm', List.map_append, List.map_append, hmap L₁ fun c hc => List.mem_append_left _ hc,
      hmap R₁ fun c hc => List.mem_append_right _ hc]
  · rw [← List.map_append]
    intro c hc
    obtain ⟨d, hd, rfl⟩ := List.mem_map.1 hc
    exact (h.regular d (hrest d hd)).apply hwf
  · exact hm ▸ hwf.compose h.subst
  · exact hm' ▸ hwf'.compose h.subst'
  · rw [← List.map_append]
    intro c hc v hv
    obtain ⟨d, hd, rfl⟩ := List.mem_map.1 hc
    rcases hv with hv | hv
    · obtain ⟨w, hw, hv⟩ := Constraint.mentions_apply hv
      exact hknown v w hv (h.seen d (hrest d hd) w (.inl hw))
    · obtain ⟨w, hw, hv⟩ := Constraint.mem_fixed_apply hv
      exact hknown v w hv (h.seen d (hrest d hd) w (.inr hw))

/-- A scheme and its copy are instantiated at different numbers, and the renaming goes on with those. -/
theorem TwinsBy.instantiate {L₁ R₁ : List Constraint} (h : TwinsBy T x ρ k k' L R extra n n')
    (hrest : ∀ d ∈ L₁ ++ R₁, d ∈ L ++ R) {t : Ty} {σ σ' : Scheme} {θ : Nat → Nat} (ht : t.WellFormed)
    (hσ : σ.ty.WellFormed) (hcopy : Scheme.Copies θ σ σ') (hθ : ∀ v ∈ σ.free, θ v = ρ v)
    (hseen : ∀ v, v ∈ t.free ∨ v ∈ σ.free → Known x ρ k k' v) {m m' : Node}
    (hm : m = ⟨n.subst, .eq t (σ.ty.apply (σ.freshening k)) :: (L₁ ++ R₁)⟩)
    (hm' : m' = ⟨n'.subst, .eq (t.rename ρ) (σ'.ty.apply (σ'.freshening k')) ::
      (L₁.map (·.rename ρ) ++ extra ++ R₁.map (·.rename ρ))⟩) (hpath : Path k n (k + σ.vars.length) m)
    (hpath' : Path k' n' (k' + σ'.vars.length) m') :
    ∃ ρ', TwinsBy T x ρ' (k + σ.vars.length) (k' + σ'.vars.length) (.eq t (σ.ty.apply (σ.freshening k)) :: L₁) R₁ extra
      m m' := by
  obtain ⟨ρ', hρ', hold, hinst⟩ := hcopy.exists_renaming (ρ := ρ) hσ h.injective (Nat.le_refl k) (Nat.le_refl k')
    fun v hv => ⟨(hseen v (.inr hv)).1, (hseen v (.inr hv)).2.1, hθ v hv⟩
  have hsame : ∀ v, Known x ρ k k' v → ρ' v = ρ v := fun v hv => hold v hv.1 hv.2.1
  have hknown : ∀ v, Known x ρ k k' v → Known x ρ' (k + σ.vars.length) (k' + σ'.vars.length) v := by
    intro v hv
    obtain ⟨h₁, h₂, h₃⟩ := hv
    have hv' := hsame v ⟨h₁, h₂, h₃⟩
    exact ⟨by omega, by omega, by omega⟩
  have hfresh : ∀ v ∈ (σ.ty.apply (σ.freshening k)).free, Known x ρ' (k + σ.vars.length) (k' + σ'.vars.length) v := by
    intro v hv
    rcases Scheme.free_instance hv with hfree | hrange
    · exact hknown v (hseen v (.inr hfree))
    · have hv' : ρ' v ∈ (σ'.ty.apply (σ'.freshening k')).free := hinst ▸ Ty.mem_free_rename.2 ⟨v, hv, rfl⟩
      have hx := h.issued
      rcases Scheme.free_instance hv' with hfree | hrange'
      · obtain ⟨w, hw, hwv⟩ := hcopy.mem_free.1 hfree
        have hw' := hseen w (.inr hw)
        have := hρ' (hwv.symm.trans ((hθ w hw).trans (hsame w hw').symm))
        exact hknown v (this ▸ hw')
      · exact ⟨hrange.2, hrange'.2, by omega⟩
  have hmap : ∀ cs : List Constraint, (∀ c ∈ cs, c ∈ L₁ ++ R₁) → cs.map (·.rename ρ) = cs.map (·.rename ρ') := by
    intro cs hcs
    refine List.map_congr_left fun c hc => Constraint.rename_congr fun v hv => ?_
    exact (hsame v (h.seen c (hrest c (hcs c hc)) v hv)).symm
  have hlink : Link T x ρ' (k + σ.vars.length) (k' + σ'.vars.length) m m' extra := by
    cases hl : h.link with
    | settled => exact h.settled_of_path hpath hpath' ρ'
    | waiting unbound seen =>
      have hT : (T.apply n.subst).rename ρ = (T.apply m.subst).rename ρ' := by
        rw [hm]
        exact Ty.rename_congr fun v hv => (hsame v (seen v hv)).symm
      rw [hT]
      refine .waiting (hm' ▸ unbound) fun v hv => hknown v (seen v ?_)
      rwa [hm] at hv
  refine ⟨ρ', hm ▸ rfl, ?_, hρ', h.target, by have := h.issued; omega, ?_, hm ▸ h.subst, hm' ▸ h.subst', ?_, hlink⟩
  · rw [hm', hmap L₁ fun c hc => List.mem_append_left _ hc, hmap R₁ fun c hc => List.mem_append_right _ hc, hinst,
      Ty.rename_congr fun v hv => (hsame v (hseen v (.inl hv))).symm]
    rfl
  · intro c hc
    rcases List.mem_cons.1 hc with rfl | hc
    · exact ⟨ht, (σ.all_freshening k).apply hσ⟩
    · exact h.regular c (hrest c hc)
  · intro c hc v hv
    rcases List.mem_cons.1 hc with rfl | hc
    · rcases hv with (hv | hv) | hv
      · exact hknown v (hseen v (.inl hv))
      · exact hfresh v hv
      · exact absurd hv VarSet.mem_empty
    · exact hknown v (h.seen c (hrest c hc) v hv)

/-- The constraint for `x` is solved when the type has its final form, and `x` becomes an instance of it. -/
theorem TwinsBy.settle {c : Constraint} (h : TwinsBy T x ρ k k' L R [c] n n')
    (hsolvable : c.solvable ((L ++ R).map (·.rename ρ)) = true)
    (htake : Constraint.takeSolvable n'.constraints = some (c, (L ++ R).map (·.rename ρ))) :
    ∃ j' m', Unfolds k' n' j' [m'] ∧ TwinsBy T x ρ k j' L R [] n m' ∧ m'.weight < n'.weight := by
  cases h.link with
  | waiting unbound seen =>
  generalize hU : T.apply n.subst = U at htake hsolvable seen
  have hUwf : U.WellFormed := hU ▸ h.subst.apply h.target
  generalize hσ : Scheme.generalize ∅ (U.rename ρ) = σ
  generalize hu : (U.rename ρ).apply (σ.freshening k') = u
  have huwf : u.WellFormed := hu ▸ (σ.all_freshening k').apply (hUwf.rename ρ)
  have hfresh : ∀ v ∈ u.free, k' ≤ v ∧ v < k' + σ.vars.length := by
    subst hσ hu
    exact fun v => Scheme.fresh_of_mem_instance
  have hissued := h.issued
  have hx : x ∉ u.free := fun hx => by
    have := hfresh x hx
    omega
  have hapart : ∀ c ∈ (L ++ R).map (·.rename ρ), c.Regular ∧ ∀ v, c.Sees v → v < k' ∧ v ≠ x := by
    intro c hc
    obtain ⟨d, hd, rfl⟩ := List.mem_map.1 hc
    refine ⟨(h.regular d hd).rename ρ, fun v hv => ?_⟩
    obtain ⟨w, hw, rfl⟩ := (h.regular d hd).sees_rename hv
    exact (h.seen d hd w hw).2
  have hkeep : ((L ++ R).map (·.rename ρ)).map (Constraint.apply (.single x u)) = (L ++ R).map (·.rename ρ) := by
    rw [List.map_congr_left fun c hc => Constraint.apply_eq_self (hapart c hc).1 fun v hv => ?_, List.map_id']
    exact Subst.toFun_of_none (by rw [Subst.get?_single, if_neg ((hapart c hc).2 v hv).2])
  have hunfolds : Unfolds k' n' (k' + σ.vars.length)
      [⟨(Subst.single x u).compose n'.subst, (L ++ R).map (·.rename ρ)⟩] := by
    have hsteps := (unfolds_implicit (j := k') htake).trans (unfolds_eq (Constraint.takeSolvable_cons rfl))
    rwa [hσ, hu, Node.children, Ty.substs_unify_var hx, List.map_singleton, hkeep] at hsteps
  refine ⟨_, _, hunfolds, ?_, ?_⟩
  · have hvalue : (Ty.var x).apply ((Subst.single x u).compose n'.subst) = u := by
      rw [Ty.apply_var, Subst.toFun_compose, Subst.toFun_of_none unbound, Ty.apply_var, Subst.toFun_single]
    have hsingle : (Subst.single x u).WellFormed := Subst.all_single huwf x
    refine { h with right := ?_, issued := by omega, subst' := hsingle.compose h.subst', seen := ?_, link := ?_ }
    · rw [List.append_nil, List.map_append]
    · exact fun c hc v hv => (h.seen c hc v hv).mono (Nat.le_refl k) (Nat.le_add_right _ _)
    refine .settled (fun v hv => ⟨(seen v (hU ▸ hv)).1, fun c hc hactive => ?_⟩) (fun v hv => ?_) ?_
    · rw [h.left] at hc
      have hactive' := (Constraint.mem_active_rename h.injective (h.regular c hc)).2 ⟨v, hactive, rfl⟩
      exact Constraint.solvable_implicit hsolvable (Ty.mem_free_rename.2 ⟨v, hU ▸ hv, rfl⟩) VarSet.mem_empty
        (List.mem_map_of_mem hc) hactive'
    · have hrange := hfresh v (hvalue ▸ hv)
      refine ⟨hrange.2, fun c hc hactive => ?_⟩
      have := ((hapart c hc).2 v (.inl (Constraint.mentions_of_mem_active hactive))).1
      omega
    · rw [hvalue, ← hu, ← hσ, hU, Scheme.closeOver_instance (hUwf.rename ρ), Scheme.closeOver_rename h.injective hUwf]
  · have hweight := Constraint.weight_takeSolvable htake
    simp only [Constraint.weight] at hweight
    simp only [Node.weight]
    omega

/-! ## The whole search -/

theorem Node.mem_children {others : List Constraint} {b : Branches} {su : Subst} (h : su ∈ b.substs) :
    ⟨su.compose n.subst, others.map (Constraint.apply su)⟩ ∈ n.children others b :=
  List.mem_map.2 ⟨su, h, rfl⟩

theorem weight_of_mem_children {l r : Ty} {others : List Constraint} {m : Node}
    (htake : Constraint.takeSolvable n.constraints = some (.eq l r, others)) (hm : m ∈ n.children others (l.unify r)) :
    m.weight < n.weight := by
  obtain ⟨su, -, rfl⟩ := List.mem_map.1 hm
  have := Constraint.weight_takeSolvable htake
  simp only [Node.weight, Constraint.weightAll_map_apply, Constraint.weight] at this ⊢
  omega

theorem weight_instance {c : Constraint} {others : List Constraint} {l r : Ty} {s : Subst}
    (htake : Constraint.takeSolvable n.constraints = some (c, others)) (hc : 1 < c.weight) :
    Node.weight ⟨s, .eq l r :: others⟩ < n.weight := by
  have hweight := Constraint.weight_takeSolvable htake
  simp only [Node.weight, Constraint.weightAll, Constraint.weight]
  omega

/-- The solutions below twin nodes give `T` and `x` the same schemes. -/
theorem TwinsBy.parallel (h : TwinsBy T x ρ k k' L R extra n n') :
    Parallel (fun S S' => Scheme.closeOver (T.apply S) = Scheme.closeOver ((Ty.var x).apply S')) k k' [n] [n'] := by
  induction hw : n'.weight using Nat.strong_induction_on generalizing ρ k k' L R extra n n' with
  | _ w ih =>
  subst hw
  cases h.takes with
  | stuck left right =>
    rw [← h.left] at left
    rw [← h.right] at right
    by_cases hempty : L ++ R = []
    · obtain ⟨rfl, rfl⟩ := List.append_eq_nil_iff.1 hempty
      cases h.link with
      | waiting =>
        -- a single constraint has nothing to wait for
        rw [h.right] at right
        exact nomatch right.symm.trans (Constraint.takeSolvable_cons (List.all_eq_true.2 fun _ _ => rfl))
      | settled _ _ same => exact parallel_leaf h.left h.right same
    · refine parallel_stuck (h.left ▸ hempty) ?_ left right
      rw [h.right]
      intro hnil
      simp_all
  | extra hextra hsolvable right =>
    subst hextra
    refine parallel_of_unfolds fun j hj j' hj' => ?_
    obtain ⟨j₁', m', hunfolds, htwins, hlighter⟩ := (h.wait hj hj').settle hsolvable (h.right ▸ right)
    exact ⟨j, j₁', [n], [m'], unfolds_self j n, hunfolds, ih _ hlighter htwins rfl⟩
  | @both c L₁ R₁ hmem left right =>
    rw [← h.left] at left
    rw [← h.right] at right
    have hc := h.regular c ((hmem c).2 (.inl rfl))
    have hseen := h.seen c ((hmem c).2 (.inl rfl))
    have hrest : ∀ d ∈ L₁ ++ R₁, d ∈ L ++ R := fun d hd => (hmem d).2 (.inr hd)
    cases c with
    | eq l r =>
      refine parallel_of_unfolds fun j hj j' hj' => ?_
      have hu := unfolds_eq (j := j) left
      have hu' := unfolds_eq (j := j') right
      have hpairs :
          List.Forall₂ (fun su su' => su ∈ (l.unify r).substs ∧ su' ∈ ((l.rename ρ).unify (r.rename ρ)).substs ∧
          su.Renames ρ su') (l.unify r).substs ((l.rename ρ).unify (r.rename ρ)).substs := by
        have hcopies := Ty.unify_rename h.injective hc.1 hc.2
        rw [List.forall₂_iff_zip] at hcopies ⊢
        exact ⟨hcopies.1, fun hz => ⟨(List.of_mem_zip hz).1, (List.of_mem_zip hz).2, hcopies.2 hz⟩⟩
      refine ⟨_, _, _, _, hu, hu', parallel_of_forall₂ ?_⟩
      refine List.forall₂_map_left_iff.2 (List.forall₂_map_right_iff.2 (hpairs.imp fun su su' ⟨hsu, hsu', hcopy⟩ => ?_))
      exact ih _ (weight_of_mem_children right (Node.mem_children hsu'))
        ((h.wait hj hj').unify hmem hsu hsu' hcopy rfl rfl
          (hu.path _ (Node.mem_children hsu)) (hu'.path _ (Node.mem_children hsu'))) rfl
    | explicit t σ =>
      refine parallel_of_unfolds fun j hj j' hj' => ?_
      have hu := unfolds_explicit (j := j) left
      have hu' := unfolds_explicit (j := j') right
      have hseen' : ∀ v, v ∈ t.free ∨ v ∈ σ.free → Known x ρ j j' v := fun v hv => (hseen v (.inl hv)).mono hj hj'
      obtain ⟨ρ', htwins⟩ := (h.wait hj hj').instantiate hrest hc.1 hc.2.1 (Scheme.copies_self hc.2.1)
        (fun v hv => absurd hv (hc.2.2 v)) hseen' rfl rfl (hu.path _ (List.mem_singleton.2 rfl))
        (hu'.path _ (List.mem_singleton.2 rfl))
      exact ⟨_, _, _, _, hu, hu', ih _ (weight_instance right (show 1 < 2 by decide)) htwins rfl⟩
    | implicit t M b =>
      refine parallel_of_unfolds fun j hj j' hj' => ?_
      have hu := unfolds_implicit (j := j) left
      have hu' := unfolds_implicit (j := j') right
      have hseen' : ∀ v, v ∈ t.free ∨ v ∈ (Scheme.generalize M b).free → Known x ρ j j' v := by
        rintro v (hv | hv)
        · exact (hseen v (.inl (.inl hv))).mono hj hj'
        · exact (hseen v (.inl (.inr (Scheme.mem_free_generalize.1 hv).1))).mono hj hj'
      obtain ⟨ρ', htwins⟩ := (h.wait hj hj').instantiate hrest hc.1 hc.2 (Scheme.copies_generalize h.injective M b)
        (fun _ _ => rfl) hseen' rfl rfl (hu.path _ (List.mem_singleton.2 rfl)) (hu'.path _ (List.mem_singleton.2 rfl))
      exact ⟨_, _, _, _, hu, hu', ih _ (weight_instance right (show 1 < 3 by decide)) htwins rfl⟩

/-- The solutions of two lists of constraints with twin roots give `T` and `x` the same schemes, in the same order. -/
theorem TwinsBy.closeOver_solve {cs cs' : List Constraint} (h : TwinsBy T x ρ k k' L R extra ⟨∅, cs⟩ ⟨∅, cs'⟩) :
    (solve cs k none).substs.toList.map (fun S => Scheme.closeOver (T.apply S)) =
      (solve cs' k' none).substs.toList.map fun S => Scheme.closeOver ((Ty.var x).apply S) := by
  obtain ⟨ss, ss', hsame, hss, hss'⟩ := h.parallel { next := k } { next := k' } (Nat.le_refl k) (Nat.le_refl k')
  have hsubsts : (solve cs k none).substs.toList = ss := hss
  have hsubsts' : (solve cs' k' none).substs.toList = ss' := hss'
  rw [hsubsts, hsubsts', ← List.forall₂_eq_eq_eq, List.forall₂_map_left_iff, List.forall₂_map_right_iff]
  exact hsame

end Twins

end Search

end NixTyping
