import Mathlib
import NixTyping.Proofs.Occurrence
import NixTyping.Proofs.VariableRenaming
/-!
# Unification with the sides swapped

Where no closed record occurs, the branches of two types and those of the types with their
sides swapped correspond one to one, up to the names of variables (`Call.Swaps`), unless the
unifier comes to compare two different overload sets of which one has a variable among its
alternatives (`Crosses`). There the sides differ: a variable on the left is bound to the
whole set on the right, while the alternatives of a set on the left meet a variable on the
right one by one (`crossed_sets_differ`).

Of two variables either may be bound to the other, and the pairs that are left see which.
So branches are compared up to a renaming, and the renaming for the pairs that are left goes
on from the one so far (`swaps_pairs`).

Whether the unifier comes to such sets depends on what it binds on the way, but it makes
none where there were none: they occur in the types from the start (`Unmixed`).
-/

namespace NixTyping

open Function

/-! ## Substitutions up to names -/

namespace Subst
variable {ρ τ : Nat → Nat} {s s' s'' older older' : Subst}

/-- The second substitution is the first one followed by other names for variables. -/
structure Variant (ρ : Nat → Nat) (s s' : Subst) : Prop where
  empty : s'.isEmpty = s.isEmpty
  toFun : ∀ v, s'.toFun v = (s.toFun v).rename ρ

/-- The substitutions are the same up to the names of variables. -/
def Alike (s s' : Subst) : Prop := ∃ ρ, Injective ρ ∧ Variant ρ s s'

theorem WellFormed.alike (hs : s.WellFormed) : Alike s s :=
  ⟨id, injective_id, rfl, fun v => (Ty.rename_eq_self (hs.toFun v) fun _ _ => rfl).symm⟩

/-- Of two variables either may be bound to the other. -/
theorem alike_single (v w : Nat) : Alike (single v (.var w)) (single w (.var v)) := by
  refine ⟨Equiv.swap v w, (Equiv.swap v w).injective, rfl, fun x => ?_⟩
  by_cases hxv : x = v
  · rw [hxv, toFun_single, Ty.rename_var, Equiv.swap_apply_right]
    by_cases hvw : v = w
    · rw [hvw, toFun_single]
    · rw [toFun_single_of_ne hvw]
  · rw [toFun_single_of_ne hxv, Ty.rename_var]
    by_cases hxw : x = w
    · rw [hxw, toFun_single, Equiv.swap_apply_right]
    · rw [toFun_single_of_ne hxw, Equiv.swap_apply_of_ne_of_ne hxv hxw]

theorem Variant.apply (h : Variant ρ s s') (hs : s.WellFormed) {t : Ty} (ht : t.WellFormed) :
    t.apply s' = (t.apply s).rename ρ := by
  rw [Ty.apply_eq_subst ht, Ty.apply_eq_subst ht, ht.subst_rename fun v _ => hs.toFun v]
  exact Ty.subst_congr fun v _ => h.toFun v

theorem Variant.map_apply (h : Variant ρ s s') (hs : s.WellFormed) {ts : List Ty} (hts : ∀ t ∈ ts, t.WellFormed) :
    ts.map (Ty.apply s') = (ts.map (Ty.apply s)).map (Ty.rename ρ) := by
  rw [List.map_map]
  exact List.map_congr_left fun t ht => h.apply hs (hts t ht)

/-- A variant of the newer part, with its variables renamed, goes with a variant of the older part. -/
theorem Variant.compose (ho : Variant ρ older older') (h : Variant τ s s') (hr : Renames ρ s' s'')
    (holder : older.WellFormed) (hs : s.WellFormed) (hs' : s'.WellFormed) :
    Variant (fun v => ρ (τ v)) (s.compose older) (s''.compose older') := by
  refine ⟨by rw [isEmpty_compose, isEmpty_compose, hr.empty, h.empty, ho.empty], fun v => ?_⟩
  have hv := holder.toFun v
  rw [toFun_compose, toFun_compose, ho.toFun, hr.apply hs' hv, h.apply hs hv, Ty.rename_rename (hs.apply hv)]

end Subst

namespace Unification

/-! ## Calls -/

namespace Call

def swap : Call → Call
  | .types l r => .types r l
  | .pairs ls rs => .pairs rs ls

/-- The sides are two different overload sets, and one of them has a variable among its alternatives. -/
def Crossed : Call → Prop
  | .types (.overload as) (.overload bs) => as ≠ bs ∧ ∃ v, .var v ∈ as ∨ .var v ∈ bs
  | _ => False

/-- The branches of the call and of the swapped call correspond one to one. -/
def Swaps (c : Call) : Prop := Multiset.Rel Subst.Alike c.answer.substs c.swap.answer.substs

end Call

/-- The first call is one that the second makes. -/
inductive Makes : Call → Call → Prop where
  | head {t u : Ty} {ts us : List Ty} (ne : Ty.list (t :: ts) ≠ .list (u :: us))
    (homogeneous : (Ty.homogeneous (t :: ts) && Ty.homogeneous (u :: us)) = true) :
    Makes (.types t u) (.types (.list (t :: ts)) (.list (u :: us)))
  | elems {ts us : List Ty} (ne : Ty.list ts ≠ .list us)
    (mixed : ¬ (Ty.homogeneous ts && Ty.homogeneous us) = true) (length : ts.length = us.length) :
    Makes (.pairs ts us) (.types (.list ts) (.list us))
  | fn {p b q c : Ty} (ne : Ty.fn p b ≠ .fn q c) : Makes (.pairs [p, b] [q, c]) (.types (.fn p b) (.fn q c))
  | left {alts : List Ty} {alt t : Ty} (ne : Ty.overload alts ≠ t) (noVar : ∀ v, t ≠ .var v) (mem : alt ∈ alts) :
    Makes (.types alt t) (.types (.overload alts) t)
  | right {alts : List Ty} {alt t : Ty} (single : t.Single) (noVar : ∀ v, t ≠ .var v) (mem : alt ∈ alts) :
    Makes (.types t alt) (.types t (.overload alts))
  | first (l r : Ty) (ls rs : List Ty) : Makes (.types l r) (.pairs (l :: ls) (r :: rs))
  | rest {l r : Ty} {s : Subst} (ls rs : List Ty) (mem : s ∈ (l.unify r).substs) :
    Makes (.pairs (ls.map (Ty.apply s)) (rs.map (Ty.apply s))) (.pairs (l :: ls) (r :: rs))

theorem Makes.calls {c d : Call} (h : Makes d c) : Calls d c := by
  cases h with
  | head _ _ => exact .head _ _ _ _
  | elems _ _ _ => exact .elems _ _
  | fn _ => exact .fn _ _ _ _
  | left _ _ mem => exact .left _ mem
  | right _ _ mem => exact .right _ mem
  | first l r ls rs => exact .first l r ls rs
  | rest ls rs mem => exact .rest ls rs mem

/-! ## Branches that correspond -/

section Related
variable {α β γ : Type} {p : α → β → Prop} {q : β → γ → Prop}

theorem rel_of_forall₂ {xs : List α} {ys : List β} (h : List.Forall₂ p xs ys) : Multiset.Rel p xs ys := by
  induction h with
  | nil => exact .zero
  | cons h _ ih => exact .cons h ih

theorem rel_comp {xs : Multiset α} {ys : Multiset β} {zs : Multiset γ} (h : Multiset.Rel p xs ys)
    (h' : Multiset.Rel q ys zs) : Multiset.Rel (Relation.Comp p q) xs zs := by
  induction h generalizing zs with
  | zero => rw [Multiset.rel_zero_left.1 h']; exact .zero
  | cons hab _ ih =>
    obtain ⟨c, rest, hbc, hrest, rfl⟩ := Multiset.rel_cons_left.1 h'
    exact .cons ⟨_, hab, hbc⟩ (ih hrest)

theorem rel_flatMap {xs : List α} {f : α → List β} {g : α → List γ} {r : β → γ → Prop}
    (h : ∀ x ∈ xs, Multiset.Rel r (f x) (g x)) : Multiset.Rel r (xs.flatMap f) (xs.flatMap g) := by
  rw [← Multiset.coe_bind, ← Multiset.coe_bind]
  exact Multiset.rel_bind (r := fun x y => x = y ∧ x ∈ xs) (fun x y hxy => hxy.1 ▸ h x hxy.2)
    (Multiset.rel_refl_of_refl_on fun x hx => ⟨rfl, hx⟩)

theorem flatMap_comm (xs : List α) (ys : List β) (f : α → β → List γ) :
    ((xs.flatMap fun x => ys.flatMap (f x) : List γ) : Multiset γ) =
      (ys.flatMap fun y => xs.flatMap fun x => f x y : List γ) := by
  simp only [← Multiset.coe_bind]
  exact Multiset.bind_bind _ _

end Related

/-! ## One call -/

theorem swaps_of_nil {c : Call} (h : c.answer.substs = []) (h' : c.swap.answer.substs = []) : c.Swaps := by
  rw [Call.Swaps, h, h']
  exact .zero

theorem swaps_of_one {c : Call} (h : c.answer = .one ∅) (h' : c.swap.answer = .one ∅) : c.Swaps := by
  rw [Call.Swaps, h, h']
  exact .cons (Subst.WellFormed.alike Subst.all_empty) .zero

theorem rel_bindVar {v : Nat} {t : Ty} (ht : t.WellFormed) (hvar : ∀ w, t ≠ .var w) :
    Multiset.Rel Subst.Alike (Branches.ofExcept (bindVar v t)).substs (Branches.ofExcept (bindVar v t)).substs := by
  refine Multiset.rel_refl_of_refl_on fun s hs => ?_
  obtain ⟨-, rfl⟩ := bindVar_ok (hvar v) (mem_substs_ofExcept (Multiset.mem_coe.1 hs))
  exact Subst.WellFormed.alike (Subst.all_single ht v)

theorem swaps_var_left {v : Nat} {t : Ty} (ht : t.WellFormed) (hne : .var v ≠ t) : (Call.types (.var v) t).Swaps := by
  show Multiset.Rel Subst.Alike ((Ty.var v).unify t).substs (t.unify (.var v)).substs
  by_cases hvar : ∃ w, t = .var w
  · obtain ⟨w, rfl⟩ := hvar
    have hbind : ∀ {x y : Nat}, Ty.var x ≠ .var y → (Ty.var x).unify (.var y) = .one (.single x (.var y)) := by
      intro x y hxy
      rw [Ty.unify_var_left hxy, bindVar, if_neg hxy.symm, if_neg]
      · rfl
      · simpa [Ty.occurs_iff] using hxy
    rw [hbind hne, hbind hne.symm]
    exact .cons (Subst.alike_single v w) .zero
  · rw [not_exists] at hvar
    rw [Ty.unify_var_left hne, Ty.unify_var_right hvar]
    exact rel_bindVar ht hvar

theorem swaps_var_right {v : Nat} {t : Ty} (ht : t.WellFormed) (hvar : ∀ w, t ≠ .var w) :
    (Call.types t (.var v)).Swaps := by
  show Multiset.Rel Subst.Alike (t.unify (.var v)).substs ((Ty.var v).unify t).substs
  rw [Ty.unify_var_left (hvar v).symm, Ty.unify_var_right hvar]
  exact rel_bindVar ht hvar

/-- Two overload sets without variables among their alternatives: every alternative meets every other one. -/
theorem swaps_sets {as bs : List Ty} (hne : as ≠ bs) (has : (Ty.overload as).WellFormed)
    (hbs : (Ty.overload bs).WellFormed) (hvar : ∀ v, .var v ∉ as ∧ .var v ∉ bs)
    (hcall : ∀ d, Makes d (.types (.overload as) (.overload bs)) → d.Swaps) :
    (Call.types (.overload as) (.overload bs)).Swaps := by
  have hne' : Ty.overload as ≠ .overload bs := fun h => hne (Ty.overload.inj h)
  have ha : ∀ a ∈ as, (∀ v, a ≠ .var v) ∧ a.Single := fun a h =>
    ⟨fun v hv => (hvar v).1 (hv ▸ h), ((Ty.wellFormed_overload.1 has).1 a h).2⟩
  have hb : ∀ b ∈ bs, (∀ v, b ≠ .var v) ∧ b.Single := fun b h =>
    ⟨fun v hv => (hvar v).2 (hv ▸ h), ((Ty.wellFormed_overload.1 hbs).1 b h).2⟩
  show Multiset.Rel Subst.Alike ((Ty.overload as).unify (.overload bs)).substs
    ((Ty.overload bs).unify (.overload as)).substs
  have hback : (((Ty.overload bs).unify (.overload as)).substs : Multiset Subst) =
      as.flatMap fun a => ((Ty.overload bs).unify a).substs := by
    calc (((Ty.overload bs).unify (.overload as)).substs : Multiset Subst)
        = (bs.flatMap fun b => (b.unify (.overload as)).substs : List Subst) := by
          rw [substs_unify_left hne'.symm (by simp)]
      _ = (bs.flatMap fun b => as.flatMap fun a => (b.unify a).substs : List Subst) := by
          rw [List.flatMap_congr fun b h => substs_unify_right (hb b h).2 (hb b h).1]
      _ = (as.flatMap fun a => bs.flatMap fun b => (b.unify a).substs : List Subst) := flatMap_comm _ _ _
      _ = (as.flatMap fun a => ((Ty.overload bs).unify a).substs : List Subst) := by
          rw [List.flatMap_congr fun a h => substs_unify_left ((ha a h).2 bs).symm (ha a h).1]
  rw [hback, substs_unify_left hne' (by simp)]
  exact rel_flatMap fun a h => hcall _ (.left hne' (by simp) h)

theorem swaps_types {l r : Ty} (hwell : l.WellFormed ∧ r.WellFormed) (hopen : l.RecordsOpen ∧ r.RecordsOpen)
    (hcross : ¬ (Call.types l r).Crossed) (hcall : ∀ d, Makes d (.types l r) → d.Swaps) : (Call.types l r).Swaps := by
  have hgives := gives_answer (.types l r)
  generalize hb : (Call.types l r).answer = b at hgives
  cases hgives with
  | same _ => exact swaps_of_one hb hb
  | bindLeft ne => exact swaps_var_left hwell.2 ne
  | bindRight noVar => exact swaps_var_right hwell.1 noVar
  | @listHead t u ts us ne homogeneous _ =>
    have hback : (Call.types (.list (u :: us)) (.list (t :: ts))).answer = u.unify t :=
      Ty.unify_listHead ne.symm (by rwa [Bool.and_comm])
    rw [Call.Swaps, Call.swap, hb, hback]
    exact hcall _ (.head ne homogeneous)
  | @listEmpty ts us ne homogeneous empty =>
    exact swaps_of_one hb (Ty.unify_listEmpty ne.symm (by rwa [Bool.and_comm]) empty.symm)
  | @listAll ts us ne mixed length _ =>
    have hback : (Call.types (.list us) (.list ts)).answer = Ty.unifyAll us ts :=
      (Ty.unify_listMixed ne.symm (by rwa [Bool.and_comm])).trans (if_pos length.symm)
    rw [Call.Swaps, Call.swap, hb, hback]
    exact hcall _ (.elems ne mixed length)
  | @listFail ts us ne mixed length =>
    have hback : (Call.types (.list us) (.list ts)).answer = .fail (.mismatch (.list us) (.list ts)) :=
      (Ty.unify_listMixed ne.symm (by rwa [Bool.and_comm])).trans (if_neg length.symm)
    exact swaps_of_nil (congrArg Branches.substs hb) (congrArg Branches.substs hback)
  | @record fs gs o o' ne _ =>
    obtain rfl := hopen.1.eq_true
    obtain rfl := hopen.2.eq_true
    exact swaps_of_one hb (Ty.unify_record ne.symm)
  | @recordFail fs gs o o' ne names =>
    obtain rfl := hopen.1.eq_true
    obtain rfl := hopen.2.eq_true
    exact absurd rfl names
  | @fn p b q c ne _ =>
    have hback : (Call.types (.fn q c) (.fn p b)).answer = Ty.unifyAll [q, c] [p, b] := Ty.unify_fn ne.symm
    rw [Call.Swaps, Call.swap, hb, hback]
    exact hcall _ (.fn ne)
  | @left alts t ne noVar _ =>
    by_cases hsingle : r.Single
    · show Multiset.Rel Subst.Alike ((Ty.overload alts).unify r).substs (r.unify (.overload alts)).substs
      rw [substs_unify_left ne noVar, substs_unify_right hsingle noVar]
      exact rel_flatMap fun a h => hcall _ (.left ne noVar h)
    · obtain ⟨bs, rfl⟩ : ∃ bs, r = .overload bs := by simpa [Ty.Single] using hsingle
      have hsets : alts ≠ bs := fun h => ne (h ▸ rfl)
      refine swaps_sets hsets hwell.1 hwell.2 (fun v => ?_) hcall
      exact ⟨fun h => hcross ⟨hsets, v, .inl h⟩, fun h => hcross ⟨hsets, v, .inr h⟩⟩
  | @right alts t single noVar _ =>
    show Multiset.Rel Subst.Alike (l.unify (.overload alts)).substs ((Ty.overload alts).unify l).substs
    rw [substs_unify_right single noVar, substs_unify_left (single alts).symm noVar]
    exact rel_flatMap fun a h => hcall _ (.right single noVar h)
  | clash left right ne =>
    have hback : (Call.types r l).answer = .fail (.mismatch r l) := Ty.unify_clash right left ne.symm
    exact swaps_of_nil (congrArg Branches.substs hb) (congrArg Branches.substs hback)

theorem swaps_pairs {ls rs : List Ty} (hwell : (∀ t ∈ ls, t.WellFormed) ∧ ∀ t ∈ rs, t.WellFormed)
    (hcall : ∀ d, Makes d (.pairs ls rs) → d.Swaps) : (Call.pairs ls rs).Swaps := by
  have heq : (Call.pairs ls rs).answer = _ := answer_eq (.pairs ls rs)
  have heq' : (Call.pairs rs ls).answer = _ := answer_eq (.pairs rs ls)
  cases ls with
  | nil =>
    cases rs with
    | nil => exact swaps_of_one heq heq'
    | cons r rs => exact swaps_of_nil (congrArg Branches.substs heq) (congrArg Branches.substs heq')
  | cons l ls =>
    cases rs with
    | nil => exact swaps_of_nil (congrArg Branches.substs heq) (congrArg Branches.substs heq')
    | cons r rs =>
      obtain ⟨hl, hls⟩ : l.WellFormed ∧ ∀ t ∈ ls, t.WellFormed := by simpa using hwell.1
      obtain ⟨hr, hrs⟩ : r.WellFormed ∧ ∀ t ∈ rs, t.WellFormed := by simpa using hwell.2
      show Multiset.Rel Subst.Alike (Ty.unifyAll (l :: ls) (r :: rs)).substs (Ty.unifyAll (r :: rs) (l :: ls)).substs
      rw [substs_unifyAll_cons, substs_unifyAll_cons, ← Multiset.coe_bind, ← Multiset.coe_bind]
      have hhead :
          Multiset.Rel (fun s s' => s ∈ (l.unify r).substs ∧ Subst.Alike s s') (l.unify r).substs (r.unify l).substs :=
        (hcall _ (.first l r ls rs)).mono fun s hs _ _ h => ⟨hs, h⟩
      refine Multiset.rel_bind ?_ hhead
      rintro s s' ⟨hmem, ρ, hρ, hvariant⟩
      have hs : s.WellFormed := (Ty.unifies_of_mem hmem).wellFormed (by simpa using hl) (by simpa using hr)
      have hls' : ∀ t ∈ ls.map (Ty.apply s), t.WellFormed := List.forall_mem_map.2 fun t ht => hs.apply (hls t ht)
      have hrs' : ∀ t ∈ rs.map (Ty.apply s), t.WellFormed := List.forall_mem_map.2 fun t ht => hs.apply (hrs t ht)
      beta_reduce
      rw [hvariant.map_apply hs hls, hvariant.map_apply hs hrs, ← Multiset.map_coe, ← Multiset.map_coe,
        Multiset.rel_map]
      have htail : ∀ {ls rs : List Ty}, (∀ t ∈ ls, t.WellFormed) → (∀ t ∈ rs, t.WellFormed) →
          ∀ a ∈ (Ty.unifyAll ls rs).substs, a.WellFormed :=
        fun hls hrs a ha => (Ty.unifies_of_mem_all ha).wellFormed hls hrs
      -- the pairs that are left are swapped, and then renamed
      have hswap := (hcall _ (.rest ls rs hmem)).mono (p := fun a b => (a.WellFormed ∧ b.WellFormed) ∧ Subst.Alike a b)
        fun a ha b hb h => ⟨⟨htail hls' hrs' a ha, htail hrs' hls' b hb⟩, h⟩
      refine (rel_comp hswap (rel_of_forall₂ (Ty.unifyAll_rename hρ hrs' hls'))).mono ?_
      rintro a - c - ⟨b, ⟨⟨ha, hb⟩, τ, hτ, hab⟩, hbc⟩
      exact ⟨_, hρ.comp hτ, hvariant.compose hab hbc hs ha hb⟩

/-! ## The calls that follow -/

section Calls
variable {c d : Call}

/-- The types of a call occur in those of the call that may make it, or a branch of two of these was put into them. -/
theorem Calls.sides_cases (h : Calls d c) :
    (∀ t ∈ d.sides, ∃ u ∈ c.sides, t.OccursIn u) ∨
      ∃ l ∈ c.sides, ∃ r ∈ c.sides, ∃ s ∈ (l.unify r).substs, ∀ t ∈ d.sides, ∃ u ∈ c.sides, t = u.apply s := by
  cases h with
  | head t u ts us =>
    refine .inl fun s hs => ?_
    rcases List.mem_pair.1 hs with rfl | rfl
    · exact ⟨.list (s :: ts), by simp [Call.sides], .elem List.mem_cons_self (.self s)⟩
    · exact ⟨.list (s :: us), by simp [Call.sides], .elem List.mem_cons_self (.self s)⟩
  | elems ts us =>
    refine .inl fun s hs => ?_
    rcases List.mem_append.1 hs with hs | hs
    · exact ⟨.list ts, by simp [Call.sides], .elem hs (.self s)⟩
    · exact ⟨.list us, by simp [Call.sides], .elem hs (.self s)⟩
  | fn p b q c =>
    refine .inl fun s hs => ?_
    rcases List.mem_append.1 hs with hs | hs <;> rcases List.mem_pair.1 hs with rfl | rfl
    · exact ⟨.fn s b, by simp [Call.sides], .param b (.self s)⟩
    · exact ⟨.fn p s, by simp [Call.sides], .body p (.self s)⟩
    · exact ⟨.fn s c, by simp [Call.sides], .param c (.self s)⟩
    · exact ⟨.fn q s, by simp [Call.sides], .body q (.self s)⟩
  | @left alts alt t mem =>
    refine .inl fun s hs => ?_
    rcases List.mem_pair.1 hs with rfl | rfl
    · exact ⟨.overload alts, by simp [Call.sides], .alt mem (.self s)⟩
    · exact ⟨s, by simp [Call.sides], .self s⟩
  | @right alts alt t mem =>
    refine .inl fun s hs => ?_
    rcases List.mem_pair.1 hs with rfl | rfl
    · exact ⟨s, by simp [Call.sides], .self s⟩
    · exact ⟨.overload alts, by simp [Call.sides], .alt mem (.self s)⟩
  | first l r ls rs =>
    refine .inl fun s hs => ⟨s, ?_, .self s⟩
    rcases List.mem_pair.1 hs with rfl | rfl <;> simp [Call.sides]
  | @rest l r s ls rs mem =>
    refine .inr ⟨l, by simp [Call.sides], r, by simp [Call.sides], s, mem, ?_⟩
    refine List.forall_mem_append.2 ⟨List.forall_mem_map.2 fun t ht => ?_, List.forall_mem_map.2 fun t ht => ?_⟩
    · exact ⟨t, by simp [Call.sides, ht], rfl⟩
    · exact ⟨t, by simp [Call.sides, ht], rfl⟩

theorem Calls.wellFormed (h : Calls d c) (hc : ∀ t ∈ c.sides, t.WellFormed) : ∀ t ∈ d.sides, t.WellFormed :=
  h.hereditary Ty.hereditary_wellFormed hc

theorem Calls.recordsOpen (h : Calls d c) (hc : ∀ t ∈ c.sides, t.RecordsOpen) : ∀ t ∈ d.sides, t.RecordsOpen :=
  h.hereditary Ty.hereditary_recordsOpen hc

end Calls

/-- A call that leads to no crossed one has the branches of the swapped call. -/
theorem swaps_of_not_crossed (c : Call) (hwell : ∀ t ∈ c.sides, t.WellFormed) (hopen : ∀ t ∈ c.sides, t.RecordsOpen)
    (hcross : ∀ d, Relation.ReflTransGen Makes d c → ¬ d.Crossed) : c.Swaps := by
  induction c using wellFounded_calls.induction with
  | _ c ih =>
    have hcall : ∀ d, Makes d c → d.Swaps := fun d hd =>
      ih d hd.calls (hd.calls.wellFormed hwell) (hd.calls.recordsOpen hopen) fun e he => hcross e (he.tail hd)
    cases c with
    | types l r =>
      exact swaps_types (by simpa [Call.sides] using hwell) (by simpa [Call.sides] using hopen) (hcross _ .refl) hcall
    | pairs ls rs => exact swaps_pairs (List.forall_mem_append.1 hwell) hcall

/-! ## Which overload sets occur -/

/-- No overload set with a variable among its alternatives occurs in the types beside a different overload set. -/
def Unmixed (C : Set Ty) : Prop :=
  ∀ as bs, (Ty.overload as).OccursAmong C → (Ty.overload bs).OccursAmong C → as ≠ bs → ∀ v, .var v ∉ as

section Unmixed
variable {C D : Set Ty}

theorem Unmixed.of_occurs (h : Unmixed C) (hD : ∀ t ∈ D, t.OccursAmong C) : Unmixed D := by
  have hlift : ∀ t : Ty, t.OccursAmong D → t.OccursAmong C := by
    rintro t ⟨u, hu, ht⟩
    exact (hD u hu).part ht
  exact fun as bs has hbs => h as bs (hlift _ has) (hlift _ hbs)

/-- Either no overload set has a variable among its alternatives, or there is only one overload set. -/
theorem Unmixed.cases (h : Unmixed C) :
    (∀ as, (Ty.overload as).OccursAmong C → ∀ v, .var v ∉ as) ∨ ∃ lone, ∀ as, (Ty.overload as).OccursAmong C →
      as = lone := by
  by_contra hnot
  rw [not_or] at hnot
  push Not at hnot
  obtain ⟨⟨lone, hlone, v, hv⟩, hother⟩ := hnot
  obtain ⟨as, has, hne⟩ := hother lone
  exact h lone as hlone has hne.symm v hv

/-- A substitution makes no variable an alternative of an overload set that has none. -/
theorem var_not_mem_of_subst {f : Nat → Ty} (hf : ∀ v, (f v).WellFormed) {as bs : List Ty}
    (hwell : (Ty.overload as).WellFormed) (has : ∀ v, .var v ∉ as) (heq : .overload bs = (Ty.overload as).subst f)
    (v : Nat) : .var v ∉ bs := by
  intro hv
  have hparts := (Ty.wellFormed_overload.1 hwell).1
  have hsingle : ∀ u ∈ as.map (Ty.subst f), ∀ a ∈ u.alternatives, a.Single :=
    List.forall_mem_map.2 fun a ha b hb => (((hparts a ha).1.subst fun v _ => hf v).alternatives hb).2
  have hbs : bs = Ty.altsOf (as.map (Ty.subst f)) := by
    rw [← Ty.alternatives_overloads hsingle, ← Ty.subst_overload, ← heq]
    rfl
  rw [hbs] at hv
  obtain ⟨_, hmem, hv⟩ := Ty.mem_altsOf.1 hv
  obtain ⟨a, ha, rfl⟩ := List.mem_map.1 hmem
  cases a with
  | var w => exact has w ha
  | overload us => exact (hparts _ ha).2 us rfl
  | _ => simp [Ty.alternatives] at hv

/-- An overload set that is there after a variable is bound was in the type it is bound to, or is the image of one. -/
theorem exists_set_of_bind (hC : ∀ t ∈ C, t.WellFormed) {v : Nat} {t : Ty} {as : List Ty}
    (h : (Ty.overload as).OccursAmong (Ty.apply (.single v t) '' C)) :
    (Ty.overload as).OccursIn t ∨
      ∃ bs, (Ty.overload bs).OccursAmong C ∧ .overload as = (Ty.overload bs).subst (Subst.single v t).toFun := by
  obtain ⟨_, ⟨u, hu, rfl⟩, h⟩ := h
  rw [Ty.apply_eq_subst (hC u hu)] at h
  rcases h.traced with ⟨w, -, hw⟩ | ⟨u', hu', heq, hvar, -⟩
  · by_cases hwv : w = v
    · rw [hwv, Subst.toFun_single] at hw
      exact .inl hw
    · rw [Subst.toFun_single_of_ne hwv] at hw
      cases hw
  · cases u' with
    | overload bs => exact .inr ⟨bs, ⟨u, hu, hu'⟩, heq⟩
    | var w => exact absurd rfl (hvar w)
    | _ => simp at heq

theorem Unmixed.bind (h : Unmixed C) (hC : ∀ t ∈ C, t.WellFormed) {v : Nat} {t : Ty} (ht : t.OccursAmong C)
    (hv : v ∉ t.free) : Unmixed (Ty.apply (.single v t) '' C) := by
  have hwell : t.WellFormed := ht.wellFormed hC
  rcases h.cases with hnone | ⟨lone, hlone⟩
  · intro as bs has _ _ x
    rcases exists_set_of_bind hC has with hoccurs | ⟨cs, hcs, heq⟩
    · exact hnone as (ht.part hoccurs) x
    · exact var_not_mem_of_subst (Subst.all_single hwell v).toFun (hcs.wellFormed hC) (hnone cs hcs) heq x
  · -- where the one set is in what the variable becomes, the variable is not in the set
    have hone : ∀ as, (Ty.overload as).OccursAmong (Ty.apply (.single v t) '' C) →
        .overload as = (Ty.overload lone).subst (Subst.single v t).toFun := by
      intro as has
      rcases exists_set_of_bind hC has with hoccurs | ⟨cs, hcs, heq⟩
      · obtain rfl := hlone as (ht.part hoccurs)
        exact (Ty.subst_single_of_not_mem (hoccurs.wellFormed hwell) fun hw => hv (hoccurs.free_subset hw)).symm
      · rw [heq, hlone cs hcs]
    intro as bs has hbs hne
    exact absurd (Ty.overload.inj ((hone as has).trans (hone bs hbs).symm)) hne

/-- A branch of the unifier leaves types unmixed. -/
theorem Unmixed.unifies {ls rs : List Ty} {s : Subst} (hC : Unmixed C) (h : Unifies ls rs s)
    (hwell : ∀ t ∈ C, t.WellFormed) (hl : ∀ t ∈ ls, t.OccursAmong C) (hr : ∀ t ∈ rs, t.OccursAmong C) :
    Unmixed (Ty.apply s '' C) := by
  induction h generalizing C with
  | nil | same _ | listEmpty _ _ _ | record _ => rwa [show Ty.apply ∅ = id from rfl, Set.image_id]
  | @cons l r ls rs s s' head tail ihHead ihTail =>
    -- the pairs that are left are taken in, so that they are images of types at hand
    let D : Set Ty := {t | t.OccursAmong C}
    have hD : ∀ t ∈ D, t.WellFormed := fun t ht => ht.wellFormed hwell
    have hlD : ∀ t ∈ l :: ls, t ∈ D := hl
    have hrD : ∀ t ∈ r :: rs, t ∈ D := hr
    have hs : s.WellFormed :=
      head.wellFormed (by simpa using hD l (hlD l (by simp))) (by simpa using hD r (hrD r (by simp)))
    have hfirst : Unmixed (Ty.apply s '' D) := ihHead (hC.of_occurs fun t ht => ht) hD
      (by simpa using Ty.occursAmong_of_mem (hlD l (by simp))) (by simpa using Ty.occursAmong_of_mem (hrD r (by simp)))
    have himage : ∀ t ∈ Ty.apply s '' D, t.WellFormed := by
      rintro _ ⟨t, ht, rfl⟩
      exact hs.apply (hD t ht)
    have hrest : ∀ {ts : List Ty}, (∀ t ∈ ts, t ∈ D) → ∀ t ∈ ts.map (Ty.apply s), t.OccursAmong (Ty.apply s '' D) :=
      fun hts => List.forall_mem_map.2 fun t ht => Ty.occursAmong_of_mem ⟨t, hts t ht, rfl⟩
    have hls := hrest fun t ht => hlD t (List.mem_cons_of_mem l ht)
    have hrs := hrest fun t ht => hrD t (List.mem_cons_of_mem r ht)
    have hs' : s'.WellFormed :=
      tail.wellFormed (fun t ht => (hls t ht).wellFormed himage) fun t ht => (hrs t ht).wellFormed himage
    refine (ihTail hfirst himage hls hrs).of_occurs ?_
    rintro _ ⟨t, ht, rfl⟩
    rw [Ty.apply_compose (hwell t ht) hs' hs]
    exact Ty.occursAmong_of_mem ⟨_, ⟨t, Ty.occursAmong_of_mem ht, rfl⟩, rfl⟩
  | @bindLeft v t occurs => exact hC.bind hwell (hr t (by simp)) occurs
  | @bindRight v t occurs => exact hC.bind hwell (hl t (by simp)) occurs
  | listHead _ _ _ ih =>
    simp only [List.mem_singleton, forall_eq] at hl hr
    refine ih hC hwell ?_ ?_
    · simpa using hl.part (.elem List.mem_cons_self (.self _))
    · simpa using hr.part (.elem List.mem_cons_self (.self _))
  | listAll _ _ ih =>
    simp only [List.mem_singleton, forall_eq] at hl hr
    exact ih hC hwell (fun t ht => hl.part (.elem ht (.self t))) fun t ht => hr.part (.elem ht (.self t))
  | @fn p q b c s _ ih =>
    simp only [List.mem_singleton, forall_eq] at hl hr
    refine ih hC hwell ?_ ?_
    · simpa using ⟨hl.part (.param b (.self p)), hl.part (.body p (.self b))⟩
    · simpa using ⟨hr.part (.param c (.self q)), hr.part (.body q (.self c))⟩
  | left mem _ ih =>
    simp only [List.mem_singleton, forall_eq] at hl
    exact ih hC hwell (by simpa using hl.part (.alt mem (.self _))) hr
  | right mem _ ih =>
    simp only [List.mem_singleton, forall_eq] at hr
    exact ih hC hwell hl (by simpa using hr.part (.alt mem (.self _)))

theorem Calls.unmixed {c d : Call} (h : Calls d c) (hwell : ∀ t ∈ c.sides, t.WellFormed)
    (hc : Unmixed {t | t ∈ c.sides}) : Unmixed {t | t ∈ d.sides} := by
  rcases h.sides_cases with hparts | ⟨l, hl, r, hr, s, hs, himages⟩
  · exact hc.of_occurs hparts
  · have hl' : ∀ t ∈ [l], t.OccursAmong {t | t ∈ c.sides} := by simpa using Ty.occursAmong_of_mem hl
    have hr' : ∀ t ∈ [r], t.OccursAmong {t | t ∈ c.sides} := by simpa using Ty.occursAmong_of_mem hr
    refine (hc.unifies (Ty.unifies_of_mem hs) hwell hl' hr').of_occurs fun t ht => ?_
    obtain ⟨u, hu, rfl⟩ := himages t ht
    exact Ty.occursAmong_of_mem ⟨u, hu, rfl⟩

theorem Unmixed.not_crossed {c : Call} (hc : Unmixed {t | t ∈ c.sides}) : ¬ c.Crossed := by
  intro hcrossed
  unfold Call.Crossed at hcrossed
  split at hcrossed
  · next as bs =>
    obtain ⟨hne, v, hv⟩ := hcrossed
    have has : (Ty.overload as).OccursAmong {t | t ∈ (Call.types (.overload as) (.overload bs)).sides} :=
      Ty.occursAmong_of_mem (by simp [Call.sides])
    have hbs : (Ty.overload bs).OccursAmong {t | t ∈ (Call.types (.overload as) (.overload bs)).sides} :=
      Ty.occursAmong_of_mem (by simp [Call.sides])
    rcases hv with hv | hv
    · exact hc as bs has hbs hne v hv
    · exact hc bs as hbs has (Ne.symm hne) v hv
  · exact hcrossed

/-- Calls for unmixed types lead to none that is crossed. -/
theorem Unmixed.not_crossed_of_makes {c d : Call} (h : Relation.ReflTransGen Makes d c)
    (hwell : ∀ t ∈ c.sides, t.WellFormed) (hc : Unmixed {t | t ∈ c.sides}) : ¬ d.Crossed := by
  induction h with
  | refl => exact hc.not_crossed
  | tail _ hmakes ih => exact ih (hmakes.calls.wellFormed hwell) (hmakes.calls.unmixed hwell hc)

end Unmixed

end Unification

/-! ## Swapped sides -/

/-- Unifying the two types comes to compare two different overload sets of which one has a variable among its
alternatives. -/
def Crosses (l r : Ty) : Prop :=
  ∃ d : Unification.Call, Relation.ReflTransGen Unification.Makes d (.types l r) ∧ d.Crossed

/-- Swapping the sides keeps the number of branches, and what they bind up to names, unless the unifier comes to compare
two different overload sets of which one has a variable among its alternatives. Such sets then occur in the types. -/
theorem unify_swapped {l r : Ty} (hl : l.WellFormed) (hr : r.WellFormed) (hlOpen : l.RecordsOpen)
    (hrOpen : r.RecordsOpen) :
    (¬ Crosses l r →
      (l.unify r).substs.length = (r.unify l).substs.length ∧ ((l.unify r).substs = [] ↔ (r.unify l).substs = []) ∧
      Multiset.Rel Subst.Alike (l.unify r).substs (r.unify l).substs) ∧
    (Crosses l r → ∃ as bs v, as ≠ bs ∧ Ty.var v ∈ as ∧
      (Ty.overload as).OccursAmong {l, r} ∧ (Ty.overload bs).OccursAmong {l, r}) := by
  have hwell :
      ∀ t ∈ (Unification.Call.types l r).sides, t.WellFormed := by simpa [Unification.Call.sides] using ⟨hl, hr⟩
  have hopen : ∀ t ∈ (Unification.Call.types l r).sides, t.RecordsOpen := by
    simpa [Unification.Call.sides] using ⟨hlOpen, hrOpen⟩
  constructor
  · intro hcross
    have hrel : Multiset.Rel Subst.Alike (l.unify r).substs (r.unify l).substs :=
      Unification.swaps_of_not_crossed (.types l r) hwell hopen fun d hd hcrossed => hcross ⟨d, hd, hcrossed⟩
    have hlength : (l.unify r).substs.length = (r.unify l).substs.length := by
      simpa using Multiset.card_eq_card_of_rel hrel
    refine ⟨hlength, ?_, hrel⟩
    rw [← List.length_eq_zero_iff, hlength, List.length_eq_zero_iff]
  · rintro ⟨d, hd, hcrossed⟩
    by_contra hnone
    push Not at hnone
    have hsides : {t | t ∈ (Unification.Call.types l r).sides} = ({l, r} : Set Ty) := by
      ext t
      simp [Unification.Call.sides]
    refine Unification.Unmixed.not_crossed_of_makes hd hwell ?_ hcrossed
    rw [hsides]
    exact fun as bs has hbs hne v hv => hnone as bs v hne hv has hbs

/-- The only overload set has a variable among its alternatives, and what it is compared with depends on which of two
other variables was bound to the other. -/
theorem unify_swapped_lone_set :
    let l : Ty := .fn (.var 1) (.overload [.var 0, .list [.var 1]])
    let r : Ty := .fn (.var 2) (.list [.var 2])
    l.WellFormed ∧ r.WellFormed ∧ l.RecordsOpen ∧ r.RecordsOpen ∧ ¬ Crosses l r ∧
      (l.unify r).substs.length = 2 ∧ (r.unify l).substs.length = 2 := by
  intro l r
  have hl : l.WellFormed := by simp [l, Ty.Single]
  have hr : r.WellFormed := by simp [r]
  have hlOpen : l.RecordsOpen := by simp [l, Ty.RecordsOpen]
  have hrOpen : r.RecordsOpen := by simp [r, Ty.RecordsOpen]
  obtain ⟨hswap, hcrosses⟩ := unify_swapped hl hr hlOpen hrOpen
  have hlone : ∀ cs, (Ty.overload cs).OccursAmong {l, r} → cs = [.var 0, .list [.var 1]] := by
    simp [Ty.OccursAmong, l, r]
  have hcross : ¬ Crosses l r := by
    intro h
    obtain ⟨as, bs, v, hne, -, has, hbs⟩ := hcrosses h
    exact hne ((hlone as has).trans (hlone bs hbs).symm)
  have hlength : (l.unify r).substs.length = 2 := by cbv
  exact ⟨hl, hr, hlOpen, hrOpen, hcross, hlength, (hswap hcross).1 ▸ hlength⟩

/-- The variable of the first set occurs in the whole second set, to which it would be bound; the other way round it is
bound to one of the alternatives. -/
theorem crossed_sets_differ :
    let l : Ty := .overload [.var 0, .int]
    let r : Ty := .overload [.list [.var 0], .string]
    l.WellFormed ∧ r.WellFormed ∧ l.RecordsOpen ∧ r.RecordsOpen ∧
      (l.unify r).substs = [] ∧ (r.unify l).substs = [.single 0 .string] := by
  intro l r
  have hl : l.WellFormed := by simp [l, Ty.Single, Ty.int]
  have hr : r.WellFormed := by simp [r, Ty.Single, Ty.string]
  have hlOpen : l.RecordsOpen := by simp [l, Ty.int, Ty.RecordsOpen]
  have hrOpen : r.RecordsOpen := by simp [r, Ty.string, Ty.RecordsOpen]
  exact ⟨hl, hr, hlOpen, hrOpen, by cbv, by cbv⟩

end NixTyping
