import NixTyping.Proofs.UnifierCalls
/-!
# What the unifier answers

The unifier counts the variables that are left, but the count does not show in its answers.
`Ty.unify` and `Ty.unifyAll` have equations without it, one for each case, and `Call.Gives`
lists once what is answered to a call and by which calls. What holds of all answers, those
that fail included, is an induction over it (`gives_answer`); what holds of the branches that
succeed is one over `Unifies`.
-/

namespace NixTyping

/-! ## Equations -/

namespace Ty

open Unification

/-- The heads of types other than variables and overload sets. -/
inductive Shape where
  | prim (p : Prim)
  | list
  | fn
  | record

/-- What a type keeps under every substitution. -/
def shape? : Ty → Option Shape
  | .prim p => some (.prim p)
  | .list _ => some .list
  | .fn _ _ => some .fn
  | .record _ _ => some .record
  | .var _ | .overload _ => none

theorem shape?_subst {t : Ty} {a : Shape} (h : t.shape? = some a) (f : Nat → Ty) : (t.subst f).shape? = some a := by
  cases t with
  | prim p => exact h
  | list ts => rwa [subst_list]
  | fn p b => exact h
  | record fs o => rwa [subst_record]
  | var v | overload ts => cases h

section Equations
variable {l r t u p b q c : Ty} {ts us : List Ty} {v : Nat}

theorem unify_same (t : Ty) : t.unify t = .one ∅ := unifyWithin_same _ t

theorem unify_var_left (hne : .var v ≠ t) : (Ty.var v).unify t = .ofExcept (bindVar v t) := unifyWithin_var_left hne

theorem unify_var_right (ht : ∀ w, t ≠ .var w) : t.unify (.var v) = .ofExcept (bindVar v t) := unifyWithin_var_right ht

theorem unify_listHead (hne : Ty.list (t :: ts) ≠ .list (u :: us))
    (h : (homogeneous (t :: ts) && homogeneous (u :: us)) = true) :
    (Ty.list (t :: ts)).unify (.list (u :: us)) = t.unify u :=
  (answer_eq (.types (.list (t :: ts)) (.list (u :: us)))).trans ((if_neg hne).trans (if_pos h))

theorem unify_listEmpty (hne : Ty.list ts ≠ .list us) (h : (homogeneous ts && homogeneous us) = true)
    (hempty : ts = [] ∨ us = []) : (Ty.list ts).unify (.list us) = .one ∅ := unifyWithin_listEmpty hne h hempty

theorem unify_listMixed (hne : Ty.list ts ≠ .list us) (h : ¬ (homogeneous ts && homogeneous us) = true) :
    (Ty.list ts).unify (.list us) =
      if ts.length = us.length then unifyAll ts us else .fail (.mismatch (.list ts) (.list us)) :=
  (answer_eq (.types (.list ts) (.list us))).trans ((if_neg hne).trans (if_neg h))

theorem unify_record {fs gs : List (String × Ty)} {o o' : Bool} (hne : Ty.record fs o ≠ .record gs o') :
    (Ty.record fs o).unify (.record gs o') =
      if recordsFit fs o gs o' then .one ∅ else .fail (.mismatch (.record fs o) (.record gs o')) :=
  unifyWithin_record hne

theorem unify_fn (hne : Ty.fn p b ≠ .fn q c) : (Ty.fn p b).unify (.fn q c) = unifyAll [p, b] [q, c] :=
  (answer_eq (.types (.fn p b) (.fn q c))).trans (if_neg hne)

theorem unify_left {alts : List Ty} (hne : .overload alts ≠ t) (ht : ∀ v, t ≠ .var v) :
    (Ty.overload alts).unify t = alts.foldr (fun alt more => (alt.unify t).append more) .none := by
  refine (answer_eq (.types (.overload alts) t)).trans ((if_neg hne).trans ?_)
  cases t with
  | var v => exact absurd rfl (ht v)
  | _ => rfl

theorem unify_right {alts : List Ty} (hs : t.Single) (ht : ∀ v, t ≠ .var v) :
    t.unify (.overload alts) = alts.foldr (fun alt more => (t.unify alt).append more) .none := by
  refine (answer_eq (.types t (.overload alts))).trans ((if_neg (hs alts)).trans ?_)
  cases t with
  | var v => exact absurd rfl (ht v)
  | overload us => exact absurd rfl (hs us)
  | _ => rfl

theorem unify_clash {x y : Shape} (hl : l.shape? = some x) (hr : r.shape? = some y) (hne : x ≠ y) :
    l.unify r = .fail (.mismatch l r) := by
  have hlr : l ≠ r := by
    rintro rfl
    exact hne (Option.some.inj (hl.symm.trans hr))
  refine (answer_eq (.types l r)).trans ((if_neg hlr).trans ?_)
  cases l <;> cases r <;> simp_all [shape?]

theorem unifyAll_nil : unifyAll [] [] = .one ∅ := answer_eq (.pairs [] [])

theorem unifyAll_cons (l r : Ty) (ls rs : List Ty) :
    unifyAll (l :: ls) (r :: rs) =
    (l.unify r).andThen fun s => unifyAll (ls.map (apply s)) (rs.map (apply s)) :=
  answer_eq (.pairs (l :: ls) (r :: rs))

theorem unifyAll_short (r : Ty) (rs : List Ty) : unifyAll [] (r :: rs) = .fail (.arity [] (r :: rs)) :=
  answer_eq (.pairs [] (r :: rs))

theorem unifyAll_long (l : Ty) (ls : List Ty) : unifyAll (l :: ls) [] = .fail (.arity (l :: ls) []) :=
  answer_eq (.pairs (l :: ls) [])

end Equations

end Ty

/-! ## Branches of the answers -/

namespace Unification

theorem substs_foldr_append {α : Type} (f : α → Branches) (xs : List α) :
    (xs.foldr (fun x more => (f x).append more) .none).substs = xs.flatMap fun x => (f x).substs := by
  induction xs with
  | nil => rfl
  | cons x xs ih => rw [List.foldr_cons, List.flatMap_cons, ← ih]; rfl

theorem substs_unify_left {alts : List Ty} {t : Ty} (hne : .overload alts ≠ t) (ht : ∀ v, t ≠ .var v) :
    ((Ty.overload alts).unify t).substs = alts.flatMap fun a => (a.unify t).substs := by
  rw [Ty.unify_left hne ht]
  exact substs_foldr_append _ alts

theorem substs_unify_right {alts : List Ty} {t : Ty} (hs : t.Single) (ht : ∀ v, t ≠ .var v) :
    (t.unify (.overload alts)).substs = alts.flatMap fun a => (t.unify a).substs := by
  rw [Ty.unify_right hs ht]
  exact substs_foldr_append _ alts

/-- A type that is no overload set meets the alternatives of the other side one by one. -/
theorem substs_unify_alternatives {l r : Ty} (hs : l.Single) (hrigid : ¬ r.Single → ∀ v, l ≠ .var v) :
    (l.unify r).substs = r.alternatives.flatMap fun a => (l.unify a).substs := by
  by_cases hsingle : r.Single
  · rw [Ty.alternatives_of_single hsingle, List.flatMap_singleton]
  · obtain ⟨alts, rfl⟩ : ∃ alts, r = .overload alts := by simpa [Ty.Single] using hsingle
    exact substs_unify_right hs (hrigid hsingle)

theorem substs_unifyAll_cons (l r : Ty) (ls rs : List Ty) :
    (Ty.unifyAll (l :: ls) (r :: rs)).substs = (l.unify r).substs.flatMap fun s =>
      (Ty.unifyAll (ls.map (Ty.apply s)) (rs.map (Ty.apply s))).substs.map (·.compose s) := by
  rw [Ty.unifyAll_cons]
  exact Branches.substs_andThen _ _

/-! ## What is answered -/

/-- What is answered to a call, and by which calls. -/
inductive Call.Gives : Call → Branches → Prop where
  | same (t : Ty) : Gives (.types t t) (.one ∅)
  | bindLeft {v : Nat} {t : Ty} (ne : .var v ≠ t) : Gives (.types (.var v) t) (.ofExcept (bindVar v t))
  | bindRight {v : Nat} {t : Ty} (noVar : ∀ w, t ≠ .var w) : Gives (.types t (.var v)) (.ofExcept (bindVar v t))
  | listHead {t u : Ty} {ts us : List Ty} (ne : Ty.list (t :: ts) ≠ .list (u :: us))
    (homogeneous : (Ty.homogeneous (t :: ts) && Ty.homogeneous (u :: us)) = true)
    (head : Gives (.types t u) (t.unify u)) : Gives (.types (.list (t :: ts)) (.list (u :: us))) (t.unify u)
  | listEmpty {ts us : List Ty} (ne : Ty.list ts ≠ .list us)
    (homogeneous : (Ty.homogeneous ts && Ty.homogeneous us) = true) (empty : ts = [] ∨ us = []) :
    Gives (.types (.list ts) (.list us)) (.one ∅)
  | listAll {ts us : List Ty} (ne : Ty.list ts ≠ .list us)
    (mixed : ¬ (Ty.homogeneous ts && Ty.homogeneous us) = true) (length : ts.length = us.length)
    (each : Gives (.pairs ts us) (Ty.unifyAll ts us)) : Gives (.types (.list ts) (.list us)) (Ty.unifyAll ts us)
  | listFail {ts us : List Ty} (ne : Ty.list ts ≠ .list us)
    (mixed : ¬ (Ty.homogeneous ts && Ty.homogeneous us) = true) (length : ts.length ≠ us.length) :
    Gives (.types (.list ts) (.list us)) (.fail (.mismatch (.list ts) (.list us)))
  | record {fs gs : List (String × Ty)} {o o' : Bool} (ne : Ty.record fs o ≠ .record gs o')
    (names : recordsFit fs o gs o' = true) : Gives (.types (.record fs o) (.record gs o')) (.one ∅)
  | recordFail {fs gs : List (String × Ty)} {o o' : Bool} (ne : Ty.record fs o ≠ .record gs o')
    (names : ¬ recordsFit fs o gs o' = true) :
    Gives (.types (.record fs o) (.record gs o')) (.fail (.mismatch (.record fs o) (.record gs o')))
  | fn {p b q c : Ty} (ne : Ty.fn p b ≠ .fn q c) (parts : Gives (.pairs [p, b] [q, c]) (Ty.unifyAll [p, b] [q, c])) :
    Gives (.types (.fn p b) (.fn q c)) (Ty.unifyAll [p, b] [q, c])
  | left {alts : List Ty} {t : Ty} (ne : .overload alts ≠ t) (noVar : ∀ v, t ≠ .var v)
    (each : ∀ alt ∈ alts, Gives (.types alt t) (alt.unify t)) :
    Gives (.types (.overload alts) t) (alts.foldr (fun alt more => (alt.unify t).append more) .none)
  | right {alts : List Ty} {t : Ty} (single : t.Single) (noVar : ∀ v, t ≠ .var v)
    (each : ∀ alt ∈ alts, Gives (.types t alt) (t.unify alt)) :
    Gives (.types t (.overload alts)) (alts.foldr (fun alt more => (t.unify alt).append more) .none)
  | clash {l r : Ty} {a b : Ty.Shape} (left : l.shape? = some a) (right : r.shape? = some b) (ne : a ≠ b) :
    Gives (.types l r) (.fail (.mismatch l r))
  | nil : Gives (.pairs [] []) (.one ∅)
  | cons {l r : Ty} {ls rs : List Ty} (head : Gives (.types l r) (l.unify r))
    (tail : ∀ s ∈ (l.unify r).substs,
    Gives (.pairs (ls.map (Ty.apply s)) (rs.map (Ty.apply s)))
      (Ty.unifyAll (ls.map (Ty.apply s)) (rs.map (Ty.apply s)))) :
    Gives (.pairs (l :: ls) (r :: rs))
    ((l.unify r).andThen fun s => Ty.unifyAll (ls.map (Ty.apply s)) (rs.map (Ty.apply s)))
  | short (r : Ty) (rs : List Ty) : Gives (.pairs [] (r :: rs)) (.fail (.arity [] (r :: rs)))
  | long (l : Ty) (ls : List Ty) : Gives (.pairs (l :: ls) []) (.fail (.arity (l :: ls) []))

section Gives
variable {l r : Ty} {ts us ls rs : List Ty}

theorem gives_lists (hne : Ty.list ts ≠ .list us)
    (hcall : ∀ d, Calls d (.types (.list ts) (.list us)) → d.Gives d.answer) :
    (Call.types (.list ts) (.list us)).Gives ((Ty.list ts).unify (.list us)) := by
  by_cases hhom : (Ty.homogeneous ts && Ty.homogeneous us) = true
  · cases ts with
    | nil =>
      rw [Ty.unify_listEmpty hne hhom (.inl rfl)]
      exact .listEmpty hne hhom (.inl rfl)
    | cons t ts =>
      cases us with
      | nil =>
        rw [Ty.unify_listEmpty hne hhom (.inr rfl)]
        exact .listEmpty hne hhom (.inr rfl)
      | cons u us =>
        rw [Ty.unify_listHead hne hhom]
        exact .listHead hne hhom (hcall _ (.head t u ts us))
  · rw [Ty.unify_listMixed hne hhom]
    by_cases hlength : ts.length = us.length
    · rw [if_pos hlength]
      exact .listAll hne hhom hlength (hcall _ (.elems ts us))
    · rw [if_neg hlength]
      exact .listFail hne hhom hlength

theorem gives_types (hcall : ∀ d, Calls d (.types l r) → d.Gives d.answer) : (Call.types l r).Gives (l.unify r) := by
  by_cases hne : l = r
  · rw [hne, Ty.unify_same]
    exact .same r
  have hvar : ∀ v, r = .var v → (∀ w, l ≠ .var w) → (Call.types l r).Gives (l.unify r) := by
    rintro v rfl hl
    rw [Ty.unify_var_right hl]
    exact .bindRight hl
  have hright : ∀ alts, r = .overload alts → l.Single → (∀ v, l ≠ .var v) → (Call.types l r).Gives (l.unify r) := by
    rintro alts rfl hsingle hl
    rw [Ty.unify_right hsingle hl]
    exact .right hsingle hl fun alt halt => hcall _ (.right l halt)
  have hclash : ∀ {a b}, l.shape? = some a → r.shape? = some b → a ≠ b → (Call.types l r).Gives (l.unify r) := by
    intro a b hl hr hab
    rw [Ty.unify_clash hl hr hab]
    exact .clash hl hr hab
  cases l with
  | var v =>
    rw [Ty.unify_var_left hne]
    exact .bindLeft hne
  | overload alts =>
    cases r with
    | var v => exact hvar v rfl (by simp)
    | _ =>
      rw [Ty.unify_left hne (by simp)]
      exact .left hne (by simp) fun alt halt => hcall _ (.left _ halt)
  | prim p =>
    cases r with
    | var v => exact hvar v rfl (by simp)
    | overload alts => exact hright alts rfl (by simp [Ty.Single]) (by simp)
    | prim q => exact hclash rfl rfl (by simpa using hne)
    | _ => exact hclash rfl rfl (by simp)
  | list ts =>
    cases r with
    | var v => exact hvar v rfl (by simp)
    | overload alts => exact hright alts rfl (by simp [Ty.Single]) (by simp)
    | list us => exact gives_lists hne hcall
    | _ => exact hclash rfl rfl (by simp)
  | fn p b =>
    cases r with
    | var v => exact hvar v rfl (by simp)
    | overload alts => exact hright alts rfl (by simp [Ty.Single]) (by simp)
    | fn q c =>
      rw [Ty.unify_fn hne]
      exact .fn hne (hcall _ (.fn p b q c))
    | _ => exact hclash rfl rfl (by simp)
  | record fs o =>
    cases r with
    | var v => exact hvar v rfl (by simp)
    | overload alts => exact hright alts rfl (by simp [Ty.Single]) (by simp)
    | record gs o' =>
      rw [Ty.unify_record hne]
      split
      · next hfit => exact .record hne hfit
      · next hfit => exact .recordFail hne hfit
    | _ => exact hclash rfl rfl (by simp)

theorem gives_pairs (hcall : ∀ d, Calls d (.pairs ls rs) → d.Gives d.answer) :
    (Call.pairs ls rs).Gives (Ty.unifyAll ls rs) := by
  cases ls with
  | nil =>
    cases rs with
    | nil =>
      rw [Ty.unifyAll_nil]
      exact .nil
    | cons r rs =>
      rw [Ty.unifyAll_short]
      exact .short r rs
  | cons l ls =>
    cases rs with
    | nil =>
      rw [Ty.unifyAll_long]
      exact .long l ls
    | cons r rs =>
      rw [Ty.unifyAll_cons]
      exact .cons (hcall _ (.first l r ls rs)) fun s hs => hcall _ (.rest ls rs hs)

end Gives

/-- The answers of the unifier are those listed. -/
theorem gives_answer (c : Call) : c.Gives c.answer := by
  induction c using wellFounded_calls.induction with
  | _ c ih =>
    cases c with
    | types l r => exact gives_types ih
    | pairs ls rs => exact gives_pairs ih

end Unification

end NixTyping
