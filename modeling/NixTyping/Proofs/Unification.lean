import NixTyping.Proofs.Fits
import NixTyping.Proofs.Substitution
import NixTyping.Unify
/-!
# What unification returns

`Unifies` lists once what a branch of the unifier can do; everything else about
its answers is an induction over it. A branch binds only variables of the two
sides and is solved (`Unifies.solvedIn`), it keeps types well formed, and it makes
the two sides fit (`Unifies.fits`).
-/

namespace NixTyping

/-! ## Branches -/

namespace Branches

theorem substs_foldl (next : Subst → Branches) (ss : List Subst) (acc : Branches) :
    (ss.foldl (fun acc s => acc.append ⟨(next s).substs.map (·.compose s), (next s).errors⟩) acc).substs =
      acc.substs ++ ss.flatMap fun s => (next s).substs.map (·.compose s) := by
  induction ss generalizing acc with
  | nil => simp
  | cons s ss ih => rw [List.foldl_cons, ih]; simp [append]

theorem substs_andThen (b : Branches) (next : Subst → Branches) :
    (b.andThen next).substs = b.substs.flatMap fun s => (next s).substs.map (·.compose s) := by
  exact substs_foldl next b.substs ⟨[], b.errors⟩

theorem errors_andThen (b : Branches) (next : Subst → Branches) :
    (b.andThen next).errors = b.errors ++ b.substs.flatMap fun s => (next s).errors := by
  have hfold : ∀ (ss : List Subst) (acc : Branches), (ss.foldl (fun acc s =>
      acc.append ⟨(next s).substs.map (·.compose s), (next s).errors⟩) acc).errors =
        acc.errors ++ ss.flatMap fun s => (next s).errors := by
    intro ss
    induction ss with
    | nil => simp
    | cons s ss ih =>
      intro acc
      rw [List.foldl_cons, ih]
      simp [append]
  exact hfold b.substs ⟨[], b.errors⟩

end Branches

/-! ## The unifier case by case -/

namespace Ty

theorem unifyWithin_same (n : Nat) (t : Ty) : unifyWithin n t t = .one ∅ := by
  rw [unifyWithin.eq_def, if_pos rfl]

theorem unifyWithin_var_left {n v : Nat} {t : Ty} (hne : .var v ≠ t) :
    unifyWithin n (.var v) t = .ofExcept (bindVar v t) := by
  rw [unifyWithin.eq_def, if_neg hne]

theorem unifyWithin_var_right {n v : Nat} {t : Ty} (ht : ∀ w, t ≠ .var w) :
    unifyWithin n t (.var v) = .ofExcept (bindVar v t) := by
  rw [unifyWithin.eq_def, if_neg (ht v)]
  cases t with
  | var w => exact absurd rfl (ht w)
  | _ => rfl

theorem unifyWithin_listHead {n : Nat} {t u : Ty} {ts us : List Ty} (hne : Ty.list (t :: ts) ≠ .list (u :: us))
    (h : (homogeneous (t :: ts) && homogeneous (u :: us)) = true) :
    unifyWithin n (.list (t :: ts)) (.list (u :: us)) = unifyWithin n t u := by
  rw [unifyWithin.eq_def, if_neg hne]
  exact if_pos h

theorem unifyWithin_listEmpty {n : Nat} {ts us : List Ty} (hne : Ty.list ts ≠ .list us)
    (h : (homogeneous ts && homogeneous us) = true) (hempty : ts = [] ∨ us = []) :
    unifyWithin n (.list ts) (.list us) = .one ∅ := by
  rw [unifyWithin.eq_def, if_neg hne]
  refine (if_pos h).trans ?_
  rcases hempty with rfl | rfl
  · rfl
  · cases ts <;> rfl

theorem unifyWithin_listMixed {n : Nat} {ts us : List Ty} (hne : Ty.list ts ≠ .list us)
    (h : ¬ (homogeneous ts && homogeneous us) = true) :
    unifyWithin n (.list ts) (.list us) =
      if ts.length = us.length then unifyAllWithin n ts us else .fail (.mismatch (.list ts) (.list us)) := by
  rw [unifyWithin.eq_def, if_neg hne]
  exact if_neg h

theorem unifyWithin_record {n : Nat} {fs gs : List (String × Ty)} {o o' : Bool} (hne : Ty.record fs o ≠ .record gs o') :
    unifyWithin n (.record fs o) (.record gs o') =
      if recordsFit fs o gs o' then .one ∅ else .fail (.mismatch (.record fs o) (.record gs o')) := by
  rw [unifyWithin.eq_def, if_neg hne]

theorem unifyWithin_fn {n : Nat} {p b q c : Ty} (hne : Ty.fn p b ≠ .fn q c) :
    unifyWithin n (.fn p b) (.fn q c) = unifyAllWithin n [p, b] [q, c] := by
  rw [unifyWithin.eq_def, if_neg hne]

theorem unifyWithin_left {n : Nat} {alts : List Ty} {t : Ty} (hne : .overload alts ≠ t) (ht : ∀ v, t ≠ .var v) :
    unifyWithin n (.overload alts) t = unifyLeft n alts t := by
  rw [unifyWithin.eq_def, if_neg hne]
  cases t with
  | var v => exact absurd rfl (ht v)
  | _ => rfl

theorem unifyWithin_right {n : Nat} {alts : List Ty} {t : Ty} (ht : ∀ v, t ≠ .var v) (hs : ∀ us, t ≠ .overload us) :
    unifyWithin n t (.overload alts) = unifyRight n t alts := by
  rw [unifyWithin.eq_def, if_neg (hs alts)]
  cases t with
  | var v => exact absurd rfl (ht v)
  | overload us => exact absurd rfl (hs us)
  | _ => rfl

theorem unifyAllWithin_cons (n : Nat) (l r : Ty) (ls rs : List Ty) :
    (unifyAllWithin n (l :: ls) (r :: rs)).substs = (unifyWithin n l r).substs.flatMap fun s =>
      (if s.isEmpty then unifyAllWithin n ls rs
        else match n with
          | 0 => .none
          | n + 1 => unifyAllWithin n (ls.map (apply s)) (rs.map (apply s))).substs.map (·.compose s) := by
  rw [unifyAllWithin.eq_def]
  exact Branches.substs_andThen _ _

theorem unifyWithin_fail {n : Nat} {l r : Ty} (h1 : ∀ v, l ≠ .var v) (h2 : ∀ v, r ≠ .var v)
    (h3 : ∀ ts us, l = .list ts → r ≠ .list us) (h4 : ∀ fs o gs o', l = .record fs o → r ≠ .record gs o')
    (h5 : ∀ p b q c, l = .fn p b → r ≠ .fn q c) (h6 : ∀ alts, l ≠ .overload alts) (h7 : ∀ alts, r ≠ .overload alts)
    (hne : l ≠ r) : unifyWithin n l r = .fail (.mismatch l r) := by
  rw [unifyWithin.eq_def, if_neg hne]
  split
  · exact (h1 _ rfl).elim
  · exact (h2 _ rfl).elim
  · exact (h3 _ _ rfl rfl).elim
  · exact (h4 _ _ _ _ rfl rfl).elim
  · exact (h5 _ _ _ _ rfl rfl).elim
  · exact (h6 _ rfl).elim
  · exact (h7 _ rfl).elim
  · rfl

end Ty

/-! ## What a branch can do -/

theorem bindVar_ok {v : Nat} {t : Ty} {s : Subst} (hne : t ≠ .var v) (h : bindVar v t = .ok s) :
    v ∉ t.free ∧ s = .single v t := by
  rw [bindVar, if_neg hne] at h
  split at h
  · cases h
  · next ho => cases h; exact ⟨fun hv => ho (Ty.occurs_iff.2 hv), rfl⟩

/-- The branches of unifying two lists of types pair by pair. -/
inductive Unifies : List Ty → List Ty → Subst → Prop where
  | nil : Unifies [] [] ∅
  | cons {l r : Ty} {ls rs : List Ty} {s s' : Subst} (head : Unifies [l] [r] s)
    (tail : Unifies (ls.map (Ty.apply s)) (rs.map (Ty.apply s)) s') : Unifies (l :: ls) (r :: rs) (s'.compose s)
  | same (t : Ty) : Unifies [t] [t] ∅
  | bindLeft {v : Nat} {t : Ty} (occurs : v ∉ t.free) : Unifies [.var v] [t] (.single v t)
  | bindRight {v : Nat} {t : Ty} (occurs : v ∉ t.free) : Unifies [t] [.var v] (.single v t)
  | listEmpty {ts us : List Ty} (left : Ty.homogeneous ts = true) (right : Ty.homogeneous us = true)
    (empty : ts = [] ∨ us = []) : Unifies [.list ts] [.list us] ∅
  | listHead {t u : Ty} {ts us : List Ty} {s : Subst} (left : Ty.homogeneous (t :: ts) = true)
    (right : Ty.homogeneous (u :: us) = true) (head : Unifies [t] [u] s) :
    Unifies [.list (t :: ts)] [.list (u :: us)] s
  | listAll {ts us : List Ty} {s : Subst} (length : ts.length = us.length) (each : Unifies ts us s) :
    Unifies [.list ts] [.list us] s
  | record {fs gs : List (String × Ty)} {o o' : Bool} (names : recordsFit fs o gs o' = true) :
    Unifies [.record fs o] [.record gs o'] ∅
  | fn {p q b c : Ty} {s : Subst} (parts : Unifies [p, b] [q, c] s) : Unifies [.fn p b] [.fn q c] s
  | left {alts : List Ty} {alt t : Ty} {s : Subst} (mem : alt ∈ alts) (branch : Unifies [alt] [t] s) :
    Unifies [.overload alts] [t] s
  | right {alts : List Ty} {alt t : Ty} {s : Subst} (mem : alt ∈ alts) (branch : Unifies [t] [alt] s) :
    Unifies [t] [.overload alts] s

theorem mem_substs_ofExcept {r : Except TypeError Subst} {s : Subst} (h : s ∈ (Branches.ofExcept r).substs) :
    r = .ok s := by
  cases r with
  | ok s' => simp [Branches.ofExcept, Branches.one] at h; rw [h]
  | error e => simp [Branches.ofExcept, Branches.fail] at h

theorem unifies_within :
    (∀ n l r, ∀ s ∈ (Ty.unifyWithin n l r).substs, Unifies [l] [r] s) ∧
    (∀ n l alts, ∀ s ∈ (Ty.unifyRight n l alts).substs, ∃ alt ∈ alts, Unifies [l] [alt] s) ∧
    (∀ n alts r, ∀ s ∈ (Ty.unifyLeft n alts r).substs, ∃ alt ∈ alts, Unifies [alt] [r] s) ∧
    (∀ n ls rs, ∀ s ∈ (Ty.unifyAllWithin n ls rs).substs, Unifies ls rs s) := by
  refine Ty.unifyWithin.mutual_induct _ _ _ _ ?same ?bindLeft ?bindRight ?listHead ?listEmpty ?listAll ?listFail
    ?record ?recordFail ?fn ?left ?right ?fail ?rightNil ?rightCons ?leftNil ?leftCons ?nil ?cons ?arity
  case same =>
    intro n r s hs
    rw [Ty.unifyWithin_same] at hs
    obtain rfl := List.mem_singleton.1 hs
    exact .same r
  case bindLeft =>
    intro n v t hne s hs
    rw [Ty.unifyWithin_var_left hne] at hs
    obtain ⟨hv, rfl⟩ := bindVar_ok (Ne.symm hne) (mem_substs_ofExcept hs)
    exact .bindLeft hv
  case bindRight =>
    intro n t v hvar hne s hs
    rw [Ty.unifyWithin_var_right hvar] at hs
    obtain ⟨hv, rfl⟩ := bindVar_ok hne (mem_substs_ofExcept hs)
    exact .bindRight hv
  case listHead =>
    intro n t ts u us hhom hne ih s hs
    rw [Ty.unifyWithin_listHead hne hhom] at hs
    rw [Bool.and_eq_true] at hhom
    exact .listHead hhom.1 hhom.2 (ih s hs)
  case listEmpty =>
    intro n ts us hhom hcons hne s hs
    have hempty : ts = [] ∨ us = [] := by
      cases ts with
      | nil => exact .inl rfl
      | cons t ts =>
        cases us with
        | nil => exact .inr rfl
        | cons u us => exact (hcons t ts u us rfl rfl).elim
    rw [Ty.unifyWithin_listEmpty hne hhom hempty] at hs
    obtain rfl := List.mem_singleton.1 hs
    rw [Bool.and_eq_true] at hhom
    exact .listEmpty hhom.1 hhom.2 hempty
  case listAll =>
    intro n ts us hhom hlen hne ih s hs
    rw [Ty.unifyWithin_listMixed hne hhom, if_pos hlen] at hs
    exact .listAll hlen (ih s hs)
  case listFail =>
    intro n ts us hhom hlen hne s hs
    rw [Ty.unifyWithin_listMixed hne hhom, if_neg hlen] at hs
    cases hs
  case record =>
    intro n fs o gs o' hfit hne s hs
    rw [Ty.unifyWithin_record hne, if_pos hfit] at hs
    obtain rfl := List.mem_singleton.1 hs
    exact .record hfit
  case recordFail =>
    intro n fs o gs o' hfit hne s hs
    rw [Ty.unifyWithin_record hne, if_neg hfit] at hs
    cases hs
  case fn =>
    intro n p b q c hne ih s hs
    rw [Ty.unifyWithin_fn hne] at hs
    exact .fn (ih s hs)
  case left =>
    intro n alts t hvar hne ih s hs
    rw [Ty.unifyWithin_left hne hvar] at hs
    obtain ⟨alt, hmem, h⟩ := ih s hs
    exact .left hmem h
  case right =>
    intro n t alts hvar hover hne ih s hs
    rw [Ty.unifyWithin_right hvar hover] at hs
    obtain ⟨alt, hmem, h⟩ := ih s hs
    exact .right hmem h
  case fail =>
    intro n l r h1 h2 h3 h4 h5 h6 h7 hne s hs
    rw [Ty.unifyWithin_fail h1 h2 h3 h4 h5 h6 h7 hne] at hs
    cases hs
  case rightNil =>
    intro n l s hs
    rw [Ty.unifyRight] at hs
    cases hs
  case rightCons =>
    intro n l alt alts ih ihs s hs
    rw [Ty.unifyRight, Branches.append, List.mem_append] at hs
    rcases hs with hs | hs
    · exact ⟨alt, by simp, ih s hs⟩
    · obtain ⟨a, ha, h⟩ := ihs s hs
      exact ⟨a, by simp [ha], h⟩
  case leftNil =>
    intro n r s hs
    rw [Ty.unifyLeft] at hs
    cases hs
  case leftCons =>
    intro n r alt alts ih ihs s hs
    rw [Ty.unifyLeft, Branches.append, List.mem_append] at hs
    rcases hs with hs | hs
    · exact ⟨alt, by simp, ih s hs⟩
    · obtain ⟨a, ha, h⟩ := ihs s hs
      exact ⟨a, by simp [ha], h⟩
  case nil =>
    intro n s hs
    rw [Ty.unifyAllWithin] at hs
    obtain rfl := List.mem_singleton.1 hs
    exact .nil
  case cons =>
    intro n l ls r rs ih ihSame ihNext s hs
    rw [Ty.unifyAllWithin_cons] at hs
    obtain ⟨s₁, h₁, hs⟩ := List.mem_flatMap.1 hs
    obtain ⟨s₂, h₂, rfl⟩ := List.mem_map.1 hs
    refine .cons (ih s₁ h₁) ?_
    -- an empty substitution costs nothing; any other takes one off the bound
    split at h₂
    · next he =>
      rw [Subst.eq_empty_of_isEmpty he, Ty.map_apply_empty, Ty.map_apply_empty]
      exact ihSame s₂ h₂
    · cases n with
      | zero => cases h₂
      | succ n => exact ihNext s₁ s₂ h₂
  case arity =>
    intro n ls rs hnil hcons s hs
    rw [Ty.unifyAllWithin.eq_def] at hs
    cases ls with
    | nil =>
      cases rs with
      | nil => exact (hnil rfl rfl).elim
      | cons r rs => cases hs
    | cons l ls =>
      cases rs with
      | nil => cases hs
      | cons r rs => exact (hcons l ls r rs rfl rfl).elim

/-- Every answer of the unifier comes from a branch. -/
theorem Ty.unifies_of_mem {l r : Ty} {s : Subst} (h : s ∈ (l.unify r).substs) : Unifies [l] [r] s :=
  unifies_within.1 _ l r s h

theorem Ty.unifies_of_mem_all {ls rs : List Ty} {s : Subst} (h : s ∈ (Ty.unifyAll ls rs).substs) : Unifies ls rs s :=
  unifies_within.2.2.2 _ ls rs s h

/-! ## What every branch keeps -/

theorem hasNames_of_coversKeys {fs gs : List (String × Ty)} (h : Ty.coversKeys fs gs = true) : Ty.HasNames fs gs := by
  intro g hg
  have hfind : (findKey g.1 fs).isSome := List.all_eq_true.1 h g hg
  exact List.mem_map.1 (findKey_isSome.1 hfind)

theorem namesFit_of_recordsFit {fs gs : List (String × Ty)} {o o' : Bool} (h : recordsFit fs o gs o' = true) :
    Ty.NamesFit fs o gs o' := by
  cases o with
  | true =>
    cases o' with
    | true => trivial
    | false => exact hasNames_of_coversKeys h
  | false =>
    cases o' with
    | true => exact hasNames_of_coversKeys h
    | false => exact hasNames_of_coversKeys h

/-- A stable property that the parts of a type have with it. -/
structure Ty.Hereditary (P : Ty → Prop) : Prop extends Ty.Stable P where
  list : ∀ ts, P (.list ts) → ∀ t ∈ ts, P t
  fn : ∀ p b, P (.fn p b) → P p ∧ P b
  overload : ∀ ts, P (.overload ts) → ∀ t ∈ ts, P t

theorem Ty.hereditary_wellFormed : Ty.Hereditary Ty.WellFormed where
  list _ := wellFormed_list.1
  fn _ _ := wellFormed_fn.1
  toStable := inferInstance
  overload _ h t ht := ((wellFormed_overload.1 h).1 t ht).1

namespace Unifies

/-- A branch binds only variables of the two sides, and none that it mentions. -/
theorem solvedIn {ls rs : List Ty} {s : Subst} (h : Unifies ls rs s) {V : Set Nat}
    (hl : ∀ t ∈ ls, ∀ v ∈ t.free, v ∈ V) (hr : ∀ t ∈ rs, ∀ v ∈ t.free, v ∈ V) : s.SolvedIn V := by
  induction h generalizing V with
  | nil | same _ | listEmpty _ _ _ | record _ => exact Subst.solvedIn_empty V
  | cons _ _ ihHead ihTail =>
    have hs := ihHead (by simpa using hl _ (by simp)) (by simpa using hr _ (by simp))
    -- the pairs that are left see only what the first pair did not bind
    refine hs.compose (ihTail ?_ ?_)
    · intro t ht v hv
      obtain ⟨u, hu, rfl⟩ := List.mem_map.1 ht
      exact hs.free_apply (hl u (by simp [hu])) hv
    · intro t ht v hv
      obtain ⟨u, hu, rfl⟩ := List.mem_map.1 ht
      exact hs.free_apply (hr u (by simp [hu])) hv
  | @bindLeft v t occurs => exact Subst.solvedIn_single (hl (.var v) (by simp) v (by simp)) (hr t (by simp)) occurs
  | @bindRight v t occurs => exact Subst.solvedIn_single (hr (.var v) (by simp) v (by simp)) (hl t (by simp)) occurs
  | listHead _ _ _ ih =>
    simp only [List.mem_singleton, forall_eq, Ty.mem_free_list] at hl hr
    refine ih ?_ ?_
    · simpa using fun v hv => hl v ⟨_, by simp, hv⟩
    · simpa using fun v hv => hr v ⟨_, by simp, hv⟩
  | listAll _ _ ih =>
    simp only [List.mem_singleton, forall_eq, Ty.mem_free_list] at hl hr
    exact ih (fun t ht v hv => hl v ⟨t, ht, hv⟩) fun t ht v hv => hr v ⟨t, ht, hv⟩
  | fn _ ih =>
    simp only [List.mem_singleton, forall_eq, Ty.mem_free_fn] at hl hr
    refine ih ?_ ?_
    · simpa using ⟨fun v hv => hl v (.inl hv), fun v hv => hl v (.inr hv)⟩
    · simpa using ⟨fun v hv => hr v (.inl hv), fun v hv => hr v (.inr hv)⟩
  | left mem _ ih =>
    simp only [List.mem_singleton, forall_eq, Ty.mem_free_overload] at hl
    exact ih (by simpa using fun v hv => hl v ⟨_, mem, hv⟩) hr
  | right mem _ ih =>
    simp only [List.mem_singleton, forall_eq, Ty.mem_free_overload] at hr
    exact ih hl (by simpa using fun v hv => hr v ⟨_, mem, hv⟩)

/-- What both sides have, the types that a branch binds have too. -/
theorem hereditary {P : Ty → Prop} (hP : Ty.Hereditary P) {ls rs : List Ty} {s : Subst} (h : Unifies ls rs s)
    (hl : ∀ t ∈ ls, P t) (hr : ∀ t ∈ rs, P t) : s.All P := by
  have := hP.toStable
  induction h with
  | nil | same _ | listEmpty _ _ _ | record _ => exact Subst.all_empty
  | @cons l r ls rs s s' _ _ ihHead ihTail =>
    have hs := ihHead (by simpa using hl _ (by simp)) (by simpa using hr _ (by simp))
    have hmap : ∀ ts : List Ty, (∀ t ∈ ts, P t) → ∀ t ∈ ts.map (Ty.apply s), P t := by
      intro ts hts t ht
      obtain ⟨u, hu, rfl⟩ := List.mem_map.1 ht
      exact hs.apply (hts u hu)
    have hs' := ihTail (hmap ls fun t ht => hl t (by simp [ht])) (hmap rs fun t ht => hr t (by simp [ht]))
    exact hs'.compose hs
  | @bindLeft v t _ => exact Subst.all_single (hr t (by simp)) v
  | @bindRight v t _ => exact Subst.all_single (hl t (by simp)) v
  | listHead _ _ _ ih =>
    refine ih ?_ ?_
    · simpa using hP.list _ (hl _ (List.mem_singleton_self _)) _ List.mem_cons_self
    · simpa using hP.list _ (hr _ (List.mem_singleton_self _)) _ List.mem_cons_self
  | listAll _ _ ih =>
    exact ih (hP.list _ (hl _ (List.mem_singleton_self _))) (hP.list _ (hr _ (List.mem_singleton_self _)))
  | fn _ ih =>
    exact ih (by simpa using hP.fn _ _ (hl _ (List.mem_singleton_self _)))
      (by simpa using hP.fn _ _ (hr _ (List.mem_singleton_self _)))
  | left mem _ ih => exact ih (by simpa using hP.overload _ (hl _ (List.mem_singleton_self _)) _ mem) hr
  | right mem _ ih => exact ih hl (by simpa using hP.overload _ (hr _ (List.mem_singleton_self _)) _ mem)

theorem wellFormed {ls rs : List Ty} {s : Subst} (h : Unifies ls rs s) (hl : ∀ t ∈ ls, t.WellFormed)
    (hr : ∀ t ∈ rs, t.WellFormed) : s.WellFormed :=
  h.hereditary Ty.hereditary_wellFormed hl hr

/-- A branch makes the two sides fit. -/
theorem fits {ls rs : List Ty} {s : Subst} (h : Unifies ls rs s) (hl : ∀ t ∈ ls, t.WellFormed)
    (hr : ∀ t ∈ rs, t.WellFormed) : ∀ p ∈ ls.zip rs, (p.1.subst s.toFun).Fits (p.2.subst s.toFun) := by
  induction h with
  | nil => simp
  | same t => simp [Ty.Fits.refl]
  | @cons l r ls rs s s' head tail ihHead ihTail =>
    have hl' : l.WellFormed ∧ ∀ t ∈ ls, t.WellFormed := by simpa using hl
    have hr' : r.WellFormed ∧ ∀ t ∈ rs, t.WellFormed := by simpa using hr
    have hs : s.WellFormed := head.wellFormed (by simpa using hl'.1) (by simpa using hr'.1)
    have hls : ∀ t ∈ ls.map (Ty.apply s), t.WellFormed := by simpa using fun t ht => hs.apply (hl'.2 t ht)
    have hrs : ∀ t ∈ rs.map (Ty.apply s), t.WellFormed := by simpa using fun t ht => hs.apply (hr'.2 t ht)
    have hs' : s'.WellFormed := tail.wellFormed hls hrs
    have hcomp : ∀ t : Ty, t.WellFormed → t.subst (s'.compose s).toFun = (t.subst s.toFun).subst s'.toFun := by
      intro t ht
      rw [← Ty.apply_eq_subst ht, Ty.apply_compose ht hs' hs, Ty.apply_eq_subst (hs.apply ht), Ty.apply_eq_subst ht]
    intro p hp
    rcases List.mem_cons.1 hp with rfl | hp
    -- what the first pair achieved has to survive the rest
    · have hfits := ihHead (by simpa using hl'.1) (by simpa using hr'.1) (l, r) (by simp)
      rw [hcomp l hl'.1, hcomp r hr'.1]
      exact hfits.subst (hl'.1.subst fun v _ => hs.toFun v) (hr'.1.subst fun v _ => hs.toFun v) hs'.toFun
    · obtain ⟨hp1, hp2⟩ := List.of_mem_zip hp
      have hfits := ihTail hls hrs (p.1.apply s, p.2.apply s) (by rw [List.zip_map]; exact List.mem_map_of_mem hp)
      rw [hcomp _ (hl'.2 _ hp1), hcomp _ (hr'.2 _ hp2), ← Ty.apply_eq_subst (hl'.2 _ hp1),
        ← Ty.apply_eq_subst (hr'.2 _ hp2)]
      exact hfits
  | @bindLeft v t occurs =>
    have ht : t.WellFormed := hr t (by simp)
    simpa [Subst.toFun_single, Ty.subst_single_of_not_mem ht occurs] using Ty.Fits.refl t
  | @bindRight v t occurs =>
    have ht : t.WellFormed := hl t (by simp)
    simpa [Subst.toFun_single, Ty.subst_single_of_not_mem ht occurs] using Ty.Fits.refl t
  | listEmpty left right empty =>
    simpa using (Ty.Fits.listEmpty left right empty).subst (hl _ (by simp)) (hr _ (by simp)) .var
  | listHead left right _ ih =>
    cases hl _ (List.mem_singleton_self _) with | list hts =>
    cases hr _ (List.mem_singleton_self _) with | list hus =>
    have hhead := ih (by simpa using hts _ (by simp)) (by simpa using hus _ (by simp)) _ (List.mem_singleton_self _)
    simpa using Ty.Fits.listHead (Ty.homogeneous_map _ left) (Ty.homogeneous_map _ right) hhead
  | listAll length _ ih =>
    cases hl _ (List.mem_singleton_self _) with | list hts =>
    cases hr _ (List.mem_singleton_self _) with | list hus =>
    have heach := ih hts hus
    simp only [List.zip_cons_cons, List.zip_nil_right, List.mem_singleton, forall_eq, Ty.subst_list]
    refine .listAll (by simpa using length) fun p hp => ?_
    rw [List.zip_map, List.mem_map] at hp
    obtain ⟨q, hq, rfl⟩ := hp
    exact heach q hq
  | record names =>
    simpa using (Ty.Fits.record (namesFit_of_recordsFit names)).subst (hl _ (by simp)) (hr _ (by simp)) .var
  | @fn p q b c s _ ih =>
    cases hl _ (List.mem_singleton_self _) with | fn hp hb =>
    cases hr _ (List.mem_singleton_self _) with | fn hq hc =>
    have hparts := ih (by simpa using ⟨hp, hb⟩) (by simpa using ⟨hq, hc⟩)
    simpa using Ty.Fits.fn (hparts (p, q) (by simp)) (hparts (b, c) (by simp))
  | @left alts alt t s mem branch ih =>
    cases hl _ (List.mem_singleton_self _) with | overload parts _ _ _ =>
    have halt : ∀ u ∈ [alt], u.WellFormed := by simpa using parts _ mem
    have hwf := (parts _ mem).subst fun v _ => (branch.wellFormed halt hr).toFun v
    have hfits := ih halt hr (alt, t) (by simp)
    simpa using hfits.overloads_left hwf (List.mem_map_of_mem mem)
  | @right alts alt t s mem branch ih =>
    cases hr _ (List.mem_singleton_self _) with | overload parts _ _ _ =>
    have halt : ∀ u ∈ [alt], u.WellFormed := by simpa using parts _ mem
    have hwf := (parts _ mem).subst fun v _ => (branch.wellFormed hl halt).toFun v
    have hfits := ih hl halt (t, alt) (by simp)
    simpa using hfits.overloads_right hwf (List.mem_map_of_mem mem)

end Unifies

end NixTyping
