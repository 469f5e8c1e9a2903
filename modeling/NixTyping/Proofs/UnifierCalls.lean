import Mathlib.Data.Finset.Card
import Mathlib.Data.Prod.Lex
import NixTyping.Proofs.Unification
/-!
# The recursion of the unifier

The unifier calls itself on two types and on two lists of types. `Call.answerBy` is one
such call, where the calls it makes are answered by a parameter, and `Calls` relates a
call to those it makes. A call for the pairs that are left comes after a substitution,
which can make types larger; but then a variable is gone from them for good, whatever
the types are (`card_rest_lt`). So the calls are well founded, and the unifier, which
counts the variables that are left, gives the answers of this recursion: the count never
stops it (`answerBy_eq_answer`).
-/

namespace NixTyping

theorem size_le_sizeAll {t : Ty} {ts : List Ty} (ht : t ∈ ts) : t.size ≤ Ty.sizeAll ts := by
  induction ts with
  | nil => cases ht
  | cons u ts ih =>
    rw [Ty.sizeAll]
    rcases List.mem_cons.1 ht with rfl | ht
    · omega
    · have := ih ht
      omega

/-- A substitution that is not empty leaves fewer variables. -/
theorem Subst.SolvedIn.card_unbound_lt {V : Finset Nat} {s : Subst} (h : s.SolvedIn V) (hne : s.isEmpty = false) :
    (V.filter fun v => s.get? v = none).card < V.card := by
  obtain ⟨v, t, hv⟩ := Subst.exists_get?_of_not_isEmpty hne
  refine Finset.card_lt_card (Finset.filter_ssubset.2 ⟨v, h.bound v t hv, ?_⟩)
  simp [hv]

theorem Branches.andThen_congr {b : Branches} {f g : Subst → Branches} (h : ∀ s ∈ b.substs, f s = g s) :
    b.andThen f = b.andThen g :=
  List.foldl_ext _ _ _ fun acc s hs => by rw [h s hs]

namespace Unification

/-! ## Calls -/

/-- A call of the unifier: for two types, or for two lists of types pair by pair. -/
inductive Call where
  | types (l r : Ty)
  | pairs (ls rs : List Ty)

namespace Call

/-- The answer of the unifier. -/
def answer : Call → Branches
  | .types l r => l.unify r
  | .pairs ls rs => Ty.unifyAll ls rs

/-- The answer to a call when `ask` answers the calls it makes. -/
def answerBy (ask : Call → Branches) : Call → Branches
  | .types l r =>
    if l = r then .one ∅
    else match l, r with
      | .var v, t => .ofExcept (bindVar v t)
      | t, .var v => .ofExcept (bindVar v t)
      | .list ts, .list us =>
        if Ty.homogeneous ts && Ty.homogeneous us then
          match ts, us with
          | t :: _, u :: _ => ask (.types t u)
          | _, _ => .one ∅
        else if ts.length = us.length then ask (.pairs ts us)
        else .fail (.mismatch (.list ts) (.list us))
      | .record fs o, .record gs o' =>
        if recordsFit fs o gs o' then .one ∅ else .fail (.mismatch (.record fs o) (.record gs o'))
      | .fn p b, .fn q c => ask (.pairs [p, b] [q, c])
      | .overload alts, t => alts.foldr (fun alt more => (ask (.types alt t)).append more) .none
      | t, .overload alts => alts.foldr (fun alt more => (ask (.types t alt)).append more) .none
      | l, r => .fail (.mismatch l r)
  | .pairs [] [] => .one ∅
  | .pairs (l :: ls) (r :: rs) =>
    (ask (.types l r)).andThen fun s => ask (.pairs (ls.map (Ty.apply s)) (rs.map (Ty.apply s)))
  | .pairs ls rs => .fail (.arity ls rs)

end Call

/-- The first call is one that the second may make. -/
inductive Calls : Call → Call → Prop where
  | head (t u : Ty) (ts us : List Ty) : Calls (.types t u) (.types (.list (t :: ts)) (.list (u :: us)))
  | elems (ts us : List Ty) : Calls (.pairs ts us) (.types (.list ts) (.list us))
  | fn (p b q c : Ty) : Calls (.pairs [p, b] [q, c]) (.types (.fn p b) (.fn q c))
  | left {alts : List Ty} {alt : Ty} (t : Ty) (mem : alt ∈ alts) : Calls (.types alt t) (.types (.overload alts) t)
  | right {alts : List Ty} {alt : Ty} (t : Ty) (mem : alt ∈ alts) : Calls (.types t alt) (.types t (.overload alts))
  | first (l r : Ty) (ls rs : List Ty) : Calls (.types l r) (.pairs (l :: ls) (r :: rs))
  | rest {l r : Ty} {s : Subst} (ls rs : List Ty) (mem : s ∈ (l.unify r).substs) :
    Calls (.pairs (ls.map (Ty.apply s)) (rs.map (Ty.apply s))) (.pairs (l :: ls) (r :: rs))

namespace Call

def lefts : Call → List Ty
  | .types l _ => [l]
  | .pairs ls _ => ls

def rights : Call → List Ty
  | .types _ r => [r]
  | .pairs _ rs => rs

/-- The types of the call. -/
def sides : Call → List Ty
  | .types l r => [l, r]
  | .pairs ls rs => ls ++ rs

theorem forall_sides_types {P : Ty → Prop} {l r : Ty} : (∀ t ∈ (types l r).sides, P t) ↔ P l ∧ P r := by
  simp [sides]

theorem forall_sides_pairs {P : Ty → Prop} {ls rs : List Ty} :
    (∀ t ∈ (pairs ls rs).sides, P t) ↔ (∀ t ∈ ls, P t) ∧ ∀ t ∈ rs, P t := List.forall_mem_append

end Call

/-- What the types of a call have, those of the calls that it may make have too. -/
theorem Calls.hereditary {P : Ty → Prop} (hP : Ty.Hereditary P) {c d : Call} (h : Calls d c) (hc : ∀ t ∈ c.sides, P t) :
    ∀ t ∈ d.sides, P t := by
  have := hP.toStable
  cases h with
  | head t u ts us =>
    obtain ⟨hts, hus⟩ := Call.forall_sides_types.1 hc
    exact Call.forall_sides_types.2 ⟨hP.list _ hts t List.mem_cons_self, hP.list _ hus u List.mem_cons_self⟩
  | elems ts us =>
    obtain ⟨hts, hus⟩ := Call.forall_sides_types.1 hc
    exact Call.forall_sides_pairs.2 ⟨hP.list _ hts, hP.list _ hus⟩
  | fn p b q c =>
    obtain ⟨hl, hr⟩ := Call.forall_sides_types.1 hc
    exact Call.forall_sides_pairs.2 ⟨by simpa using hP.fn _ _ hl, by simpa using hP.fn _ _ hr⟩
  | @left alts alt t mem =>
    obtain ⟨halts, ht⟩ := Call.forall_sides_types.1 hc
    exact Call.forall_sides_types.2 ⟨hP.overload _ halts alt mem, ht⟩
  | @right alts alt t mem =>
    obtain ⟨ht, halts⟩ := Call.forall_sides_types.1 hc
    exact Call.forall_sides_types.2 ⟨ht, hP.overload _ halts alt mem⟩
  | first l r ls rs =>
    obtain ⟨hls, hrs⟩ := Call.forall_sides_pairs.1 hc
    exact Call.forall_sides_types.2 ⟨hls l List.mem_cons_self, hrs r List.mem_cons_self⟩
  | @rest l r s ls rs mem =>
    obtain ⟨hls, hrs⟩ := Call.forall_sides_pairs.1 hc
    have hs := (Ty.unifies_of_mem mem).hereditary hP (by simpa using hls l List.mem_cons_self)
      (by simpa using hrs r List.mem_cons_self)
    refine Call.forall_sides_pairs.2 ⟨List.forall_mem_map.2 fun t ht => ?_, List.forall_mem_map.2 fun t ht => ?_⟩
    · exact hs.apply (hls t (List.mem_cons_of_mem l ht))
    · exact hs.apply (hrs t (List.mem_cons_of_mem r ht))

/-! ## The calls are well founded -/

namespace Call

/-- The variables of the types of a call. -/
def free : Call → Finset Nat
  | .types l r => (l.free.union r.free).toList.toFinset
  | .pairs ls rs => ((Ty.freeAll ls).union (Ty.freeAll rs)).toList.toFinset

def size : Call → Nat
  | .types l r => l.size + r.size
  | .pairs ls rs => Ty.sizeAll ls + Ty.sizeAll rs

@[simp] theorem mem_free_types {l r : Ty} {v : Nat} : v ∈ (types l r).free ↔ v ∈ l.free ∨ v ∈ r.free := by
  rw [free, List.mem_toFinset, ← VarSet.mem_def, VarSet.mem_union]

@[simp] theorem mem_free_pairs {ls rs : List Ty} {v : Nat} :
    v ∈ (pairs ls rs).free ↔ (∃ t ∈ ls, v ∈ t.free) ∨ ∃ t ∈ rs, v ∈ t.free := by
  rw [free, List.mem_toFinset, ← VarSet.mem_def, VarSet.mem_union, Ty.freeAll, Ty.freeAll, VarSet.mem_ofList,
    VarSet.mem_ofList, Ty.mem_mentionsAll, Ty.mem_mentionsAll]

end Call

/-- The pairs that are left have no other variables than before, and none that has been bound. -/
theorem free_rest_subset {l r : Ty} {s : Subst} (hs : s ∈ (l.unify r).substs) (ls rs : List Ty) :
    s.SolvedIn (Call.pairs (l :: ls) (r :: rs)).free ∧
    (Call.pairs (ls.map (Ty.apply s)) (rs.map (Ty.apply s))).free ⊆
      (Call.pairs (l :: ls) (r :: rs)).free.filter fun v => s.get? v = none := by
  have hsolved : s.SolvedIn (Call.pairs (l :: ls) (r :: rs)).free :=
    (Ty.unifies_of_mem hs).solvedIn (by simpa using fun v hv => .inl (.inl hv))
      (by simpa using fun v hv => .inr (.inl hv))
  refine ⟨hsolved, fun v hv => ?_⟩
  rw [Finset.mem_filter]
  rcases Call.mem_free_pairs.1 hv with ⟨t, ht, hv⟩ | ⟨t, ht, hv⟩
  · obtain ⟨u, hu, rfl⟩ := List.mem_map.1 ht
    exact hsolved.free_apply (fun w hw => Call.mem_free_pairs.2 (.inl ⟨u, List.mem_cons_of_mem l hu, hw⟩)) hv
  · obtain ⟨u, hu, rfl⟩ := List.mem_map.1 ht
    exact hsolved.free_apply (fun w hw => Call.mem_free_pairs.2 (.inr ⟨u, List.mem_cons_of_mem r hu, hw⟩)) hv

/-- A substitution that is not empty takes a variable out of the pairs that are left. -/
theorem card_rest_lt {l r : Ty} {s : Subst} (hs : s ∈ (l.unify r).substs) (hbinds : s.isEmpty = false)
    (ls rs : List Ty) :
    (Call.pairs (ls.map (Ty.apply s)) (rs.map (Ty.apply s))).free.card <
      (Call.pairs (l :: ls) (r :: rs)).free.card := by
  obtain ⟨hsolved, hsubset⟩ := free_rest_subset hs ls rs
  exact (Finset.card_le_card hsubset).trans_lt (hsolved.card_unbound_lt hbinds)

theorem Calls.free_subset {c d : Call} (h : Calls d c) : d.free ⊆ c.free := by
  cases h with
  | rest ls rs mem => exact (free_rest_subset mem ls rs).2.trans (Finset.filter_subset _ _)
  | head t u ts us | elems ts us | fn p b q c | left t mem | right t mem | first l r ls rs =>
    intro v hv
    simp only [Call.mem_free_types, Call.mem_free_pairs, Ty.mem_free_list, Ty.mem_free_fn, Ty.mem_free_overload,
      List.mem_cons] at hv ⊢
    grind

/-- A call that binds no variable is for smaller types. -/
theorem Calls.lt {c d : Call} (h : Calls d c) :
    d.free.card < c.free.card ∨ d.free.card ≤ c.free.card ∧ d.size < c.size := by
  have hcard := Finset.card_le_card h.free_subset
  cases h with
  | @rest l r s ls rs mem =>
    cases hbinds : s.isEmpty with
    | true =>
      refine .inr ⟨hcard, ?_⟩
      rw [Subst.eq_empty_of_isEmpty hbinds, Ty.map_apply_empty, Ty.map_apply_empty]
      simp only [Call.size, Ty.sizeAll]
      omega
    | false => exact .inl (card_rest_lt mem hbinds ls rs)
  | @left alts alt t mem | @right alts alt t mem =>
    have := size_le_sizeAll mem
    refine .inr ⟨hcard, ?_⟩
    simp only [Call.size, Ty.size]
    omega
  | head t u ts us | elems ts us | fn p b q c | first l r ls rs =>
    refine .inr ⟨hcard, ?_⟩
    simp only [Call.size, Ty.size, Ty.sizeAll]
    omega

theorem wellFounded_calls : WellFounded Calls := by
  have hlex := (Prod.lex Nat.lt_wfRel Nat.lt_wfRel).wf
  refine Subrelation.wf (fun h => ?_) (InvImage.wf (fun c : Call => (c.free.card, c.size)) hlex)
  rcases h.lt with hlt | ⟨hle, hlt⟩
  · exact Prod.Lex.left _ _ hlt
  · exact Prod.Lex.right' _ hle hlt

/-! ## The unifier is this recursion -/

/-- The answer of the unifier that counts down the variables that are left. -/
def Call.answerWithin (n : Nat) : Call → Branches
  | .types l r => Ty.unifyWithin n l r
  | .pairs ls rs => Ty.unifyAllWithin n ls rs

theorem unifyLeft_eq_foldr {ask : Ty → Branches} {n : Nat} {alts : List Ty} {t : Ty}
    (h : ∀ alt ∈ alts, Ty.unifyWithin n alt t = ask alt) :
    Ty.unifyLeft n alts t = alts.foldr (fun alt more => (ask alt).append more) .none := by
  induction alts with
  | nil => rw [Ty.unifyLeft, List.foldr_nil]
  | cons alt alts ih =>
    rw [Ty.unifyLeft, List.foldr_cons, h alt List.mem_cons_self, ih fun a ha => h a (List.mem_cons_of_mem alt ha)]

theorem unifyRight_eq_foldr {ask : Ty → Branches} {n : Nat} {alts : List Ty} {t : Ty}
    (h : ∀ alt ∈ alts, Ty.unifyWithin n t alt = ask alt) :
    Ty.unifyRight n t alts = alts.foldr (fun alt more => (ask alt).append more) .none := by
  induction alts with
  | nil => rw [Ty.unifyRight, List.foldr_nil]
  | cons alt alts ih =>
    rw [Ty.unifyRight, List.foldr_cons, h alt List.mem_cons_self, ih fun a ha => h a (List.mem_cons_of_mem alt ha)]

section Within
variable {ask : Call → Branches} {n : Nat}

theorem unifyWithin_eq_answerBy {l r : Ty} (hask : ∀ d, Calls d (.types l r) → d.answerWithin n = ask d) :
    Ty.unifyWithin n l r = (Call.types l r).answerBy ask := by
  have hright : ∀ alts, r = .overload alts →
      Ty.unifyRight n l alts = alts.foldr (fun alt more => (ask (.types l alt)).append more) .none := by
    rintro alts rfl
    exact unifyRight_eq_foldr fun alt halt => hask _ (.right l halt)
  rw [Ty.unifyWithin.eq_def]
  unfold Call.answerBy
  dsimp only
  by_cases hne : l = r
  · rw [if_pos hne, if_pos hne]
  rw [if_neg hne, if_neg hne]
  cases l with
  | var v => rfl
  | prim p =>
    cases r with
    | overload alts => exact hright alts rfl
    | _ => rfl
  | list ts =>
    cases r with
    | list us =>
      have hmixed : Ty.unifyAllWithin n ts us = ask (.pairs ts us) := hask _ (.elems ts us)
      simp only [hmixed]
      cases ts with
      | nil => rfl
      | cons t ts =>
        cases us with
        | nil => rfl
        | cons u us =>
          have hhead : Ty.unifyWithin n t u = ask (.types t u) := hask _ (.head t u ts us)
          simp only [hhead]
    | overload alts => exact hright alts rfl
    | _ => rfl
  | fn p b =>
    cases r with
    | fn q c => exact hask _ (.fn p b q c)
    | overload alts => exact hright alts rfl
    | _ => rfl
  | record fs o =>
    cases r with
    | overload alts => exact hright alts rfl
    | _ => rfl
  | overload alts =>
    have hleft : Ty.unifyLeft n alts r = alts.foldr (fun alt more => (ask (.types alt r)).append more) .none :=
      unifyLeft_eq_foldr fun alt halt => hask _ (.left r halt)
    cases r with
    | var v => rfl
    | _ => exact hleft

theorem unifyAllWithin_eq_answerBy {ls rs : List Ty} (hn : (Call.pairs ls rs).free.card ≤ n)
    (hask : ∀ d, Calls d (.pairs ls rs) → ∀ m, d.free.card ≤ m → d.answerWithin m = ask d) :
    Ty.unifyAllWithin n ls rs = (Call.pairs ls rs).answerBy ask := by
  rw [Ty.unifyAllWithin.eq_def]
  cases ls with
  | nil => cases rs <;> rfl
  | cons l ls =>
    cases rs with
    | nil => rfl
    | cons r rs =>
      have hfirst : ∀ m, (Call.types l r).free.card ≤ m → Ty.unifyWithin m l r = ask (.types l r) :=
        hask _ (.first l r ls rs)
      have hunify : l.unify r = ask (.types l r) := hfirst _ (List.toFinset_card_le _)
      have hcard := Finset.card_le_card (Calls.first l r ls rs).free_subset
      show (Ty.unifyWithin n l r).andThen _ = (ask (.types l r)).andThen _
      rw [hfirst n (hcard.trans hn), ← hunify]
      refine Branches.andThen_congr fun s hs => ?_
      have hcall := Calls.rest ls rs hs
      -- the bound is not used up: each substitution that costs one takes a variable away
      split
      · next hempty =>
        rw [Subst.eq_empty_of_isEmpty hempty, Ty.map_apply_empty, Ty.map_apply_empty] at hcall ⊢
        exact hask _ hcall n ((Finset.card_le_card hcall.free_subset).trans hn)
      · next hbinds =>
        have hlt := card_rest_lt hs (by simpa using hbinds) ls rs
        cases n with
        | zero => omega
        | succ n => exact hask _ hcall n (by omega)

end Within

/-- A bound of at least the number of variables does not show in the answer. -/
theorem answerWithin_eq (c : Call) (n : Nat) (hn : c.free.card ≤ n) : c.answerWithin n = c.answer := by
  induction c using wellFounded_calls.induction generalizing n with
  | _ c ih =>
    -- by induction no bound shows in the calls that are made, so none shows in what is made of them
    have hwithin : ∀ m, c.free.card ≤ m → c.answerWithin m = c.answerBy Call.answer := by
      intro m hm
      cases c with
      | types l r =>
        refine unifyWithin_eq_answerBy fun d hd => ih d hd m ?_
        exact (Finset.card_le_card hd.free_subset).trans hm
      | pairs ls rs => exact unifyAllWithin_eq_answerBy hm fun d hd k hk => ih d hd k hk
    have hanswer : c.answer = c.answerBy Call.answer := by
      cases c with
      | types l r => exact hwithin _ (List.toFinset_card_le _)
      | pairs ls rs => exact hwithin _ (List.toFinset_card_le _)
    rw [hwithin n hn, hanswer]

/-- The answer of the unifier comes from its answers to the calls that it makes, and from nothing else. -/
theorem answerBy_eq_answer (c : Call) {ask : Call → Branches} (hask : ∀ d, Calls d c → ask d = d.answer) :
    c.answerBy ask = c.answer := by
  cases c with
  | types l r =>
    refine (unifyWithin_eq_answerBy fun d hd => ?_).symm
    rw [hask d hd]
    exact answerWithin_eq d _ ((Finset.card_le_card hd.free_subset).trans (List.toFinset_card_le _))
  | pairs ls rs =>
    refine (unifyAllWithin_eq_answerBy (List.toFinset_card_le _) fun d hd m hm => ?_).symm
    rw [hask d hd]
    exact answerWithin_eq d m hm

theorem answer_eq (c : Call) : c.answer = c.answerBy Call.answer := (answerBy_eq_answer c fun _ _ => rfl).symm

end Unification

end NixTyping
