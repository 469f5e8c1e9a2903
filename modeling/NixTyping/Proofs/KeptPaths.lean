import NixTyping.Proofs.Lowered
/-!
# Paths that are kept

Of bindings whose paths are such that one begins with the other, only the first is kept
(`kept`). A group of bindings with known paths, read as nested sets, has exactly the kept
paths: what goes into the set under a name is what is kept of the bindings whose paths go on
from it, so the reading follows the nesting.
-/

namespace NixTyping

/-! ## Kept bindings -/

section Kept
variable {α : Type}

/-- One of the paths begins with the other. -/
def Comparable (p q : List String) : Prop := p <+: q ∨ q <+: p

instance (p q : List String) : Decidable (Comparable p q) := inferInstanceAs (Decidable (_ ∨ _))

/-- A binding is kept if no path that was kept before it is comparable with its own. -/
def keep (K : List (List String × α)) (b : List String × α) : List (List String × α) :=
  if ∃ k ∈ K, Comparable k.1 b.1 then K else K ++ [b]

def kept (L : List (List String × α)) : List (List String × α) := L.foldl keep []

/-- The first names of the paths. -/
def heads (L : List (List String × α)) : List String := L.filterMap (·.1.head?)

/-- What is left of the path of a binding under a name, if it goes on there. -/
def rest? (x : String) : List String × α → Option (List String × α)
  | (y :: z :: q, v) => if y = x then some (z :: q, v) else none
  | _ => none

def rests (x : String) (L : List (List String × α)) : List (List String × α) := L.filterMap (rest? x)

/-- What is left of bindings at the end of a path. -/
def restsAt : List String → List (List String × α) → List (List String × α)
  | [], L => L
  | x :: q, L => restsAt q (rests x L)

variable {L L₁ L₂ : List (List String × α)} {b : List String × α} {x : String}

theorem restsAt_nil (q : List String) : restsAt q ([] : List (List String × α)) = [] := by
  induction q with
  | nil => rfl
  | cons x q ih => exact ih

theorem comparable_cons {y : String} {p q : List String} : Comparable (x :: p) (y :: q) ↔ x = y ∧ Comparable p q := by
  simp only [Comparable, List.cons_prefix_cons]
  constructor
  · rintro (⟨rfl, h⟩ | ⟨rfl, h⟩)
    · exact ⟨rfl, .inl h⟩
    · exact ⟨rfl, .inr h⟩
  · rintro ⟨rfl, h | h⟩
    · exact .inl ⟨rfl, h⟩
    · exact .inr ⟨rfl, h⟩

theorem Comparable.head_eq {p q : List String} (h : Comparable p q) (hp : p ≠ []) (hq : q ≠ []) :
    p.head? = q.head? := by
  cases p with
  | nil => exact absurd rfl hp
  | cons y p =>
    cases q with
    | nil => exact absurd rfl hq
    | cons z q => rw [List.head?_cons, List.head?_cons, (comparable_cons.1 h).1]

theorem mem_heads : x ∈ heads L ↔ ∃ b ∈ L, b.1.head? = some x := List.mem_filterMap

theorem rest?_eq_some {b' : List String × α} : rest? x b = some b' ↔ b'.1 ≠ [] ∧ b = (x :: b'.1, b'.2) := by
  obtain ⟨p, v⟩ := b
  obtain ⟨p', v'⟩ := b'
  rcases p with _ | ⟨y, _ | ⟨z, q⟩⟩
  · simp [rest?]
  · simp only [rest?, reduceCtorEq, false_iff, not_and]
    rintro hne ⟨⟩
    exact hne rfl
  · simp only [rest?, Prod.mk.injEq, List.cons.injEq]
    split
    · next h =>
      subst h
      simp only [Option.some.injEq, Prod.mk.injEq, true_and]
      constructor
      · rintro ⟨rfl, rfl⟩
        exact ⟨by simp, rfl, rfl⟩
      · rintro ⟨-, rfl, rfl⟩
        exact ⟨rfl, rfl⟩
    · next h =>
      simp only [reduceCtorEq, false_iff, not_and]
      rintro - ⟨rfl, -⟩
      exact absurd rfl h

theorem mem_rests {b' : List String × α} : b' ∈ rests x L ↔ b'.1 ≠ [] ∧ (x :: b'.1, b'.2) ∈ L := by
  simp only [rests, List.mem_filterMap, rest?_eq_some]
  constructor
  · rintro ⟨b, hb, hne, rfl⟩
    exact ⟨hne, hb⟩
  · rintro ⟨hne, hb⟩
    exact ⟨_, hb, hne, rfl⟩

theorem kept_concat (L : List (List String × α)) (b : List String × α) : kept (L ++ [b]) = keep (kept L) b := by
  rw [kept, List.foldl_append]
  rfl

theorem mem_of_mem_kept (h : b ∈ kept L) : b ∈ L := by
  induction L using List.reverseRecOn with
  | nil => cases h
  | append_singleton L c ih =>
    rw [kept_concat, keep] at h
    split at h
    · exact List.mem_append_left _ (ih h)
    · rcases List.mem_append.1 h with h | h
      · exact List.mem_append_left _ (ih h)
      · exact List.mem_append_right _ h

/-- The first names of the kept paths are those of all, in the same order. -/
theorem distinct_heads_kept (hL : ∀ b ∈ L, b.1 ≠ []) : distinct (heads (kept L)) = distinct (heads L) := by
  induction L using List.reverseRecOn with
  | nil => rfl
  | append_singleton L b ih =>
    have hprev := ih fun b hb => hL b (List.mem_append_left _ hb)
    obtain ⟨x, hx⟩ : ∃ x, b.1.head? = some x := by
      rw [← Option.isSome_iff_exists, List.isSome_head?]
      exact hL b (List.mem_append_right _ List.mem_cons_self)
    have hheads : ∀ M : List (List String × α), heads (M ++ [b]) = heads M ++ [x] := fun M => by simp [heads, hx]
    rw [hheads, kept_concat, keep, distinct_concat]
    split
    · next hcomp =>
      obtain ⟨k, hk, hcomp⟩ := hcomp
      have hmem := mem_of_mem_kept hk
      have hhead : k.1.head? = some x :=
        (hcomp.head_eq (hL k (List.mem_append_left _ hmem))
          (hL b (List.mem_append_right _ List.mem_cons_self))).trans hx
      rw [if_pos (mem_distinct.2 (mem_heads.2 ⟨k, hmem, hhead⟩)), hprev]
    · rw [hheads, distinct_concat, hprev]

/-- The first binding with its first name is kept. -/
theorem kept_append_singleton (hL : ∀ c ∈ L₁ ++ [b], c.1 ≠ []) (hb : b.1.head? = some x) (hx : x ∉ heads L₁) :
    kept (L₁ ++ [b]) = kept L₁ ++ [b] := by
  rw [kept_concat, keep, if_neg]
  rintro ⟨k, hk, hcomp⟩
  have hmem := mem_of_mem_kept hk
  have hhead := hcomp.head_eq (hL k (List.mem_append_left _ hmem)) (hL b (List.mem_append_right _ List.mem_cons_self))
  exact hx (mem_heads.2 ⟨k, hmem, hhead.trans hb⟩)

/-- Where a name is bound to a value first, nothing else is kept under it. -/
theorem kept_of_value {v : α} (hL : ∀ b ∈ L₁ ++ ([x], v) :: L₂, b.1 ≠ []) (hx : x ∉ heads L₁) :
    ([x], v) ∈ kept (L₁ ++ ([x], v) :: L₂) ∧
      ∀ b ∈ kept (L₁ ++ ([x], v) :: L₂), b.1.head? = some x → b = ([x], v) := by
  induction L₂ using List.reverseRecOn with
  | nil =>
    rw [kept_append_singleton hL rfl hx]
    refine ⟨List.mem_append_right _ List.mem_cons_self, fun b hb hhead => ?_⟩
    rcases List.mem_append.1 hb with hb | hb
    · exact absurd (mem_heads.2 ⟨b, mem_of_mem_kept hb, hhead⟩) hx
    · exact List.mem_singleton.1 hb
  | append_singleton L₂ c ih =>
    rw [← List.cons_append, ← List.append_assoc] at hL ⊢
    obtain ⟨hmem, honly⟩ := ih fun b hb => hL b (List.mem_append_left _ hb)
    rw [kept_concat, keep]
    split
    · exact ⟨hmem, honly⟩
    · next hcomp =>
      refine ⟨List.mem_append_left _ hmem, fun b hb hhead => ?_⟩
      rcases List.mem_append.1 hb with hb | hb
      · exact honly b hb hhead
      · -- a later path under the name is comparable with the name alone
        obtain rfl := List.mem_singleton.1 hb
        refine absurd ⟨_, hmem, ?_⟩ hcomp
        obtain ⟨p, hp⟩ : ∃ p, b.1 = x :: p := List.head?_eq_some_iff.1 hhead
        rw [hp]
        exact .inl (by simp)

/-- Where a path that goes on from a name comes first, what is kept under the name is what is kept of the rests. -/
theorem kept_of_path {y : String} {q : List String} {v : α} (hL : ∀ b ∈ L₁ ++ (x :: y :: q, v) :: L₂, b.1 ≠ [])
    (hx : x ∉ heads L₁) : (x :: y :: q, v) ∈ kept (L₁ ++ (x :: y :: q, v) :: L₂) ∧
      rests x (kept (L₁ ++ (x :: y :: q, v) :: L₂)) = kept (rests x (L₁ ++ (x :: y :: q, v) :: L₂)) ∧
      ∀ w, ([x], w) ∉ kept (L₁ ++ (x :: y :: q, v) :: L₂) := by
  have hnone : ∀ M : List (List String × α), x ∉ heads M → rests x M = [] := by
    intro M hM
    refine List.filterMap_eq_nil_iff.2 fun b hb => ?_
    refine Option.eq_none_iff_forall_ne_some.2 fun b' hb' => hM (mem_heads.2 ⟨b, hb, ?_⟩)
    rw [(rest?_eq_some.1 hb').2]
    rfl
  induction L₂ using List.reverseRecOn with
  | nil =>
    have hkept : x ∉ heads (kept L₁) := fun hmem => by
      obtain ⟨k, hk, hhead⟩ := mem_heads.1 hmem
      exact hx (mem_heads.2 ⟨k, mem_of_mem_kept hk, hhead⟩)
    rw [kept_append_singleton hL rfl hx]
    refine ⟨List.mem_append_right _ List.mem_cons_self, ?_, fun w hw => ?_⟩
    · have happend : ∀ M : List (List String × α), rests x (M ++ [(x :: y :: q, v)]) = rests x M ++ [(y :: q, v)] :=
        fun M => by simp [rests, rest?]
      rw [happend, happend, hnone _ hkept, hnone _ hx]
      rfl
    · rcases List.mem_append.1 hw with hw | hw
      · exact hkept (mem_heads.2 ⟨_, hw, rfl⟩)
      · cases List.mem_singleton.1 hw
  | append_singleton L₂ c ih =>
    rw [← List.cons_append, ← List.append_assoc] at hL ⊢
    obtain ⟨hmem, hbelow, honly⟩ := ih fun b hb => hL b (List.mem_append_left _ hb)
    generalize hM : L₁ ++ (x :: y :: q, v) :: L₂ = M at hmem hbelow honly hL ⊢
    have hconcat : ∀ N : List (List String × α), rests x (N ++ [c]) = rests x N ++ (rest? x c).toList := fun N => by
      cases hc : rest? x c <;> simp [rests, hc]
    rw [kept_concat, hconcat]
    cases hc : rest? x c with
    | none =>
      rw [Option.toList_none, List.append_nil, ← hbelow, keep]
      split
      · exact ⟨hmem, rfl, honly⟩
      · next hcomp =>
        refine ⟨List.mem_append_left _ hmem, by rw [hconcat, hc, Option.toList_none, List.append_nil], fun w hw => ?_⟩
        rcases List.mem_append.1 hw with hw | hw
        · exact honly w hw
        · -- the name alone is comparable with the path that came first
          rw [← List.mem_singleton.1 hw] at hcomp
          exact hcomp ⟨_, hmem, .inr (by simp)⟩
    | some c' =>
      obtain ⟨hne, rfl⟩ := rest?_eq_some.1 hc
      have hiff : (∃ k ∈ kept M, Comparable k.1 (x :: c'.1)) ↔ ∃ k ∈ rests x (kept M), Comparable k.1 c'.1 := by
        constructor
        · rintro ⟨⟨p, w⟩, hk, hcomp⟩
          cases p with
          | nil => exact absurd rfl (hL _ (List.mem_append_left _ (mem_of_mem_kept hk)))
          | cons z r =>
            obtain ⟨rfl, hrest⟩ := comparable_cons.1 hcomp
            refine ⟨(r, w), mem_rests.2 ⟨?_, hk⟩, hrest⟩
            rintro rfl
            exact honly w hk
        · rintro ⟨k, hk, hcomp⟩
          exact ⟨_, (mem_rests.1 hk).2, comparable_cons.2 ⟨rfl, hcomp⟩⟩
      rw [Option.toList_some, kept_concat, ← hbelow, keep, keep]
      by_cases hcomp : ∃ k ∈ kept M, Comparable k.1 (x :: c'.1)
      · rw [if_pos hcomp, if_pos (hiff.1 hcomp)]
        exact ⟨hmem, rfl, honly⟩
      · rw [if_neg hcomp, if_neg (hiff.not.1 hcomp)]
        refine ⟨List.mem_append_left _ hmem, by rw [hconcat, hc, Option.toList_some], fun w hw => ?_⟩
        rcases List.mem_append.1 hw with hw | hw
        · exact honly w hw
        · have hpath : [x] = x :: c'.1 := congrArg Prod.fst (List.mem_singleton.1 hw)
          exact hne (List.cons.inj hpath).2.symm

end Kept

/-! ## Entries with known paths -/

/-- The entry binds the end of a path of known names to a value that is no set literal. -/
def Entry.Binds (c : Entry Tree) (b : List String × Tree) : Prop :=
  ∃ path, c = .bind path b.2 ∧ path.map Attr.known? = b.1.map some ∧ b.1 ≠ [] ∧ b.2.isSet = false

section Binds
variable {c : Entry Tree} {b : List String × Tree} {cs : List (Entry Tree)} {L : List (List String × Tree)} {x : String}

/-- The path ends with its first name, or goes on. -/
theorem Entry.Binds.cases (h : c.Binds b) : ∃ a x, a.known? = some x ∧ b.2.isSet = false ∧
    (c = .bind [a] b.2 ∧ b.1 = [x] ∨ ∃ a' steps q, c = .bind (a :: a' :: steps) b.2 ∧ b.1 = x :: q ∧
      Entry.Binds (.bind (a' :: steps) b.2) (q, b.2)) := by
  obtain ⟨path, rfl, hknown, hne, hplain⟩ := h
  obtain ⟨names, value⟩ := b
  cases names with
  | nil => exact absurd rfl hne
  | cons x names =>
    cases path with
    | nil => cases hknown
    | cons a path =>
      rw [List.map_cons, List.map_cons, List.cons.injEq] at hknown
      refine ⟨a, x, hknown.1, hplain, ?_⟩
      cases path with
      | nil =>
        refine .inl ⟨rfl, ?_⟩
        rw [List.map_eq_nil_iff.1 hknown.2.symm]
      | cons a' steps =>
        refine .inr ⟨a', steps, names, rfl, rfl, a' :: steps, rfl, hknown.2, ?_, hplain⟩
        rintro rfl
        cases hknown.2

theorem Entry.Binds.binds_eq (h : c.Binds b) : c.binds = b.1.head?.toList := by
  obtain ⟨a, x, ha, -, ⟨rfl, hb⟩ | ⟨a', steps, q, rfl, hb, -⟩⟩ := h.cases
  · simp [Entry.binds, ha, hb]
  · simp [Entry.binds, ha, hb]

theorem Entry.Binds.nonempty (h : c.Binds b) : b.1 ≠ [] := by
  obtain ⟨path, -, -, hne, -⟩ := h
  exact hne

theorem nonempty_of_binds (h : List.Forall₂ Entry.Binds cs L) : ∀ b ∈ L, b.1 ≠ [] := by
  intro b hb
  obtain ⟨c, -, hc⟩ := exists_of_forall₂ h hb
  exact hc.nonempty

theorem flatMap_binds (h : List.Forall₂ Entry.Binds cs L) : cs.flatMap Entry.binds = heads L := by
  induction h with
  | nil => rfl
  | @cons c b cs L hc _ ih =>
    rw [List.flatMap_cons, ih, hc.binds_eq]
    cases hhead : b.1.head? <;> simp [heads, hhead]

theorem binds_under (h : List.Forall₂ Entry.Binds cs L) (x : String) :
    List.Forall₂ Entry.Binds (cs.flatMap (Entry.under x)) (rests x L) := by
  induction h with
  | nil => exact .nil
  | @cons c b cs L hc _ ih =>
    obtain ⟨names, value⟩ := b
    obtain ⟨a, y, ha, hplain, ⟨rfl, rfl⟩ | ⟨a', steps, q, rfl, rfl, hrest⟩⟩ := hc.cases
    · have hunder : (Entry.bind [a] value).under x = [] := by simp [Entry.under, hplain]
      rw [List.flatMap_cons, hunder, List.nil_append]
      exact ih
    · obtain ⟨z, r, rfl⟩ : ∃ z r, q = z :: r := List.exists_cons_of_ne_nil hrest.nonempty
      by_cases hy : y = x
      · have hunder : (Entry.bind (a :: a' :: steps) value).under x = [.bind (a' :: steps) value] := by
          simp [Entry.under, ha, hy]
        have hbelow : rests x ((y :: z :: r, value) :: L) = (z :: r, value) :: rests x L := by simp [rests, rest?, hy]
        rw [List.flatMap_cons, hunder, hbelow]
        exact .cons hrest ih
      · have hunder : (Entry.bind (a :: a' :: steps) value).under x = [] := by simp [Entry.under, ha, hy]
        have hbelow : rests x ((y :: z :: r, value) :: L) = rests x L := by simp [rests, rest?, hy]
        rw [List.flatMap_cons, hunder, hbelow]
        exact ih

theorem source?_of_binds (h : c.Binds b) : c.source? = none := by
  obtain ⟨path, rfl, -⟩ := h
  rfl

theorem computed_of_binds (h : c.Binds b) : c.computed = [] := by
  obtain ⟨a, x, ha, -, ⟨rfl, -⟩ | ⟨a', steps, q, rfl, -⟩⟩ := h.cases
  · simp [Entry.computed, ha]
  · simp [Entry.computed, ha]

theorem recursive_of_binds (h : c.Binds b) (x : String) : c.recursive x = false := by
  obtain ⟨a, y, -, hplain, ⟨rfl, -⟩ | ⟨a', steps, q, rfl, -⟩⟩ := h.cases
  · simp [Entry.recursive, Tree.isRecSet_of_isSet hplain]
  · rfl

/-- Every entry stands for one of the bindings. -/
theorem exists_binds (h : List.Forall₂ Entry.Binds cs L) (hc : c ∈ cs) : ∃ b ∈ L, c.Binds b :=
  exists_of_forall₂ h.flip hc

/-- The first entry for a name stands for the first binding with it. -/
theorem First.binds (h : List.Forall₂ Entry.Binds cs L) {before : List (Entry Tree)} (hfirst : First cs x before c) :
    ∃ L₁ b L₂, L = L₁ ++ b :: L₂ ∧ x ∉ heads L₁ ∧ b.1.head? = some x ∧ c.Binds b := by
  obtain ⟨after, rfl, hnew, hname⟩ := hfirst
  have htake := (List.forall₂_take_append _ _ _ h.flip).flip
  have hdrop := List.forall₂_drop_append _ _ _ h.flip
  obtain ⟨b, L₂, hb, -, hL₂⟩ := List.forall₂_cons_right_iff.1 hdrop
  refine ⟨L.take before.length, b, L₂, ?_, ?_, ?_, hb⟩
  · rw [← hL₂, List.take_append_drop]
  · rw [← flatMap_binds htake]
    exact hnew
  · rw [Entry.Binds.binds_eq hb] at hname
    exact Option.mem_toList.1 hname

end Binds

/-! ## Groups read as nested sets -/

/-- The group has a value for each path that ends with its first name, and for each other a set of what is left. -/
inductive Bindings.Reads (text : String) : List (List String × Tree) → Bindings Expr → Prop where
  | mk {K : List (List String × Tree)} {g : Bindings Expr} (names : g.names = distinct (heads K))
    (sources : g.sources = []) (dynamics : g.dynamics = [])
    (values : ∀ x v, ([x], v) ∈ K → ∃ e, (x, .expr e) ∈ g.statics ∧ v.Becomes text e)
    (sets : ∀ x, rests x K ≠ [] → ∃ e g', (x, .expr e) ∈ g.statics ∧ e.form = .set false g')
    (inner : ∀ x e g', (x, .expr e) ∈ g.statics → e.form = .set false g' → rests x K ≠ [] →
      Bindings.Reads text (rests x K) g') : Bindings.Reads text K g

section Reads
variable {text : String} {cs : List (Entry Tree)} {L K : List (List String × Tree)} {g : Bindings Expr} {x : String}

theorem exists_static (h : x ∈ g.names) : ∃ b, (x, b) ∈ g.statics := by
  obtain ⟨s, hs, rfl⟩ := List.mem_map.1 h
  exact ⟨s.2, hs⟩

/-- What a name of a group of entries with known paths is bound to. -/
theorem static_cases (hL : List.Forall₂ Entry.Binds cs L) {b : Binding Expr} (h : b.Merges text cs x) :
    (∃ v e, b = .expr e ∧ v.Becomes text e ∧ ([x], v) ∈ kept L ∧ ∀ k ∈ kept L, k.1.head? = some x → k = ([x], v)) ∨
    ∃ e g', b = .expr e ∧ e.form = .set false g' ∧ g'.Merges text (cs.flatMap (Entry.under x)) ∧
      rests x (kept L) = kept (rests x L) ∧ (∀ w, ([x], w) ∉ kept L) ∧ ∃ k ∈ L, 2 ≤ k.1.length := by
  have hne := nonempty_of_binds hL
  cases h with
  | settles settles =>
    cases settles with
    | @expr before a value e first plain becomes =>
      obtain ⟨L₁, b, L₂, rfl, hnew, hhead, hb⟩ := first.binds hL
      obtain ⟨names, v⟩ := b
      obtain ⟨a', y, -, -, ⟨heq, rfl⟩ | ⟨a'', steps, q, heq, -⟩⟩ := hb.cases
      · cases heq
        cases hhead
        obtain ⟨hmem, honly⟩ := kept_of_value hne hnew
        exact .inl ⟨v, e, rfl, becomes, hmem, honly⟩
      · cases heq
    | inherit first form =>
      obtain ⟨L₁, b, L₂, -, -, -, path, hc, -⟩ := first.binds hL
      cases hc
    | inheritFrom first =>
      obtain ⟨L₁, b, L₂, -, -, -, path, hc, -⟩ := first.binds hL
      cases hc
  | @set _ before _ c e g' first opens form merges =>
    obtain ⟨L₁, b, L₂, rfl, hnew, hhead, hb⟩ := first.binds hL
    obtain ⟨names, v⟩ := b
    obtain ⟨a, y, -, hplain, ⟨rfl, -⟩ | ⟨a', steps, q, -, rfl, hrest⟩⟩ := hb.cases
    · cases hplain.symm.trans opens
    · cases hhead
      obtain ⟨z, r, rfl⟩ : ∃ z r, q = z :: r := List.exists_cons_of_ne_nil hrest.nonempty
      obtain ⟨-, hbelow, honly⟩ := kept_of_path hne hnew
      have hrec : cs.any (Entry.recursive x) = false := by
        refine List.any_eq_false.2 fun c hc => ?_
        obtain ⟨b, -, hb⟩ := exists_binds hL hc
        rw [recursive_of_binds hb x]
        exact Bool.false_ne_true
      rw [hrec] at form
      exact .inr ⟨e, g', rfl, form, merges, hbelow, honly, _, List.mem_append_right _ List.mem_cons_self, by simp⟩

/-- A group of entries with known paths has what is kept of them. The induction is on the length of the paths. -/
theorem Bindings.Merges.reads {n : Nat} (hn : ∀ b ∈ L, b.1.length ≤ n) (hL : List.Forall₂ Entry.Binds cs L)
    (h : g.Merges text cs) : g.Reads text (kept L) := by
  induction n using Nat.strongRecOn generalizing L cs g with
  | ind n ih =>
    cases h with
    | mk names statics sources computed =>
      have hne := nonempty_of_binds hL
      rw [flatMap_binds hL] at names
      have hstatic : ∀ {x : String} {k : List String × Tree}, k ∈ kept L → k.1.head? = some x →
          ∃ b, (x, b) ∈ g.statics := by
        intro x k hk hhead
        refine exists_static ?_
        rw [names, ← distinct_heads_kept hne, mem_distinct]
        exact mem_heads.2 ⟨k, hk, hhead⟩
      refine .mk (names.trans (distinct_heads_kept hne).symm) ?_ ?_ ?_ ?_ ?_
      · have hnone : cs.filterMap Entry.source? = [] := by
          refine List.filterMap_eq_nil_iff.2 fun c hc => ?_
          obtain ⟨b, -, hb⟩ := exists_binds hL hc
          exact source?_of_binds hb
        rw [hnone] at sources
        exact List.forall₂_nil_left_iff.1 sources
      · have hnone : cs.flatMap Entry.computed = [] := by
          refine List.flatMap_eq_nil_iff.2 fun c hc => ?_
          obtain ⟨b, -, hb⟩ := exists_binds hL hc
          exact computed_of_binds hb
        rw [hnone] at computed
        exact List.forall₂_nil_left_iff.1 computed
      · intro x v hv
        obtain ⟨b, hb⟩ := hstatic hv rfl
        rcases static_cases hL (statics _ hb) with ⟨v', e, hexpr, becomes, -, honly⟩ | ⟨e, g', -, -, -, -, honly, -⟩
        · cases honly _ hv rfl
          exact ⟨e, hexpr ▸ hb, becomes⟩
        · exact absurd hv (honly v)
      · intro x hx
        obtain ⟨k, hk⟩ := List.exists_mem_of_ne_nil _ hx
        obtain ⟨hkne, hmem⟩ := mem_rests.1 hk
        obtain ⟨b, hb⟩ := hstatic hmem rfl
        rcases static_cases hL (statics _ hb) with ⟨v', e, -, -, -, honly⟩ | ⟨e, g', hexpr, form, -⟩
        · exact absurd (List.cons.inj (congrArg Prod.fst (honly _ hmem rfl))).2 hkne
        · exact ⟨e, g', hexpr ▸ hb, form⟩
      · intro x e g' hb hform hx
        obtain ⟨k, hk⟩ := List.exists_mem_of_ne_nil _ hx
        obtain ⟨hkne, hmem⟩ := mem_rests.1 hk
        rcases static_cases hL (statics _ hb) with
          ⟨v', e', -, -, -, honly⟩ | ⟨e', g₁, hexpr, form, merges, hbelow, -, hlong⟩
        · exact absurd (List.cons.inj (congrArg Prod.fst (honly _ hmem rfl))).2 hkne
        · cases hexpr
          cases hform.symm.trans form
          obtain ⟨b, hb, hlength⟩ := hlong
          have hbound := hn b hb
          rw [hbelow]
          refine ih (n - 1) (by omega) (fun b' hb' => ?_) (binds_under hL x) merges
          have hle := hn _ (mem_rests.1 hb').2
          rw [List.length_cons] at hle
          omega

/-! ## What is read -/

/-- The path leads to the expression, through sets that are not recursive. -/
inductive Bindings.At : Bindings Expr → List String → Expr → Prop where
  | here {g : Bindings Expr} {x : String} {e : Expr} (mem : (x, .expr e) ∈ g.statics) : At g [x] e
  | inside {g g' : Bindings Expr} {x : String} {p : List String} {e e' : Expr} (mem : (x, .expr e) ∈ g.statics)
    (form : e.form = .set false g') (rest : At g' p e') : At g (x :: p) e'

/-- The path leads to the group. -/
inductive Bindings.Level : Bindings Expr → List String → Bindings Expr → Prop where
  | here {g : Bindings Expr} : Level g [] g
  | inside {g g' g'' : Bindings Expr} {x : String} {p : List String} {e : Expr} (mem : (x, .expr e) ∈ g.statics)
    (form : e.form = .set false g') (rest : Level g' p g'') : Level g (x :: p) g''

/-- A name stands for one thing. -/
theorem eq_of_mem_statics (h : g.names.Nodup) {b b' : Binding Expr} (hb : (x, b) ∈ g.statics)
    (hb' : (x, b') ∈ g.statics) : b = b' := by
  have hfind : findKey x g.statics = some b := findKey_of_mem h hb
  have hfind' : findKey x g.statics = some b' := findKey_of_mem h hb'
  exact Option.some.inj (hfind.symm.trans hfind')

theorem heads_cases (h : x ∈ heads K) : (∃ v, ([x], v) ∈ K) ∨ rests x K ≠ [] := by
  obtain ⟨b, hb, hhead⟩ := mem_heads.1 h
  obtain ⟨p, v⟩ := b
  obtain ⟨q, rfl⟩ : ∃ q, p = x :: q := List.head?_eq_some_iff.1 hhead
  cases q with
  | nil => exact .inl ⟨v, hb⟩
  | cons y q =>
    have hmem : (y :: q, v) ∈ rests x K := mem_rests.2 ⟨List.cons_ne_nil y q, hb⟩
    exact .inr (List.ne_nil_of_mem hmem)

/-- Each path leads to the value of its binding. -/
theorem Bindings.Reads.maps (h : g.Reads text K) : ∀ b ∈ K, b.1 ≠ [] → ∃ e, g.At b.1 e ∧ b.2.Becomes text e := by
  induction h with
  | @mk K g names sources dynamics values sets inner ih =>
    rintro ⟨p, v⟩ hb hne
    cases p with
    | nil => exact absurd rfl hne
    | cons x q =>
      cases q with
      | nil =>
        obtain ⟨e, hmem, becomes⟩ := values x v hb
        exact ⟨e, .here hmem, becomes⟩
      | cons y q =>
        have hbelow : (y :: q, v) ∈ rests x K := mem_rests.2 ⟨List.cons_ne_nil y q, hb⟩
        obtain ⟨e, g', hmem, form⟩ := sets x (List.ne_nil_of_mem hbelow)
        obtain ⟨e', hat, becomes⟩ := ih x e g' hmem form (List.ne_nil_of_mem hbelow) _ hbelow (List.cons_ne_nil y q)
        exact ⟨e', .inside hmem form hat, becomes⟩

/-- A path that leads somewhere goes along one of the paths, or on from its end. -/
theorem Bindings.Reads.exact (h : g.Reads text K) {p : List String} {e : Expr} (hat : g.At p e) :
    ∃ b ∈ K, Comparable b.1 p := by
  induction h generalizing p e with
  | @mk K g names sources dynamics values sets inner ih =>
    have hheads : ∀ {x : String} {e : Expr}, (x, .expr e) ∈ g.statics → x ∈ heads K := fun hmem =>
      mem_distinct.1 (names ▸ List.mem_map_of_mem hmem)
    cases hat with
    | @here _ x _ mem =>
      obtain ⟨b, hb, hhead⟩ := mem_heads.1 (hheads mem)
      obtain ⟨q, hq⟩ := List.head?_eq_some_iff.1 hhead
      refine ⟨b, hb, .inr ?_⟩
      rw [hq]
      simp
    | @inside _ g' x p e _ mem form rest =>
      rcases heads_cases (hheads mem) with ⟨v, hv⟩ | hrests
      · exact ⟨_, hv, .inl (by simp)⟩
      · obtain ⟨b, hb, hcomp⟩ := ih x e g' mem form hrests rest
        exact ⟨_, (mem_rests.1 hb).2, comparable_cons.2 ⟨rfl, hcomp⟩⟩

/-- A group inside has the names with which the paths go on there. -/
theorem Bindings.Reads.level (h : g.Reads text K) {q : List String} {g' : Bindings Expr} (hlevel : g.Level q g')
    (hq : q = [] ∨ restsAt q K ≠ []) : g'.Reads text (restsAt q K) := by
  induction hlevel generalizing K with
  | here => exact h
  | @inside g g₁ g' x q e mem form rest ih =>
    cases h with
    | mk names sources dynamics values sets inner =>
      have hrests : rests x K ≠ [] := by
        rcases hq with hq | hq
        · cases hq
        · rintro hnil
          refine hq ?_
          rw [restsAt, hnil]
          exact restsAt_nil q
      exact ih (inner x e g₁ mem form hrests) (.inr (hq.resolve_left (List.cons_ne_nil x q)))

/-- What a group is made of is the sets on the way along a path and what stands under the value at its end. -/
theorem Bindings.Reads.built (h : g.Reads text K) {e : Expr} (he : e ∈ g.parts.flatMap Expr.all) :
    (∃ p, g.At p e ∧ ∃ b ∈ K, p <+: b.1 ∧ p ≠ b.1) ∨ ∃ b ∈ K, ∃ e', g.At b.1 e' ∧ b.2.Becomes text e' ∧ e ∈ e'.all := by
  induction h with
  | @mk K g names sources dynamics values sets inner ih =>
    have hnodup : g.names.Nodup := names ▸ nodup_distinct _
    obtain ⟨part, hpart, he⟩ := List.mem_flatMap.1 he
    rw [Bindings.parts, sources, dynamics] at hpart
    simp only [List.append_nil, List.flatMap_nil, List.mem_filterMap] at hpart
    obtain ⟨s, hs, hexpr⟩ := hpart
    obtain ⟨x, b⟩ := s
    have hx : x ∈ heads K := mem_distinct.1 (names ▸ List.mem_map_of_mem hs)
    rcases heads_cases hx with ⟨v, hv⟩ | hrests
    · obtain ⟨e', hmem, becomes⟩ := values x v hv
      cases eq_of_mem_statics hnodup hs hmem
      cases hexpr
      exact .inr ⟨_, hv, part, .here hmem, becomes, he⟩
    · obtain ⟨e', g', hmem, form⟩ := sets x hrests
      cases eq_of_mem_statics hnodup hs hmem
      cases hexpr
      rcases Expr.mem_all.1 he with rfl | ⟨p, hp, he⟩
      · obtain ⟨k, hk⟩ := List.exists_mem_of_ne_nil _ hrests
        obtain ⟨hne, hkmem⟩ := mem_rests.1 hk
        refine .inl ⟨[x], .here hmem, _, hkmem, by simp, fun heq => hne (List.cons.inj heq).2.symm⟩
      · have hparts : p ∈ g'.parts := by
          rw [Expr.parts, form] at hp
          exact hp
        rcases ih x part g' hmem form hrests (List.mem_flatMap.2 ⟨p, hparts, he⟩) with
          ⟨q, hat, k, hk, hprefix, hne⟩ | ⟨k, hk, e', hat, becomes, he⟩
        · refine .inl ⟨x :: q, .inside hmem form hat, _, (mem_rests.1 hk).2, ?_, fun heq => hne (List.cons.inj heq).2⟩
          exact List.cons_prefix_cons.2 ⟨rfl, hprefix⟩
        · exact .inr ⟨_, (mem_rests.1 hk).2, e', .inside hmem form hat, becomes, he⟩

/-- A path leads to one expression. -/
theorem Bindings.Reads.at_unique (h : g.Reads text K) {b : List String × Tree} (hb : b ∈ K) {e e' : Expr}
    (he : g.At b.1 e) (he' : g.At b.1 e') : e = e' := by
  obtain ⟨p, v⟩ := b
  induction h generalizing p with
  | @mk K g names sources dynamics values sets inner ih =>
    have hnodup : g.names.Nodup := names ▸ nodup_distinct _
    cases he with
    | here mem =>
      cases he' with
      | here mem' =>
        cases eq_of_mem_statics hnodup mem mem'
        rfl
      | inside _ _ rest => cases rest
    | @inside _ g' x p e₁ _ mem form rest =>
      cases he' with
      | here _ => cases rest
      | inside mem' form' rest' =>
        cases eq_of_mem_statics hnodup mem mem'
        cases form.symm.trans form'
        have hp : p ≠ [] := by
          rintro rfl
          cases rest
        have hrest : (p, v) ∈ rests x K := mem_rests.2 ⟨hp, hb⟩
        exact ih x e₁ g' mem form (List.ne_nil_of_mem hrest) p hrest rest rest'

end Reads

end NixTyping
