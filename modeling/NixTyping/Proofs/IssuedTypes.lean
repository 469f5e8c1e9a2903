import Mathlib
import NixTyping.Infer
import NixTyping.Proofs.RelatedJudgments
import NixTyping.Proofs.SearchPath
/-!
# Types that a walk makes

The types in a judgment are made of issued variables, and there is no overload set in
them: those of the signatures stay on the right side of an equation, and those of the
environment inside of the schemes of instances. `Judgment.Issued` says this of a judgment
when `k` variables are issued; that a walk makes such judgments is said in `ComparedWalks`.

What is inferred follows from a judgment and the solutions of its constraints
(`Expr.infer_eq_ok_iff`).
-/

namespace NixTyping

namespace Ty

/-- There is no overload set in the type. -/
inductive OverloadFree : Ty → Prop where
  | var (v : Nat) : OverloadFree (.var v)
  | prim (p : Prim) : OverloadFree (.prim p)
  | list {ts : List Ty} (elems : ∀ t ∈ ts, OverloadFree t) : OverloadFree (.list ts)
  | fn {p b : Ty} (param : OverloadFree p) (body : OverloadFree b) : OverloadFree (.fn p b)
  | record {fs : List (String × Ty)} {o : Bool} (fields : ∀ f ∈ fs, OverloadFree f.2) : OverloadFree (.record fs o)

section OverloadFree
variable {t : Ty}

@[simp] theorem overloadFree_var (v : Nat) : (Ty.var v).OverloadFree := .var v

@[simp] theorem overloadFree_prim (p : Prim) : (Ty.prim p).OverloadFree := .prim p

@[simp] theorem overloadFree_fn {p b : Ty} : (Ty.fn p b).OverloadFree ↔ p.OverloadFree ∧ b.OverloadFree :=
  ⟨fun h => by cases h with | fn hp hb => exact ⟨hp, hb⟩, fun h => .fn h.1 h.2⟩

@[simp] theorem overloadFree_list {ts : List Ty} : (Ty.list ts).OverloadFree ↔ ∀ t ∈ ts, t.OverloadFree :=
  ⟨fun h => by cases h with | list elems => exact elems, .list⟩

@[simp] theorem overloadFree_record {fs : List (String × Ty)} {o : Bool} :
    (Ty.record fs o).OverloadFree ↔ ∀ f ∈ fs, f.2.OverloadFree :=
  ⟨fun h => by cases h with | record fields => exact fields, .record⟩

@[simp] theorem not_overloadFree_overload (ts : List Ty) : ¬ (Ty.overload ts).OverloadFree := nofun

theorem OverloadFree.wellFormed (h : t.OverloadFree) : t.WellFormed := by
  induction h with
  | var v => exact .var v
  | prim p => exact .prim p
  | list _ ih => exact .list ih
  | fn _ _ ihp ihb => exact .fn ihp ihb
  | record _ ih => exact .record ih

theorem OverloadFree.subst {f : Nat → Ty} (h : t.OverloadFree) (hf : ∀ v, (f v).OverloadFree) :
    (t.subst f).OverloadFree := by
  induction h with
  | var v => exact hf v
  | prim p => exact .prim p
  | list _ ih =>
    rw [subst_list]
    exact .list (List.forall_mem_map.2 ih)
  | fn _ _ ihp ihb => exact .fn ihp ihb
  | record _ ih =>
    rw [subst_record]
    exact .record (List.forall_mem_map.2 ih)

instance : Stable OverloadFree := ⟨.var, .subst⟩

end OverloadFree

/-- A type of the first `k` variables, without overload sets. -/
def Issued (k : Nat) (t : Ty) : Prop := t.OverloadFree ∧ ∀ v ∈ t.free, v < k

section Issued
variable {k k' : Nat} {t : Ty}

theorem Issued.mono (h : t.Issued k) (hk : k ≤ k') : t.Issued k' := ⟨h.1, fun v hv => (h.2 v hv).trans_le hk⟩

theorem issued_var {v : Nat} : (Ty.var v).Issued k ↔ v < k := by simp [Issued]

theorem issued_prim (k : Nat) (p : Prim) : (Ty.prim p).Issued k := by simp [Issued]

theorem issued_fn {p b : Ty} : (Ty.fn p b).Issued k ↔ p.Issued k ∧ b.Issued k := by
  simp only [Issued, overloadFree_fn, mem_free_fn, or_imp, forall_and]
  exact and_and_and_comm

theorem issued_list {ts : List Ty} : (Ty.list ts).Issued k ↔ ∀ t ∈ ts, t.Issued k := by
  simp only [Issued, overloadFree_list, mem_free_list]
  refine ⟨fun h t ht => ⟨h.1 t ht, fun v hv => h.2 v ⟨t, ht, hv⟩⟩, fun h => ⟨fun t ht => (h t ht).1, ?_⟩⟩
  rintro v ⟨t, ht, hv⟩
  exact (h t ht).2 v hv

theorem issued_record {fs : List (String × Ty)} {o : Bool} : (Ty.record fs o).Issued k ↔ ∀ f ∈ fs, f.2.Issued k := by
  simp only [Issued, overloadFree_record, mem_free_record]
  refine ⟨fun h f hf => ⟨h.1 f hf, fun v hv => h.2 v ⟨f, hf, hv⟩⟩, fun h => ⟨fun f hf => (h f hf).1, ?_⟩⟩
  rintro v ⟨f, hf, hv⟩
  exact (h f hf).2 v hv

end Issued

end Ty

/-! ## Signatures and schemes of the environment -/

/-- A signature is a function type, or an overload set of function types. -/
theorem Signature.rows {sig : Ty} (h : Signature sig) :
    ∃ ts, ts ≠ [] ∧ sig = .overloads ts ∧ ∀ t ∈ ts, t.Issued 0 ∧ ∃ p b, t = .fn p b := by
  have hbinary : ∀ {l r t : Ty}, l.Issued 0 → r.Issued 0 → t.Issued 0 →
      (Ty.binary l r t).Issued 0 ∧ ∃ p b, Ty.binary l r t = .fn p b :=
    fun hl hr ht => ⟨Ty.issued_fn.2 ⟨hl, Ty.issued_fn.2 ⟨hr, ht⟩⟩, _, _, rfl⟩
  have hprims : ∀ p q r : Prim, (Ty.binary (.prim p) (.prim q) (.prim r)).Issued 0 ∧
      ∃ a b, Ty.binary (.prim p) (.prim q) (.prim r) = .fn a b :=
    fun p q r => hbinary (Ty.issued_prim 0 p) (Ty.issued_prim 0 q) (Ty.issued_prim 0 r)
  have hnumbers : ∀ t ∈ arithmeticSignatures ++ comparisonSignatures, t.Issued 0 ∧ ∃ p b, t = .fn p b := by
    intro t ht
    rcases List.mem_append.1 ht with ht | ht <;>
      · obtain ⟨⟨l, r⟩, -, rfl⟩ := List.mem_map.1 ht
        exact hprims _ _ _
  cases h with
  | unary op =>
    cases op with
    | not => exact ⟨[.fn .bool .bool], by simp, rfl, by simp [Ty.issued_fn, Ty.issued_prim]⟩
    | negate =>
      exact ⟨[.fn .int .int, .fn .float .float], by simp, rfl, by simp [Ty.issued_fn, Ty.issued_prim]⟩
  | @binary op sig h =>
    cases op with
    | add =>
      cases h
      refine ⟨_, by simp [arithmeticSignatures], rfl, fun t ht => ?_⟩
      rcases List.mem_append.1 ht with ht | ht
      · exact hnumbers t (List.mem_append_left _ ht)
      · simp only [List.mem_cons, List.not_mem_nil, or_false] at ht
        rcases ht with rfl | rfl | rfl | rfl <;> exact hprims _ _ _
    | sub | mul | div =>
      cases h
      exact ⟨_, by simp [arithmeticSignatures, numberPairs], rfl, fun t ht => hnumbers t (List.mem_append_left _ ht)⟩
    | less | lessEq | more | moreEq =>
      cases h
      refine ⟨_, by simp [comparisonSignatures], rfl, fun t ht => ?_⟩
      rcases List.mem_append.1 ht with ht | ht
      · exact hnumbers t (List.mem_append_right _ ht)
      · simp only [List.mem_cons, List.not_mem_nil, or_false] at ht
        rcases ht with rfl | rfl <;> exact hprims _ _ _
    | equal | notEqual => cases h
    | and | or | implies =>
      cases h
      exact ⟨[.binary .bool .bool .bool], by simp, rfl, by simpa using hprims .bool .bool .bool⟩
    | concat =>
      cases h
      have hlist : (Ty.list []).Issued 0 := Ty.issued_list.2 (by simp)
      exact ⟨[.binary (.list []) (.list []) (.list [])], by simp, rfl, by simpa using hbinary hlist hlist hlist⟩
    | update =>
      cases h
      have hrecord : (Ty.record [] true).Issued 0 := Ty.issued_record.2 (by simp)
      exact ⟨[.binary (.record [] true) (.record [] true) (.record [] true)], by simp, rfl,
        by simpa using hbinary hrecord hrecord hrecord⟩

theorem Signature.wellFormed {sig : Ty} (h : Signature sig) : sig.WellFormed := by
  obtain ⟨ts, hne, rfl, hts⟩ := h.rows
  exact .overloads hne fun t ht => (hts t ht).1.1.wellFormed

theorem Signature.closed {sig : Ty} (h : Signature sig) (v : Nat) : v ∉ sig.free := by
  obtain ⟨ts, -, rfl, hts⟩ := h.rows
  intro hv
  obtain ⟨t, ht, hv⟩ := Ty.mem_free_overloads.1 hv
  exact Nat.not_lt_zero v ((hts t ht).1.2 v hv)

/-- The schemes of an environment, and those of the fields of their records. -/
inductive Env.Offers (env : Env) (vars : List Nat) : Ty → Prop where
  | scheme {name : String} {schemes : List Scheme} {t : Ty} (bound : env.lookup name = some schemes)
    (mem : ⟨vars, t⟩ ∈ schemes) : Offers env vars t
  | field {fs : List (String × Ty)} {o : Bool} {f : String × Ty} (record : Offers env vars (.record fs o))
    (mem : f ∈ fs) : Offers env vars f.2
  | record {fs : List (String × Ty)} {o : Bool} (fields : ∀ f ∈ fs, Offers env vars f.2) :
    Offers env vars (.record fs o)

/-! ## Judgments -/

/-- A constraint as a walk makes it when `k` variables are issued. -/
inductive Constraint.Issued (env : Env) (k : Nat) : Constraint → Prop where
  | eq {l r : Ty} (left : l.Issued k) (right : r.Issued k) : Issued env k (.eq l r)
  | operator {p b sig : Ty} (applied : (Ty.fn p b).Issued k) (signature : Signature sig) :
    Issued env k (.eq (.fn p b) sig)
  | explicit {t : Ty} {σ : Scheme} (ty : t.Issued k) (offered : env.Offers σ.vars σ.ty) : Issued env k (.explicit t σ)
  | implicit {t b : Ty} {M : VarSet} (ty : t.Issued k) (mono : ∀ v ∈ M, v < k) (bound : b.Issued k) :
    Issued env k (.implicit t M b)

structure Judgment.Issued (env : Env) (k : Nat) (j : Judgment) : Prop where
  ty : j.ty.Issued k
  assumptions : ∀ a ∈ j.assumptions.entries, a.2.Issued k
  constraints : ∀ c ∈ j.constraints, c.Issued env k

section Judgment
variable {env : Env} {k k' : Nat}

theorem Constraint.Issued.mono {c : Constraint} (h : c.Issued env k) (hk : k ≤ k') : c.Issued env k' := by
  cases h with
  | eq left right => exact .eq (left.mono hk) (right.mono hk)
  | operator applied signature => exact .operator (applied.mono hk) signature
  | explicit ty offered => exact .explicit (ty.mono hk) offered
  | implicit ty mono bound => exact .implicit (ty.mono hk) (fun v hv => (mono v hv).trans_le hk) (bound.mono hk)

/-- The constraints to be solved for an expression, with the instances of the names in its environment. -/
theorem Judgment.Issued.posed {j : Judgment} (h : j.Issued env k) :
    ∀ c ∈ j.constraints ++ env.instances j.assumptions, c.Issued env k := by
  intro c hc
  rcases List.mem_append.1 hc with hc | hc
  · exact h.constraints c hc
  · obtain ⟨⟨name, t⟩, ha, hc⟩ := List.mem_flatMap.1 hc
    obtain ⟨σ, hσ, rfl⟩ := List.mem_map.1 hc
    cases hlookup : env.lookup name with
    | none => simp [hlookup] at hσ
    | some schemes =>
      rw [hlookup] at hσ
      exact .explicit (h.assumptions _ ha) (.scheme hlookup hσ)

end Judgment

/-! ## Schemes -/

theorem schemesOf_eq_ok_iff {T : Ty} {p : Search.Progress} {schemes : List Scheme} :
    schemesOf T p = .ok schemes ↔ schemes ≠ [] ∧
      p.substs.toList.map (fun S => Scheme.closeOver (T.apply S)) = schemes := by
  unfold schemesOf
  split
  · next hempty =>
    have hnil : p.substs.toList = [] := by simpa using hempty
    rw [hnil]
    constructor
    · intro h
      split at h <;> cases h
    · rintro ⟨hne, rfl⟩
      exact absurd rfl hne
  · next hempty =>
    have hne : p.substs.toList ≠ [] := by simpa using hempty
    constructor
    · rintro ⟨⟩
      exact ⟨by simpa using hne, rfl⟩
    · rintro ⟨-, rfl⟩
      rfl

/-- The schemes of an expression are those of its solutions, if there are any. -/
theorem Expr.infer_eq_ok_iff {e : Expr} {env : Env} {J : Judgment} {t : Judging.State} (h : e.judge env = .ok (J, t))
    {limit : Option Nat} {schemes : List Scheme} :
    (e.infer env limit).result = .ok schemes ↔ env.unbound J.assumptions = [] ∧ schemes ≠ [] ∧
      (solve (J.constraints ++ env.instances J.assumptions) t.next limit).substs.toList.map
        (fun S => Scheme.closeOver (J.ty.apply S)) = schemes := by
  unfold Expr.infer
  rw [h]
  dsimp only
  cases env.unbound J.assumptions with
  | nil => exact schemesOf_eq_ok_iff.trans (and_iff_right rfl).symm
  | cons name names => exact ⟨fun h => (nomatch h), fun h => (nomatch h.1)⟩

end NixTyping
