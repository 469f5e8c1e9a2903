import Mathlib
import NixTyping.Proofs.IssuedTypes
/-!
# Types without empty overload sets

Unification with an empty overload set tries nothing: it neither succeeds nor says
why not. No type of the program itself has one, and substitutions bring none in, so
an empty set can only come from the environment.
-/

namespace NixTyping

namespace Ty

/-- Every overload set in the type has an alternative. -/
inductive Viable : Ty → Prop where
  | var (v : Nat) : Viable (.var v)
  | prim (p : Prim) : Viable (.prim p)
  | list {ts : List Ty} (elems : ∀ t ∈ ts, Viable t) : Viable (.list ts)
  | fn {p b : Ty} (param : Viable p) (body : Viable b) : Viable (.fn p b)
  | record {fs : List (String × Ty)} {o : Bool} (fields : ∀ f ∈ fs, Viable f.2) : Viable (.record fs o)
  | overload {ts : List Ty} (some : ts ≠ []) (alts : ∀ t ∈ ts, Viable t) : Viable (.overload ts)

@[simp] theorem viable_var (v : Nat) : (Ty.var v).Viable := .var v

@[simp] theorem viable_prim (p : Prim) : (Ty.prim p).Viable := .prim p

@[simp] theorem viable_fn {p b : Ty} : (Ty.fn p b).Viable ↔ p.Viable ∧ b.Viable :=
  ⟨fun h => by cases h with | fn hp hb => exact ⟨hp, hb⟩, fun h => .fn h.1 h.2⟩

@[simp] theorem viable_list {ts : List Ty} : (Ty.list ts).Viable ↔ ∀ t ∈ ts, t.Viable :=
  ⟨fun h => by cases h with | list elems => exact elems, .list⟩

@[simp] theorem viable_record {fs : List (String × Ty)} {o : Bool} : (Ty.record fs o).Viable ↔ ∀ f ∈ fs, f.2.Viable :=
  ⟨fun h => by cases h with | record fields => exact fields, .record⟩

theorem Viable.alternatives {t a : Ty} (h : t.Viable) (ha : a ∈ t.alternatives) : a.Viable := by
  cases h with
  | overload _ alts => exact alts a ha
  | _ => rw [List.mem_singleton.1 ha]; constructor <;> assumption

theorem Viable.alternatives_ne_nil {t : Ty} (h : t.Viable) : t.alternatives ≠ [] := by
  cases h with
  | overload some _ => exact some
  | _ => exact List.cons_ne_nil _ _

theorem viable_overloads {ts : List Ty} (hne : ts ≠ []) (h : ∀ t ∈ ts, t.Viable) : (overloads ts).Viable := by
  have hall : ∀ a ∈ altsOf ts, a.Viable := by
    intro a ha
    obtain ⟨t, ht, ha⟩ := mem_altsOf.1 ha
    exact (h t ht).alternatives ha
  have hsome : altsOf ts ≠ [] := by
    obtain ⟨t, ht⟩ := List.exists_mem_of_ne_nil ts hne
    obtain ⟨a, ha⟩ := List.exists_mem_of_ne_nil _ (h t ht).alternatives_ne_nil
    exact List.ne_nil_of_mem (mem_altsOf.2 ⟨t, ht, ha⟩)
  rcases overloads_cases ts with ⟨t, hone, heq⟩ | ⟨-, heq⟩
  · rw [heq]
    exact hall t (by simp [hone])
  · rw [heq]
    exact .overload hsome hall

theorem Viable.subst {f : Nat → Ty} {t : Ty} (h : t.Viable) (hf : ∀ v, (f v).Viable) : (t.subst f).Viable := by
  induction h with
  | var v => exact hf v
  | prim p => exact .prim p
  | list _ ih =>
    rw [subst_list]
    exact .list (by simpa using ih)
  | fn _ _ ihp ihb => exact .fn ihp ihb
  | record _ ih =>
    rw [subst_record]
    refine .record fun f hf => ?_
    obtain ⟨g, hg, rfl⟩ := List.mem_map.1 hf
    exact ih g hg
  | overload hsome _ ih =>
    rw [subst_overload]
    exact viable_overloads (by simpa using hsome) (by simpa using ih)

instance : Stable Viable := ⟨.var, .subst⟩

end Ty

/-- Both sides of a constraint. -/
def Constraint.Viable : Constraint → Prop
  | .eq l r => l.Viable ∧ r.Viable
  | .explicit t σ => t.Viable ∧ σ.ty.Viable
  | .implicit t _ bound => t.Viable ∧ bound.Viable

theorem Constraint.Viable.apply {c : Constraint} {s : Subst} (h : c.Viable) (hs : s.All Ty.Viable) :
    (c.apply s).Viable := by
  cases c with
  | eq l r => exact ⟨hs.apply h.1, hs.apply h.2⟩
  | explicit t σ => exact ⟨hs.apply h.1, (hs.without σ.vars).apply h.2⟩
  | implicit t mono bound => exact ⟨hs.apply h.1, hs.apply h.2⟩

/-- No scheme of the environment has an empty overload set. -/
def Env.Viable (env : Env) : Prop := ∀ name schemes, env.lookup name = some schemes → ∀ σ ∈ schemes, σ.ty.Viable

/-- The fields of a record that is known. -/
def KnownRecord.Viable (r : KnownRecord) : Prop := ∀ f ∈ r.fields, f.2.Viable

/-- All types of a judgment. -/
structure Judgment.Viable (j : Judgment) : Prop where
  ty : j.ty.Viable
  assumptions : ∀ a ∈ j.assumptions.entries, a.2.Viable
  constraints : ∀ c ∈ j.constraints, c.Viable

theorem Literal.viable_ty (l : Literal) : l.ty.Viable := by cases l <;> exact .prim _

theorem Ty.OverloadFree.viable {t : Ty} (h : t.OverloadFree) : t.Viable := by
  induction h with
  | var v => exact .var v
  | prim p => exact .prim p
  | list _ ih => exact .list ih
  | fn _ _ ihp ihb => exact .fn ihp ihb
  | record _ ih => exact .record ih

theorem Signature.viable {sig : Ty} (h : Signature sig) : sig.Viable := by
  obtain ⟨ts, hne, rfl, hts⟩ := h.rows
  exact Ty.viable_overloads hne fun t ht => (hts t ht).1.1.viable

/-! ## Judgments -/

/-- Types and constraints without empty overload sets, the same on both sides. -/
def viability : Correspondence where
  ty t t' := t.Viable ∧ t = t'
  mono M M' := M = M'
  constraint c c' := c.Viable ∧ c = c'
  prim p := ⟨.prim p, rfl⟩
  fn := by
    rintro p _ b _ ⟨hp, rfl⟩ ⟨hb, rfl⟩
    exact ⟨.fn hp hb, rfl⟩
  list h := by
    obtain ⟨hts, heq⟩ := (List.forall₂_and_left _ _).1 h
    rw [List.forall₂_eq_eq_eq] at heq
    exact ⟨.list hts, congrArg Ty.list heq⟩
  record {fs fs'} isOpen h := by
    have hfields : List.Forall₂ (fun f f' => f.2.Viable ∧ f = f') fs fs' :=
      h.imp fun _ _ hf => ⟨hf.2.1, Prod.ext hf.1.symm hf.2.2⟩
    obtain ⟨hviable, heq⟩ := (List.forall₂_and_left _ _).1 hfields
    rw [List.forall₂_eq_eq_eq] at heq
    exact ⟨.record hviable, congrArg (Ty.record · isOpen) heq⟩
  eq := by
    rintro l _ r _ ⟨hl, rfl⟩ ⟨hr, rfl⟩
    exact ⟨⟨hl, hr⟩, rfl⟩
  operator := by
    rintro p p' b b' sig ⟨hfn, heq⟩ hsig
    exact ⟨⟨hfn, hsig.viable⟩, by rw [heq]⟩
  implicit := by
    rintro t _ b _ M _ ⟨ht, rfl⟩ rfl ⟨hb, rfl⟩
    exact ⟨⟨ht, hb⟩, rfl⟩

namespace Judgment

theorem viable_iff {J : Judgment} : J.Viable ↔ Related viability Eq J J := by
  refine ⟨fun h => ⟨⟨h.ty, rfl⟩, List.forall₂_same.2 fun a ha => ⟨rfl, h.assumptions a ha, rfl⟩,
    List.forall₂_same.2 fun c hc => ⟨h.constraints c hc, rfl⟩⟩, fun h => ⟨h.ty.1, fun a ha => ?_, fun c hc => ?_⟩⟩
  · exact (List.forall₂_same.1 h.assumptions a ha).2.1
  · exact (List.forall₂_same.1 h.constraints c hc).1

theorem viable_ofTy {t : Ty} (h : t.Viable) : (ofTy t).Viable := viable_iff.2 (related_ofTy ⟨h, rfl⟩)

theorem viable_constrained {c : Constraint} (hc : c.Viable) {t : Ty} (h : t.Viable) : (constrained c t).Viable :=
  viable_iff.2 (related_constrained ⟨hc, rfl⟩ ⟨h, rfl⟩)

end Judgment

end NixTyping
