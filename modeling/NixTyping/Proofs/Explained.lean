import Mathlib
import NixTyping.Proofs.Lowered
import NixTyping.Proofs.TotalJudgment
import NixTyping.Proofs.UnifierAnswers
/-!
# Failures are explained

A search ends when its stack is empty, so it could end with nothing to say. It does
not: where no type has an empty overload set, a unification has an answer or an error
(`Ty.answered_unify`), so every way down ends in one of the two. The walk before it
succeeds, and every type that is found can be closed. What is left are schemes, or
type errors, and at least one of them (`inference_explained`).
-/

namespace NixTyping

open Judging

/-! ## Unification -/

namespace Branches

/-- A branch succeeds, or one says why it does not. -/
def Answered (b : Branches) : Prop := b.substs ≠ [] ∨ b.errors ≠ []

theorem answered_one (s : Subst) : (one s).Answered := .inl (List.cons_ne_nil _ _)

theorem answered_fail (e : TypeError) : (fail e).Answered := .inr (List.cons_ne_nil _ _)

theorem answered_ofExcept (r : Except TypeError Subst) : (ofExcept r).Answered := by
  cases r with
  | ok s => exact answered_one s
  | error e => exact answered_fail e

theorem Answered.append {a : Branches} (h : a.Answered) (b : Branches) : (a.append b).Answered :=
  h.imp (List.append_ne_nil_of_left_ne_nil · _) (List.append_ne_nil_of_left_ne_nil · _)

theorem Answered.andThen {b : Branches} {next : Subst → Branches} (hb : b.Answered)
    (hnext : ∀ s ∈ b.substs, (next s).Answered) : (b.andThen next).Answered := by
  rcases hb with hsubsts | herrors
  · obtain ⟨s, hs⟩ := List.exists_mem_of_ne_nil _ hsubsts
    rcases hnext s hs with hmore | herrors
    · obtain ⟨s', hs'⟩ := List.exists_mem_of_ne_nil _ hmore
      refine .inl ?_
      rw [substs_andThen]
      exact List.ne_nil_of_mem (List.mem_flatMap.2 ⟨s, hs, List.mem_map_of_mem hs'⟩)
    · obtain ⟨e, he⟩ := List.exists_mem_of_ne_nil _ herrors
      refine .inr ?_
      rw [errors_andThen]
      exact List.ne_nil_of_mem (List.mem_append_right _ (List.mem_flatMap.2 ⟨s, hs, he⟩))
  · refine .inr ?_
    rw [errors_andThen]
    exact List.append_ne_nil_of_left_ne_nil herrors _

end Branches

theorem Ty.hereditary_viable : Ty.Hereditary Ty.Viable where
  toStable := inferInstance
  list _ := viable_list.1
  fn _ _ := viable_fn.1
  overload _ h := by cases h with | overload _ alts => exact alts

theorem Unifies.viable {ls rs : List Ty} {s : Subst} (h : Unifies ls rs s) (hl : ∀ t ∈ ls, t.Viable)
    (hr : ∀ t ∈ rs, t.Viable) : s.All Ty.Viable := h.hereditary Ty.hereditary_viable hl hr

/-- No call for viable types is left without an answer. -/
theorem Unification.Call.Gives.answered {c : Call} {b : Branches} (h : c.Gives b) (hc : ∀ t ∈ c.sides, t.Viable) :
    b.Answered := by
  have hmade := fun {c d : Call} (h : Calls d c) => h.hereditary Ty.hereditary_viable
  induction h with
  | same _ | listEmpty _ _ _ | record _ _ | nil => exact Branches.answered_one _
  | bindLeft _ | bindRight _ => exact Branches.answered_ofExcept _
  | listFail _ _ _ | recordFail _ _ | clash _ _ _ | short _ _ | long _ _ => exact Branches.answered_fail _
  | listHead _ _ _ ih => exact ih (hmade (.head _ _ _ _) hc)
  | listAll _ _ _ _ ih => exact ih (hmade (.elems _ _) hc)
  | fn _ _ ih => exact ih (hmade (.fn _ _ _ _) hc)
  | @left alts t _ _ _ ih =>
    cases (forall_sides_types.1 hc).1 with | overload some _ =>
    obtain ⟨alt, alts, rfl⟩ := List.exists_cons_of_ne_nil some
    exact (ih alt List.mem_cons_self (hmade (.left t List.mem_cons_self) hc)).append _
  | @right alts t _ _ _ ih =>
    cases (forall_sides_types.1 hc).2 with | overload some _ =>
    obtain ⟨alt, alts, rfl⟩ := List.exists_cons_of_ne_nil some
    exact (ih alt List.mem_cons_self (hmade (.right t List.mem_cons_self) hc)).append _
  | cons _ _ ih ihTail =>
    exact (ih (hmade (.first _ _ _ _) hc)).andThen fun s hs => ihTail s hs (hmade (.rest _ _ hs) hc)

theorem Ty.answered_unify {l r : Ty} (hl : l.Viable) (hr : r.Viable) : (l.unify r).Answered :=
  (Unification.gives_answer (.types l r)).answered (Unification.Call.forall_sides_types.2 ⟨hl, hr⟩)

/-! ## The search -/

namespace Search

/-- The types of the constraints that are left. -/
def Node.Viable (n : Node) : Prop := ∀ c ∈ n.constraints, c.Viable

theorem Step.viable {k k' : Nat} {n n' : Node} (h : Step k n k' n') (hn : n.Viable) : n'.Viable := by
  cases h with
  | @unify l r others su take mem =>
    have hmem := fun {d : Constraint} => Constraint.mem_of_takeSolvable take (d := d)
    have heq := hn _ (hmem.2 (.inl rfl))
    have hsu : su.All Ty.Viable := (Ty.unifies_of_mem mem).viable (by simpa using heq.1) (by simpa using heq.2)
    intro c hc
    obtain ⟨d, hd, rfl⟩ := List.mem_map.1 hc
    exact (hn d (hmem.2 (.inr hd))).apply hsu
  | @generalize t b M others take =>
    have hmem := fun {d : Constraint} => Constraint.mem_of_takeSolvable take (d := d)
    have hinst := hn _ (hmem.2 (.inl rfl))
    intro c hc
    rcases List.mem_cons.1 hc with rfl | hc
    · exact hinst
    · exact hn c (hmem.2 (.inr hc))
  | @instantiate t σ others take =>
    have hmem := fun {d : Constraint} => Constraint.mem_of_takeSolvable take (d := d)
    have hinst := hn _ (hmem.2 (.inl rfl))
    intro c hc
    rcases List.mem_cons.1 hc with rfl | hc
    · exact ⟨hinst.1, (σ.all_freshening k).apply hinst.2⟩
    · exact hn c (hmem.2 (.inr hc))

/-- Something was found, or something failed. -/
def Progress.Tells (p : Progress) : Prop := 0 < p.substs.size + p.errors.size

theorem Progress.tells_found (p : Progress) (s : Subst) : (p.found s).Tells := by
  simp only [Tells, found, Array.size_push]
  omega

theorem Progress.tells_failed (p : Progress) (e : TypeError) : (p.failed e).Tells := by
  simp only [Tells, failed, Array.size_push]
  omega

theorem Progress.Tells.failedBranches {p : Progress} (h : p.Tells) (es : List TypeError) :
    (p.failedBranches es).Tells := by
  induction es generalizing p with
  | nil => exact h
  | cons e es ih => exact ih (p.note _ |>.tells_failed e)

theorem Progress.tells_failedBranches (p : Progress) {es : List TypeError} (hes : es ≠ []) :
    (p.failedBranches es).Tells := by
  cases es with
  | nil => exact absurd rfl hes
  | cons e es => exact ((p.note _).tells_failed e).failedBranches es

/-- A search that has nodes to visit, or has told something before, tells something. -/
theorem Explores.tells {limit : Option Nat} {s : Stack} {p q : Progress} (hq : Explores limit s p q)
    (hs : ∀ n ∈ s.nodes, n.Viable) (h : s.nodes ≠ [] ∨ p.Tells) : q.Tells := by
  induction hq with
  | empty p => exact h.resolve_left fun hne => hne rfl
  | @stop n rest p e _ _ => exact p.tells_found n.subst
  | @leaf n rest p q _ _ _ ih => exact ih (fun m hm => hs m (List.mem_cons_of_mem _ hm)) (.inr (p.tells_found n.subst))
  | stuck _ _ _ ih => exact ih (fun m hm => hs m (List.mem_cons_of_mem _ hm)) (.inr (Progress.tells_failed _ _))
  | @eq n rest p q l r others take _ ih =>
    have hviable := hs n List.mem_cons_self
    have heq := hviable _ ((Constraint.mem_of_takeSolvable take).2 (.inl rfl))
    refine ih (fun m hm => ?_) ?_
    · rcases List.mem_append.1 hm with hm | hm
      · obtain ⟨su, hsu, rfl⟩ := List.mem_map.1 hm
        exact (Step.unify (k := p.next) take hsu).viable hviable
      · exact hs m (List.mem_cons_of_mem _ hm)
    -- a unification without an answer has an error, so a node is never dropped in silence
    · rcases Ty.answered_unify heq.1 heq.2 with hsubsts | herrors
      · exact .inl (List.append_ne_nil_of_left_ne_nil (by simpa [Node.children] using hsubsts) _)
      · exact .inr (Progress.tells_failedBranches _ herrors)
  | @implicit n rest p q t b M others take _ ih =>
    refine ih (fun m hm => ?_) (.inl (List.cons_ne_nil _ _))
    rcases List.mem_cons.1 hm with rfl | hm
    · exact (Step.generalize (k := p.next) take).viable (hs n List.mem_cons_self)
    · exact hs m (List.mem_cons_of_mem _ hm)
  | @explicit n rest p q t σ others take _ ih =>
    refine ih (fun m hm => ?_) (.inl (List.cons_ne_nil _ _))
    rcases List.mem_cons.1 hm with rfl | hm
    · exact (Step.instantiate take).viable (hs n List.mem_cons_self)
    · exact hs m (List.mem_cons_of_mem _ hm)

theorem solve_tells {cs : List Constraint} (h : ∀ c ∈ cs, c.Viable) (next : Nat) (limit : Option Nat) :
    (solve cs next limit).Tells := by
  refine (explores_explore limit ⟨[⟨∅, cs⟩]⟩ { next := next }).tells (fun n hn => ?_) (.inl (List.cons_ne_nil _ _))
  obtain rfl := List.mem_singleton.1 hn
  exact h

end Search

/-! ## Inference -/

theorem Env.viable_instances {env : Env} (henv : env.Viable) {a : Assumptions} (ha : ∀ x ∈ a.entries, x.2.Viable) :
    ∀ c ∈ env.instances a, c.Viable := by
  intro c hc
  obtain ⟨⟨name, t⟩, hx, hc⟩ := List.mem_flatMap.1 hc
  obtain ⟨σ, hσ, rfl⟩ := List.mem_map.1 hc
  cases hlookup : env.lookup name with
  | none =>
    rw [hlookup] at hσ
    cases hσ
  | some schemes =>
    rw [hlookup] at hσ
    exact ⟨ha _ hx, henv name schemes hlookup σ hσ⟩

/-- The scheme of each solution, or errors. -/
theorem schemesOf_of_tells {p : Search.Progress} (h : p.Tells) (t : Ty) :
    (∃ schemes, schemesOf t p = .ok schemes ∧ schemes ≠ [] ∧
      List.Forall₂ (fun su σ => (Scheme.generalize ∅ (t.apply su)).normalize = .ok σ) p.substs.toList schemes) ∨
    ∃ errors, schemesOf t p = .error (.typeErrors errors) ∧ errors ≠ [] ∧ errors.Nodup := by
  unfold schemesOf
  split
  · next hempty =>
    have hsize : p.substs.size = 0 := by simpa using hempty
    have herrors : distinct p.errors.toList ≠ [] := by
      intro hnil
      have hnone : p.errors.toList = [] := List.eq_nil_iff_forall_not_mem.2 fun e he => by
        have := mem_distinct.2 he
        rw [hnil] at this
        cases this
      have : p.errors.size = 0 := by simpa using hnone
      unfold Search.Progress.Tells at h
      omega
    split
    · next hnil => exact absurd hnil herrors
    · exact .inr ⟨_, rfl, herrors, nodup_distinct _⟩
  · next hsome =>
    refine .inl ⟨_, rfl, by simpa using hsome, ?_⟩
    rw [List.forall₂_map_right_iff, List.forall₂_same]
    exact fun su _ => Scheme.normalize_generalize _

/-- Inference of an expression of a lowered tree gives the closed types of its solutions, or errors that tell
why there are none. -/
theorem inference_explained_ofTree {source : String} {tree : Tree} {m : Module} {odd : List Oddity}
    (hm : Module.ofTree source tree = (m, odd)) {e : Expr} (he : e ∈ m.exprs) {env : Env} (henv : env.Viable)
    (limit : Option Nat) :
    ∃ J s, e.judge env = .ok (J, s) ∧
      ((∃ schemes, (e.infer env limit).result = .ok schemes ∧ schemes ≠ [] ∧
        List.Forall₂ (fun su σ => (Scheme.generalize ∅ (J.ty.apply su)).normalize = .ok σ)
          (solve (J.constraints ++ env.instances J.assumptions) s.next limit).substs.toList schemes) ∨
      ∃ errors, (e.infer env limit).result = .error (.typeErrors errors) ∧ errors ≠ [] ∧ errors.Nodup) := by
  have hsourced := Module.sourced_of_mem hm he
  obtain ⟨J, s, hjudge, hs, -, hJ⟩ := e.judge_total hsourced env
  refine ⟨J, s, hjudge, ?_⟩
  unfold Expr.infer
  rw [hjudge]
  dsimp only
  split
  · have hJ := hs.viable henv hJ
    refine schemesOf_of_tells (Search.solve_tells (fun c hc => ?_) _ _) _
    exact (List.mem_append.1 hc).elim (hJ.constraints c) (Env.viable_instances henv hJ.assumptions c)
  · exact .inr ⟨_, rfl, List.cons_ne_nil _ _, List.nodup_singleton _⟩

/-- Inference of an expression of a module, in an environment without empty overload sets, says something: its walk
succeeds, and there are schemes, one for each solution and closed in the normal way, or there are type errors, each of
them once. -/
theorem inference_explained {text : String} {m : Module} {odd : List Oddity}
    (htext : Module.ofText? text = some (m, odd)) {e : Expr} (he : e ∈ m.exprs) {env : Env} (henv : env.Viable)
    (limit : Option Nat) :
    ∃ J s, e.judge env = .ok (J, s) ∧
      ((∃ schemes, (e.infer env limit).result = .ok schemes ∧ schemes ≠ [] ∧
        List.Forall₂ (fun su σ => (Scheme.generalize ∅ (J.ty.apply su)).normalize = .ok σ)
          (solve (J.constraints ++ env.instances J.assumptions) s.next limit).substs.toList schemes) ∨
      ∃ errors, (e.infer env limit).result = .error (.typeErrors errors) ∧ errors ≠ [] ∧ errors.Nodup) := by
  obtain ⟨tree, -, hm⟩ := Module.exists_tree htext
  exact inference_explained_ofTree hm he henv limit

/-- The module of `f true`. -/
def calledName : Module where
  entry := .mk 2 (some ⟨0, 6⟩) (.apply (.mk 0 (some ⟨0, 1⟩) (.ref "f")) (.mk 1 (some ⟨2, 6⟩) (.ref "true")))
  count := 3

/-- A name for functions of numbers, with two results. -/
def ofNumbers : Env := ⟨[("f", [.mono (.overload [.fn .int .int, .fn .int .string])])]⟩

/-- Both alternatives fail, for one reason. -/
theorem inference_explained_called_name :
    Module.ofText? "f true" = some (calledName, []) ∧ calledName.entry ∈ calledName.exprs ∧ ofNumbers.Viable ∧
    (calledName.entry.infer ofNumbers none).result = .error (.typeErrors [.mismatch .bool .int]) ∧
    [TypeError.mismatch .bool .int].Nodup := by
  have htext : Module.ofText? "f true" = some (calledName, []) := by cbv
  have he : calledName.entry ∈ calledName.exprs := List.mem_mergeSort.2 (Expr.mem_all.2 (.inl rfl))
  have henv : ofNumbers.Viable := by
    intro name schemes hlookup σ hσ
    obtain rfl : schemes = [.mono (.overload [.fn .int .int, .fn .int .string])] := by
      unfold ofNumbers Env.lookup findKey at hlookup
      split at hlookup
      · exact (Option.some.inj hlookup).symm
      · cases hlookup
    obtain rfl := List.mem_singleton.1 hσ
    exact .overload (List.cons_ne_nil _ _) (by simp)
  have hresult : (calledName.entry.infer ofNumbers none).result = .error (.typeErrors [.mismatch .bool .int]) := by cbv
  obtain ⟨J, s, -, ⟨schemes, hschemes, -⟩ | ⟨errors, herrors, -, hnodup⟩⟩ := inference_explained htext he henv none
  · rw [hresult] at hschemes
    cases hschemes
  · rw [hresult] at herrors
    cases herrors
    exact ⟨htext, he, henv, hresult, hnodup⟩

end NixTyping
