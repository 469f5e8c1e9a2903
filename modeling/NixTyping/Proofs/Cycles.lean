import Mathlib
import NixTyping.Proofs.Lowered
import NixTyping.Proofs.TotalJudgment
import NixTyping.Proofs.Types
/-!
# Loops are cycles

A slot that is needed for its own judgment is typed as unknown. This happens only
within a component of a group: the slot, and the innermost slot of its group that is
being computed, depend on each other (`loops_within_component`).

Components are found by spreading along dependencies, so first: as many steps as
there are nodes reach whatever can be reached (`mem_reachable`), and two nodes have
the same first node of a component just when each can be reached from the other
(`components_eq_iff`).
-/

namespace NixTyping

namespace Dependencies

open Relation

variable {g : Dependencies} {i j k n : Nat} {seen : List Nat}

/-- What nodes depend on are nodes. -/
def Closed (g : Dependencies) : Prop := ∀ i, ∀ j ∈ g.next i, j < g.successors.length

/-! ## Reachability -/

theorem subset_spread (g : Dependencies) (n : Nat) (seen : List Nat) : seen ⊆ g.spread n seen := by
  induction n generalizing seen with
  | zero => exact List.Subset.refl _
  | succ n ih =>
    rw [spread]
    split
    · exact List.Subset.refl _
    · exact fun j hj => ih _ (mem_distinct.2 (List.mem_append_left _ hj))

theorem reaches_of_mem_spread (h : ∀ j ∈ seen, ReflTransGen g.Edge i j) (hj : j ∈ g.spread n seen) :
    ReflTransGen g.Edge i j := by
  induction n generalizing seen with
  | zero => exact h j hj
  | succ n ih =>
    rw [spread] at hj
    split at hj
    · exact h j hj
    · refine ih (fun k hk => ?_) hj
      rcases List.mem_append.1 (mem_distinct.1 hk) with hk | hk
      · exact h k hk
      · obtain ⟨l, hl, hk⟩ := List.mem_flatMap.1 hk
        exact (h l hl).tail hk

/-- Every step that does not end the spreading finds a new node, so it ends before the steps do. -/
theorem next_mem_spread (hg : g.Closed) (hnodup : seen.Nodup) (hseen : ∀ j ∈ seen, j < g.successors.length)
    (hn : g.successors.length < seen.length + n) (hj : j ∈ g.spread n seen) (hk : k ∈ g.next j) :
    k ∈ g.spread n seen := by
  induction n generalizing seen with
  | zero =>
    have hlength : seen.length ≤ g.successors.length := by
      have hsubset : seen ⊆ List.range g.successors.length := fun j hj => List.mem_range.2 (hseen j hj)
      simpa using (hnodup.subperm hsubset).length_le
    omega
  | succ n ih =>
    have hmore := distinct_append seen (seen.flatMap g.next)
    rw [distinct_of_nodup hnodup] at hmore
    by_cases hlength : (distinct (seen ++ seen.flatMap g.next)).length = seen.length
    · rw [spread, if_pos hlength] at hj ⊢
      have hnone : (distinct (seen.flatMap g.next)).filter (fun y => decide (y ∉ seen)) = [] := by
        rw [hmore, List.length_append] at hlength
        exact List.eq_nil_of_length_eq_zero (by omega)
      have hold := List.filter_eq_nil_iff.1 hnone k (mem_distinct.2 (List.mem_flatMap.2 ⟨j, hj, hk⟩))
      simpa using hold
    · rw [spread, if_neg hlength] at hj ⊢
      refine ih (nodup_distinct _) (fun l hl => ?_) ?_ hj
      · rcases List.mem_append.1 (mem_distinct.1 hl) with hl | hl
        · exact hseen l hl
        · obtain ⟨l', -, hl⟩ := List.mem_flatMap.1 hl
          exact hg l' l hl
      · rw [hmore, List.length_append] at hlength ⊢
        omega

theorem mem_reachable (hg : g.Closed) (hi : i < g.successors.length) : j ∈ g.reachable i ↔ ReflTransGen g.Edge i j := by
  constructor
  · exact reaches_of_mem_spread fun k hk => by rw [List.mem_singleton.1 hk]
  · intro h
    induction h with
    | refl => exact subset_spread g _ _ List.mem_cons_self
    | tail _ hedge ih =>
      exact next_mem_spread hg (List.nodup_singleton i) (by simpa using hi) (by simp) ih hedge

/-! ## Components -/

/-- The nodes of the component of a node. -/
def component (g : Dependencies) (i : Nat) : List Nat :=
  (g.reachable i).filter fun j => ((((List.range g.successors.length).map g.reachable)[j]?).getD []).contains i

theorem getElem?_components (hi : i < g.successors.length) :
    g.components[i]? = some ((g.component i).min?.getD i) := by
  simp [components, component, hi]

theorem lt_of_reaches (hg : g.Closed) (hi : i < g.successors.length) (h : ReflTransGen g.Edge i j) :
    j < g.successors.length := by
  induction h with
  | refl => exact hi
  | tail _ hedge _ => exact hg _ _ hedge

theorem mem_component (hg : g.Closed) (hi : i < g.successors.length) :
    j ∈ g.component i ↔ ReflTransGen g.Edge i j ∧ ReflTransGen g.Edge j i := by
  rw [component, List.mem_filter, mem_reachable hg hi]
  refine and_congr_right fun hij => ?_
  have hj := lt_of_reaches hg hi hij
  rw [← mem_reachable hg hj]
  simp [hj]

/-- Two nodes are of one component when each can be reached from the other. -/
theorem components_eq_iff (hg : g.Closed) (hi : i < g.successors.length) (hj : j < g.successors.length) :
    g.components[i]? = g.components[j]? ↔ ReflTransGen g.Edge i j ∧ ReflTransGen g.Edge j i := by
  have hself : ∀ {i}, i < g.successors.length → ∃ a, g.components[i]? = some a ∧ a ∈ g.component i ∧
      ∀ b ∈ g.component i, a ≤ b := by
    intro i hi
    have hmem : i ∈ g.component i := (mem_component hg hi).2 ⟨.refl, .refl⟩
    cases hmin : (g.component i).min? with
    | none => simp [List.min?_eq_none_iff.1 hmin] at hmem
    | some a => exact ⟨a, by rw [getElem?_components hi, hmin]; rfl, List.min?_eq_some_iff.1 hmin⟩
  obtain ⟨a, ha, hmem, hleast⟩ := hself hi
  obtain ⟨b, hb, hmem', hleast'⟩ := hself hj
  rw [ha, hb, Option.some.injEq]
  rw [mem_component hg hi] at hmem
  rw [mem_component hg hj] at hmem'
  constructor
  · rintro rfl
    exact ⟨hmem.1.trans hmem'.2, hmem'.1.trans hmem.2⟩
  · rintro ⟨hij, hji⟩
    refine le_antisymm (hleast b ((mem_component hg hi).2 ⟨hij.trans hmem'.1, hmem'.2.trans hji⟩))
      (hleast' a ((mem_component hg hj).2 ⟨hji.trans hmem.1, hmem.2.trans hij⟩))

/-! ## Groups -/

theorem length_ofBindings (b : Bindings Expr) :
    (ofBindings b).successors.length = b.statics.length + b.sources.length := by
  simp [ofBindings]

theorem closed_ofBindings (b : Bindings Expr) : (ofBindings b).Closed := by
  intro i j hj
  rw [length_ofBindings]
  have huses : ∀ e : Expr, j ∈ distinct (e.mentioned.filterMap fun x => b.names.idxOf? x) →
      j < b.statics.length + b.sources.length := by
    intro e hj
    obtain ⟨x, -, hx⟩ := List.mem_filterMap.1 (mem_distinct.1 hj)
    have hlt := (List.findIdx?_eq_some_iff_getElem.1 hx).1
    rw [Bindings.names, List.length_map] at hlt
    omega
  rw [next, ofBindings, List.getElem?_append, List.getElem?_map, List.getElem?_map] at hj
  split at hj
  · cases hstatic : b.statics[i]? with
    | none => simp [hstatic] at hj
    | some s =>
      obtain ⟨name, binding⟩ := s
      cases binding with
      | expr e => exact huses e (by simpa [hstatic] using hj)
      | «inherit» e => simp [hstatic] at hj
      | inheritFrom k =>
        by_cases hk : k < b.sources.length
        · obtain rfl : j = b.names.length + k := by simpa [hstatic, hk] using hj
          simp [Bindings.names, hk]
        · simp [hstatic, hk] at hj
  · rw [List.length_map] at hj
    cases hsource : b.sources[i - b.statics.length]? with
    | none => simp [hsource] at hj
    | some e => exact huses e (by simpa [hsource] using hj)

end Dependencies

open Judging Relation

/-- Two nodes are of one component: each depends on the other, directly or through
others, and the components that are computed say so. -/
structure Dependencies.Together (g : Dependencies) (i j : Nat) : Prop where
  there : ReflTransGen g.Edge i j
  back : ReflTransGen g.Edge j i
  component : ∃ c, g.components[i]? = some c ∧ g.components[j]? = some c

/-- No binding of the group depends on itself, directly or through others. -/
def Bindings.Acyclic (b : Bindings Expr) : Prop := ∀ k, ¬ TransGen (Dependencies.ofBindings b).Edge k k

namespace Judging

variable {history : List Event} {forcing : List Nat} {d : Deferral} {i top : Nat}

theorem Deferral.node_lt (hi : d.has i = true) : i - d.first < (Dependencies.ofBindings d.group).successors.length := by
  have := d.has_iff.1 hi
  rw [Dependencies.length_ofBindings]
  simp only [size] at this
  omega

theorem Deferral.reaches_node (h : ReflTransGen d.Edge i top) :
    ReflTransGen (Dependencies.ofBindings d.group).Edge (i - d.first) (top - d.first) :=
  h.lift (· - d.first) fun _ _ hedge => hedge

/-- A slot on a cycle is of one component with the innermost slot of its group. -/
theorem Deferral.together (hi : d.has i = true) (htop : d.has top = true) (hreach : ReflTransGen d.Edge i top)
    (hedge : d.Edge top i) : (Dependencies.ofBindings d.group).Together (i - d.first) (top - d.first) := by
  have heq := (Dependencies.components_eq_iff (Dependencies.closed_ofBindings d.group) (node_lt hi) (node_lt htop)).2
    ⟨reaches_node hreach, .single hedge⟩
  refine ⟨reaches_node hreach, .single hedge, _, Dependencies.getElem?_components (node_lt hi), ?_⟩
  rw [← heq, Dependencies.getElem?_components (node_lt hi)]

end Judging

/-- A walk over an expression of a lowered tree loops only within a component, and not at all where the groups are
acyclic. -/
theorem loops_within_component_ofTree {source : String} {tree : Tree} {m : Module} {odd : List Oddity}
    (hm : Module.ofTree source tree = (m, odd)) {e : Expr} (he : e ∈ m.exprs) (env : Env) :
    ∃ J s, e.judge env = .ok (J, s) ∧
      (∀ ctx i, Event.looped ctx i ∈ s.history → i ∈ ctx.forcing ∧
        ∃ d, Event.deferred d ∈ s.history ∧ (∃ p ∈ e.all, p.form.group? = some d.group) ∧ d.has i = true ∧
          ∃ top, ctx.forcing.find? d.has = some top ∧
            (Dependencies.ofBindings d.group).Together (i - d.first) (top - d.first)) ∧
      ((∀ p ∈ e.all, ∀ g, p.form.group? = some g → g.Acyclic) →
        (∀ ctx i, Event.looped ctx i ∉ s.history) ∧ ∀ i, Note.refersToItself i ∉ s.notes) := by
  have hsourced := Module.sourced_of_mem hm he
  obtain ⟨J, s, hjudge, hs, -, -⟩ := e.judge_total hsourced env
  have hnone : (∀ p ∈ e.all, ∀ g, p.form.group? = some g → g.Acyclic) → ∀ ctx i, Event.looped ctx i ∉ s.history := by
    intro hacyclic ctx i hloop
    obtain ⟨-, d, hd, hi, top, htop, hreach, hedge⟩ := hs.looped ctx i hloop
    obtain ⟨p, hp, hgroup⟩ := (hs.placed d hd).origin
    exact hacyclic p hp _ hgroup _ (.tail' (Deferral.reaches_node hreach) hedge)
  refine ⟨J, s, hjudge, fun ctx i hloop => ?_, fun hacyclic => ⟨hnone hacyclic, fun i hi => ?_⟩⟩
  · obtain ⟨hforcing, d, hd, hi, top, htop, hreach, hedge⟩ := hs.looped ctx i hloop
    refine ⟨hforcing, d, hd, (hs.placed d hd).origin, hi, top, htop, ?_⟩
    exact Deferral.together hi (List.find?_some htop) hreach hedge
  · obtain ⟨ctx, hloop⟩ := hs.noted i hi
    exact hnone hacyclic ctx i hloop

/-- Let a walk over an expression of a module need a slot that is being computed. This slot and the innermost slot of
its group that is being computed are of one component of the group's dependencies. So no slot is typed as unknown for
this reason when no group has a cycle. -/
theorem loops_within_component {text : String} {m : Module} {odd : List Oddity}
    (htext : Module.ofText? text = some (m, odd)) {e : Expr} (he : e ∈ m.exprs) (env : Env) :
    ∃ J s, e.judge env = .ok (J, s) ∧
      (∀ ctx i, Event.looped ctx i ∈ s.history → i ∈ ctx.forcing ∧
        ∃ d, Event.deferred d ∈ s.history ∧ (∃ p ∈ e.all, p.form.group? = some d.group) ∧ d.has i = true ∧
          ∃ top, ctx.forcing.find? d.has = some top ∧
            (Dependencies.ofBindings d.group).Together (i - d.first) (top - d.first)) ∧
      ((∀ p ∈ e.all, ∀ g, p.form.group? = some g → g.Acyclic) →
        (∀ ctx i, Event.looped ctx i ∉ s.history) ∧ ∀ i, Note.refersToItself i ∉ s.notes) := by
  obtain ⟨tree, -, hm⟩ := Module.exists_tree htext
  exact loops_within_component_ofTree hm he env

/-- The slot that an event found in a loop. -/
def Judging.Event.loop? : Event → Option Nat
  | .looped _ i => some i
  | _ => none

/-- The module of `let a = b; b = a; in a`. -/
def mutualNames : Module where
  entry := .mk 3 (some ⟨0, 22⟩) (.letIn ⟨[("a", .expr (.mk 0 (some ⟨8, 9⟩) (.ref "b"))),
    ("b", .expr (.mk 1 (some ⟨15, 16⟩) (.ref "a")))], [], []⟩ (.mk 2 (some ⟨21, 22⟩) (.ref "a")))
  count := 4

/-- The slot of `a` is needed while the slot of `b` is being computed for it. -/
theorem loops_within_component_mutual_names :
    ∃ J s, mutualNames.entry.judge ∅ = .ok (J, s) ∧ (∃ ctx, Event.looped ctx 0 ∈ s.history) ∧
      ∀ ctx i, Event.looped ctx i ∈ s.history → i ∈ ctx.forcing ∧
        ∃ d, Event.deferred d ∈ s.history ∧ (∃ p ∈ mutualNames.entry.all, p.form.group? = some d.group) ∧
          d.has i = true ∧
          ∃ top, ctx.forcing.find? d.has = some top ∧
            (Dependencies.ofBindings d.group).Together (i - d.first) (top - d.first) := by
  have htext : Module.ofText? "let a = b; b = a; in a" = some (mutualNames, []) := by cbv
  have he : mutualNames.entry ∈ mutualNames.exprs := List.mem_mergeSort.2 (Expr.mem_all.2 (.inl rfl))
  obtain ⟨J, s, hjudge, hloops, -⟩ := loops_within_component htext he ∅
  refine ⟨J, s, hjudge, ?_, hloops⟩
  have hloop : (mutualNames.entry.judge ∅).toOption.map (fun r => r.2.history.filterMap Event.loop?) =
      some [0] := by cbv
  rw [hjudge] at hloop
  have hmem : 0 ∈ s.history.filterMap Event.loop? := by
    rw [show s.history.filterMap Event.loop? = [0] from Option.some.inj hloop]
    exact List.mem_cons_self
  obtain ⟨event, hevent, hsome⟩ := List.mem_filterMap.1 hmem
  cases event with
  | looped ctx i =>
    cases hsome
    exact ⟨ctx, hevent⟩
  | judged | deferred => cases hsome

end NixTyping
