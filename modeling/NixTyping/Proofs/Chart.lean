import Mathlib
import NixTyping.Proofs.Ambiguity
import NixTyping.Proofs.WalkBasics
/-!
# Where a walk issues its variables

The definitions of a `let` lie inside of each other. A `Place` is a definition with
all those around it, and a `Chart` keeps for a walk at which place it issued each
variable and in which order definitions were closed.

A constraint is `Settled` when it belongs to one place, from which every variable
that it reaches is either issued there or fixed by all definitions in between; an
implicit instance also needs that its bound type was issued inside of a place that
was closed before any place around the constraint. The closed places are then the
regions of a layout (`laid_of_settled`), so the search is not stuck.

Everything that is said with a chart stays true when the chart grows (`Extends`).
-/

namespace NixTyping

open Judging

/-! ## Places -/

/-- A definition with the variables that its context fixes: that of a slot, or one
that is not there, for which a variable stands. -/
inductive Frame where
  | slot (i : Nat) (mono : VarSet)
  | loose (v : Nat) (mono : VarSet)

def Frame.mono : Frame → VarSet
  | .slot _ mono | .loose _ mono => mono

/-- The definitions around an expression, innermost first. -/
abbrev Place := List Frame

/-- What the context of the innermost definition fixes. -/
def Place.mono : Place → VarSet
  | [] => ∅
  | f :: _ => f.mono

/-- A place inside of another one is around it or leads to it through a frame. -/
theorem suffix_append_cases {p between q : Place} (h : p <:+ between ++ q) :
    p <:+ q ∨ ∃ f rest, p = f :: rest ∧ f ∈ between := by
  obtain ⟨front, hfront⟩ := h
  rcases List.append_eq_append_iff.1 hfront with ⟨middle, rfl, rfl⟩ | ⟨middle, rfl, rfl⟩
  · cases middle with
    | nil => exact .inl (by simp)
    | cons f middle => exact .inr ⟨f, middle ++ q, rfl, by simp⟩
  · exact .inl ⟨middle, rfl⟩

/-! ## Charts -/

/-- The places of variables, with what a record that is known for a variable fixes;
the places of slots, with the scopes around their groups; the closed places in
order; and for each slot that is done the place of its type. -/
structure Chart where
  vars : List (Place × VarSet) := []
  slots : List (Place × List Scope) := []
  closed : List Place := []
  hosts : List (Nat × Place) := []

namespace Chart

structure Extends (g g' : Chart) : Prop where
  vars : g.vars <+: g'.vars
  slots : g.slots <+: g'.slots
  closed : g.closed <+: g'.closed
  hosts : g.hosts <+: g'.hosts

theorem Extends.refl (g : Chart) : g.Extends g :=
  ⟨List.prefix_refl _, List.prefix_refl _, List.prefix_refl _, List.prefix_refl _⟩

theorem Extends.trans {g₁ g₂ g₃ : Chart} (h : g₁.Extends g₂) (h' : g₂.Extends g₃) : g₁.Extends g₃ :=
  ⟨h.vars.trans h'.vars, h.slots.trans h'.slots, h.closed.trans h'.closed, h.hosts.trans h'.hosts⟩

section Extends
variable {g g' : Chart} (hext : g.Extends g')
include hext

theorem Extends.var {v : Nat} {x : Place × VarSet} (h : g.vars[v]? = some x) : g'.vars[v]? = some x := by
  obtain ⟨more, hmore⟩ := hext.vars
  rw [← hmore, List.getElem?_append_left (List.getElem?_eq_some_iff.1 h).1]
  exact h

theorem Extends.slot {i : Nat} {x : Place × List Scope} (h : g.slots[i]? = some x) : g'.slots[i]? = some x := by
  obtain ⟨more, hmore⟩ := hext.slots
  rw [← hmore, List.getElem?_append_left (List.getElem?_eq_some_iff.1 h).1]
  exact h

theorem Extends.mem_closed {p : Place} (h : p ∈ g.closed) : p ∈ g'.closed := hext.closed.subset h

theorem Extends.host {i : Nat} {p : Place} (h : g.hosts.lookup i = some p) : g'.hosts.lookup i = some p := by
  obtain ⟨more, hmore⟩ := hext.hosts
  rw [← hmore, List.lookup_append, h]
  rfl

end Extends

/-- The variable was issued at the place. -/
def Issued (g : Chart) (v : Nat) (p : Place) : Prop := ∃ N, g.vars[v]? = some (p, N)

/-- The variable was issued at the place or inside of it. -/
def Within (g : Chart) (p : Place) (v : Nat) : Prop := ∃ q, g.Issued v q ∧ p <:+ q

/-- The variable was issued at the place or around it, and everything in between
fixes it. -/
def Fixed (g : Chart) (u : Place) (v : Nat) : Prop :=
  ∃ between p, g.Issued v p ∧ u = between ++ p ∧ ∀ f ∈ between, v ∈ f.mono

/-- A place is closed, and neither it nor one closed before it is around `u`. -/
def Clear (g : Chart) (u h : Place) : Prop :=
  ∃ before after, g.closed = before ++ h :: after ∧ ∀ p ∈ h :: before, ¬ p <:+ u

/-- The constraint belongs to a place, and what it generalises to another one that
was closed before. -/
def Settled (g : Chart) (c : Constraint) : Prop :=
  ∃ u, (∀ v, c.Reaches v → g.Fixed u v) ∧
    ∀ t M b, c = .implicit t M b → ∃ h : Place, h.mono = M ∧ (∀ v ∈ b.free, g.Within h v) ∧ g.Clear u h

section Growth
variable {g g' : Chart} {u h : Place} {v : Nat} {c : Constraint}

theorem Issued.grow (hv : g.Issued v u) (hext : g.Extends g') : g'.Issued v u :=
  hv.imp fun _ hv => hext.var hv

theorem Within.grow (hv : g.Within u v) (hext : g.Extends g') : g'.Within u v := by
  obtain ⟨q, hq, hu⟩ := hv
  exact ⟨q, hq.grow hext, hu⟩

theorem Fixed.grow (hv : g.Fixed u v) (hext : g.Extends g') : g'.Fixed u v := by
  obtain ⟨between, p, hp, hrest⟩ := hv
  exact ⟨between, p, hp.grow hext, hrest⟩

theorem Clear.grow (hclear : g.Clear u h) (hext : g.Extends g') : g'.Clear u h := by
  obtain ⟨before, after, hclosed, hout⟩ := hclear
  obtain ⟨more, hmore⟩ := hext.closed
  refine ⟨before, after ++ more, ?_, hout⟩
  rw [← hmore, hclosed, List.append_assoc, List.cons_append]

theorem Settled.grow (hc : g.Settled c) (hext : g.Extends g') : g'.Settled c := by
  obtain ⟨u, hreach, hhome⟩ := hc
  refine ⟨u, fun v hv => (hreach v hv).grow hext, fun t M b heq => ?_⟩
  obtain ⟨h, hmono, hwithin, hclear⟩ := hhome t M b heq
  exact ⟨h, hmono, fun v hv => (hwithin v hv).grow hext, hclear.grow hext⟩

theorem Issued.fixed (hv : g.Issued v u) : g.Fixed u v := ⟨[], u, hv, rfl, by rintro f ⟨⟩⟩

/-- Going into a definition that fixes the variable. -/
theorem Fixed.enter {f : Frame} (hv : g.Fixed u v) (hf : v ∈ f.mono) : g.Fixed (f :: u) v := by
  obtain ⟨between, p, hp, rfl, hall⟩ := hv
  refine ⟨f :: between, p, hp, rfl, fun f' hf' => ?_⟩
  rcases List.mem_cons.1 hf' with rfl | hf'
  · exact hf
  · exact hall f' hf'

/-- Constraints other than implicit instances only have to belong to a place. -/
theorem settled_of_fixed (u : Place) (hplain : ∀ t M b, c ≠ .implicit t M b) (hreach : ∀ v, c.Reaches v → g.Fixed u v) :
    g.Settled c :=
  ⟨u, hreach, fun t M b heq => (hplain t M b heq).elim⟩

theorem settled_implicit {t b : Ty} {M : VarSet} (ht : ∀ v ∈ t.free, g.Fixed u v) (hM : ∀ v ∈ M, g.Fixed u v)
    (hmono : h.mono = M) (hb : ∀ v ∈ b.free, g.Within h v) (hclear : g.Clear u h) : g.Settled (.implicit t M b) := by
  refine ⟨u, fun v hv => hv.elim (ht v) (hM v), fun t' M' b' heq => ?_⟩
  cases heq
  exact ⟨h, hmono, hb, hclear⟩

end Growth

/-! ## The layout of settled constraints -/

section Layout
variable {g : Chart}

/-- The variables issued at the place and inside of it. -/
def region (g : Chart) (p : Place) : Region := ⟨{v | g.Within p v}, p.mono⟩

theorem Issued.lt {v : Nat} {p : Place} (h : g.Issued v p) : v < g.vars.length := by
  obtain ⟨N, hN⟩ := h
  exact (List.getElem?_eq_some_iff.1 hN).1

theorem Issued.unique {v : Nat} {p q : Place} (hp : g.Issued v p) (hq : g.Issued v q) : p = q := by
  obtain ⟨N, hN⟩ := hp
  obtain ⟨N', hN'⟩ := hq
  rw [hN] at hN'
  exact (Prod.mk.inj (Option.some.inj hN')).1

section Sides
variable {c : Constraint} {u : Place} (hreach : ∀ v, c.Reaches v → g.Fixed u v)
include hreach

theorem outside_region {p : Place} (h : ¬ p <:+ u) : (g.region p).Outside c := by
  rintro v hv ⟨q, hq, hpq⟩
  obtain ⟨between, q', hq', rfl, -⟩ := hreach v hv
  obtain rfl := hq.unique hq'
  exact h (hpq.trans (List.suffix_append between q))

theorem inside_region {p : Place} (h : p <:+ u) : (g.region p).Inside c := by
  intro v hv
  obtain ⟨between, q, hq, rfl, hall⟩ := hreach v hv
  rcases suffix_append_cases h with hpq | ⟨f, rest, rfl, hf⟩
  · exact .inl ⟨q, hq, hpq⟩
  · exact .inr (hall f hf)

theorem sided_region (p : Place) : (g.region p).Inside c ∨ (g.region p).Outside c := by
  by_cases h : p <:+ u
  · exact .inl (inside_region hreach h)
  · exact .inr (outside_region hreach h)

end Sides

theorem Settled.homed {t b : Ty} {M : VarSet} (h : g.Settled (.implicit t M b)) :
    Homed (g.closed.map g.region) (.implicit t M b) := by
  obtain ⟨u, hreach, hhome⟩ := h
  obtain ⟨p, rfl, hwithin, before, after, hclosed, hclear⟩ := hhome t M b rfl
  rw [hclosed, List.map_append, List.map_cons]
  refine Homed.append_left ⟨outside_region hreach (hclear p (by simp)), .inl ⟨rfl, fun v hv => ?_⟩⟩ fun r hr => ?_
  · exact .inl (hwithin v hv)
  · obtain ⟨q, hq, rfl⟩ := List.mem_map.1 hr
    exact outside_region hreach (hclear q (by simp [hq]))

/-- Settled constraints have a layout, whose regions are the closed places. -/
theorem laid_of_settled {cs : List Constraint} (h : ∀ c ∈ cs, g.Settled c) : Search.Laid g.vars.length ⟨∅, cs⟩ := by
  refine ⟨fun c hc v hv => ?_, g.closed.map g.region, fun r hr v hv => ?_, fun r hr c hc => ?_,
    fun c hc himplicit => ?_⟩
  · obtain ⟨u, hreach, -⟩ := h c hc
    obtain ⟨-, p, hp, -⟩ := hreach v hv
    exact hp.lt
  · obtain ⟨p, -, rfl⟩ := List.mem_map.1 hr
    obtain ⟨q, hq, -⟩ := hv
    exact hq.lt
  · obtain ⟨p, -, rfl⟩ := List.mem_map.1 hr
    obtain ⟨u, hreach, -⟩ := h c hc
    exact sided_region hreach p
  · obtain ⟨t, M, b, rfl⟩ := himplicit
    exact (h _ hc).homed

end Layout

end Chart

end NixTyping
