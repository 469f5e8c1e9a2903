import Mathlib
import NixTyping.Proofs.Wrappers
/-!
# Issued variables

Every variable that is free in the judgment of a module was issued by the walk itself, and
nothing of the judgment depends on the labels under which the schemes of the environment
bind their variables, except these schemes: whatever a name, a selection, a `with` or an
`inherit (e)` takes out of a record of the environment is taken through an instance. A
number that came out of such a record without an instance around it would be a difference
between two walks in environments with different labels.
-/

namespace NixTyping

open Judging

/-- The variable is free in the type of an assumption, in a type or the scheme of a constraint or in the type of the
judgment, or it is one that an implicit instance may not generalise. -/
def Judgment.Mentions (J : Judgment) (v : Nat) : Prop :=
  (∃ a ∈ J.assumptions.entries, v ∈ a.2.free) ∨ (∃ c ∈ J.constraints, c.Sees v) ∨ v ∈ J.ty.free

theorem Judgment.Issued.lt_of_mentions {env : Env} (hclosed : env.Closed) {k : Nat} {J : Judgment}
    (h : J.Issued env k) {v : Nat} (hv : J.Mentions v) : v < k := by
  rcases hv with ⟨a, ha, hv⟩ | ⟨c, hc, hv⟩ | hv
  · exact (h.assumptions a ha).2 v hv
  · exact (h.constraints c hc).lt_of_sees hclosed hv
  · exact h.ty.2 v hv

/-- The judgment of a lowered tree mentions only variables that its walk issued, and other labels in the environment
only relabel it. -/
theorem judgment_mentions_issued_ofTree {source : String} {tree : Tree} {m : Module} {odd : List Oddity}
    (hm : Module.ofTree source tree = (m, odd)) {env : Env} (hclosed : env.Closed) :
    ∃ J t, m.entry.judge env = .ok (J, t) ∧ (∀ v, J.Mentions v → v < t.next) ∧
      (∀ u σ, .explicit u σ ∈ J.constraints → ∀ v, v ∉ σ.free) ∧
      ∀ ρ : Nat → Nat, ∃ t', m.entry.judge (env.relabel ρ) = .ok (J.relabelSchemes ρ, t') ∧ t'.next = t.next := by
  obtain ⟨J, t, hjudge, -⟩ := m.entry.judge_total (Module.sourced_entry hm) env
  have hissued := Expr.judge_issued hjudge
  refine ⟨J, t, hjudge, fun v => hissued.lt_of_mentions hclosed, ?_, ?_⟩
  · intro u σ hσ
    cases hissued.constraints _ hσ with
    | explicit ty offered => exact offered.closed hclosed
  · intro ρ
    obtain ⟨t', hrelabel, hnext, -⟩ := Expr.judge_relabel ρ hjudge le_rfl
    exact ⟨t', hrelabel, hnext⟩

/-- In an environment of closed schemes a module has a judgment whose variables were all issued on the way to it, and
the schemes in it have no free variable. Under other labels for the variables of the environment the judgment is the
same but for these schemes, so that no label is ever taken for a variable that was issued. -/
theorem judgment_mentions_issued {text : String} {m : Module} {odd : List Oddity}
    (htext : Module.ofText? text = some (m, odd)) {env : Env} (hclosed : env.Closed) :
    ∃ J t, m.entry.judge env = .ok (J, t) ∧ (∀ v, J.Mentions v → v < t.next) ∧
      (∀ u σ, .explicit u σ ∈ J.constraints → ∀ v, v ∉ σ.free) ∧
      ∀ ρ : Nat → Nat, ∃ t', m.entry.judge (env.relabel ρ) = .ok (J.relabelSchemes ρ, t') ∧ t'.next = t.next := by
  obtain ⟨tree, -, hm⟩ := Module.exists_tree htext
  exact judgment_mentions_issued_ofTree hm hclosed

/-- The module of `with r; [ f r.n.g { inherit (r) f; } ]`. -/
def takenFields : Module where
  entry := .mk 9 (some ⟨0, 38⟩) (.withIn (.mk 0 (some ⟨5, 6⟩) (.ref "r")) (.mk 8 (some ⟨8, 38⟩) (.list [
    .mk 1 (some ⟨10, 11⟩) (.ref "f"),
    .mk 5 (some ⟨12, 17⟩) (.select (.mk 2 (some ⟨12, 13⟩) (.ref "r")) [.mk 3 (some ⟨14, 15⟩) (.literal (.string "n")),
      .mk 4 (some ⟨16, 17⟩) (.literal (.string "g"))] none),
    .mk 7 (some ⟨18, 36⟩) (.set false ⟨[("f", .inheritFrom 0)], [.mk 6 (some ⟨29, 30⟩) (.ref "r")], []⟩)])))
  count := 10

/-- A record whose fields have variables. -/
def withFields : Env :=
  ⟨[("r", [⟨[0, 1], .record [("f", .fn (.var 0) (.var 1)), ("n", .record [("g", .var 1)] false)] false⟩])]⟩

theorem withFields_closed : withFields.Closed := by
  intro name schemes hlookup σ hσ v hv
  unfold withFields Env.lookup findKey at hlookup
  split at hlookup
  · obtain rfl := Option.some.inj hlookup
    obtain rfl := List.mem_singleton.1 hσ
    obtain ⟨hfree, hvars⟩ := Scheme.mem_free.1 hv
    have hlabels : (v = 0 ∨ v = 1) ∨ v = 1 := by simpa [Ty.mem_free_record] using hfree
    exact hvars (by simpa using hlabels)
  · cases hlookup

def judgmentOfTaken : Judgment where
  assumptions := ⟨[("r", .var 0), ("r", .var 2), ("r", .var 4)]⟩
  constraints := [.explicit (.var 1) ⟨[0, 1], .fn (.var 0) (.var 1)⟩, .explicit (.var 3) ⟨[0, 1], .var 1⟩,
    .explicit (.var 5) ⟨[0, 1], .fn (.var 0) (.var 1)⟩]
  ty := .list [.var 1, .var 3, .record [("f", .var 5)] false]

theorem takenFields_text :
    Module.ofText? "with r; [ f r.n.g \x7b inherit (r) f; \x7d ]" = some (takenFields, []) := by cbv

theorem takenFields_judge :
    (takenFields.entry.judge withFields).map (fun r => (r.1, r.2.next)) = .ok (judgmentOfTaken, 6) := by cbv

/-- Fields with labels, taken by a name, along a path and by an `inherit`. -/
theorem judgment_mentions_issued_taken_fields :
    Module.ofText? "with r; [ f r.n.g \x7b inherit (r) f; \x7d ]" = some (takenFields, []) ∧ withFields.Closed ∧
    (∀ v, judgmentOfTaken.Mentions v → v < 6) ∧
    ∀ ρ : Nat → Nat, (takenFields.entry.judge (withFields.relabel ρ)).map (fun r => (r.1, r.2.next)) =
      .ok (judgmentOfTaken.relabelSchemes ρ, 6) := by
  obtain ⟨J, t, hjudge, hmentions, -, hrelabel⟩ := judgment_mentions_issued takenFields_text withFields_closed
  have hfound := takenFields_judge
  rw [hjudge] at hfound
  obtain ⟨rfl, hnext⟩ := Prod.mk.inj (Except.ok.inj hfound)
  refine ⟨takenFields_text, withFields_closed, fun v hv => hnext ▸ hmentions v hv, fun ρ => ?_⟩
  obtain ⟨t', hjudge', hnext'⟩ := hrelabel ρ
  rw [hjudge', ← hnext, ← hnext']
  rfl

end NixTyping
