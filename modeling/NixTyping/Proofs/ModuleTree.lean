import Mathlib
import NixTyping.Proofs.Lowered
/-!
# The tree of a module

The expressions of a module are numbered without gaps, and the entry has the last number.
The parts of all of them, taken together, are the expressions other than the entry, each
once; so a module is a tree, and a part has a smaller number than what it is a part of. The
groups of a module are what entries of the text make of them.
-/

namespace NixTyping

namespace Expr

/-- What stands under an expression is the expression and the parts of what stands under it. -/
theorem all_perm (e : Expr) : e.all.Perm (e :: e.all.flatMap parts) := by
  induction e using parts_induction with
  | h e ih =>
    have hparts : (e.parts.flatMap all).Perm (e.parts.flatMap fun p => [p] ++ p.all.flatMap parts) :=
      List.Perm.flatMap_left _ ih
    have hsplit : (e.parts.flatMap fun p => [p] ++ p.all.flatMap parts).Perm
        (e.parts ++ (e.parts.flatMap all).flatMap parts) := by
      refine (List.flatMap_append_perm _ _ _).symm.trans ?_
      rw [List.flatMap_singleton', List.flatMap_assoc]
    rw [all_eq, List.flatMap_cons]
    exact (hparts.trans hsplit).cons e

theorem id_le_of_mem {text : String} {e p : Expr} {tree : Tree} (h : e.Tidy text tree) (hp : p ∈ e.all) :
    p.id ≤ e.id := by
  induction e using parts_induction with
  | h e ih =>
    rcases mem_all.1 hp with rfl | ⟨q, hq, hp⟩
    · exact le_rfl
    · exact (ih q hq (h.part hq) hp).trans (h.self.older q hq).le

end Expr

namespace Module

variable {source : String} {tree : Tree} {m : Module} {odd : List Oddity}

theorem perm_exprs (m : Module) : m.exprs.Perm m.entry.all := List.mergeSort_perm _ _

theorem mem_exprs {e : Expr} : e ∈ m.exprs ↔ e ∈ m.entry.all := m.perm_exprs.mem_iff

/-- The numbers are those that were issued, in order. -/
theorem map_id_exprs (h : Module.ofTree source tree = (m, odd)) : m.exprs.map Expr.id = List.range m.count := by
  have hperm : (m.exprs.map Expr.id).Perm (List.range m.count) :=
    (m.perm_exprs.map Expr.id).trans (Multiset.coe_eq_coe.1 (ids_entry h))
  have hsorted : (m.exprs.map Expr.id).Pairwise (· ≤ ·) := by
    have hmerge : m.exprs.Pairwise fun a b => decide (a.id ≤ b.id) = true :=
      List.pairwise_mergeSort (by simp; omega) (by simp; omega) m.entry.all
    exact List.pairwise_map.2 (hmerge.imp fun hle => of_decide_eq_true hle)
  exact hperm.eq_of_pairwise (fun a b _ _ hab hba => le_antisymm hab hba) hsorted List.pairwise_le_range

/-- The entry was built last. -/
theorem count_eq (h : Module.ofTree source tree = (m, odd)) : m.count = m.entry.id + 1 := by
  have hids := map_id_exprs h
  have hentry : m.entry.id < m.count := by
    rw [← List.mem_range, ← hids]
    exact List.mem_map_of_mem (mem_exprs.2 (Expr.mem_all.2 (.inl rfl)))
  have hlast : m.count - 1 ∈ m.exprs.map Expr.id := by
    rw [hids, List.mem_range]
    omega
  obtain ⟨p, hp, hid⟩ := List.mem_map.1 hlast
  have hle := Expr.id_le_of_mem (tidy_entry h) (mem_exprs.1 hp)
  omega

/-- The parts of all expressions are the expressions other than the entry. -/
theorem perm_parts (h : Module.ofTree source tree = (m, odd)) :
    ((m.exprs.flatMap Expr.parts).map Expr.id).Perm (List.range m.entry.id) := by
  have hall : (m.exprs.map Expr.id).Perm (m.entry.id :: (m.exprs.flatMap Expr.parts).map Expr.id) := by
    refine ((m.perm_exprs.trans m.entry.all_perm).map Expr.id).trans ?_
    exact ((m.perm_exprs.symm.flatMap_right _).map Expr.id).cons _
  rw [map_id_exprs h, count_eq h, List.range_succ] at hall
  exact ((List.perm_append_singleton _ _).symm.trans hall).cons_inv.symm

/-- The expressions of a lowered tree form a tree, numbered without a gap. -/
theorem exprs_form_tree_ofTree (h : Module.ofTree source tree = (m, odd)) :
    m.exprs.map Expr.id = List.range m.count ∧ m.count = m.entry.id + 1 ∧ m.entry ∈ m.exprs ∧
    (∀ p ∈ m.exprs, ∀ c ∈ p.parts, c ∈ m.exprs ∧ c.id < p.id) ∧
    ((m.exprs.flatMap Expr.parts).map Expr.id).Perm (List.range m.entry.id) ∧
    ∀ p ∈ m.exprs, ∀ g, p.form.bindings? = some g →
      g.names.Nodup ∧ ∃ cs, tree.Forms cs ∧ g.Merges source cs ∧ ∀ name i, (name, .inheritFrom i) ∈ g.statics →
        ∃ before t names e, First cs name before (.inherit (some t) names) ∧
          i = (before.filterMap Entry.source?).length ∧ g.sources[i]? = some e ∧ t.Becomes source e := by
  have htidy := tidy_entry h
  refine ⟨map_id_exprs h, count_eq h, mem_exprs.2 (Expr.mem_all.2 (.inl rfl)), ?_, perm_parts h, ?_⟩
  · intro p hp c hc
    have hall := mem_exprs.1 hp
    exact ⟨mem_exprs.2 (Expr.all_trans (Expr.mem_all.2 (.inr ⟨c, hc, Expr.mem_all.2 (.inl rfl)⟩)) hall),
      (htidy p hall).older c hc⟩
  · intro p hp g hg
    obtain ⟨cs, hforms, hmerges⟩ := (htidy p (mem_exprs.1 hp)).group g hg
    exact ⟨hmerges.nodup, cs, hforms, hmerges, fun name i hmem => hmerges.source hmem⟩

/-- A module is a tree whose parts are older than what they are parts of. Each of its groups has each name once and is
what entries of the text make of it; where a name is taken from a source, the source is what stands in the entry that
binds the name first. -/
theorem exprs_form_tree {text : String} (h : Module.ofText? text = some (m, odd)) :
    m.exprs.map Expr.id = List.range m.count ∧ m.count = m.entry.id + 1 ∧ m.entry ∈ m.exprs ∧
    (∀ p ∈ m.exprs, ∀ c ∈ p.parts, c ∈ m.exprs ∧ c.id < p.id) ∧
    ((m.exprs.flatMap Expr.parts).map Expr.id).Perm (List.range m.entry.id) ∧
    ∃ tree, Tree.ofText? text = some tree ∧ ∀ p ∈ m.exprs, ∀ g, p.form.bindings? = some g →
      g.names.Nodup ∧ ∃ cs, tree.Forms cs ∧ g.Merges text cs ∧ ∀ name i, (name, .inheritFrom i) ∈ g.statics →
        ∃ before t names e, First cs name before (.inherit (some t) names) ∧
          i = (before.filterMap Entry.source?).length ∧ g.sources[i]? = some e ∧ t.Becomes text e := by
  obtain ⟨tree, htree, hm⟩ := exists_tree h
  obtain ⟨hids, hcount, hentry, holder, hparts, hgroups⟩ := exprs_form_tree_ofTree hm
  exact ⟨hids, hcount, hentry, holder, hparts, tree, htree, hgroups⟩

end Module

/-- The group of `a` in `{ a.x = 1; a = { inherit (s) y; }; inherit (t) a z; }`. -/
def mergedGroup : Bindings Expr where
  statics := [("x", .expr (.mk 0 (some ⟨8, 9⟩) (.literal (.int 1)))), ("y", .inheritFrom 0)]
  sources := [.mk 1 (some ⟨26, 27⟩) (.ref "s")]
  dynamics := []

def mergedSources : Module where
  entry := .mk 4 (some ⟨0, 53⟩) (.set false ⟨[("a", .expr (.mk 3 (some ⟨15, 33⟩) (.set false mergedGroup))),
    ("z", .inheritFrom 0)], [.mk 2 (some ⟨44, 45⟩) (.ref "t")], []⟩)
  count := 5

/-- Where a set comes from two places, and a name of it from the source of the second. -/
theorem Module.exprs_form_tree_merged_sources :
    Module.ofText? "\x7b a.x = 1; a = \x7b inherit (s) y; \x7d; inherit (t) a z; \x7d" =
      some (mergedSources, [.duplicate "a" ⟨47, 48⟩]) ∧
    mergedSources.exprs.map Expr.id = [0, 1, 2, 3, 4] ∧
    ((mergedSources.exprs.flatMap Expr.parts).map Expr.id).Perm [0, 1, 2, 3] ∧ mergedGroup.names.Nodup ∧
    ∃ cs before t names e, First cs "y" before (.inherit (some t) names) ∧ mergedGroup.sources[0]? = some e ∧
      t.Becomes "\x7b a.x = 1; a = \x7b inherit (s) y; \x7d; inherit (t) a z; \x7d" e := by
  have htext : Module.ofText? "\x7b a.x = 1; a = \x7b inherit (s) y; \x7d; inherit (t) a z; \x7d" =
      some (mergedSources, [.duplicate "a" ⟨47, 48⟩]) := by cbv
  have hset : Expr.mk 3 (some ⟨15, 33⟩) (.set false mergedGroup) ∈ mergedSources.exprs := by
    refine Module.mem_exprs.2 (Expr.mem_all.2 (.inr ⟨_, ?_, Expr.mem_all.2 (.inl rfl)⟩))
    simp [mergedSources, Expr.parts, Expr.form, Form.parts, Bindings.parts, Binding.expr?]
  obtain ⟨hids, -, -, -, hperm, tree, -, hgroups⟩ := Module.exprs_form_tree htext
  obtain ⟨hnames, cs, -, -, hsource⟩ := hgroups _ hset mergedGroup rfl
  obtain ⟨before, t, names, e, hfirst, -, he, ht⟩ := hsource "y" 0 (by simp [mergedGroup])
  exact ⟨htext, hids, hperm, hnames, cs, before, t, names, e, hfirst, he, ht⟩

end NixTyping
