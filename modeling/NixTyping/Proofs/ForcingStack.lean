import Mathlib
import NixTyping.Proofs.Deferral
import NixTyping.Proofs.Viable
/-!
# The slots that are being computed

A context carries the slots that are being computed, innermost first. Those of one
group form a chain in which each is needed directly by the next (`Serves.linked`),
since a name is looked up in the scope of its own group, and the definition in which
it stands mentions it. So a slot that is needed while it is being computed lies on a
cycle of its group's dependencies (`Asks.onCycle`).

`Stands` says what a context knows about the groups around it, `Asks` what is known of
a slot where it is needed.
-/

namespace NixTyping

namespace Dependencies

/-- The first node depends on the second directly. -/
def Edge (g : Dependencies) (i j : Nat) : Prop := j ∈ g.next i

section Group
variable {b : Bindings Expr} {k l i : Nat} {name x : String} {e : Expr}

theorem edge_static (h : b.statics[k]? = some (name, .expr e)) (hx : x ∈ e.mentioned) (hl : b.names.idxOf? x = some l) :
    (ofBindings b).Edge k l := by
  have hk := (List.getElem?_eq_some_iff.1 h).1
  rw [Edge, next, ofBindings, List.getElem?_append_left (by simpa using hk), List.getElem?_map, h]
  simpa using ⟨x, hx, hl⟩

theorem edge_source (h : b.sources[k]? = some e) (hx : x ∈ e.mentioned) (hl : b.names.idxOf? x = some l) :
    (ofBindings b).Edge (b.statics.length + k) l := by
  rw [Edge, next, ofBindings, List.getElem?_append_right (by simp)]
  simpa [h] using ⟨x, hx, hl⟩

theorem edge_field (h : b.statics[k]? = some (name, .inheritFrom i)) (hi : i < b.sources.length) :
    (ofBindings b).Edge k (b.statics.length + i) := by
  have hk := (List.getElem?_eq_some_iff.1 h).1
  rw [Edge, next, ofBindings, List.getElem?_append_left (by simpa using hk), List.getElem?_map, h]
  simp [hi, Bindings.names]

end Group

end Dependencies

namespace Judging

namespace Deferral

variable (d : Deferral)

/-- The slots of the group. -/
def has (i : Nat) : Bool := decide (d.first ≤ i) && decide (i < d.first + d.size)

theorem has_iff {i : Nat} : d.has i = true ↔ d.first ≤ i ∧ i < d.first + d.size := by simp [has]

/-- A field is taken from a slot of its group. -/
theorem has_source {p : Pending} (hp : p ∈ d.pendings) (h : d.group.Sourced) {source : Nat} {name : String}
    (hvalue : p.value = .field source name) : d.has source = true := by
  rcases List.mem_append.1 hp with hp | hp
  · obtain ⟨⟨name', b⟩, hb, rfl⟩ := List.mem_map.1 hp
    cases b with
    | expr e | «inherit» e => cases hvalue
    | inheritFrom k =>
      cases hvalue
      have hk := h _ k hb
      exact d.has_iff.2 ⟨by omega, by simp only [size]; omega⟩
  · obtain ⟨e, -, rfl⟩ := List.mem_map.1 hp
    cases hvalue

/-- The first slot depends on the second directly. -/
def Edge (i j : Nat) : Prop := (Dependencies.ofBindings d.group).Edge (i - d.first) (j - d.first)

/-- The names that the group mentions. -/
def mentioned : List String := d.group.parts.flatMap (·.mentioned)

/-- What is being computed, since the group was put off, are slots of the group, each needed by the one below it, and
slots that came later. -/
structure Serves (forcing : List Nat) : Prop where
  since : ∃ newer, forcing = newer ++ d.ctx.forcing ∧ ∀ i ∈ newer, d.first ≤ i
  linked : (forcing.filter d.has).IsChain fun i j => d.Edge j i

/-- The slot is needed by the innermost slot of its group that is being computed, if there is one. -/
def Leads (forcing : List Nat) (i : Nat) : Prop := ∀ top, forcing.find? d.has = some top → d.Edge top i

end Deferral

/-- Where a slot is needed. -/
def Asks (history : List Event) (forcing : List Nat) (i : Nat) : Prop :=
  ∃ d, Event.deferred d ∈ history ∧ d.has i = true ∧ d.Serves forcing ∧ d.Leads forcing i

/-- The slot is being computed, and on a cycle through the innermost slot of its group that is. -/
def OnCycle (history : List Event) (forcing : List Nat) (i : Nat) : Prop :=
  i ∈ forcing ∧ ∃ d, Event.deferred d ∈ history ∧ d.has i = true ∧
    ∃ top, forcing.find? d.has = some top ∧ Relation.ReflTransGen d.Edge i top ∧ d.Edge top i

theorem reaches_head {α : Type} {R : α → α → Prop} {top i : α} {l : List α} (h : (top :: l).IsChain fun a b => R b a)
    (hi : i ∈ top :: l) : Relation.ReflTransGen R i top := by
  induction l generalizing top with
  | nil => rw [List.mem_singleton.1 hi]
  | cons b l ih =>
    obtain ⟨hedge, hrest⟩ := List.isChain_cons_cons.1 h
    rcases List.mem_cons.1 hi with rfl | hi
    · exact .refl
    · exact (ih hrest hi).tail hedge

theorem Asks.onCycle {history : List Event} {forcing : List Nat} {i : Nat} (h : Asks history forcing i)
    (hi : i ∈ forcing) : OnCycle history forcing i := by
  obtain ⟨d, hd, hhas, hserves, hleads⟩ := h
  have hmem : i ∈ forcing.filter d.has := List.mem_filter.2 ⟨hi, hhas⟩
  cases hfilter : forcing.filter d.has with
  | nil => simp [hfilter] at hmem
  | cons top rest =>
    have htop : forcing.find? d.has = some top := by rw [← List.head?_filter, hfilter]; rfl
    rw [hfilter] at hmem
    exact ⟨hi, d, hd, hhas, top, htop, reaches_head (hfilter ▸ hserves.linked) hmem, hleads top htop⟩

/-! ## What a context sees -/

/-- What is known of a scope in front of others, where the names `M` are mentioned. -/
inductive Rests (env : Env) (history : List Event) (n : Nat) (forcing : List Nat) (M : List String) :
    Scope → List Scope → Prop where
  | params (names : List String) (outer : List Scope) : Rests env history n forcing M (.params names) outer
  | withIn {r : Option KnownRecord} (viable : env.Viable → ∀ k ∈ r, k.Viable) (outer : List Scope) :
    Rests env history n forcing M (.withIn r) outer
  | body {d : Deferral} (mem : Event.deferred d ∈ history) (below : d.first + d.size ≤ n) (serves : d.Serves forcing)
    (idle : forcing.find? d.has = none) : Rests env history n forcing M d.body d.ctx.scopes
  | group {d : Deferral} (mem : Event.deferred d ∈ history) (below : d.first + d.size ≤ n) (serves : d.Serves forcing)
    (leads : ∀ x ∈ M, ∀ k, d.group.names.idxOf? x = some k → d.Leads forcing (d.first + k)) :
    Rests env history n forcing M d.scope d.ctx.scopes

/-- What is known of all scopes around an expression. -/
def Stands (env : Env) (history : List Event) (n : Nat) (forcing : List Nat) (M : List String) (scopes : List Scope) :
    Prop :=
  ∀ sc outer, sc :: outer <:+ scopes → Rests env history n forcing M sc outer

section Stands
variable {env : Env} {history history' : List Event} {n n' : Nat} {forcing : List Nat} {M M' : List String}
  {scopes : List Scope}

theorem stands_nil : Stands env history n forcing M [] := fun sc outer h => by simp at h

theorem Stands.cons (h : Stands env history n forcing M scopes) {sc : Scope}
    (hsc : Rests env history n forcing M sc scopes) : Stands env history n forcing M (sc :: scopes) := by
  intro sc' outer hsuffix
  rcases List.suffix_cons_iff.1 hsuffix with heq | hsuffix
  · cases heq
    exact hsc
  · exact h sc' outer hsuffix

theorem Stands.mono (h : Stands env history n forcing M scopes) (hhistory : ∀ e ∈ history, e ∈ history') (hn : n ≤ n')
    (hM : ∀ x ∈ M', x ∈ M) : Stands env history' n' forcing M' scopes := by
  intro sc outer hsuffix
  cases h sc outer hsuffix with
  | params names => exact .params names outer
  | withIn viable => exact .withIn viable outer
  | body mem below serves idle => exact .body (hhistory _ mem) (by omega) serves idle
  | group mem below serves leads => exact .group (hhistory _ mem) (by omega) serves fun x hx => leads x (hM x hx)

theorem find?_append_above {d : Deferral} {newer : List Nat} (h : ∀ i ∈ newer, d.first + d.size ≤ i)
    (forcing : List Nat) : (newer ++ forcing).find? d.has = forcing.find? d.has := by
  have hnone : newer.find? d.has = none := by
    refine List.find?_eq_none.2 fun i hi hhas => ?_
    have := h i hi
    have := d.has_iff.1 hhas
    omega
  rw [List.find?_append, hnone, Option.none_or]

theorem Deferral.Serves.above {d : Deferral} {newer : List Nat} (hserves : d.Serves forcing)
    (h : ∀ i ∈ newer, d.first + d.size ≤ i) : d.Serves (newer ++ forcing) := by
  obtain ⟨since, hforcing, hsince⟩ := hserves.since
  refine ⟨⟨newer ++ since, by rw [hforcing, List.append_assoc], fun i hi => ?_⟩, ?_⟩
  · rcases List.mem_append.1 hi with hi | hi
    · have := h i hi
      omega
    · exact hsince i hi
  · have hnone : newer.filter d.has = [] := by
      refine List.filter_eq_nil_iff.2 fun i hi hhas => ?_
      have := h i hi
      have := d.has_iff.1 hhas
      omega
    rw [List.filter_append, hnone, List.nil_append]
    exact hserves.linked

/-- Slots behind all those of the scopes do not matter to them. -/
theorem Stands.above (h : Stands env history n forcing M scopes) {newer : List Nat} (hnewer : ∀ i ∈ newer, n ≤ i) :
    Stands env history n (newer ++ forcing) M scopes := by
  intro sc outer hsuffix
  cases h sc outer hsuffix with
  | params names => exact .params names outer
  | withIn viable => exact .withIn viable outer
  | @body d mem below serves idle =>
    have habove : ∀ i ∈ newer, d.first + d.size ≤ i := fun i hi => below.trans (hnewer i hi)
    exact .body mem below (serves.above habove) (by rw [find?_append_above habove, idle])
  | @group d mem below serves leads =>
    have habove : ∀ i ∈ newer, d.first + d.size ≤ i := fun i hi => below.trans (hnewer i hi)
    refine .group mem below (serves.above habove) fun x hx k hk top htop => leads x hx k hk top ?_
    rwa [find?_append_above habove] at htop

/-! ## Names -/

theorem lookup_zipIdx {x : String} {names : List String} {n i : Nat} (h : (names.zipIdx n).lookup x = some i) :
    ∃ k, names.idxOf? x = some k ∧ i = n + k ∧ k < names.length := by
  induction names generalizing n with
  | nil => simp at h
  | cons y names ih =>
    rw [List.zipIdx_cons, List.lookup_cons] at h
    rw [List.idxOf?_cons]
    by_cases hxy : y = x
    · subst hxy
      simp only [beq_self_eq_true, Option.some.injEq] at h
      exact ⟨0, by simp, by omega, by simp⟩
    · have hyx : (x == y) = false := by simpa using fun he : x = y => hxy he.symm
      rw [hyx] at h
      obtain ⟨k, hk, rfl, hlt⟩ := ih h
      exact ⟨k + 1, by simp [hxy, hk], by omega, by simpa using hlt⟩

theorem Deferral.has_of_lookup {d : Deferral} {x : String} {i : Nat} (h : d.names.lookup x = some i) :
    d.has i = true := by
  obtain ⟨k, -, rfl, hk⟩ := lookup_zipIdx h
  have hlength : k < d.group.statics.length := by simpa [Bindings.names] using hk
  exact d.has_iff.2 ⟨by omega, by simp only [size]; omega⟩

/-- A slot that is found in a scope can be asked for. -/
theorem Rests.asks {sc : Scope} {outer : List Scope} (h : Rests env history n forcing M sc outer) {x : String}
    (hx : x ∈ M) {i : Nat} {mono : VarSet}
    (hsc : sc.lexical? x = some (.letBody i mono) ∨ ∃ components, sc.lexical? x = some (.group i mono components)) :
    Asks history forcing i := by
  cases h with
  | params names =>
    simp only [Scope.lexical?] at hsc
    split at hsc <;> simp at hsc
  | withIn viable => simp [Scope.lexical?] at hsc
  | @body d mem below serves idle =>
    have hlookup : d.names.lookup x = some i ∧ d.ctx.mono = mono := by simpa [Deferral.body, Scope.lexical?] using hsc
    exact ⟨d, mem, Deferral.has_of_lookup hlookup.1, serves, fun top htop => by rw [idle] at htop; cases htop⟩
  | @group d mem below serves leads =>
    have hlookup : d.names.lookup x = some i ∧ d.ctx.mono = mono := by simpa [Deferral.scope, Scope.lexical?] using hsc
    obtain ⟨k, hk, rfl, -⟩ := lookup_zipIdx hlookup.1
    exact ⟨d, mem, Deferral.has_of_lookup hlookup.1, serves, leads x hx k hk⟩

theorem Stands.asks (h : Stands env history n forcing M scopes) {x : String} (hx : x ∈ M) {i : Nat} {mono : VarSet}
    (hlexical : lexicalIn scopes x = some (.letBody i mono) ∨
      ∃ components, lexicalIn scopes x = some (.group i mono components)) : Asks history forcing i := by
  rcases hlexical with hlexical | ⟨components, hlexical⟩
  · obtain ⟨sc, outer, hsuffix, hsc⟩ := exists_scope_of_lexical hlexical
    exact (h sc outer hsuffix).asks hx (.inl hsc)
  · obtain ⟨sc, outer, hsuffix, hsc⟩ := exists_scope_of_lexical hlexical
    exact (h sc outer hsuffix).asks hx (.inr ⟨components, hsc⟩)

end Stands

/-! ## Putting off a group, and computing its slots -/

namespace Deferral

variable {env : Env} {d : Deferral} {history : List Event} {n i : Nat} {forcing : List Nat} {M : List String}
  {p : Pending}

/-- Where a group was put off. -/
structure Placed (env : Env) (root : Expr) (history : List Event) (d : Deferral) : Prop where
  stands : Stands env history d.first d.ctx.forcing d.mentioned d.ctx.scopes
  above : ∀ i ∈ d.ctx.forcing, i < d.first
  origin : ∃ e ∈ root.all, e.form.group? = some d.group

/-- At first no slot of the group is being computed. -/
theorem find?_none (h : ∀ i ∈ d.ctx.forcing, i < d.first) : d.ctx.forcing.find? d.has = none := by
  refine List.find?_eq_none.2 fun i hi hhas => ?_
  have := h i hi
  have := d.has_iff.1 hhas
  omega

theorem serves_first (h : ∀ i ∈ d.ctx.forcing, i < d.first) : d.Serves d.ctx.forcing where
  since := ⟨[], rfl, by rintro i ⟨⟩⟩
  linked := by
    have hnone : d.ctx.forcing.filter d.has = [] := List.head?_eq_none_iff.1 (by rw [List.head?_filter, find?_none h])
    rw [hnone]
    exact .nil

theorem leads_first (h : ∀ i ∈ d.ctx.forcing, i < d.first) (i : Nat) : d.Leads d.ctx.forcing i := by
  intro top htop
  rw [find?_none h] at htop
  cases htop

/-- The innermost slot is the one that is being computed now. -/
theorem Serves.cons (h : d.Serves forcing) (hi : d.has i = true) (hleads : d.Leads forcing i) :
    d.Serves (i :: forcing) := by
  obtain ⟨newer, hforcing, hnewer⟩ := h.since
  refine ⟨⟨i :: newer, by rw [hforcing, List.cons_append], ?_⟩, ?_⟩
  · simpa [(d.has_iff.1 hi).1] using hnewer
  · rw [List.filter_cons_of_pos hi]
    refine List.isChain_cons.2 ⟨fun top htop => hleads top ?_, h.linked⟩
    rwa [List.head?_filter] at htop

theorem leads_cons (hi : d.has i = true) {j : Nat} (hedge : d.Edge i j) : d.Leads (i :: forcing) j := by
  intro top htop
  rw [List.find?_cons_of_pos hi] at htop
  cases htop
  exact hedge

section First
variable (mem : Event.deferred d ∈ history) (above : ∀ i ∈ d.ctx.forcing, i < d.first)
include mem above

theorem asks_first (hi : d.has i = true) : Asks history d.ctx.forcing i :=
  ⟨d, mem, hi, serves_first above, leads_first above i⟩

theorem stands_body (h : Stands env history n d.ctx.forcing M d.ctx.scopes) (hn : d.first + d.size ≤ n) :
    Stands env history n d.ctx.forcing M (d.body :: d.ctx.scopes) :=
  h.cons (.body mem hn (serves_first above) (find?_none above))

theorem stands_group (h : Stands env history n d.ctx.forcing M d.ctx.scopes) (hn : d.first + d.size ≤ n) :
    Stands env history n d.ctx.forcing M (d.scope :: d.ctx.scopes) :=
  h.cons (.group mem hn (serves_first above) fun _ _ k _ => leads_first above (d.first + k))

end First

section Pending
variable {root : Expr} (mem : Event.deferred d ∈ history) (hi : d.has i = true) (hserves : d.Serves forcing)
  (hleads : d.Leads forcing i) (hp : d.pendings[i - d.first]? = some p)
include mem hi hserves hleads hp

/-- What waits in a slot stands in its scopes when the slot is being computed. -/
theorem Placed.stands_pending (hd : d.Placed env root history) (hn : d.first + d.size ≤ n) {e : Expr}
    (he : p.value = .expr e) : Stands env history n (i :: forcing) e.mentioned p.scopes := by
  have hfirst := (d.has_iff.1 hi).1
  have hpart := d.mem_parts_of_pending (List.mem_of_getElem? hp) he
  have houter : Stands env history n (i :: forcing) e.mentioned d.ctx.scopes := by
    obtain ⟨newer, rfl, hnewer⟩ := hserves.since
    have habove : ∀ j ∈ i :: newer, d.first ≤ j := by simpa [hfirst] using hnewer
    exact (hd.stands.above habove).mono (fun _ h => h) (by omega) fun x hx => List.mem_flatMap.2 ⟨e, hpart, hx⟩
  -- a definition mentions the names it needs; a name from outside does not see the group
  have hinner : (∀ x ∈ e.mentioned, ∀ k, d.group.names.idxOf? x = some k → d.Edge i (d.first + k)) →
      Stands env history n (i :: forcing) e.mentioned (d.scope :: d.ctx.scopes) := fun hedge =>
    houter.cons (.group mem hn (hserves.cons hi hleads) fun x hx k hk => leads_cons hi (hedge x hx k hk))
  rcases d.getElem?_pendings hp with ⟨name, b, hb, rfl⟩ | ⟨k, e', hk, he', rfl⟩
  · cases b with
    | expr e' =>
      cases he
      refine hinner fun x hx k hk => ?_
      rw [Edge, Nat.add_sub_cancel_left]
      exact Dependencies.edge_static hb hx hk
    | «inherit» e' =>
      cases he
      exact houter
    | inheritFrom k => cases he
  · cases he
    refine hinner fun x hx l hl => ?_
    rw [Edge, Nat.add_sub_cancel_left, hk]
    exact Dependencies.edge_source he' hx hl

/-- A field needs its source. -/
theorem asks_source (hsourced : d.group.Sourced) {source : Nat} {name : String}
    (hvalue : p.value = .field source name) : Asks history (i :: forcing) source := by
  rcases d.getElem?_pendings hp with ⟨name', b, hb, rfl⟩ | ⟨k, e', hk, he', rfl⟩
  · cases b with
    | expr e' | «inherit» e' => cases hvalue
    | inheritFrom k =>
      cases hvalue
      have hk := hsourced _ k (List.mem_of_getElem? hb)
      refine ⟨d, mem, d.has_source (List.mem_of_getElem? hp) hsourced rfl, hserves.cons hi hleads, leads_cons hi ?_⟩
      rw [Edge, Nat.add_assoc, Nat.add_sub_cancel_left]
      exact Dependencies.edge_field hb hk
  · cases hvalue

end Pending

end Deferral

end Judging

end NixTyping
