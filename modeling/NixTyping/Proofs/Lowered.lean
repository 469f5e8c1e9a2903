import NixTyping.Proofs.Drafts
/-!
# What lowering builds

While a tree is lowered the first entry that binds a name in a group wins, and later ones are
added to it or dropped; a name is taken from a source that its entry has just brought; and
each expression gets the next number. So in a module every group is what entries of the text
make of it and the parts of an expression are older than it (`Module.tidy_entry`), and every
number that was issued belongs to one expression (`Module.ids_entry`).
-/

namespace NixTyping

open Lowering

/-! ## Trees -/

namespace Tree

open Draft

variable (text : String) {root : Tree}

theorem builds_integerForm (digits : String) :
    Builds (fun f : Form Expr => f.bindings? = none ∧ f.parts = []) (fun _ => 0) 0 (integerForm digits) := by
  unfold integerForm
  simp only
  split
  · exact builds_pure ⟨rfl, rfl⟩ rfl
  · exact builds_warn _ (builds_pure ⟨rfl, rfl⟩ rfl)

/-- The expressions of some pieces. -/
abbrev interps (ps : List (Piece Expr)) : List Expr := ps.filterMap Piece.interp?

theorem builds_buildString (span : Span) (ps : List (Piece Tree)) {pieces : Lowering (List (Piece Expr))}
    (h : Makes text root interps 0 pieces) : Builds (Expr.Tidy text root) Expr.ids 0 (buildString span ps pieces) := by
  unfold buildString
  split
  · exact builds_leaf _ rfl rfl
  · exact h.bind fun ps hps => builds_form _ rfl hps (add_zero _).symm

theorem isSome_setLiteral (t : Tree) : (setLiteral? text t).isSome = t.isSet := by
  cases t <;> rfl

theorem isRec_of_setLiteral (t : Tree) (l : SetLiteral) (h : setLiteral? text t = some l) : l.isRec = t.isRecSet := by
  cases t <;> cases h
  rfl

/-- What is built from the group that entries make when they are added to an empty one. -/
theorem builds_group {es : List (Entry Tree)} {span : Option Span} {isRec : Bool} {m : Lowering Draft}
    (hm : (Draft.empty span isRec).Extends text root isRec es m) (forms : root.Forms es) {α : Type} {P : α → Prop}
    {ids : α → Multiset Nat} {k : Bindings Expr → Lowering α}
    (hk : ∀ g, g.Tidy text root es → Builds P ids (tally g.parts) (k g)) :
    Builds P ids 0 (do let d ← m; let g ← d.bindings; k g) := by
  refine hm.bindPart (by rw [ids_empty, zero_add]) fun d hd => ?_
  refine (builds_bindings hd forms).bindPart rfl fun g hg => ?_
  rw [add_zero]
  exact hk g hg

theorem builds_set {es : List (Entry Tree)} {span : Option Span} {isRec : Bool} {m : Lowering Draft}
    (hm : (Draft.empty span isRec).Extends text root isRec es m) (forms : root.Forms es) :
    Builds (fun e => e.Tidy text root ∧ ∃ g, e.form = .set isRec g ∧ g.Merges text es) Expr.ids 0
      (do let d ← m; let g ← d.bindings; build span (.set isRec g)) :=
  builds_group text hm forms fun _ hg => builds_buildSet hg forms span isRec rfl

theorem builds_letIn {es : List (Entry Tree)} {span : Option Span} {m : Lowering Draft}
    (hm : (Draft.empty span false).Extends text root false es m) (forms : root.Forms es) {body : Lowering Expr}
    (hbody : Builds (Expr.Tidy text root) Expr.ids 0 body) :
    Builds (fun e => e.Tidy text root ∧ ∃ g b, e.form = .letIn g b ∧ g.Merges text es ∧ ∃ s, (body.run s).1 = b)
      Expr.ids 0 (do let d ← m; let g ← d.bindings; let b ← body; build span (.letIn g b)) := by
  refine builds_group text hm forms fun g hg => hbody.result.bind fun b hb => ?_
  have hgroup : ∀ g', (Form.letIn g b).bindings? = some g' → ∃ cs, root.Forms cs ∧ g'.Merges text cs := by
    rintro g' ⟨⟩
    exact ⟨es, forms, hg.merges⟩
  have hparts : ∀ p ∈ (Form.letIn g b).parts, p.Tidy text root := by
    intro p hp
    rcases List.mem_append.1 hp with hp | hp
    · exact hg.parts p hp
    · rw [List.mem_singleton.1 hp]
      exact hb.1
  refine (builds_build span hgroup hparts (by simp [Form.parts, add_comm])).imp fun e he => ?_
  exact ⟨he.1, g, b, he.2, hg.merges, hb.2⟩

mutual

theorem builds_lower : ∀ t : Tree, root.Under t → Builds (Expr.Tidy text root) Expr.ids 0 (lower text t)
  | .ident span name, _ => by
    rw [lower]
    exact builds_leaf _ rfl rfl
  | .integer span digits, _ => by
    rw [lower]
    exact (builds_integerForm digits).bind fun f hf => builds_leaf _ hf.1 hf.2
  | .float span text, _ => by
    rw [lower]
    exact builds_leaf _ rfl rfl
  | .uri span, _ => by
    rw [lower]
    exact builds_leaf _ rfl rfl
  | .string span ps, h => by
    rw [lower]
    exact builds_buildString text span ps (makes_lowerPieces ps fun t ht => h.part ht)
  | .path span ps, h => by
    rw [lower]
    split
    · exact builds_leaf _ rfl rfl
    · refine (makes_lowerPieces ps fun t ht => h.part ht).bind fun ps hps => ?_
      exact builds_form _ rfl hps (add_zero _).symm
  | .paren _ inner, h => by
    rw [lower]
    exact builds_lower inner (h.part List.mem_cons_self)
  | .list span items, h => by
    rw [lower]
    exact (makes_lowerAll items fun t ht => h.part ht).bind fun es hes => builds_form _ rfl hes (add_zero _).symm
  | .set span isRec es, h => by
    rw [lower]
    have hes : root.Forms es := .literal h
    exact (builds_set text (extends_addEntries es (fun c hc => ⟨es, hes, hc⟩) (tidy_empty _ _)) hes).imp fun e he =>
      he.1
  | .letIn span es body, h => by
    rw [lower]
    have hes : root.Forms es := .literal h
    have hbody := builds_lower body (h.part (List.mem_append_right _ List.mem_cons_self))
    exact (builds_letIn text (extends_addEntries es (fun c hc => ⟨es, hes, hc⟩) (tidy_empty _ _)) hes hbody).imp
      fun e he => he.1
  | .letBraces span, _ => by
    rw [lower]
    exact builds_warn _ (builds_leaf _ rfl rfl)
  | .lambda span param body, h => by
    rw [lower]
    have hbody := builds_lower body (h.part (List.mem_append_right _ List.mem_cons_self))
    refine (makes_lowerParam param fun t ht => h.part (List.mem_append_left _ ht)).bind fun p hp => ?_
    refine hbody.bind fun b hb => builds_form _ rfl (fun e he => ?_) (by simp [Form.parts, add_comm])
    rcases List.mem_append.1 he with he | he
    · exact hp e he
    · rw [List.mem_singleton.1 he]
      exact hb
  | .apply span fn arg, h => by
    rw [lower]
    refine (builds_lower fn (h.part (by simp [parts]))).bind fun f hf => ?_
    refine (builds_lower arg (h.part (by simp [parts]))).bind fun a ha => builds_form _ rfl ?_ ?_
    · simp [Form.parts, hf, ha]
    · simp [Form.parts, add_comm]
  | .select span subject steps dflt, h => by
    rw [lower]
    have hsteps : ∀ t ∈ steps.flatMap Attr.parts, root.Under t := fun t ht =>
      h.part (List.mem_append_left _ (List.mem_cons_of_mem _ ht))
    refine (builds_lower subject (h.part (by simp [parts]))).bind fun e he => ?_
    refine (makes_lowerAttrs steps hsteps).bind fun es hes => ?_
    refine (makes_lowerOption dflt fun t ht => h.part (List.mem_append_right _ ht)).bind fun d hd =>
      builds_form _ rfl (fun p hp => ?_) ?_
    · simp only [Form.parts, List.cons_append, List.mem_cons, List.mem_append] at hp
      rcases hp with rfl | hp | hp
      · exact he
      · exact hes p hp
      · exact hd p hp
    · simp [Form.parts, add_assoc, add_comm, add_left_comm]
  | .hasAttr span subject steps, h => by
    rw [lower]
    refine (builds_lower subject (h.part List.mem_cons_self)).bind fun e he => ?_
    refine (makes_lowerAttrs steps fun t ht => h.part (List.mem_cons_of_mem _ ht)).bind fun es hes => ?_
    refine builds_form _ rfl (fun p hp => ?_) (by simp [Form.parts, add_comm])
    rcases List.mem_cons.1 hp with rfl | hp
    · exact he
    · exact hes p hp
  | .unary span op operand, h => by
    rw [lower]
    refine (builds_lower operand (h.part List.mem_cons_self)).bind fun e he => builds_form _ rfl ?_ ?_
    · simp [Form.parts, he]
    · simp [Form.parts]
  | .binary span op l r, h => by
    rw [lower]
    refine (builds_lower l (h.part (by simp [parts]))).bind fun f hf => ?_
    refine (builds_lower r (h.part (by simp [parts]))).bind fun a ha => builds_form _ rfl ?_ ?_
    · simp [Form.parts, hf, ha]
    · simp [Form.parts, add_comm]
  | .ifElse span cond yes no, h => by
    rw [lower]
    refine (builds_lower cond (h.part (by simp [parts]))).bind fun c hc => ?_
    refine (builds_lower yes (h.part (by simp [parts]))).bind fun y hy => ?_
    refine (builds_lower no (h.part (by simp [parts]))).bind fun n hn => builds_form _ rfl ?_ ?_
    · simp [Form.parts, hc, hy, hn]
    · simp [Form.parts, add_assoc, add_comm]
  | .withIn span scope body, h => by
    rw [lower]
    refine (builds_lower scope (h.part (by simp [parts]))).bind fun f hf => ?_
    refine (builds_lower body (h.part (by simp [parts]))).bind fun a ha => builds_form _ rfl ?_ ?_
    · simp [Form.parts, hf, ha]
    · simp [Form.parts, add_comm]
  | .assertIn span cond body, h => by
    rw [lower]
    refine (builds_lower cond (h.part (by simp [parts]))).bind fun f hf => ?_
    refine (builds_lower body (h.part (by simp [parts]))).bind fun a ha => builds_form _ rfl ?_ ?_
    · simp [Form.parts, hf, ha]
    · simp [Form.parts, add_comm]

theorem makes_lowerAll :
    ∀ ts : List Tree, (∀ t ∈ ts, root.Under t) → Makes text root (fun es => es) 0 (lowerAll text ts)
  | [], _ => by
    rw [lowerAll]
    exact builds_pure (by rintro e ⟨⟩) rfl
  | t :: ts, h => by
    rw [lowerAll]
    obtain ⟨ht, hts⟩ := List.forall_mem_cons.1 h
    refine (builds_lower t ht).bind fun e he => (makes_lowerAll ts hts).bind fun es hes => builds_pure ?_ ?_
    · simpa [he] using hes
    · simp [add_comm]

theorem makes_lowerOption : ∀ t : Option Tree, (∀ u ∈ t.toList, root.Under u) →
    Makes text root Option.toList 0 (lowerOption text t)
  | none, _ => by
    rw [lowerOption]
    exact builds_pure (by rintro e ⟨⟩) rfl
  | some t, h => by
    rw [lowerOption]
    refine (builds_lower t (h t List.mem_cons_self)).map (fun e he => ?_) fun e => by simp
    simpa using he

theorem builds_lowerOrMissing : ∀ t : Option Tree, (∀ u ∈ t.toList, root.Under u) →
    Builds (Expr.Tidy text root) Expr.ids 0 (lowerOrMissing text t)
  | none, _ => by
    rw [lowerOrMissing]
    exact builds_missing text root
  | some t, h => by
    rw [lowerOrMissing]
    exact builds_lower t (h t List.mem_cons_self)

theorem makes_lowerPieces : ∀ ps : List (Piece Tree), (∀ t ∈ ps.filterMap Piece.interp?, root.Under t) →
    Makes text root interps 0 (lowerPieces text ps)
  | [], _ => by
    rw [lowerPieces]
    exact builds_pure (by rintro e ⟨⟩) rfl
  | .text s :: ps, h => by
    rw [lowerPieces]
    exact (makes_lowerPieces ps h).bind fun ps' hps => builds_pure hps (add_zero _).symm
  | .interp t :: ps, h => by
    rw [lowerPieces]
    obtain ⟨ht, hps⟩ := List.forall_mem_cons.1 h
    refine (builds_lower t ht).bind fun e he => (makes_lowerPieces ps hps).bind fun ps' hps' =>
      builds_pure (fun e' he' => ?_) ?_
    · rcases List.mem_cons.1 he' with rfl | he'
      · exact he
      · exact hps' e' he'
    · simp [interps, Piece.interp?, add_comm]

theorem builds_lowerAttr : ∀ a : Attr Tree, (∀ t ∈ a.parts, root.Under t) →
    Builds (Expr.Tidy text root) Expr.ids 0 (lowerAttr text a)
  | .ident span name, _ => by
    rw [lowerAttr]
    exact builds_leaf _ rfl rfl
  | .string span ps, h => by
    rw [lowerAttr]
    exact builds_buildString text span ps (makes_lowerPieces ps h)
  | .dynamic _ t, h => by
    rw [lowerAttr]
    exact builds_lowerOrMissing t h

theorem makes_lowerAttrs : ∀ as : List (Attr Tree), (∀ t ∈ as.flatMap Attr.parts, root.Under t) →
    Makes text root (fun es => es) 0 (lowerAttrs text as)
  | [], _ => by
    rw [lowerAttrs]
    exact builds_pure (by rintro e ⟨⟩) rfl
  | a :: as, h => by
    rw [lowerAttrs]
    rw [List.flatMap_cons] at h
    obtain ⟨ha, has⟩ := List.forall_mem_append.1 h
    refine (builds_lowerAttr a ha).bind fun e he => (makes_lowerAttrs as has).bind fun es hes => builds_pure ?_ ?_
    · simpa [he] using hes
    · simp [add_comm]

theorem builds_lowerAttr_of_mem : ∀ as : List (Attr Tree), (∀ t ∈ as.flatMap Attr.parts, root.Under t) →
    ∀ a ∈ as, Builds (Expr.Tidy text root) Expr.ids 0 (lowerAttr text a)
  | [], _ => by rintro a ⟨⟩
  | a :: as, h => by
    rw [List.flatMap_cons] at h
    obtain ⟨ha, has⟩ := List.forall_mem_append.1 h
    exact List.forall_mem_cons.2 ⟨builds_lowerAttr a ha, builds_lowerAttr_of_mem as has⟩

theorem makes_lowerParam : ∀ p : Param Tree, (∀ t ∈ p.defaults, root.Under t) →
    Makes text root Param.defaults 0 (lowerParam text p)
  | .name x, _ => by
    rw [lowerParam]
    exact builds_pure (by rintro e ⟨⟩) rfl
  | .fields fs ellipsis whole, h => by
    rw [lowerParam]
    exact (makes_lowerFields fs h).bind fun fs' hfs => builds_pure hfs (add_zero _).symm

theorem makes_lowerFields : ∀ fs : List (String × Option Tree), (∀ t ∈ fs.filterMap (·.2), root.Under t) →
    Makes text root (fun fs' : List (String × Option Expr) => fs'.filterMap (·.2)) 0 (lowerFields text fs)
  | [], _ => by
    rw [lowerFields]
    exact builds_pure (by rintro e ⟨⟩) rfl
  | (name, t) :: fs, h => by
    rw [lowerFields]
    have ht : ∀ u ∈ t.toList, root.Under u := fun u hu =>
      h u (List.mem_filterMap.2 ⟨_, List.mem_cons_self, Option.mem_toList.1 hu⟩)
    have hfs : ∀ u ∈ fs.filterMap (·.2), root.Under u := fun u hu => by
      obtain ⟨f, hf, hu⟩ := List.mem_filterMap.1 hu
      exact h u (List.mem_filterMap.2 ⟨f, List.mem_cons_of_mem _ hf, hu⟩)
    refine (makes_lowerOption t ht).bind fun d hd => (makes_lowerFields fs hfs).bind fun fs' hfs' =>
      builds_pure (fun e he => ?_) ?_
    · obtain ⟨f, hf, he⟩ := List.mem_filterMap.1 he
      rcases List.mem_cons.1 hf with rfl | hf
      · exact hd e (Option.mem_toList.2 he)
      · exact hfs' e (List.mem_filterMap.2 ⟨f, hf, he⟩)
    · cases d <;> simp [add_comm]

theorem extends_setLiteral : ∀ (t : Tree) (l : SetLiteral), root.Under t → setLiteral? text t = some l →
    ∀ {d : Draft} {isRec : Bool} {cs : List (Entry Tree)}, d.Tidy text root isRec cs →
      d.Extends text root isRec (cs ++ t.entries) (l.addTo d)
  | .set span isRec es, l, hunder, h => by
    rw [setLiteral?] at h
    cases h
    exact extends_addEntries es fun c hc => ⟨es, .literal hunder, hc⟩
  | .ident .., l, _, h | .integer .., l, _, h | .float .., l, _, h | .uri .., l, _, h | .string .., l, _, h
  | .path .., l, _, h | .paren .., l, _, h | .list .., l, _, h | .letIn .., l, _, h | .letBraces .., l, _, h
  | .lambda .., l, _, h | .apply .., l, _, h | .select .., l, _, h | .hasAttr .., l, _, h | .unary .., l, _, h
  | .binary .., l, _, h | .ifElse .., l, _, h | .withIn .., l, _, h | .assertIn .., l, _, h => by cases h

theorem extends_addEntry : ∀ c : Entry Tree, root.Writes c → ∀ {d : Draft} {isRec : Bool} {cs : List (Entry Tree)},
    d.Tidy text root isRec cs → d.Extends text root isRec (cs ++ [c]) (addEntry text c d)
  | .bind steps value, hw, d, isRec, cs, h => by
    rw [addEntry]
    have hsteps := builds_lowerAttr_of_mem steps fun t ht => hw.part (List.mem_append_left _ ht)
    have hvalue := hw.value
    have hv : ValueTidy text root value ⟨lower text value, setLiteral? text value⟩ :=
      ⟨(builds_lower value hvalue).result, isSome_setLiteral text value, isRec_of_setLiteral text value,
        fun l hl => extends_setLiteral value l hvalue hl⟩
    exact extends_bindPath hv hsteps hw h
  | .inherit none names, hw, d, isRec, cs, h => by
    rw [addEntry, lowerOption]
    have hnames := builds_lowerAttr_of_mem names fun t ht => hw.part ht
    have hopen : d.Tidy text root isRec (cs ++ [.inherit none []]) := tidy_skip h (grows_entry rfl) (by rintro x ⟨⟩)
    exact extends_inheritNames rfl hnames hopen
  | .inherit (some t) names, hw, d, isRec, cs, h => by
    rw [addEntry, lowerOption, bind_map_left]
    have hnames := builds_lowerAttr_of_mem names fun u hu => hw.part (List.mem_append_right _ hu)
    refine (builds_lower t (hw.part (List.mem_append_left _ List.mem_cons_self))).result.bind fun e he => ?_
    have hnumber : some (d.pushSource e).1 = (some t).map fun _ => (cs.filterMap Entry.source?).length :=
      congrArg some (pushSource_fst h e)
    have hstep := extends_inheritNames hnumber hnames (tidy_pushSource h he.1 he.2)
    rwa [Extends, ids_pushSource] at hstep

theorem extends_addEntries : ∀ es : List (Entry Tree), (∀ c ∈ es, root.Writes c) →
    ∀ {d : Draft} {isRec : Bool} {cs : List (Entry Tree)}, d.Tidy text root isRec cs →
      d.Extends text root isRec (cs ++ es) (addEntries text es d)
  | [], _, d, isRec, cs, h => by
    rw [addEntries, List.append_nil]
    exact builds_pure h rfl
  | c :: es, hw, d, isRec, cs, h => by
    rw [addEntries, List.append_cons]
    obtain ⟨hc, hes⟩ := List.forall_mem_cons.1 hw
    refine Builds.bindPart (extends_addEntry c hc h) (add_zero _) fun d' hd' => ?_
    rw [add_zero]
    exact extends_addEntries es hes hd'

end

end Tree

/-! ## Modules -/

section Module
variable {source : String} {tree : Tree} {m : Module} {odd : List Oddity} (h : Module.ofTree source tree = (m, odd))
include h

/-- The parts of an expression are older than it, and its bindings are what entries of the tree make of them. -/
theorem Module.tidy_entry : m.entry.Tidy source tree := by
  cases h
  exact (Tree.builds_lower source tree .self {} (by rintro i ⟨⟩)).1

/-- Every number that has been issued belongs to one expression. -/
theorem Module.ids_entry : m.entry.ids = Multiset.range m.count := by
  cases h
  have hids := (Tree.builds_lower source tree .self {} (by rintro i ⟨⟩)).2.2
  rw [zero_add] at hids
  exact hids.trans (by rw [numbers, Multiset.range, List.range_eq_range']; rfl)

theorem Module.once_entry : m.entry.Everywhere Expr.BindsOnce := by
  intro p hp g hg
  obtain ⟨cs, -, hmerges⟩ := (Module.tidy_entry h p hp).group g (Form.bindings?_of_group hg)
  exact hmerges.nodup

theorem Module.sourced_entry : m.entry.Everywhere Expr.Sourced := by
  intro p hp g hg
  obtain ⟨cs, -, hmerges⟩ := (Module.tidy_entry h p hp).group g (Form.bindings?_of_group hg)
  exact hmerges.sourced

theorem Module.sourced_of_mem {e : Expr} (he : e ∈ m.exprs) : e.Everywhere Expr.Sourced :=
  (Module.sourced_entry h).of_mem (List.mem_mergeSort.1 he)

/-- No two expressions of a module have the same number. -/
theorem Module.nodup_ids : (m.entry.all.map Expr.id).Nodup := by
  have hnodup := Multiset.nodup_range m.count
  rw [← Module.ids_entry h] at hnodup
  exact Multiset.coe_nodup.1 hnodup

end Module

theorem Module.exists_tree {text : String} {r : Module × List Oddity} (h : Module.ofText? text = some r) :
    ∃ tree, Tree.ofText? text = some tree ∧ Module.ofTree text tree = r := Option.map_eq_some_iff.1 h

end NixTyping
