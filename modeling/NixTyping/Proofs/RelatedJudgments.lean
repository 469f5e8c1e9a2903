import Mathlib
import NixTyping.Proofs.WalkBasics
/-!
# Related judgments

Two judgments are compared part by part: their types and constraints by a
`Correspondence`, the names of their assumptions by a relation of names. Every rule for
judgments takes related parts to related wholes; this is said here once for each rule.
A property of all types of a judgment is the case in which both judgments are the same.

At a binder the relation of names changes. `Binds` says what is needed there: the binder
takes the same assumptions on both sides, and the others are related outside too.
-/

namespace NixTyping

/-! ## Lists with keys -/

section Keyed
variable {α β : Type} {R : α → β → Prop}

/-- The same key, with related values. -/
def Keyed (R : α → β → Prop) (e : String × α) (e' : String × β) : Prop := e'.1 = e.1 ∧ R e.2 e'.2

theorem keys_eq_of_keyed {l : List (String × α)} {l' : List (String × β)} (h : List.Forall₂ (Keyed R) l l') :
    l'.map (·.1) = l.map (·.1) := by
  induction h with
  | nil => rfl
  | cons he _ ih => rw [List.map_cons, List.map_cons, he.1, ih]

theorem keyed_map {γ : Type} {l : List (String × α)} {l' : List (String × β)} {f : α → γ} {g : β → γ} {S : γ → γ → Prop}
    (h : List.Forall₂ (Keyed R) l l') (hS : ∀ a b, R a b → S (f a) (g b)) :
    List.Forall₂ (Keyed S) (l.map fun e => (e.1, f e.2)) (l'.map fun e => (e.1, g e.2)) := by
  rw [List.forall₂_map_left_iff, List.forall₂_map_right_iff]
  exact h.imp fun _ _ he => ⟨he.1, hS _ _ he.2⟩

theorem rel_findKey {l : List (String × α)} {l' : List (String × β)} (h : List.Forall₂ (Keyed R) l l') (x : String) :
    Option.Rel R (findKey x l) (findKey x l') := by
  induction h with
  | nil => exact .none
  | @cons e e' l l' he _ ih =>
    obtain ⟨k, v⟩ := e
    obtain ⟨k', v'⟩ := e'
    obtain ⟨hk, hv⟩ := he
    obtain rfl : k' = k := hk
    unfold findKey
    split
    · exact .some hv
    · exact ih

theorem rel_insertKey {l : List (String × α)} {l' : List (String × β)} (h : List.Forall₂ (Keyed R) l l') (k : String)
    {v : α} {v' : β} (hv : R v v') : List.Forall₂ (Keyed R) (insertKey k v l) (insertKey k v' l') := by
  induction h with
  | nil => exact .cons ⟨rfl, hv⟩ .nil
  | @cons e e' l l' he hl ih =>
    obtain ⟨k₁, u⟩ := e
    obtain ⟨k₁', u'⟩ := e'
    obtain ⟨hk, hu⟩ := he
    obtain rfl : k₁' = k₁ := hk
    unfold insertKey
    split
    · exact .cons ⟨rfl, hv⟩ (.cons ⟨rfl, hu⟩ hl)
    · split
      · exact .cons ⟨rfl, hv⟩ hl
      · exact .cons ⟨rfl, hu⟩ ih

theorem rel_sortKeys {l : List (String × α)} {l' : List (String × β)} (h : List.Forall₂ (Keyed R) l l') :
    List.Forall₂ (Keyed R) (sortKeys l) (sortKeys l') := by
  have hfold : ∀ m m', List.Forall₂ (Keyed R) m m' → List.Forall₂ (Keyed R) (l.foldl (fun m e => insertKey e.1 e.2 m) m)
      (l'.foldl (fun m e => insertKey e.1 e.2 m) m') := by
    induction h with
    | nil => exact fun m m' hm => hm
    | @cons e e' l l' he _ ih =>
      intro m m' hm
      rw [List.foldl_cons, List.foldl_cons, he.1]
      exact ih _ _ (rel_insertKey hm e.1 he.2)
  exact hfold [] [] .nil

end Keyed

/-! ## Types and constraints -/

/-- The signatures of operators. -/
inductive Signature : Ty → Prop where
  | unary (op : UnaryOp) : Signature op.signature
  | binary {op : BinOp} {sig : Ty} (h : op.signature = some sig) : Signature sig

/-- How the types, the fixed variables and the constraints of two judgments go together, so that the rules keep it. The
signature of an operator is the same on both sides. -/
structure Correspondence where
  ty : Ty → Ty → Prop
  mono : VarSet → VarSet → Prop
  constraint : Constraint → Constraint → Prop
  prim (p : Prim) : ty (.prim p) (.prim p)
  fn {p p' b b' : Ty} : ty p p' → ty b b' → ty (.fn p b) (.fn p' b')
  list {ts ts' : List Ty} : List.Forall₂ ty ts ts' → ty (.list ts) (.list ts')
  record {fs fs' : List (String × Ty)} (isOpen : Bool) : List.Forall₂ (Keyed ty) fs fs' →
    ty (.record fs isOpen) (.record fs' isOpen)
  eq {l l' r r' : Ty} : ty l l' → ty r r' → constraint (.eq l r) (.eq l' r')
  operator {p p' b b' sig : Ty} : ty (.fn p b) (.fn p' b') → Signature sig →
    constraint (.eq (.fn p b) sig) (.eq (.fn p' b') sig)
  implicit {t t' b b' : Ty} {M M' : VarSet} : ty t t' → mono M M' → ty b b' →
    constraint (.implicit t M b) (.implicit t' M' b')

theorem Correspondence.ofFields (K : Correspondence) {fs fs' : List (String × Ty)}
    (h : List.Forall₂ (Keyed K.ty) fs fs') (isOpen : Bool) : K.ty (.ofFields fs isOpen) (.ofFields fs' isOpen) :=
  K.record isOpen (rel_sortKeys h)

/-! ## Names -/

/-- Of two related names, the one is `x` when the other is `x'`. -/
def Alike (N : String → String → Prop) (x x' : String) : Prop := ∀ y y', N y y' → (y = x ↔ y' = x')

/-- Binders of `names` and `names'`: related names that they take are taken by both, in the same place, and the others
are related outside. -/
structure Binds (N N' : String → String → Prop) (names names' : List String) : Prop where
  taken : List.Forall₂ (Alike N) names names'
  free : ∀ y y', N y y' → y ∉ names → N' y y'

section Names
variable {N N' : String → String → Prop} {names names' : List String}

theorem Binds.mem_iff (h : Binds N N' names names') {y y' : String} (hy : N y y') : y ∈ names ↔ y' ∈ names' := by
  obtain ⟨htaken, -⟩ := h
  induction htaken with
  | nil => simp
  | cons hx _ ih => rw [List.mem_cons, List.mem_cons, hx y y' hy, ih]

theorem Binds.alike (h : Binds N N' names names) {x : String} (hx : x ∈ names) : Alike N x x :=
  List.forall₂_same.1 h.taken x hx

/-- Names that are related when they are the same. -/
theorem binds_eq (names : List String) : Binds Eq Eq names names where
  taken := List.forall₂_same.2 fun x _ y y' hy => by rw [hy]
  free _ _ hy _ := hy

end Names

namespace Judgment

/-- The parts of two judgments are related, one by one. -/
structure Related (K : Correspondence) (N : String → String → Prop) (J J' : Judgment) : Prop where
  ty : K.ty J.ty J'.ty
  assumptions : List.Forall₂ (fun a a' => N a.1 a'.1 ∧ K.ty a.2 a'.2) J.assumptions.entries J'.assumptions.entries
  constraints : List.Forall₂ K.constraint J.constraints J'.constraints

section Rules
variable {K : Correspondence} {N N' : String → String → Prop} {J J' : Judgment} {t t' : Ty}

theorem Related.imp {K' : Correspondence} (h : Related K N J J') (hty : ∀ t t', K.ty t t' → K'.ty t t')
    (hN : ∀ x x', N x x' → N' x x') (hc : ∀ c c', K.constraint c c' → K'.constraint c c') : Related K' N' J J' where
  ty := hty _ _ h.ty
  assumptions := h.assumptions.imp fun _ _ ha => ⟨hN _ _ ha.1, hty _ _ ha.2⟩
  constraints := h.constraints.imp fun c c' => hc c c'

theorem related_ofTy (ht : K.ty t t') : Related K N (ofTy t) (ofTy t') := ⟨ht, .nil, .nil⟩

theorem related_reference {x x' : String} (hx : N x x') (ht : K.ty t t') :
    Related K N (reference x t) (reference x' t') :=
  ⟨ht, .cons ⟨hx, ht⟩ .nil, .nil⟩

theorem related_constrained {c c' : Constraint} (hc : K.constraint c c') (ht : K.ty t t') :
    Related K N (constrained c t) (constrained c' t') := ⟨ht, .nil, .cons hc .nil⟩

theorem related_merged {js js' : List Judgment} (h : List.Forall₂ (Related K N) js js') (ht : K.ty t t') :
    Related K N (merged js t) (merged js' t') where
  ty := ht
  assumptions := List.rel_flatMap h fun _ _ hj => hj.assumptions
  constraints := List.rel_flatMap h fun _ _ hj => hj.constraints

theorem Related.require (h : Related K N J J') {cs cs' : List Constraint} (hcs : List.Forall₂ K.constraint cs cs') :
    Related K N (J.require cs) (J'.require cs') := ⟨h.ty, h.assumptions, List.rel_append h.constraints hcs⟩

theorem Related.apply {A A' : Judgment} (hfn : Related K N J J') (harg : Related K N A A') (ht : K.ty t t') :
    Related K N (apply J A t) (apply J' A' t') :=
  (related_merged (.cons hfn (.cons harg .nil)) ht).require (.cons (K.eq hfn.ty (K.fn harg.ty ht)) .nil)

theorem Related.unary (h : Related K N J J') (op : UnaryOp) (ht : K.ty t t') :
    Related K N (unary op J t) (unary op J' t') :=
  (related_merged (.cons h .nil) ht).require (.cons (K.operator (K.fn h.ty ht) (.unary op)) .nil)

theorem Related.binary {L L' R R' : Judgment} (hl : Related K N L L') (hr : Related K N R R') (op : BinOp)
    (ht : K.ty t t') : Related K N (binary op L R t) (binary op L' R' t') := by
  have hparts : List.Forall₂ (Related K N) [L, R] [L', R'] := .cons hl (.cons hr .nil)
  unfold Judgment.binary
  cases hsig : op.signature with
  | none => exact related_merged hparts (K.prim .bool)
  | some sig =>
    exact (related_merged hparts ht).require (.cons (K.operator (K.fn hl.ty (K.fn hr.ty ht)) (.binary hsig)) .nil)

theorem related_list {js js' : List Judgment} (h : List.Forall₂ (Related K N) js js') :
    Related K N (list js) (list js') := by
  refine related_merged h (K.list ?_)
  rw [List.forall₂_map_left_iff, List.forall₂_map_right_iff]
  exact h.imp fun _ _ hj => hj.ty

theorem related_set {fields fields' : List (String × Judgment)} {extra extra' : List Judgment}
    (hfields : List.Forall₂ (Keyed (Related K N)) fields fields') (hextra : List.Forall₂ (Related K N) extra extra')
    (isOpen : Bool) : Related K N (set fields extra isOpen) (set fields' extra' isOpen) := by
  refine related_merged (List.rel_append ?_ hextra) (K.ofFields (keyed_map hfields fun _ _ hj => hj.ty) isOpen)
  rw [List.forall₂_map_left_iff, List.forall₂_map_right_iff]
  exact hfields.imp fun _ _ hf => hf.2

theorem Related.ifElse {C C' Y Y' : Judgment} (hc : Related K N C C') (hy : Related K N Y Y') (hn : Related K N J J') :
    Related K N (ifElse C Y J) (ifElse C' Y' J') :=
  (related_merged (.cons hc (.cons hy (.cons hn .nil))) hy.ty).require
    (.cons (K.eq hc.ty (K.prim .bool)) (.cons (K.eq hy.ty hn.ty) .nil))

theorem Related.assertIn {C C' : Judgment} (hc : Related K N C C') (h : Related K N J J') :
    Related K N (assertIn C J) (assertIn C' J') :=
  (related_merged (.cons hc (.cons h .nil)) h.ty).require (.cons (K.eq hc.ty (K.prim .bool)) .nil)

/-! ### Binders -/

theorem Related.lookup (h : Related K N J J') {x x' : String} (hx : Alike N x x') :
    List.Forall₂ K.ty (J.assumptions.lookup x) (J'.assumptions.lookup x') := by
  unfold Assumptions.lookup
  rw [List.forall₂_map_left_iff, List.forall₂_map_right_iff]
  refine (List.rel_filter ?_ h.assumptions).imp fun _ _ ha => ha.2
  intro a a' ha
  simpa using hx _ _ ha.1

theorem Related.removeAll (h : Related K N J J') {names names' : List String} (hb : Binds N N' names names') :
    List.Forall₂ (fun a a' => N' a.1 a'.1 ∧ K.ty a.2 a'.2) (J.assumptions.removeAll names).entries
      (J'.assumptions.removeAll names').entries := by
  have hleft : List.Forall₂ (fun a a' => N a.1 a'.1 ∧ K.ty a.2 a'.2) (J.assumptions.removeAll names).entries
      (J'.assumptions.removeAll names').entries := by
    rw [removeAll_entries, removeAll_entries]
    refine List.rel_filter ?_ h.assumptions
    intro a a' ha
    simpa using not_congr (hb.mem_iff ha.1)
  have hfree : ∀ a ∈ (J.assumptions.removeAll names).entries, a.1 ∉ names := by
    intro a ha
    rw [removeAll_entries] at ha
    simpa using (List.mem_filter.1 ha).2
  exact ((List.forall₂_and_left _ _).2 ⟨hfree, hleft⟩).imp fun _ _ ha => ⟨hb.free _ _ ha.2.1 ha.1, ha.2.2⟩

theorem Related.tie (h : Related K N J J') {x x' : String} (hx : Alike N x x') (ht : K.ty t t') :
    List.Forall₂ K.constraint (tie J.assumptions x t) (tie J'.assumptions x' t') := by
  unfold Judgment.tie
  rw [List.forall₂_map_left_iff, List.forall₂_map_right_iff]
  exact (h.lookup hx).imp fun _ _ ho => K.eq ho ht

theorem Related.lambda (h : Related K N J J') {x x' : String} (hb : Binds N N' [x] [x']) (ht : K.ty t t') :
    Related K N' (lambda x t J) (lambda x' t' J') where
  ty := K.fn ht h.ty
  assumptions := h.removeAll hb
  constraints := by
    cases hb.taken with
    | cons hx _ => exact List.rel_append h.constraints (h.tie hx ht)

/-- The fields of two patterns, with related variables and defaults. -/
structure PatternField.Related (K : Correspondence) (N : String → String → Prop) (f f' : PatternField) : Prop where
  name : f'.name = f.name
  var : K.ty (.var f.var) (.var f'.var)
  dflt : Option.Rel (Judgment.Related K N) f.dflt f'.dflt

theorem rel_defaultsOf {fields fields' : List PatternField}
    (h : List.Forall₂ (PatternField.Related K N) fields fields') :
    List.Forall₂ (fun d d' => Related K N d.1 d'.1 ∧ K.ty d.2 d'.2) (defaultsOf fields) (defaultsOf fields') := by
  refine List.rel_filterMap ?_ h
  rintro ⟨x, v, d⟩ ⟨x', v', d'⟩ ⟨-, hv, hd⟩
  cases hd with
  | none => exact .none
  | some hd => exact .some ⟨hd, hv⟩

theorem Related.patternParts (h : Related K N J J') {fields fields' : List PatternField}
    (hfields : List.Forall₂ (PatternField.Related K N) fields fields') :
    Related K N (patternParts J fields) (patternParts J' fields') := by
  refine related_merged (.cons h ?_) h.ty
  rw [List.forall₂_map_left_iff, List.forall₂_map_right_iff]
  exact (rel_defaultsOf hfields).imp fun _ _ hd => hd.1

theorem Related.patternLambda (h : Related K N J J') {fields fields' : List PatternField} {whole : Option String}
    (hfields : List.Forall₂ (PatternField.Related K N) fields fields')
    (hb : Binds N N' (fields.map (·.name) ++ whole.toList) (fields.map (·.name) ++ whole.toList)) (isOpen : Bool) :
    Related K N' (patternLambda fields whole isOpen J) (patternLambda fields' whole isOpen J') := by
  have htyped : List.Forall₂ (Keyed K.ty) (fields.map fun f => (f.name, Ty.var f.var))
      (fields'.map fun f => (f.name, Ty.var f.var)) := by
    rw [List.forall₂_map_left_iff, List.forall₂_map_right_iff]
    exact hfields.imp fun _ _ hf => ⟨hf.name, hf.var⟩
  have hnames : fields'.map (·.name) = fields.map (·.name) := by
    simpa [Function.comp_def] using keys_eq_of_keyed htyped
  have hrecord := K.ofFields htyped isOpen
  have hparts := h.patternParts hfields
  -- the name of the whole set comes after those of the fields
  have hbound : List.Forall₂ (fun n n' => n.1 ∈ fields.map (·.name) ++ whole.toList ∧ Keyed K.ty n n')
      ((fields.map fun f => (f.name, Ty.var f.var)) ++
        whole.toList.map fun a => (a, Ty.ofFields (fields.map fun f => (f.name, .var f.var)) isOpen))
      ((fields'.map fun f => (f.name, Ty.var f.var)) ++
        whole.toList.map fun a => (a, Ty.ofFields (fields'.map fun f => (f.name, .var f.var)) isOpen)) := by
    refine (List.forall₂_and_left _ _).2 ⟨fun n hn => ?_, List.rel_append htyped ?_⟩
    · rcases List.mem_append.1 hn with hn | hn
      · obtain ⟨f, hf, rfl⟩ := List.mem_map.1 hn
        exact List.mem_append_left _ (List.mem_map_of_mem hf)
      · obtain ⟨a, ha, rfl⟩ := List.mem_map.1 hn
        exact List.mem_append_right _ ha
    · rw [List.forall₂_map_left_iff, List.forall₂_map_right_iff, List.forall₂_same]
      exact fun a _ => ⟨rfl, hrecord⟩
  rw [patternLambda_eq, patternLambda_eq]
  refine ⟨K.fn hrecord h.ty, ?_, List.rel_append (List.rel_append h.constraints ?_) ?_⟩
  · simp only [hnames]
    exact hparts.removeAll hb
  · exact List.rel_flatMap (rel_defaultsOf hfields) fun _ _ hd => .cons (K.eq hd.1.ty hd.2) hd.1.constraints
  · refine List.rel_flatMap hbound fun n n' hn => ?_
    rw [hn.2.1]
    exact hparts.tie (hb.alike hn.1) hn.2.2

theorem Related.letIn (h : Related K N J J') {bound bound' : List (String × Ty)} {group group' : List Judgment}
    {M M' : VarSet} (hbound : List.Forall₂ (Keyed K.ty) bound bound')
    (hgroup : List.Forall₂ (Related K N') group group') (hM : K.mono M M')
    (hb : Binds N N' (bound.map (·.1)) (bound.map (·.1))) :
    Related K N' (letIn bound group J M) (letIn bound' group' J' M') := by
  have hmerged := related_merged hgroup h.ty
  have hkeys : ∀ b ∈ bound, b.1 ∈ bound.map (·.1) := fun b hb => List.mem_map_of_mem hb
  refine ⟨h.ty, List.rel_append hmerged.assumptions ?_,
    List.rel_append (List.rel_append hmerged.constraints h.constraints) ?_⟩
  · rw [keys_eq_of_keyed hbound]
    exact h.removeAll hb
  · refine List.rel_flatMap ((List.forall₂_and_left _ _).2 ⟨hkeys, hbound⟩) ?_
    rintro ⟨x, u⟩ ⟨x', u'⟩ ⟨hx, hname, hu⟩
    obtain rfl : x' = x := hname
    simp only
    rw [List.forall₂_map_left_iff, List.forall₂_map_right_iff]
    exact (h.lookup (hb.alike hx)).imp fun _ _ ho => K.implicit ho hM hu

end Rules

end Judgment

end NixTyping
