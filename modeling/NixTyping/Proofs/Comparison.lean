import Mathlib
import NixTyping.Proofs.AmbientLabels
import NixTyping.Proofs.Renaming
import NixTyping.Proofs.VariableRenaming
/-!
# What two walks may differ in

One walk can be taken in several ways. The parameter of a function may have another name
(`Renaming`), the walk may begin in the midst of another one (`Base`), and the environment
may bind the variables of its schemes under other labels. A `Comparison` has all three, so
that two walks need to be compared once.

This module says what goes together in the two walks: types and constraints
(`Comparison.kin`), the names of assumptions at a place (`Comparison.Names`), records, and
the scopes and contexts around a place (`Comparison.Contexts`).
-/

namespace NixTyping

open Judging

/-! ## Bases -/

/-- A state in which a walk can begin, with the scopes around it and the slots that are being computed. -/
structure Base where
  state : State
  scopes : List Scope
  forcing : List Nat
  opensNothing : ∀ sc ∈ scopes, sc.with? = none
  live : ∀ i ∈ forcing, i < state.size
  known : ∀ r ∈ state.known, r.1 < state.next

namespace Base

/-- The start of a walk. -/
def start : Base := ⟨{}, [], [], by simp, by simp, by simp⟩

variable (B : Base)

/-- The variable of the walk from the base that belongs to one of the walk from the start. -/
def var (v : Nat) : Nat := v + B.state.next

/-- The number of a slot. -/
def index (i : Nat) : Nat := i + B.state.size

def names (slots : NamedSlots) : NamedSlots := slots.map fun n => (n.1, B.index n.2)

def components (cs : List (Nat × Nat)) : List (Nat × Nat) := cs.map fun c => (B.index c.1, c.2)

variable {B}

theorem var_injective : Function.Injective B.var := fun _ _ h => Nat.add_right_cancel h

theorem index_injective : Function.Injective B.index := fun _ _ h => Nat.add_right_cancel h

theorem map_fst_names (slots : NamedSlots) : (B.names slots).map (·.1) = slots.map (·.1) := by
  simp [names]

theorem lookup_names (slots : NamedSlots) (x : String) : (B.names slots).lookup x = (slots.lookup x).map B.index := by
  induction slots with
  | nil => rfl
  | cons n slots ih =>
    obtain ⟨y, i⟩ := n
    simp only [names, List.map_cons, List.lookup_cons] at ih ⊢
    split
    · rfl
    · exact ih

theorem lookup_components (cs : List (Nat × Nat)) (i : Nat) : (B.components cs).lookup (B.index i) = cs.lookup i := by
  induction cs with
  | nil => rfl
  | cons c cs ih =>
    obtain ⟨k, n⟩ := c
    have hkey : (B.index i == B.index k) = (i == k) := by
      rw [Bool.eq_iff_iff, beq_iff_eq, beq_iff_eq]
      exact index_injective.eq_iff
    simp only [components, List.map_cons, List.lookup_cons, hkey] at ih ⊢
    rw [ih]

theorem components_zip (slots : NamedSlots) (sources ks : List Nat) :
    ((B.names slots).map (·.2) ++ sources.map B.index).zip ks = B.components ((slots.map (·.2) ++ sources).zip ks) := by
  have hmap : (B.names slots).map (·.2) ++ sources.map B.index = (slots.map (·.2) ++ sources).map B.index := by
    simp [names]
  rw [hmap, List.zip_map_left]
  rfl

/-- The components of a group of the walk have none of the slots of the base. -/
theorem lookup_components_of_lt (cs : List (Nat × Nat)) {i : Nat} (h : i < B.state.size) :
    (B.components cs).lookup i = none := by
  rw [List.lookup_eq_none_iff]
  intro c hc
  obtain ⟨d, -, rfl⟩ := List.mem_map.1 hc
  rw [bne_iff_ne]
  show i ≠ d.1 + B.state.size
  omega

theorem inOwnComponent {ctx ctx' : Context} (h : ctx'.forcing = ctx.forcing.map B.index ++ B.forcing)
    (cs : List (Nat × Nat)) (slot : Nat) :
    ctx'.inOwnComponent (B.components cs) (B.index slot) = ctx.inOwnComponent cs slot := by
  have hbase : B.forcing.find? (fun id => ((B.components cs).lookup id).isSome) = none := by
    rw [List.find?_eq_none]
    intro i hi
    simp [lookup_components_of_lt cs (B.live i hi)]
  have hfind : ctx'.forcing.find? (fun id => ((B.components cs).lookup id).isSome) =
      (ctx.forcing.find? fun id => (cs.lookup id).isSome).map B.index := by
    rw [h, List.find?_append, hbase, Option.or_none, List.find?_map]
    simp only [Function.comp_def, lookup_components]
  rw [Context.inOwnComponent, hfind, Context.inOwnComponent]
  cases ctx.forcing.find? fun id => (cs.lookup id).isSome with
  | none => rfl
  | some owner => simp only [Option.map_some, lookup_components]

end Base

/-! ## Types and constraints -/

/-- Two walks: the one from the start over an expression, in `env`; the other from `base` over its renaming, in `env'`.
They are `strict` when both go equally deep, so that the second fails where the first does. -/
structure Comparison where
  env : Env
  env' : Env
  labels : Nat → Nat
  R : Renaming
  base : Base
  strict : Prop

namespace Comparison
variable (C : Comparison)

/-- The types and constraints of the two walks when the first has issued `k` variables. -/
def kin (k : Nat) : Correspondence where
  ty t t' := t.Issued k ∧ t' = t.rename C.base.var
  mono M M' := (∀ v ∈ M, v < k) ∧ M' = M.rename C.base.var
  constraint c c' := c.Issued C.env k ∧ c' = (c.rename C.base.var).relabelScheme C.labels
  prim p := ⟨Ty.issued_prim k p, rfl⟩
  fn := by
    rintro p _ b _ ⟨hp, rfl⟩ ⟨hb, rfl⟩
    exact ⟨Ty.issued_fn.2 ⟨hp, hb⟩, rfl⟩
  list {ts ts'} h := by
    obtain ⟨hissued, heq⟩ := (List.forall₂_and_left _ _).1 h
    obtain rfl := eq_map_of_forall₂ heq
    exact ⟨Ty.issued_list.2 hissued, (Ty.rename_list _ _).symm⟩
  record {fs fs'} isOpen h := by
    have hissued : ∀ f ∈ fs, f.2.Issued k := by
      intro f hf
      obtain ⟨f', -, hf'⟩ := exists_of_forall₂ h.flip hf
      exact hf'.2.1
    obtain rfl : fs' = fs.map fun f => (f.1, f.2.rename C.base.var) :=
      eq_map_of_forall₂ (h.imp fun _ _ hf => Prod.ext hf.1 hf.2.2)
    exact ⟨Ty.issued_record.2 hissued, (Ty.rename_record _ _ _).symm⟩
  eq := by
    rintro l _ r _ ⟨hl, rfl⟩ ⟨hr, rfl⟩
    exact ⟨.eq hl hr, rfl⟩
  operator := by
    rintro p p' b b' sig ⟨hfn, heq⟩ hsig
    -- a signature has no variable
    have hsame : sig.rename C.base.var = sig := Ty.rename_eq_self hsig.wellFormed fun v hv => absurd hv (hsig.closed v)
    refine ⟨.operator hfn hsig, ?_⟩
    rw [heq, Constraint.rename, hsame]
    rfl
  implicit := by
    rintro t _ b _ M _ ⟨ht, rfl⟩ ⟨hM, rfl⟩ ⟨hb, rfl⟩
    exact ⟨.implicit ht hM hb, rfl⟩

section Kin
variable {C} {k k' : Nat}

theorem kin_ty_mono (hk : k ≤ k') {t t' : Ty} (h : (C.kin k).ty t t') : (C.kin k').ty t t' := ⟨h.1.mono hk, h.2⟩

theorem kin_mono_mono (hk : k ≤ k') {M M' : VarSet} (h : (C.kin k).mono M M') : (C.kin k').mono M M' :=
  ⟨fun v hv => (h.1 v hv).trans_le hk, h.2⟩

theorem kin_constraint_mono (hk : k ≤ k') {c c' : Constraint} (h : (C.kin k).constraint c c') :
    (C.kin k').constraint c c' :=
  ⟨h.1.mono hk, h.2⟩

/-- A variable that is issued. -/
theorem kin_ty_var {v v' : Nat} : (C.kin k).ty (.var v) (.var v') ↔ v < k ∧ v' = C.base.var v := by
  show (Ty.var v).Issued k ∧ Ty.var v' = .var (C.base.var v) ↔ _
  rw [Ty.issued_var, Ty.var.injEq]

theorem kin_mono_empty : (C.kin k).mono ∅ ∅ := by
  refine ⟨by simp, VarSet.ext fun v => ?_⟩
  simp

theorem kin_mono_insert {M M' : VarSet} {vs vs' : List Nat} (h : (C.kin k).mono M M')
    (hvs : List.Forall₂ (fun v v' => (C.kin k).ty (.var v) (.var v')) vs vs') :
    (C.kin k).mono (vs.foldl (fun s v => s.insert v) M) (vs'.foldl (fun s v => s.insert v) M') := by
  obtain ⟨hlt, hmap⟩ := (List.forall₂_and_left _ _).1 (hvs.imp fun _ _ hv => kin_ty_var.1 hv)
  obtain rfl := eq_map_of_forall₂ hmap
  obtain ⟨hM, rfl⟩ := h
  refine ⟨fun v hv => (VarSet.mem_foldl_insert.1 hv).elim (hM v) (hlt v), VarSet.ext fun w => ?_⟩
  simp only [VarSet.mem_rename, VarSet.mem_foldl_insert, List.mem_map]
  grind

end Kin

/-! ## Places and names -/

/-- A place in both expressions: the stage of the renaming there, and the names that a group binds around it. -/
structure Place where
  stage : Renaming.Stage
  grouped : String → Prop

/-- Where the walks begin. -/
def Place.start : Place := ⟨.outside, fun _ => False⟩

/-- Under parameters or in the body of a `let`. -/
def within (p : Place) (names : List String) : Place := ⟨C.R.under names p.stage, fun x => x ∉ names ∧ p.grouped x⟩

/-- In the definitions of a group. -/
def among (p : Place) (names : List String) : Place := ⟨C.R.under names p.stage, fun x => x ∈ names ∨ p.grouped x⟩

/-- In the function whose parameter is renamed. -/
def function (p : Place) : Place := ⟨.inside, fun x => x ≠ C.R.old ∧ p.grouped x⟩

/-- A name that an expression may refer to: the base binds it nowhere, and the environments have the same for it, up to
labels. -/
structure Refers (x : String) : Prop where
  fresh : x ≠ C.R.new
  free : lexicalIn C.base.scopes x = none
  env : C.env'.lookup x = (C.env.lookup x).map (List.map (·.relabel C.labels))

/-- A name that is assumed at a place. No group around the place binds it. -/
structure Names (p : Place) (x x' : String) : Prop where
  refers : C.Refers x
  free : ¬ p.grouped x
  eq : x' = C.R.name p.stage x

/-- What is asked of each expression under the one that is walked over. -/
structure Suits (e : Expr) : Prop where
  fresh : C.R.new ∉ e.form.names
  refers : ∀ x, e.form = .ref x → C.Refers x
  components : ∀ g, e.form.group? = some g → C.R.old ∈ g.names →
    (Dependencies.ofBindings (C.R.group .outside .outside g)).components = (Dependencies.ofBindings g).components

section Names
variable {C} {p : Place} {names : List String}

theorem binds_within (hnew : C.R.new ∉ names) (p : Place) :
    Binds (C.Names (C.within p names)) (C.Names p) names names where
  taken := by
    refine List.forall₂_same.2 fun x hx y y' hy => ?_
    rw [hy.eq]
    exact (Renaming.name_eq_iff hnew hx p.stage).symm
  free y y' hy hfree :=
    ⟨hy.refers, fun hgroup => hy.free ⟨hfree, hgroup⟩, by rw [hy.eq]; exact Renaming.name_under hfree p.stage⟩

theorem binds_function (p : Place) : Binds (C.Names (C.function p)) (C.Names p) [C.R.old] [C.R.new] where
  taken := by
    refine .cons (fun y y' hy => ?_) .nil
    rw [hy.eq]
    show _ ↔ C.R.name .inside y = _
    by_cases hold : y = C.R.old
    · simp [hold]
    · rw [Renaming.name_of_ne hold]
      exact iff_of_false hold hy.refers.fresh
  free y y' hy hfree := by
    have hold : y ≠ C.R.old := by simpa using hfree
    refine ⟨hy.refers, fun hgroup => hy.free ⟨hold, hgroup⟩, ?_⟩
    rw [hy.eq, Renaming.name_of_ne hold, Renaming.name_of_ne hold]

/-- A group binds no assumption of its definitions. -/
theorem Names.leave {x x' : String} (h : C.Names (C.among p names) x x') : C.Names p x x' := by
  have hfree : x ∉ names := fun hx => h.free (.inl hx)
  refine ⟨h.refers, fun hgroup => h.free (.inr hgroup), ?_⟩
  rw [h.eq]
  exact Renaming.name_under hfree p.stage

end Names

/-- Two judgments at a place. -/
def Judgments (p : Place) (k : Nat) (J J' : Judgment) : Prop := Judgment.Related (C.kin k) (C.Names p) J J'

section Judgments
variable {C} {p : Place} {k k' : Nat} {J J' : Judgment}

theorem Judgments.mono (h : C.Judgments p k J J') (hk : k ≤ k') : C.Judgments p k' J J' :=
  Judgment.Related.imp h (fun _ _ => kin_ty_mono hk) (fun _ _ hx => hx) fun _ _ => kin_constraint_mono hk

theorem Judgments.leave {names : List String} (h : C.Judgments (C.among p names) k J J') : C.Judgments p k J J' :=
  Judgment.Related.imp h (fun _ _ ht => ht) (fun _ _ => Names.leave) fun _ _ hc => hc

theorem Judgments.issued (h : C.Judgments p k J J') : J.Issued C.env k where
  ty := h.ty.1
  assumptions a ha := by
    obtain ⟨a', -, ha'⟩ := exists_of_forall₂ h.assumptions.flip ha
    exact ha'.2.1
  constraints := ((List.forall₂_and_left _ _).1 h.constraints).1

/-- Where no name is changed, the one judgment is the other with its variables and labels changed. -/
theorem Judgments.eq (h : C.Judgments .start k J J') : J' = (J.rename C.base.var).relabelSchemes C.labels := by
  obtain ⟨⟨entries⟩, constraints, ty⟩ := J
  obtain ⟨⟨entries'⟩, constraints', ty'⟩ := J'
  obtain rfl : ty' = ty.rename C.base.var := h.ty.2
  obtain rfl : entries' = entries.map fun a => (a.1, a.2.rename C.base.var) := by
    refine eq_map_of_forall₂ (h.assumptions.imp fun a a' ha => Prod.ext (ha.1.eq.trans ?_) ha.2.2)
    exact Renaming.name_outside _ _
  obtain rfl : constraints' = (constraints.map (·.rename C.base.var)).map (·.relabelScheme C.labels) := by
    rw [List.map_map]
    exact eq_map_of_forall₂ (h.constraints.imp fun _ _ hc => hc.2)
  rfl

theorem Judgments.refers (h : C.Judgments p k J J') : ∀ a ∈ J.assumptions.entries, C.Refers a.1 := by
  intro a ha
  obtain ⟨a', -, ha'⟩ := exists_of_forall₂ h.assumptions.flip ha
  exact ha'.1.refers

end Judgments

/-! ## Records -/

/-- A type that was taken out of a record. The walks did not make those of the environment. -/
inductive Taken (k : Nat) : Origin → Origin → Ty → Ty → Prop where
  | here {t t' : Ty} (ty : (C.kin k).ty t t') : Taken k .here .here t t'
  | letBound {M M' : VarSet} {t t' : Ty} (mono : (C.kin k).mono M M') (ty : (C.kin k).ty t t') :
    Taken k (.letBound M) (.letBound M') t t'
  | ambient {vars : List Nat} {t t' : Ty} (offered : C.env.Offers vars t) (eq : t' = t.relabel C.labels) :
    Taken k (.ambient vars) (.ambient (vars.map C.labels)) t t'

def Records (k : Nat) (r r' : KnownRecord) : Prop :=
  C.Taken k r.origin r'.origin (.record r.fields false) (.record r'.fields false)

section Records
variable {C} {k k' : Nat} {o o' : Origin} {t t' : Ty}

theorem Taken.mono (h : C.Taken k o o' t t') (hk : k ≤ k') : C.Taken k' o o' t t' := by
  cases h with
  | here ty => exact .here (kin_ty_mono hk ty)
  | letBound mono ty => exact .letBound (kin_mono_mono hk mono) (kin_ty_mono hk ty)
  | ambient offered eq => exact .ambient offered eq

theorem Records.mono {r r' : KnownRecord} (h : C.Records k r r') (hk : k ≤ k') : C.Records k' r r' := Taken.mono h hk

theorem kin_ty_record {fs : List (String × Ty)} {b : Bool} (h : (C.kin k).ty (.record fs b) t') :
    ∃ fs', t' = .record fs' b ∧ List.Forall₂ (Keyed (C.kin k).ty) fs fs' := by
  refine ⟨fs.map fun f => (f.1, f.2.rename C.base.var), by rw [h.2, Ty.rename_record], ?_⟩
  rw [List.forall₂_map_right_iff, List.forall₂_same]
  exact fun f hf => ⟨rfl, Ty.issued_record.1 h.1 f hf, rfl⟩

/-- The fields of a record are taken as the record is. -/
theorem Taken.record {fs : List (String × Ty)} {b : Bool} (h : C.Taken k o o' (.record fs b) t') :
    ∃ fs', t' = .record fs' b ∧ List.Forall₂ (Keyed (C.Taken k o o')) fs fs' := by
  cases h with
  | here ty =>
    obtain ⟨fs', heq, hfs⟩ := kin_ty_record ty
    exact ⟨fs', heq, hfs.imp fun _ _ hf => ⟨hf.1, .here hf.2⟩⟩
  | letBound mono ty =>
    obtain ⟨fs', heq, hfs⟩ := kin_ty_record ty
    exact ⟨fs', heq, hfs.imp fun _ _ hf => ⟨hf.1, .letBound mono hf.2⟩⟩
  | ambient offered eq =>
    refine ⟨fs.map fun f => (f.1, f.2.relabel C.labels), by rw [eq, Ty.relabel_record], ?_⟩
    rw [List.forall₂_map_right_iff, List.forall₂_same]
    exact fun f hf => ⟨rfl, .ambient (.field offered hf) rfl⟩

theorem kin_ty_not_record (h : (C.kin k).ty t t') (ht : ∀ fs b, t ≠ .record fs b) : ∀ fs b, t' ≠ .record fs b := by
  rintro fs b rfl
  obtain ⟨gs, b', heq⟩ := Ty.exists_record_of_rename h.1.1.wellFormed Base.var_injective h.2.symm
  exact ht gs b' heq

theorem Taken.not_record (h : C.Taken k o o' t t') (ht : ∀ fs b, t ≠ .record fs b) : ∀ fs b, t' ≠ .record fs b := by
  cases h with
  | here ty | letBound _ ty => exact kin_ty_not_record ty ht
  | ambient offered eq =>
    intro fs b hrecord
    rw [eq] at hrecord
    cases t with
    | record gs b' => exact ht gs b' rfl
    | _ => simp [Ty.relabel] at hrecord

theorem Records.fields {r r' : KnownRecord} (h : C.Records k r r') :
    List.Forall₂ (Keyed (C.Taken k r.origin r'.origin)) r.fields r'.fields := by
  obtain ⟨fs', heq, hfs⟩ := Taken.record h
  obtain ⟨rfl, -⟩ := Ty.record.inj heq
  exact hfs

/-- The record of a name that is bound in a `let`. -/
theorem records_letBound {M M' : VarSet} {fs fs' : List (String × Ty)} (hM : (C.kin k).mono M M')
    (hfs : List.Forall₂ (Keyed (C.kin k).ty) fs fs') : C.Records k ⟨fs, .letBound M⟩ ⟨fs', .letBound M'⟩ :=
  .letBound hM ((C.kin k).record false hfs)

/-- The record of a name that the environment binds. -/
theorem records_ambient {vars : List Nat} {fs : List (String × Ty)} {b : Bool} (h : C.env.Offers vars (.record fs b)) :
    C.Records k ⟨fs, .ambient vars⟩ ⟨fs.map fun f => (f.1, f.2.relabel C.labels), .ambient (vars.map C.labels)⟩ :=
  .ambient (.record fun _ hf => .field h hf) (Ty.relabel_record _ _ _).symm

end Records

/-! ## Scopes -/

/-- How two scopes bind a name. -/
inductive Lexicals (k : Nat) : Lexical → Lexical → Prop where
  | param : Lexicals k .param .param
  | letBody (i : Nat) {M M' : VarSet} (mono : (C.kin k).mono M M') :
    Lexicals k (.letBody i M) (.letBody (C.base.index i) M')
  | group (i : Nat) {M M' : VarSet} (cs : List (Nat × Nat)) (mono : (C.kin k).mono M M') :
    Lexicals k (.group i M cs) (.group (C.base.index i) M' (C.base.components cs))

/-- Two scopes that bind the same names. -/
inductive Scoped (k : Nat) : Scope → Scope → Prop where
  | params (names : List String) : Scoped k (.params names) (.params names)
  | letBody (slots : NamedSlots) {M M' : VarSet} (mono : (C.kin k).mono M M') :
    Scoped k (.letBody slots M) (.letBody (C.base.names slots) M')
  | group (slots : NamedSlots) {M M' : VarSet} (cs : List (Nat × Nat)) (mono : (C.kin k).mono M M') :
    Scoped k (.group slots M cs) (.group (C.base.names slots) M' (C.base.components cs))
  | withIn {r r' : Option KnownRecord} (record : Option.Rel (C.Records k) r r') : Scoped k (.withIn r) (.withIn r')

/-- The place under a scope. -/
def enter (p : Place) : Scope → Place
  | .params names => C.within p names
  | .letBody slots _ => C.within p (slots.map (·.1))
  | .group slots _ _ => C.among p (slots.map (·.1))
  | .withIn _ => p

/-- The scopes around a place resolve a name in the same way, and open the same records. -/
structure Scopes (p : Place) (k : Nat) (scopes scopes' : List Scope) : Prop where
  lexical : ∀ x, C.Refers x → Option.Rel (C.Lexicals k) (lexicalIn scopes x) (lexicalIn scopes' (C.R.name p.stage x))
  same : ∀ x, lexicalIn scopes x = none → C.R.name p.stage x = x
  grouped : ∀ x, p.grouped x ↔ ∃ i M cs, lexicalIn scopes x = some (.group i M cs)
  opened : List.Forall₂ (Option.Rel (C.Records k)) (scopes.filterMap Scope.with?) (scopes'.filterMap Scope.with?)

section Scopes
variable {C} {p : Place} {k k' : Nat} {scopes scopes' : List Scope} {sc sc' : Scope}

theorem Lexicals.mono {l l' : Lexical} (h : C.Lexicals k l l') (hk : k ≤ k') : C.Lexicals k' l l' := by
  cases h with
  | param => exact .param
  | letBody i mono => exact .letBody i (kin_mono_mono hk mono)
  | group i cs mono => exact .group i cs (kin_mono_mono hk mono)

theorem rel_option_imp {α β : Type} {R S : α → β → Prop} {a : Option α} {b : Option β} (h : Option.Rel R a b)
    (hS : ∀ x y, R x y → S x y) : Option.Rel S a b := by
  cases h with
  | none => exact .none
  | some h => exact .some (hS _ _ h)

theorem Scopes.mono (h : C.Scopes p k scopes scopes') (hk : k ≤ k') : C.Scopes p k' scopes scopes' :=
  { h with
    lexical := fun x hx => rel_option_imp (h.lexical x hx) fun _ _ hl => hl.mono hk
    opened := h.opened.imp fun _ _ hr => rel_option_imp hr fun _ _ hr => hr.mono hk }

theorem Scoped.names (h : C.Scoped k sc sc') : scopeNames sc' = scopeNames sc := by
  cases h with
  | params names | withIn record => rfl
  | letBody slots mono | group slots cs mono => exact Base.map_fst_names slots

theorem Scoped.lexical? (h : C.Scoped k sc sc') (x : String) :
    Option.Rel (C.Lexicals k) (sc.lexical? x) (sc'.lexical? x) := by
  cases h with
  | params names =>
    simp only [Scope.lexical?]
    split
    · exact .some .param
    · exact .none
  | letBody slots mono =>
    simp only [Scope.lexical?, Base.lookup_names]
    cases slots.lookup x with
    | none => exact .none
    | some i => exact .some (.letBody i mono)
  | group slots cs mono =>
    simp only [Scope.lexical?, Base.lookup_names]
    cases slots.lookup x with
    | none => exact .none
    | some i => exact .some (.group i cs mono)
  | withIn record => exact .none

theorem stage_enter (p : Place) (sc : Scope) : (C.enter p sc).stage = C.R.under (scopeNames sc) p.stage := by
  cases sc with
  | withIn r =>
    show p.stage = C.R.under [] p.stage
    cases p.stage <;> rfl
  | _ => rfl

theorem grouped_enter (p : Place) (sc : Scope) (x : String) :
    (C.enter p sc).grouped x ↔ (∃ i M cs, sc.lexical? x = some (.group i M cs)) ∨
      (x ∉ scopeNames sc ∧ p.grouped x) := by
  cases sc with
  | params names =>
    have hnone : ¬ ∃ i M cs, (Scope.params names).lexical? x = some (.group i M cs) := by simp [Scope.lexical?]
    exact (or_iff_right hnone).symm
  | letBody slots M =>
    have hnone : ¬ ∃ i M' cs, (Scope.letBody slots M).lexical? x = some (.group i M' cs) := by simp [Scope.lexical?]
    exact (or_iff_right hnone).symm
  | group slots M cs =>
    have hbound : (∃ i M' cs', (Scope.group slots M cs).lexical? x = some (.group i M' cs')) ↔ x ∈ slots.map (·.1) := by
      refine ⟨fun hx => by_contra fun hnot => ?_, fun hx => ?_⟩
      · have hfree : (Scope.group slots M cs).lexical? x = none := lexical?_of_not_mem hnot
        simp [hfree] at hx
      · have hfound : ∃ l, (Scope.group slots M cs).lexical? x = some l := exists_lexical?_of_mem hx
        obtain ⟨l, hl⟩ := hfound
        rw [Scope.lexical?, Option.map_eq_some_iff] at hl
        obtain ⟨i, hi, rfl⟩ := hl
        exact ⟨i, M, cs, by rw [Scope.lexical?, hi]; rfl⟩
    rw [hbound]
    show x ∈ slots.map (·.1) ∨ p.grouped x ↔ x ∈ slots.map (·.1) ∨ (x ∉ slots.map (·.1) ∧ p.grouped x)
    tauto
  | withIn r => simp [enter, Scope.lexical?, scopeNames]

/-- A scope that binds the same names on both sides, but not the new one. -/
theorem Scopes.enter (h : C.Scopes p k scopes scopes') (hsc : C.Scoped k sc sc') (hnew : C.R.new ∉ scopeNames sc) :
    C.Scopes (C.enter p sc) k (sc :: scopes) (sc' :: scopes') where
  lexical x hx := by
    rw [stage_enter]
    by_cases hmem : x ∈ scopeNames sc
    · have hname : C.R.name (C.R.under (scopeNames sc) p.stage) x = x := (Renaming.name_eq_iff hnew hmem _).2 rfl
      obtain ⟨l, hl⟩ := exists_lexical?_of_mem hmem
      obtain ⟨l', hl'⟩ := exists_lexical?_of_mem (hsc.names ▸ hmem)
      have hrel := hsc.lexical? x
      rw [hl, hl'] at hrel
      rw [hname, lexicalIn_of_some hl, lexicalIn_of_some hl']
      exact hrel
    · have hname : C.R.name (C.R.under (scopeNames sc) p.stage) x ∉ scopeNames sc' := by
        rw [hsc.names, Renaming.name_mem_iff hnew]
        exact hmem
      rw [lexicalIn_of_none (lexical?_of_not_mem hmem), lexicalIn_of_none (lexical?_of_not_mem hname),
        Renaming.name_under hmem]
      exact h.lexical x hx
  same x hx := by
    have hmem : x ∉ scopeNames sc := by
      intro hmem
      obtain ⟨l, hl⟩ := exists_lexical?_of_mem hmem
      rw [lexicalIn_of_some hl] at hx
      cases hx
    rw [lexicalIn_of_none (lexical?_of_not_mem hmem)] at hx
    rw [stage_enter, Renaming.name_under hmem]
    exact h.same x hx
  grouped x := by
    rw [grouped_enter, h.grouped]
    by_cases hmem : x ∈ scopeNames sc
    · obtain ⟨l, hl⟩ := exists_lexical?_of_mem hmem
      rw [hl, lexicalIn_of_some hl]
      simp [hmem]
    · rw [lexical?_of_not_mem hmem, lexicalIn_of_none (lexical?_of_not_mem hmem)]
      simp [hmem]
  opened := by
    cases hsc with
    | withIn record => exact .cons record h.opened
    | _ => exact h.opened

/-- The function whose parameter is renamed. -/
theorem Scopes.function (h : C.Scopes p k scopes scopes') :
    C.Scopes (C.function p) k (.params [C.R.old] :: scopes) (.params [C.R.new] :: scopes') := by
  have hparam : ∀ (x : String) (rest : List Scope), lexicalIn (.params [x] :: rest) x = some .param := by
    intro x rest
    have hbound : (Scope.params [x]).lexical? x = some .param := if_pos (List.mem_singleton_self x)
    exact lexicalIn_of_some hbound rest
  have hskip : ∀ {x y : String} (rest : List Scope), x ≠ y → lexicalIn (.params [y] :: rest) x = lexicalIn rest x :=
    fun rest hne => lexicalIn_of_none (lexical?_of_not_mem (by simpa [scopeNames] using hne)) rest
  refine ⟨fun x hx => ?_, fun x hx => ?_, fun x => ?_, h.opened⟩
  · show Option.Rel _ _ (lexicalIn _ (C.R.name .inside x))
    by_cases hold : x = C.R.old
    · rw [hold, Renaming.name_old, hparam, hparam]
      exact .some .param
    · have hlexical := h.lexical x hx
      rw [Renaming.name_of_ne hold] at hlexical ⊢
      rw [hskip _ hold, hskip _ hx.fresh]
      exact hlexical
  · refine Renaming.name_of_ne ?_ _
    rintro rfl
    rw [hparam] at hx
    cases hx
  · show x ≠ C.R.old ∧ p.grouped x ↔ _
    rw [h.grouped]
    by_cases hold : x = C.R.old
    · rw [hold, hparam]
      simp
    · rw [hskip _ hold]
      simp [hold]

end Scopes

/-! ## Contexts -/

/-- The slots that are being computed in two contexts. -/
def Forcing (ctx ctx' : Context) : Prop := ctx'.forcing = ctx.forcing.map C.base.index ++ C.base.forcing

/-- Two contexts at a place. -/
structure Contexts (p : Place) (k : Nat) (ctx ctx' : Context) : Prop where
  scopes : C.Scopes p k ctx.scopes ctx'.scopes
  mono : (C.kin k).mono ctx.mono ctx'.mono
  forcing : C.Forcing ctx ctx'

section Contexts
variable {C} {p : Place} {k k' : Nat} {ctx ctx' : Context}

theorem Contexts.later (h : C.Contexts p k ctx ctx') (hk : k ≤ k') : C.Contexts p k' ctx ctx' :=
  ⟨h.scopes.mono hk, kin_mono_mono hk h.mono, h.forcing⟩

theorem Contexts.enter (h : C.Contexts p k ctx ctx') {sc sc' : Scope} (hsc : C.Scoped k sc sc')
    (hnew : C.R.new ∉ scopeNames sc) : C.Contexts (C.enter p sc) k (ctx.enter sc) (ctx'.enter sc') :=
  ⟨h.scopes.enter hsc hnew, h.mono, h.forcing⟩

theorem Contexts.fix (h : C.Contexts p k ctx ctx') {vs vs' : List Nat}
    (hvs : List.Forall₂ (fun v v' => (C.kin k).ty (.var v) (.var v')) vs vs') :
    C.Contexts p k (ctx.fix vs) (ctx'.fix vs') :=
  ⟨h.scopes, kin_mono_insert h.mono hvs, h.forcing⟩

theorem Contexts.function (h : C.Contexts p k ctx ctx') :
    C.Contexts (C.function p) k (ctx.enter (.params [C.R.old])) (ctx'.enter (.params [C.R.new])) :=
  ⟨h.scopes.function, h.mono, h.forcing⟩

variable (C) in
/-- The contexts in which the walks begin. -/
theorem contexts_start : C.Contexts .start 0 {} ⟨C.base.scopes, ∅, C.base.forcing⟩ where
  scopes := by
    refine ⟨fun x hx => ?_, fun x _ => C.R.name_outside x, fun x => ?_, ?_⟩
    · show Option.Rel _ none (lexicalIn _ (C.R.name .outside x))
      rw [Renaming.name_outside, hx.free]
      exact .none
    · show False ↔ ∃ i M cs, none = some _
      simp
    · rw [List.filterMap_eq_nil_iff.2 C.base.opensNothing]
      exact .nil
  mono := kin_mono_empty
  forcing := rfl

end Contexts

end Comparison

end NixTyping
