import NixTyping.Proofs.Builds
/-!
# Groups while they are read

A draft is tidy for a list of entries when it is what they make of it. Adding an entry to a
tidy draft makes it one for a longer list, whether the entry binds a new name, goes into a set
that is there or is dropped (`extends_bindPath`, `extends_inheritNames`); and the group that a
tidy draft ends as is what its entries make of it (`builds_bindings`).
-/

namespace NixTyping

open Lowering

/-! ## Entries one after the other -/

section Entries
variable {cs cs' before : List (Entry Tree)} {name : String} {c : Entry Tree}

/-- The first entry for the name makes a set of it. -/
def Opened (cs : List (Entry Tree)) (name : String) : Prop := ∃ before c, First cs name before c ∧ c.opens = true

/-- Two lists of entries say the same of the set under a name. -/
def SameUnder (cs cs' : List (Entry Tree)) (name : String) : Prop :=
  cs'.flatMap (Entry.under name) = cs.flatMap (Entry.under name) ∧
    cs'.any (Entry.recursive name) = cs.any (Entry.recursive name)

/-- With the entries `cs'` instead of `cs` a group binds the names `new` as well and computes those of `made`. It has
the same sources, and other names are what they were. -/
structure Grows (cs cs' : List (Entry Tree)) (new : List String) (made : List (Attr Tree)) : Prop where
  binds : cs'.flatMap Entry.binds = cs.flatMap Entry.binds ++ new
  computed : cs'.flatMap Entry.computed = cs.flatMap Entry.computed ++ made
  sources : cs'.filterMap Entry.source? = cs.filterMap Entry.source?
  settles : ∀ {text : String} {name : String} {b : Binding Expr}, b.Settles text cs name → b.Settles text cs' name
  opened : ∀ {name : String}, Opened cs name → Opened cs' name
  same : ∀ name ∉ new, SameUnder cs cs' name

theorem First.append (h : First cs name before c) (cs' : List (Entry Tree)) : First (cs ++ cs') name before c := by
  obtain ⟨after, rfl, h⟩ := h
  exact ⟨after ++ cs', by simp, h⟩

theorem first_concat (hname : name ∉ cs.flatMap Entry.binds) (hc : name ∈ c.binds) : First (cs ++ [c]) name cs c :=
  ⟨[], rfl, hname, hc⟩

theorem Binding.Settles.append {text : String} {b : Binding Expr} (h : b.Settles text cs name)
    (cs' : List (Entry Tree)) : b.Settles text (cs ++ cs') name := by
  cases h with
  | expr first plain becomes => exact .expr (first.append cs') plain becomes
  | inherit first form => exact .inherit (first.append cs') form
  | inheritFrom first => exact .inheritFrom (first.append cs')

theorem Opened.append (h : Opened cs name) (cs' : List (Entry Tree)) : Opened (cs ++ cs') name := by
  obtain ⟨before, c, hfirst, hopens⟩ := h
  exact ⟨before, c, hfirst.append cs', hopens⟩

theorem under_concat (c : Entry Tree) :
    (cs ++ [c]).flatMap (Entry.under name) = cs.flatMap (Entry.under name) ++ c.under name := by
  simp

theorem recursive_concat (c : Entry Tree) :
    (cs ++ [c]).any (Entry.recursive name) = (cs.any (Entry.recursive name) || c.recursive name) := by
  simp

theorem flatMap_under_of_not_mem (h : name ∉ cs.flatMap Entry.binds) : cs.flatMap (Entry.under name) = [] := by
  refine List.flatMap_eq_nil_iff.2 fun c hc => Entry.under_of_not_mem fun hname => h ?_
  exact List.mem_flatMap.2 ⟨c, hc, hname⟩

theorem any_recursive_of_not_mem (h : name ∉ cs.flatMap Entry.binds) : cs.any (Entry.recursive name) = false := by
  refine List.any_eq_false.2 fun c hc => ?_
  rw [Entry.recursive_of_not_mem fun hname => h (List.mem_flatMap.2 ⟨c, hc, hname⟩)]
  exact Bool.false_ne_true

theorem sameUnder_concat (hunder : c.under name = []) (hrec : c.recursive name = false) :
    SameUnder cs (cs ++ [c]) name := by
  refine ⟨?_, ?_⟩
  · rw [under_concat, hunder, List.append_nil]
  · rw [recursive_concat, hrec, Bool.or_false]

/-- An entry without a source. -/
theorem grows_entry (h : c.source? = none) : Grows cs (cs ++ [c]) c.binds c.computed where
  binds := by simp
  computed := by simp
  sources := by simp [h]
  settles h := h.append [c]
  opened h := h.append [c]
  same _ hname := sameUnder_concat (Entry.under_of_not_mem hname) (Entry.recursive_of_not_mem hname)

/-- A step of a path, whatever follows it. -/
theorem grows_bind (a : Attr Tree) (steps : List (Attr Tree)) (value : Tree) :
    Grows cs (cs ++ [.bind (a :: steps) value]) a.known?.toList (if a.known?.isNone then [a] else []) := by
  have hentry : Grows cs (cs ++ [.bind (a :: steps) value]) _ _ := grows_entry rfl
  cases ha : a.known? <;> simpa [Entry.binds, Entry.computed, ha] using hentry

/-- One more name in the last entry. -/
theorem grows_name (source : Option Tree) (names : List (Attr Tree)) (a : Attr Tree) :
    Grows (cs ++ [.inherit source names]) (cs ++ [.inherit source (names ++ [a])]) a.known?.toList
      (if a.known?.isNone then [a] else []) := by
  have hfirst : ∀ {name : String} {before : List (Entry Tree)} {c : Entry Tree},
      First (cs ++ [.inherit source names]) name before c →
        First (cs ++ [.inherit source (names ++ [a])]) name before c ∨ c = .inherit source names ∧
          First (cs ++ [.inherit source (names ++ [a])]) name before (.inherit source (names ++ [a])) := by
    rintro name before c ⟨after, hcs, hnew, hname⟩
    rcases List.eq_nil_or_concat after with rfl | ⟨after, c', rfl⟩
    · obtain ⟨rfl, hlast⟩ := List.append_inj' hcs rfl
      cases hlast
      refine .inr ⟨rfl, [], rfl, hnew, ?_⟩
      rw [Entry.binds, List.filterMap_append]
      exact List.mem_append_left _ hname
    · rw [List.concat_eq_append, ← List.cons_append, ← List.append_assoc] at hcs
      obtain ⟨rfl, -⟩ := List.append_inj' hcs rfl
      exact .inl ⟨after ++ [.inherit source (names ++ [a])], by simp, hnew, hname⟩
  refine ⟨?_, ?_, ?_, ?_, ?_, fun _ _ => ?_⟩
  · cases ha : a.known? <;> simp [Entry.binds, ha]
  · cases ha : a.known? <;> simp [Entry.computed, ha]
  · rw [List.filterMap_append, List.filterMap_append]
    rfl
  · intro text name b hb
    cases hb with
    | expr first plain becomes =>
      rcases hfirst first with first | ⟨hc, -⟩
      · exact .expr first plain becomes
      · cases hc
    | inherit first form =>
      rcases hfirst first with first' | ⟨hc, first'⟩
      · exact .inherit first' form
      · cases hc
        exact .inherit first' form
    | inheritFrom first =>
      rcases hfirst first with first' | ⟨hc, first'⟩
      · exact .inheritFrom first'
      · cases hc
        exact .inheritFrom first'
  · rintro name ⟨before, c, first, opens⟩
    rcases hfirst first with first | ⟨rfl, -⟩
    · exact ⟨before, c, first, opens⟩
    · cases opens
  · simp [SameUnder, Entry.under, Entry.recursive]

end Entries

/-! ## Drafts -/

section Draft
variable (text : String) (root : Tree)

mutual

/-- A draft is what the entries make of it, and recursive if the flag says so. -/
inductive Draft.Tidy : Bool → List (Entry Tree) → Draft → Prop where
  | mk {span : Option Span} {isRec : Bool} {statics : List (String × DraftEntry)} {sources : List Expr}
    {dynamics : List (Expr × Expr)} {cs : List (Entry Tree)}
    (names : statics.map (·.1) = distinct (cs.flatMap Entry.binds))
    (entries : ∀ s ∈ statics, DraftEntry.Tidy cs s.1 s.2)
    (taken : List.Forall₂ (fun t e => Tree.Becomes text t e ∧ e.Tidy text root) (cs.filterMap Entry.source?) sources)
    (computed : List.Forall₂ (fun a d => Attr.Becomes text a d.1 ∧ d.1.Tidy text root ∧ d.2.Tidy text root)
      (cs.flatMap Entry.computed) dynamics) :
    Draft.Tidy isRec cs (.mk span isRec statics sources dynamics)

inductive DraftEntry.Tidy : List (Entry Tree) → String → DraftEntry → Prop where
  | set {d : Draft} {cs : List (Entry Tree)} {name : String} (opened : Opened cs name)
    (tidy : Draft.Tidy (cs.any (Entry.recursive name)) (cs.flatMap (Entry.under name)) d) :
    DraftEntry.Tidy cs name (.set d)
  | value {b : Binding Expr} {cs : List (Entry Tree)} {name : String} (settles : b.Settles text cs name)
    (expr : ∀ e, b.expr? = some e → e.Tidy text root) : DraftEntry.Tidy cs name (.value b)

end

/-- What is needed of a binding to build a group. -/
structure Binding.Tidy (cs : List (Entry Tree)) (name : String) (b : Binding Expr) : Prop where
  merges : b.Merges text cs name
  expr : ∀ e, b.expr? = some e → e.Tidy text root

/-- What is needed to build a group. -/
structure Bindings.Tidy (cs : List (Entry Tree)) (g : Bindings Expr) : Prop where
  merges : g.Merges text cs
  parts : ∀ p ∈ g.parts, p.Tidy text root

end Draft

mutual

/-- The numbers of the expressions in a draft. -/
def Draft.ids : Draft → Multiset Nat
  | .mk _ _ statics sources dynamics =>
    Draft.idsOfStatics statics + (tally sources + tally (dynamics.flatMap fun (key, value) => [key, value]))

def DraftEntry.ids : DraftEntry → Multiset Nat
  | .set d => d.ids
  | .value b => tally b.expr?.toList

def Draft.idsOfStatics : List (String × DraftEntry) → Multiset Nat
  | [] => 0
  | (_, e) :: rest => e.ids + Draft.idsOfStatics rest

end

namespace Draft

variable {text : String} {root : Tree}

theorem ids_mk (span : Option Span) (isRec : Bool) (statics : List (String × DraftEntry)) (sources : List Expr)
    (dynamics : List (Expr × Expr)) : (Draft.mk span isRec statics sources dynamics).ids =
      idsOfStatics statics + (tally sources + tally (dynamics.flatMap fun (key, value) => [key, value])) := by
  rw [Draft.ids]

theorem idsOfStatics_eq (statics : List (String × DraftEntry)) :
    idsOfStatics statics = (statics.map fun s => s.2.ids).sum := by
  induction statics with
  | nil => rw [idsOfStatics]; rfl
  | cons s statics ih => rw [idsOfStatics, ih, List.map_cons, List.sum_cons]

theorem tally_parts (statics : List (String × Binding Expr)) (sources : List Expr) (dynamics : List (Expr × Expr)) :
    tally (⟨statics, sources, dynamics⟩ : Bindings Expr).parts = tally (statics.filterMap fun b => b.2.expr?) +
      (tally sources + tally (dynamics.flatMap fun (key, value) => [key, value])) := by
  rw [Bindings.parts, tally_append, tally_append, add_assoc]

theorem tidy_bindings {cs : List (Entry Tree)} {statics : List (String × Binding Expr)} {sources : List Expr}
    {dynamics : List (Expr × Expr)} (hnames : statics.map (·.1) = distinct (cs.flatMap Entry.binds))
    (hstatics : ∀ b ∈ statics, b.2.Tidy text root cs b.1)
    (hsources : List.Forall₂ (fun t e => Tree.Becomes text t e ∧ e.Tidy text root) (cs.filterMap Entry.source?) sources)
    (hdynamics : List.Forall₂ (fun a d => Attr.Becomes text a d.1 ∧ d.1.Tidy text root ∧ d.2.Tidy text root)
      (cs.flatMap Entry.computed) dynamics) : Bindings.Tidy text root cs ⟨statics, sources, dynamics⟩ where
  merges := .mk hnames (fun b hb => (hstatics b hb).merges) (hsources.imp fun _ _ h => h.1)
    (hdynamics.imp fun _ _ h => h.1)
  parts p hp := by
    simp only [Bindings.parts, List.mem_append, List.mem_filterMap, List.mem_flatMap] at hp
    rcases hp with (⟨b, hb, hp⟩ | hp) | ⟨d, hd, hp⟩
    · exact (hstatics b hb).expr p hp
    · obtain ⟨t, -, ht⟩ := exists_of_forall₂ hsources hp
      exact ht.2
    · obtain ⟨a, -, ha⟩ := exists_of_forall₂ hdynamics hd
      simp only [List.mem_cons, List.not_mem_nil, or_false] at hp
      rcases hp with rfl | rfl
      · exact ha.2.1
      · exact ha.2.2

theorem builds_buildSet {cs : List (Entry Tree)} {g : Bindings Expr} {old : Multiset Nat} (hg : g.Tidy text root cs)
    (forms : root.Forms cs) (span : Option Span) (isRec : Bool) (hold : tally g.parts = old) :
    Builds (fun e => e.Tidy text root ∧ ∃ g, e.form = .set isRec g ∧ g.Merges text cs) Expr.ids old
      (build span (.set isRec g)) := by
  have hgroup : ∀ g', (Form.set isRec g).bindings? = some g' → ∃ cs, root.Forms cs ∧ g'.Merges text cs := by
    rintro _ ⟨⟩
    exact ⟨cs, forms, hg.merges⟩
  have hparts : ∀ p ∈ (Form.set isRec g).parts, p.Tidy text root := hg.parts
  exact (builds_build span hgroup hparts hold).imp fun e he => ⟨he.1, g, he.2, hg.merges⟩

mutual

theorem builds_finish : ∀ {d : Draft} {isRec : Bool} {cs : List (Entry Tree)}, d.Tidy text root isRec cs →
    root.Forms cs →
    Builds (fun e => e.Tidy text root ∧ ∃ g, e.form = .set isRec g ∧ g.Merges text cs) Expr.ids d.ids d.finish
  | .mk span isRec statics sources dynamics, _, cs, .mk names entries taken computed, forms => by
    unfold finish
    refine (builds_finishStatics entries forms).bindPart (ids_mk ..).symm fun bs hbs => ?_
    exact builds_buildSet (tidy_bindings (hbs.1 ▸ names) hbs.2 taken computed) forms span isRec (tally_parts _ _ _)

theorem builds_finishEntry : ∀ {cs : List (Entry Tree)} {name : String} {e : DraftEntry}, e.Tidy text root cs name →
    root.Forms cs → Builds (Binding.Tidy text root cs name) (fun b => tally b.expr?.toList) e.ids (finishEntry e)
  | cs, name, .set d, .set opened tidy, forms => by
    unfold finishEntry
    rw [DraftEntry.ids]
    refine (builds_finish tidy (forms.under name)).bindPart (add_zero _) fun e he =>
      builds_pure ⟨?_, ?_⟩ (by simp [Binding.expr?])
    · obtain ⟨before, c, first, opens⟩ := opened
      obtain ⟨-, g, form, merges⟩ := he
      exact .set first opens form merges
    · rintro _ ⟨⟩
      exact he.1
  | cs, name, .value b, .value settles expr, _ => by
    unfold finishEntry
    rw [DraftEntry.ids]
    exact builds_pure ⟨.settles settles, expr⟩ rfl

theorem builds_finishStatics : ∀ {cs : List (Entry Tree)} {statics : List (String × DraftEntry)},
    (∀ s ∈ statics, s.2.Tidy text root cs s.1) → root.Forms cs →
    Builds (fun bs : List (String × Binding Expr) =>
        bs.map (·.1) = statics.map (·.1) ∧ ∀ b ∈ bs, b.2.Tidy text root cs b.1)
      (fun bs => tally (bs.filterMap fun b => b.2.expr?)) (idsOfStatics statics) (finishStatics statics)
  | _, [], _, _ => by
    unfold finishStatics
    exact builds_pure ⟨rfl, by rintro b ⟨⟩⟩ rfl
  | cs, (key, e) :: rest, h, forms => by
    unfold finishStatics
    rw [idsOfStatics]
    refine (builds_finishEntry (h _ List.mem_cons_self) forms).bindPart rfl fun b hb => ?_
    refine (builds_finishStatics (fun s hs => h s (List.mem_cons_of_mem _ hs)) forms).bindPart (add_comm _ _)
      fun bs hbs => builds_pure ⟨?_, ?_⟩ ?_
    · rw [List.map_cons, List.map_cons, hbs.1]
    · intro b' hb'
      rcases List.mem_cons.1 hb' with rfl | hb'
      · exact hb
      · exact hbs.2 b' hb'
    · cases hexpr : b.expr? <;> simp [hexpr, add_comm]

end

theorem builds_bindings {d : Draft} {isRec : Bool} {cs : List (Entry Tree)} (h : d.Tidy text root isRec cs)
    (forms : root.Forms cs) : Builds (Bindings.Tidy text root cs) (fun g => tally g.parts) d.ids d.bindings := by
  cases h with
  | mk names entries taken computed =>
    unfold bindings
    refine (builds_finishStatics entries forms).bindPart (ids_mk ..).symm fun bs hbs =>
      builds_pure ?_ (tally_parts _ _ _)
    exact tidy_bindings (hbs.1 ▸ names) hbs.2 taken computed

/-! ## Adding to a draft -/

section Adding
variable {d sub : Draft} {isRec : Bool} {name : String} {cs cs' : List (Entry Tree)} {new : List String}
  {made : List (Attr Tree)}

theorem find?_isSome (h : d.Tidy text root isRec cs) : (d.find? name).isSome ↔ name ∈ cs.flatMap Entry.binds := by
  cases h with
  | mk names _ _ _ =>
    rw [← mem_distinct, ← names]
    exact findKey_isSome

theorem not_mem_of_find (h : d.Tidy text root isRec cs) (hfind : d.find? name = none) :
    name ∉ cs.flatMap Entry.binds := by
  rw [← find?_isSome h, hfind]
  simp

theorem find?_of_mem (h : d.Tidy text root isRec cs) {e : DraftEntry} (hfind : d.find? name = some e) :
    e.Tidy text root cs name := by
  cases h with
  | mk names entries taken computed => exact entries _ (mem_of_findKey hfind)

/-- What is under a name stays as it is if nothing is added to it. -/
theorem tidy_grow {e : DraftEntry} (h : e.Tidy text root cs name) (hcs : Grows cs cs' new made)
    (hsame : ∀ sub, e = .set sub → SameUnder cs cs' name) : e.Tidy text root cs' name := by
  cases h with
  | @set sub _ _ opened tidy =>
    obtain ⟨hunder, hrec⟩ := hsame sub rfl
    exact .set (hcs.opened opened) (hunder ▸ hrec ▸ tidy)
  | value settles expr => exact .value (hcs.settles settles) expr

theorem tidy_empty (span : Option Span) (isRec : Bool) : (Draft.empty span isRec).Tidy text root isRec [] :=
  .mk rfl (by rintro s ⟨⟩) .nil .nil

theorem ids_empty (span : Option Span) (isRec : Bool) : (Draft.empty span isRec).ids = 0 := by
  rw [Draft.empty, ids_mk, idsOfStatics]
  rfl

/-- The names of a tidy draft are apart, so what is found under one of them is what stands there. -/
theorem find?_mk {span : Option Span} {statics : List (String × DraftEntry)} {sources : List Expr}
    {dynamics : List (Expr × Expr)} (hnames : (statics.map (·.1)).Nodup) {s : String × DraftEntry} (hs : s ∈ statics) :
    (Draft.mk span isRec statics sources dynamics).find? s.1 = some s.2 :=
  findKey_of_mem hnames hs

/-- Names that are bound already are dropped. -/
theorem tidy_skip (h : d.Tidy text root isRec cs) (hcs : Grows cs cs' new [])
    (hnew : ∀ x ∈ new, (d.find? x).isSome ∧ ∀ sub, d.find? x = some (.set sub) → SameUnder cs cs' x) :
    d.Tidy text root isRec cs' := by
  have hbound : ∀ x ∈ new, x ∈ cs.flatMap Entry.binds := fun x hx => (find?_isSome h).1 (hnew x hx).1
  cases h with
  | mk names entries taken computed =>
    refine .mk ?_ (fun s hs => tidy_grow (entries s hs) hcs fun sub hsub => ?_) (hcs.sources ▸ taken) ?_
    · have hnone : (distinct new).filter (fun y => decide (y ∉ cs.flatMap Entry.binds)) = [] := by
        rw [List.filter_eq_nil_iff]
        intro y hy
        simpa using hbound y (mem_distinct.1 hy)
      rw [hcs.binds, distinct_append, hnone, List.append_nil, names]
    · by_cases hmem : s.1 ∈ new
      · exact (hnew _ hmem).2 sub (hsub ▸ find?_mk (names ▸ nodup_distinct _) hs)
      · exact hcs.same _ hmem
    · rwa [hcs.computed, List.append_nil]

theorem tidy_push (h : d.Tidy text root isRec cs) (hcs : Grows cs cs' [name] []) (hfind : d.find? name = none)
    {e : DraftEntry} (he : e.Tidy text root cs' name) : (d.push name e).Tidy text root isRec cs' := by
  have hnew := not_mem_of_find h hfind
  cases h with
  | @mk _ _ statics _ _ _ names entries taken computed =>
    refine .mk ?_ (fun s hs => ?_) (hcs.sources ▸ taken) ?_
    · rw [List.map_append, names, hcs.binds, distinct_concat, if_neg (mem_distinct.not.2 hnew)]
      rfl
    · rcases List.mem_append.1 hs with hs | hs
      · refine tidy_grow (entries s hs) hcs fun _ _ => hcs.same _ fun hmem => hnew ?_
        rw [← List.mem_singleton.1 hmem, ← mem_distinct, ← names]
        exact List.mem_map_of_mem hs
      · rw [List.mem_singleton.1 hs]
        exact he
    · rwa [hcs.computed, List.append_nil]

theorem ids_push (d : Draft) (name : String) (e : DraftEntry) : (d.push name e).ids = e.ids + d.ids := by
  obtain ⟨span, isRec, statics, sources, dynamics⟩ := d
  rw [push, ids_mk, ids_mk, idsOfStatics_eq, idsOfStatics_eq, List.map_append, List.sum_append, List.map_singleton,
    List.sum_singleton, add_right_comm, add_comm]

theorem tidy_replace (h : d.Tidy text root isRec cs) (hcs : Grows cs cs' [name] []) (hfind : (d.find? name).isSome)
    {e : DraftEntry} (he : e.Tidy text root cs' name) : (d.replace name e).Tidy text root isRec cs' := by
  have hbound := (find?_isSome h).1 hfind
  cases h with
  | @mk _ _ statics _ _ _ names entries taken computed =>
    have hnames : (statics.map fun x => if x.1 = name then (name, e) else x).map (·.1) = statics.map (·.1) := by
      rw [List.map_map]
      refine List.map_congr_left fun x _ => ?_
      show (if x.1 = name then (name, e) else x).1 = x.1
      split
      · next heq => exact heq.symm
      · rfl
    refine .mk ?_ (fun s hs => ?_) (hcs.sources ▸ taken) ?_
    · rw [hnames, names, hcs.binds, distinct_concat, if_pos (mem_distinct.2 hbound)]
    · obtain ⟨x, hx, rfl⟩ := List.mem_map.1 hs
      split
      · exact he
      · next hne => exact tidy_grow (entries x hx) hcs fun _ _ => hcs.same _ fun hmem => hne (List.mem_singleton.1 hmem)
    · rwa [hcs.computed, List.append_nil]

/-- What stands beside the entry of a name stays when it is replaced. -/
theorem ids_replace (h : d.Tidy text root isRec cs) {e : DraftEntry} (hfind : d.find? name = some e) :
    ∃ rest, e.ids + rest = d.ids ∧ ∀ e' : DraftEntry, (d.replace name e').ids = e'.ids + rest := by
  obtain ⟨span, isRec, statics, sources, dynamics⟩ := d
  have hstatics : ∀ {statics : List (String × DraftEntry)}, (statics.map (·.1)).Nodup → findKey name statics = some e →
      ∃ rest, e.ids + rest = (statics.map fun s => s.2.ids).sum ∧ ∀ e' : DraftEntry,
        ((statics.map fun x => if x.1 = name then (name, e') else x).map fun s => s.2.ids).sum = e'.ids + rest := by
    intro statics hnames hfind
    induction statics with
    | nil => cases hfind
    | cons s statics ih =>
      obtain ⟨key, e₀⟩ := s
      obtain ⟨hkey, hrest⟩ := List.nodup_cons.1 hnames
      by_cases heq : name = key
      · subst heq
        obtain rfl : e₀ = e := by simpa [findKey] using hfind
        -- the name is not bound again further on, so the rest of the list stays
        have hsame : ∀ e' : DraftEntry, statics.map (fun x => if x.1 = name then (name, e') else x) = statics := by
          refine fun e' => (List.map_congr_left fun x hx => if_neg ?_).trans (List.map_id _)
          rintro rfl
          exact hkey (List.mem_map.2 ⟨x, hx, rfl⟩)
        refine ⟨(statics.map fun s => s.2.ids).sum, rfl, fun e' => ?_⟩
        rw [List.map_cons, hsame, if_pos rfl, List.map_cons, List.sum_cons]
      · obtain ⟨rest, hsum, hreplace⟩ := ih hrest (by simpa [findKey, heq] using hfind)
        refine ⟨e₀.ids + rest, ?_, fun e' => ?_⟩
        · rw [List.map_cons, List.sum_cons, ← hsum, add_left_comm]
        · rw [List.map_cons, List.map_cons, List.sum_cons, hreplace, if_neg fun hk : key = name => heq hk.symm,
            add_left_comm]
  cases h with
  | mk names entries taken computed =>
    obtain ⟨rest, hsum, hreplace⟩ := hstatics (names ▸ nodup_distinct _) hfind
    refine ⟨rest + (tally sources + tally (dynamics.flatMap fun (key, value) => [key, value])), ?_, fun e' => ?_⟩
    · rw [ids_mk, idsOfStatics_eq, ← hsum, add_assoc]
    · rw [replace, ids_mk, idsOfStatics_eq, hreplace, add_assoc]

theorem tidy_pushDynamic (h : d.Tidy text root isRec cs) {a : Attr Tree} (hcs : Grows cs cs' [] [a]) {key value : Expr}
    (ha : a.Becomes text key) (hkey : key.Tidy text root) (hvalue : value.Tidy text root) :
    (d.pushDynamic key value).Tidy text root isRec cs' := by
  cases h with
  | mk names entries taken computed =>
    have hsame : ∀ name, SameUnder cs cs' name := fun name => hcs.same name (by rintro ⟨⟩)
    refine .mk ?_ (fun s hs => tidy_grow (entries s hs) hcs fun _ _ => hsame _) (hcs.sources ▸ taken) ?_
    · rw [names, hcs.binds, List.append_nil]
    · rw [hcs.computed]
      exact List.rel_append computed (.cons ⟨ha, hkey, hvalue⟩ .nil)

theorem ids_pushDynamic (d : Draft) (key value : Expr) :
    (d.pushDynamic key value).ids = value.ids + (key.ids + d.ids) := by
  obtain ⟨span, isRec, statics, sources, dynamics⟩ := d
  rw [pushDynamic, ids_mk, ids_mk, List.flatMap_append, tally_append]
  simp [add_assoc, add_comm, add_left_comm]

/-- The number of a new source is how many sources the entries before it have brought. -/
theorem pushSource_fst (h : d.Tidy text root isRec cs) (e : Expr) :
    (d.pushSource e).1 = (cs.filterMap Entry.source?).length := by
  cases h with
  | mk names entries taken computed => exact taken.length_eq.symm

theorem tidy_pushSource (h : d.Tidy text root isRec cs) {t : Tree} {e : Expr} (he : e.Tidy text root)
    (ht : t.Becomes text e) : (d.pushSource e).2.Tidy text root isRec (cs ++ [.inherit (some t) []]) := by
  cases h with
  | mk names entries taken computed =>
    refine .mk ?_ (fun s hs => ?_) ?_ ?_
    · rw [names, List.flatMap_append]
      simp [Entry.binds]
    · have htidy := entries s hs
      generalize s.2 = entry at htidy
      cases htidy with
      | set opened tidy =>
        have hsame : SameUnder cs (cs ++ [.inherit (some t) []]) s.1 := sameUnder_concat rfl rfl
        exact .set (opened.append _) (hsame.1 ▸ hsame.2 ▸ tidy)
      | value settles expr => exact .value (settles.append _) expr
    · rw [List.filterMap_append]
      exact List.rel_append taken (.cons ⟨ht, he⟩ .nil)
    · rw [List.flatMap_append]
      simpa [Entry.computed] using computed

theorem ids_pushSource (d : Draft) (e : Expr) : (d.pushSource e).2.ids = e.ids + d.ids := by
  obtain ⟨span, isRec, statics, sources, dynamics⟩ := d
  rw [pushSource, ids_mk, ids_mk, tally_append]
  simp [add_assoc, add_left_comm]

theorem tidy_absorb (h : d.Tidy text root isRec cs) (l : SetLiteral) :
    (d.absorb l).Tidy text root (isRec || l.isRec) cs := by
  cases h with
  | mk names entries taken computed => exact .mk names entries taken computed

theorem ids_absorb (d : Draft) (l : SetLiteral) : (d.absorb l).ids = d.ids := by
  obtain ⟨span, isRec, statics, sources, dynamics⟩ := d
  rw [absorb, ids_mk, ids_mk]

/-! ### Bindings and names -/

/-- What is added to the draft makes it the draft of the entries. -/
def Extends (text : String) (root : Tree) (d : Draft) (isRec : Bool) (cs : List (Entry Tree)) (m : Lowering Draft) :
    Prop :=
  Builds (Draft.Tidy text root isRec cs) Draft.ids d.ids m

/-- How a tree is built where it is bound, and how the entries of a set literal are added to a group. -/
structure ValueTidy (text : String) (root : Tree) (value : Tree) (v : BoundValue) : Prop where
  build : Builds (fun e => e.Tidy text root ∧ value.Becomes text e) Expr.ids 0 v.build
  literal : v.literal?.isSome = value.isSet
  isRec : ∀ l, v.literal? = some l → l.isRec = value.isRecSet
  addTo : ∀ l, v.literal? = some l → ∀ {d : Draft} {isRec : Bool} {cs : List (Entry Tree)}, d.Tidy text root isRec cs →
    d.Extends text root isRec (cs ++ value.entries) (l.addTo d)

section Bound
variable {a : Attr Tree} {c : Entry Tree} {value : Tree} {v : BoundValue}

/-- A new set under a name. -/
theorem extends_pushSet (h : d.Tidy text root isRec cs) (hcs : Grows cs (cs ++ [c]) [name] [])
    (hfind : d.find? name = none) (hname : name ∈ c.binds) (hopens : c.opens = true) {m : Lowering Draft}
    {span : Option Span} {inner : Bool}
    (hm : (Draft.empty span inner).Extends text root (c.recursive name) (c.under name) m) :
    d.Extends text root isRec (cs ++ [c]) (do return d.push name (.set (← m))) := by
  have hnew := not_mem_of_find h hfind
  have hopened : Opened (cs ++ [c]) name := ⟨cs, c, first_concat hnew hname, hopens⟩
  refine hm.bindPart (by rw [ids_empty, zero_add]) fun d' hd' =>
    builds_pure (tidy_push h hcs hfind (.set hopened ?_)) ?_
  · rw [recursive_concat, under_concat, any_recursive_of_not_mem hnew, flatMap_under_of_not_mem hnew]
    exact hd'
  · rw [ids_push, DraftEntry.ids]

/-- More in the set under a name. -/
theorem extends_replaceSet (h : d.Tidy text root isRec cs) (hcs : Grows cs (cs ++ [c]) [name] [])
    (hfind : d.find? name = some (.set sub)) {m : Lowering Draft}
    (hm : sub.Extends text root (cs.any (Entry.recursive name) || c.recursive name)
      (cs.flatMap (Entry.under name) ++ c.under name) m) :
    d.Extends text root isRec (cs ++ [c]) (do return d.replace name (.set (← m))) := by
  obtain ⟨rest, hids, hreplace⟩ := ids_replace h hfind
  rw [DraftEntry.ids] at hids
  have hopened : Opened (cs ++ [c]) name := by
    have hentry := find?_of_mem h hfind
    cases hentry with
    | set opened _ => exact opened.append [c]
  refine hm.bindPart hids fun d' hd' =>
    builds_pure (tidy_replace h hcs (Option.isSome_of_eq_some hfind) (.set hopened ?_)) ?_
  · rw [recursive_concat, under_concat]
    exact hd'
  · rw [hreplace, DraftEntry.ids]

/-- A name that is taken is not bound again. -/
theorem extends_taken (h : d.Tidy text root isRec cs) (hcs : Grows cs (cs ++ [c]) [name] []) {e : DraftEntry}
    (hfind : d.find? name = some e) (hset : ∀ sub, e = .set sub → c.under name = [] ∧ c.recursive name = false)
    (o : Oddity) : d.Extends text root isRec (cs ++ [c]) (do warn o; return d) := by
  refine builds_warn o (builds_pure (tidy_skip h hcs fun x hx => ?_) rfl)
  rw [List.mem_singleton.1 hx, hfind]
  refine ⟨rfl, fun sub hsub => ?_⟩
  obtain ⟨hunder, hrec⟩ := hset sub (Option.some.inj hsub)
  exact sameUnder_concat hunder hrec

theorem extends_bindName (h : d.Tidy text root isRec cs) (ha : a.known? = some name) (hv : ValueTidy text root value v)
    (span : Span) : d.Extends text root isRec (cs ++ [.bind [a] value]) (d.bindName name span v) := by
  have hcs : Grows cs (cs ++ [.bind [a] value]) a.known?.toList _ := grows_bind a [] value
  rw [ha] at hcs
  have hname : name ∈ (Entry.bind [a] value).binds := by simp [Entry.binds, ha]
  have hunder : value.isSet = true → (Entry.bind [a] value).under name = value.entries := fun hset => by
    simp [Entry.under, ha, hset]
  have hrec : (Entry.bind [a] value).recursive name = value.isRecSet := by
    simp [Entry.recursive, ha]
  unfold bindName
  split
  · next hfind hl =>
    have hplain : value.isSet = false := by rw [← hv.literal, hl]; rfl
    refine hv.build.bind fun e he => builds_pure (tidy_push h hcs hfind (.value ?_ ?_)) ?_
    · exact .expr (first_concat (not_mem_of_find h hfind) hname) hplain he.2
    · rintro _ ⟨⟩
      exact he.1
    · rw [ids_push, DraftEntry.ids]
      simp [Binding.expr?]
  · next l hfind hl =>
    have hset : value.isSet = true := by rw [← hv.literal, hl]; rfl
    have hadd : (Draft.empty (some l.span) l.isRec).Extends text root ((Entry.bind [a] value).recursive name)
        ((Entry.bind [a] value).under name) (l.addTo (.empty (some l.span) l.isRec)) := by
      rw [hrec, hunder hset, ← hv.isRec l hl]
      exact hv.addTo l hl (tidy_empty _ _)
    exact extends_pushSet h hcs hfind hname hset hadd
  · next sub l hfind hl =>
    have hset : value.isSet = true := by rw [← hv.literal, hl]; rfl
    have hsub := find?_of_mem h hfind
    cases hsub with
    | set opened tidy =>
      have hadd := hv.addTo l hl (tidy_absorb tidy l)
      rw [Extends, ids_absorb, hv.isRec l hl, ← hrec, ← hunder hset] at hadd
      exact extends_replaceSet h hcs hfind hadd
  · next hfind hnot =>
    -- a set is there and the value is not a literal, or a value is there
    refine extends_taken h hcs hfind (fun sub hsub => ?_) _
    have hl : v.literal? = none := by
      refine Option.eq_none_iff_forall_ne_some.2 fun l hl => ?_
      exact hnot sub l hl hsub
    have hplain : value.isSet = false := by rw [← hv.literal, hl]; rfl
    exact ⟨by simp [Entry.under, hplain], hrec.trans (Tree.isRecSet_of_isSet hplain)⟩

theorem extends_bindPath (hv : ValueTidy text root value v) {steps : List (Attr Tree)}
    (hsteps : ∀ a ∈ steps, Builds (Expr.Tidy text root) Expr.ids 0 (Tree.lowerAttr text a))
    (hw : root.Writes (.bind steps value)) (h : d.Tidy text root isRec cs) :
    d.Extends text root isRec (cs ++ [.bind steps value]) (bindPath v (Tree.keysOf text steps) d) := by
  induction steps generalizing d isRec cs with
  | nil =>
    rw [Tree.keysOf]
    exact builds_pure (tidy_skip h (grows_entry rfl) (by rintro x ⟨⟩)) rfl
  | cons a steps ih =>
    have hcs : Grows cs (cs ++ [.bind (a :: steps) value]) _ _ := grows_bind a steps value
    have hbuild : Builds (fun e => e.Tidy text root ∧ a.Becomes text e) Expr.ids 0 (Tree.lowerAttr text a) :=
      (hsteps a List.mem_cons_self).result
    rw [Tree.keysOf, Tree.keyOf_eq]
    cases ha : a.known? with
    | some name =>
      rw [ha] at hcs
      cases steps with
      | nil => exact extends_bindName h ha hv _
      | cons b steps =>
        have hname : name ∈ (Entry.bind (a :: b :: steps) value).binds := by simp [Entry.binds, ha]
        have hunder : (Entry.bind (a :: b :: steps) value).under name = [.bind (b :: steps) value] := by
          simp [Entry.under, ha]
        have hrest : ∀ {d' : Draft} {inner : Bool} {cs' : List (Entry Tree)}, d'.Tidy text root inner cs' →
            d'.Extends text root inner (cs' ++ (Entry.bind (a :: b :: steps) value).under name)
              (bindPath v (Tree.keysOf text (b :: steps)) d') := by
          rw [hunder]
          exact ih (fun a ha => hsteps a (List.mem_cons_of_mem _ ha)) hw.rest
        simp only [Tree.keysOf] at hrest ⊢
        rw [bindPath]
        · split
          · next hfind => exact extends_pushSet h hcs hfind hname rfl (hrest (tidy_empty _ _))
          · next sub hfind =>
            have hsub := find?_of_mem h hfind
            cases hsub with
            | set opened tidy =>
              refine extends_replaceSet h hcs hfind ?_
              rw [show (Entry.bind (a :: b :: steps) value).recursive name = false from rfl, Bool.or_false]
              exact hrest tidy
          · next hfind => exact extends_taken h hcs hfind (by rintro sub ⟨⟩) _
        · simp
    | none =>
      rw [ha] at hcs
      cases steps with
      | nil =>
        refine hbuild.bind fun key hkey => hv.build.bind fun e he =>
          builds_pure (tidy_pushDynamic h hcs hkey.2 hkey.1 he.1) ?_
        rw [ids_pushDynamic]
      | cons b steps =>
        have hrest := ih (fun a ha => hsteps a (List.mem_cons_of_mem _ ha)) hw.rest (tidy_empty none false)
        simp only [Tree.keysOf] at hrest ⊢
        rw [bindPath]
        · refine hbuild.bind fun key hkey => ?_
          refine Builds.bindPart hrest (by rw [ids_empty, zero_add]) fun d' hd' => ?_
          refine (builds_finish hd' (hw.forms ha)).bindPart rfl fun e he =>
            builds_pure (tidy_pushDynamic h hcs hkey.2 hkey.1 he.1) ?_
          rw [ids_pushDynamic]
        · simp

end Bound

/-- The names of one entry. So far there have been the entries `cs`, and of this one the names `done`. -/
theorem extends_inheritNames {source : Option Tree} {number : Option Nat}
    (hnumber : number = source.map fun _ => (cs.filterMap Entry.source?).length) {names : List (Attr Tree)}
    (hnames : ∀ a ∈ names, Builds (Expr.Tidy text root) Expr.ids 0 (Tree.lowerAttr text a)) {done : List (Attr Tree)}
    (h : d.Tidy text root isRec (cs ++ [.inherit source done])) :
    d.Extends text root isRec (cs ++ [.inherit source (done ++ names)])
      (inheritNames number (Tree.keysOf text names) d) := by
  induction names generalizing d done with
  | nil =>
    rw [Tree.keysOf, List.append_nil]
    exact builds_pure h rfl
  | cons a names ih =>
    have hrest : ∀ {d' : Draft}, d'.Tidy text root isRec (cs ++ [.inherit source (done ++ [a])]) →
        d'.Extends text root isRec (cs ++ [.inherit source (done ++ a :: names)])
          (inheritNames number (Tree.keysOf text names) d') := by
      rw [List.append_cons done a names]
      exact ih fun a ha => hnames a (List.mem_cons_of_mem _ ha)
    have hcs : Grows (cs ++ [.inherit source done]) (cs ++ [.inherit source (done ++ [a])]) _ _ :=
      grows_name source done a
    rw [Tree.keysOf, Tree.keyOf_eq]
    cases ha : a.known? with
    | some name =>
      rw [ha] at hcs
      simp only [inheritNames]
      split
      · next hfind =>
        refine builds_warn _ (hrest (tidy_skip h hcs fun x hx => ⟨?_, fun _ _ => ?_⟩))
        · rwa [List.mem_singleton.1 hx]
        · simp [SameUnder, Entry.under, Entry.recursive]
      · next hfind =>
        have hnew : d.find? name = none := by simpa using hfind
        have hpush : ∀ {b : Binding Expr}, b.Settles text (cs ++ [.inherit source (done ++ [a])]) name →
            (∀ e, b.expr? = some e → e.Tidy text root) →
            Builds (Draft.Tidy text root isRec (cs ++ [.inherit source (done ++ a :: names)])) Draft.ids
              (tally b.expr?.toList + d.ids)
              (inheritNames number (Tree.keysOf text names) (d.push name (.value b))) := by
          intro b hb hexpr
          have hstep := hrest (tidy_push h hcs hnew (.value hb hexpr))
          rwa [Extends, ids_push, DraftEntry.ids] at hstep
        -- no entry before this one binds the name, or it would be found
        have hfirst : First (cs ++ [.inherit source (done ++ [a])]) name cs (.inherit source (done ++ [a])) := by
          refine first_concat (fun hmem => not_mem_of_find h hnew ?_) (by simp [Entry.binds, ha])
          rw [List.flatMap_append]
          exact List.mem_append_left _ hmem
        cases source with
        | some t =>
          subst hnumber
          have hstep := hpush (.inheritFrom hfirst) (by rintro e ⟨⟩)
          simpa [Extends, Binding.expr?] using hstep
        | none =>
          subst hnumber
          have href : Builds (fun e => e.Tidy text root ∧ e.form = .ref name) Expr.ids 0
              (build (some a.span) (.ref name)) :=
            builds_build _ (by rintro g ⟨⟩) (by rintro p ⟨⟩) rfl
          have hinherit : Builds (fun b : Binding Expr => b.Settles text (cs ++ [.inherit none (done ++ [a])]) name ∧
              ∀ e, b.expr? = some e → e.Tidy text root) (fun b => tally b.expr?.toList) 0
              (Binding.inherit <$> build (some a.span) (.ref name)) := by
            refine href.map (fun e he => ⟨.inherit hfirst he.2, ?_⟩) fun e => by simp [Binding.expr?]
            rintro _ ⟨⟩
            exact he.1
          exact hinherit.bind fun b hb => hpush hb.1 hb.2
    | none =>
      rw [ha] at hcs
      simp only [inheritNames]
      refine builds_warn _ ((hnames a List.mem_cons_self).result.bind fun key hkey => ?_)
      refine (builds_missing text root).bind fun e he => ?_
      rw [← ids_pushDynamic]
      exact hrest (tidy_pushDynamic h hcs hkey.2 hkey.1 he)

end Adding

end Draft

end NixTyping
