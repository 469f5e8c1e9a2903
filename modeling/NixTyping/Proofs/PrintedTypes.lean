import Mathlib
import NixTyping.Proofs.Occurrence
import NixTyping.Source.Token.Lexer
import NixTyping.Ty.Printer
/-!
# Printed types

The display text of a type says which type it is, as long as nothing in the type is shown in
a shorter form (`Ty.Legible`): a list of equal elements shows one of them, an overload set of
one alternative looks like the alternative and a nested one like a flat one, and field names
are written as they are.

The text of a type is an operand, which ends by itself, and what the arrow or the bars join
to it (`Ty.Begins`). So a text is read from the left: where two types begin one text, their
operands are the same (`Ty.Operands`), and then so is what is joined to them (`Ty.Texts`).
-/

namespace NixTyping

/-! ## Words and items -/

/-- The text does not go on with a character of a name. -/
def BreaksOff (r : List Char) : Prop := ∀ c ∈ r.head?, Lexer.isIdentChar c = false

/-- Names end where the text breaks off. -/
theorem word_append_inj {w w' r r' : List Char} (hw : ∀ c ∈ w, Lexer.isIdentChar c = true)
    (hw' : ∀ c ∈ w', Lexer.isIdentChar c = true) (hr : BreaksOff r) (hr' : BreaksOff r') (h : w ++ r = w' ++ r') :
    w = w' ∧ r = r' := by
  induction w generalizing w' with
  | nil =>
    cases w' with
    | nil => exact ⟨rfl, h⟩
    | cons c w' =>
      -- the text that breaks off begins with a character of the other name
      have hc := hr c (by simp [show r = c :: (w' ++ r') from h])
      rw [hw' c List.mem_cons_self] at hc
      cases hc
  | cons c w ih =>
    cases w' with
    | nil =>
      have hc := hr' c (by simp [show r' = c :: (w ++ r) from h.symm])
      rw [hw c List.mem_cons_self] at hc
      cases hc
    | cons c' w' =>
      obtain ⟨rfl, htail⟩ := List.cons.inj h
      obtain ⟨rfl, rfl⟩ := ih (fun c hc => hw c (List.mem_cons_of_mem _ hc))
        (fun c hc => hw' c (List.mem_cons_of_mem _ hc)) htail
      exact ⟨rfl, rfl⟩

section Items
variable {α : Type} {item : α → List Char} {sep : List Char} {ends : List Char → Prop}

theorem intercalate_map_cons (sep : List Char) (item : α → List Char) (a : α) (as : List α) :
    sep.intercalate ((a :: as).map item) = item a ++ as.flatMap fun b => sep ++ item b := by
  induction as generalizing a with
  | nil => simp
  | cons b as ih =>
    rw [List.map_cons, List.map_cons, List.intercalate_cons_cons, ← List.map_cons, ih, List.flatMap_cons,
      List.append_assoc]
    rw [List.append_assoc]

/-- Further items, each behind a separator, end where no item follows. -/
theorem items_append_inj (hsep : ∀ x, ends (sep ++ x)) {as bs : List α} {r r' : List Char}
    (hitem : ∀ a ∈ as, ∀ b ∈ bs, ∀ x x', ends x → ends x' → item a ++ x = item b ++ x' → a = b ∧ x = x')
    (hr : ends r) (hr' : ends r') (hlast : ∀ b ∈ bs, ∀ x, r ≠ sep ++ (item b ++ x))
    (hlast' : ∀ a ∈ as, ∀ x, r' ≠ sep ++ (item a ++ x))
    (h : as.flatMap (fun a => sep ++ item a) ++ r = bs.flatMap (fun b => sep ++ item b) ++ r') : as = bs ∧ r = r' := by
  have hends : ∀ {cs : List α} {x : List Char}, ends x → ends (cs.flatMap (fun c => sep ++ item c) ++ x) := by
    intro cs x hx
    cases cs with
    | nil => exact hx
    | cons c cs =>
      rw [List.flatMap_cons, List.append_assoc, List.append_assoc]
      exact hsep _
  induction as generalizing bs with
  | nil =>
    cases bs with
    | nil => exact ⟨rfl, h⟩
    | cons b bs =>
      refine absurd ?_ (hlast b List.mem_cons_self (bs.flatMap (fun b => sep ++ item b) ++ r'))
      simpa using h
  | cons a as ih =>
    cases bs with
    | nil =>
      refine absurd ?_ (hlast' a List.mem_cons_self (as.flatMap (fun a => sep ++ item a) ++ r))
      simpa using h.symm
    | cons b bs =>
      simp only [List.flatMap_cons, List.append_assoc, List.append_cancel_left_eq] at h
      obtain ⟨rfl, hrest⟩ := hitem a List.mem_cons_self b List.mem_cons_self _ _ (hends hr) (hends hr') h
      obtain ⟨rfl, rfl⟩ := ih (fun a ha b hb => hitem a (List.mem_cons_of_mem _ ha) b (List.mem_cons_of_mem _ hb))
        (fun b hb => hlast b (List.mem_cons_of_mem _ hb)) (fun a ha => hlast' a (List.mem_cons_of_mem _ ha)) hrest
      exact ⟨rfl, rfl⟩

/-- A first item and further ones. -/
theorem joined_append_inj (hsep : ∀ x, ends (sep ++ x)) {a b : α} {as bs : List α} {r r' : List Char}
    (hitem : ∀ a' ∈ a :: as, ∀ b' ∈ b :: bs, ∀ x x', ends x → ends x' → item a' ++ x = item b' ++ x' → a' = b' ∧ x = x')
    (hr : ends r) (hr' : ends r') (hlast : ∀ b' ∈ b :: bs, ∀ x, r ≠ sep ++ (item b' ++ x))
    (hlast' : ∀ a' ∈ a :: as, ∀ x, r' ≠ sep ++ (item a' ++ x))
    (h : item a ++ (as.flatMap (fun a => sep ++ item a) ++ r) = item b ++ (bs.flatMap (fun b => sep ++ item b) ++ r')) :
    a :: as = b :: bs ∧ r = r' := by
  refine items_append_inj hsep hitem hr hr' hlast hlast' ?_
  simp only [List.flatMap_cons, List.append_assoc, h]

end Items

/-! ## Names -/

/-- The letter of a variable. -/
def varLetter (v : Nat) : Char := Char.ofNat ('a'.toNat + v % 26)

theorem toNat_varLetter (v : Nat) : (varLetter v).toNat = 'a'.toNat + v % 26 := by
  have hall : ∀ n < 26, (Char.ofNat ('a'.toNat + n)).toNat = 'a'.toNat + n := by decide
  exact hall _ (Nat.mod_lt _ (by decide))

theorem isLetter_varLetter (v : Nat) : Lexer.isLetter (varLetter v) = true := by
  have hall : ∀ n < 26, Lexer.isLetter (Char.ofNat ('a'.toNat + n)) = true := by decide
  exact hall _ (Nat.mod_lt _ (by decide))

/-- The digits behind the letter of a variable. -/
def varRound (v : Nat) : List Char := if v / 26 = 0 then [] else Nat.toDigits 10 (v / 26)

theorem toList_varName (v : Nat) : (varName v).toList = varLetter v :: varRound v := by
  unfold varName varRound varLetter
  split
  · simp
  · simp

theorem isDigit_of_mem_varRound {v : Nat} {c : Char} (h : c ∈ varRound v) : c.isDigit = true := by
  unfold varRound at h
  split at h
  · cases h
  · exact Nat.isDigit_of_mem_toDigits (by decide) (by decide) h

theorem varName_injective {v w : Nat} (h : varName v = varName w) : v = w := by
  have hchars : varLetter v :: varRound v = varLetter w :: varRound w := by
    rw [← toList_varName, ← toList_varName, h]
  obtain ⟨hletter, hround⟩ := List.cons.inj hchars
  have hmod : v % 26 = w % 26 := by
    have := congrArg Char.toNat hletter
    rw [toNat_varLetter, toNat_varLetter] at this
    omega
  have hdiv : v / 26 = w / 26 := by
    unfold varRound at hround
    split at hround <;> split at hround
    · omega
    · exact absurd hround.symm Nat.toDigits_ne_nil
    · exact absurd hround Nat.toDigits_ne_nil
    · rw [← Nat.repr_inj, Nat.repr_eq_ofList_toDigits, Nat.repr_eq_ofList_toDigits, hround]
  omega

theorem text_prim_injective {p q : Prim} (h : p.text = q.text) : p = q := by
  revert h
  cases p <;> cases q <;> decide

/-- The names of variables have digits behind their letter, those of primitive types letters. -/
theorem varName_ne_text (v : Nat) (p : Prim) : varName v ≠ p.text := by
  intro h
  have hchars := congrArg String.toList h
  rw [toList_varName] at hchars
  have hdigits : p.text.toList.tail.all Char.isDigit = true := by
    rw [← hchars, List.tail_cons, List.all_eq_true]
    exact fun c hc => isDigit_of_mem_varRound hc
  cases p <;> simp [Prim.text] at hdigits

theorem isIdentChar_of_isDigit {c : Char} (h : c.isDigit = true) : Lexer.isIdentChar c = true := by
  have hdigit : Lexer.isDigit c = true := by
    simpa [Lexer.isDigit, Char.isDigit, Char.le_def] using h
  simp [Lexer.isIdentChar, hdigit]

/-- A name that can stand in a source text as it is. -/
def isIdentifier (k : String) : Bool :=
  match k.toList with
  | [] => false
  | c :: cs => (Lexer.isLetter c || c = '_') && cs.all Lexer.isIdentChar

theorem chars_of_isIdentifier {k : String} (h : isIdentifier k = true) :
    k.toList ≠ [] ∧ ∀ c ∈ k.toList, Lexer.isIdentChar c = true := by
  unfold isIdentifier at h
  split at h
  · cases h
  · next c cs hk =>
    simp only [Bool.and_eq_true, Bool.or_eq_true, decide_eq_true_eq, List.all_eq_true] at h
    rw [hk]
    refine ⟨List.cons_ne_nil c cs, fun d hd => ?_⟩
    rcases List.mem_cons.1 hd with rfl | hd
    · rcases h.1 with hletter | rfl
      · simp [Lexer.isIdentChar, hletter]
      · decide
    · exact h.2 d hd

namespace Ty

/-! ## Types whose text shows all of them -/

/-- Nothing that occurs in the type is shown in a shorter form. -/
structure Legible (t : Ty) : Prop where
  sets : ∀ ts, (Ty.overload ts).OccursIn t → 2 ≤ ts.length ∧ ∀ a ∈ ts, a.Single
  fields : ∀ fs o, (Ty.record fs o).OccursIn t → ∀ f ∈ fs, isIdentifier f.1 = true
  lists : ∀ ts, (Ty.list ts).OccursIn t → homogeneous ts = true → ts.length ≤ 1

theorem Legible.part {s t : Ty} (h : t.Legible) (hs : s.OccursIn t) : s.Legible where
  sets ts hts := h.sets ts (hts.trans hs)
  fields fs o hfs := h.fields fs o (hfs.trans hs)
  lists ts hts := h.lists ts (hts.trans hs)

/-- The text of a type beside an arrow or a bar. -/
def operand (t : Ty) : List Char :=
  if t.isFn || t.isOverload then '(' :: (t.text.toList ++ [')']) else t.text.toList

theorem texts_eq (ts : List Ty) : texts ts = ts.map text := by
  induction ts with
  | nil => rfl
  | cons t ts ih => rw [texts, ih, List.map_cons]

theorem fieldTexts_eq (fs : List (String × Ty)) : fieldTexts fs = fs.map fun f => f.1 ++ ": " ++ f.2.text := by
  induction fs with
  | nil => rfl
  | cons f fs ih => rw [fieldTexts, ih, List.map_cons]

theorem alternativeTexts_eq {ts : List Ty} (h : ∀ t ∈ ts, t.Single) :
    (alternativeTexts ts).map String.toList = ts.map operand := by
  induction ts with
  | nil => rfl
  | cons t ts ih =>
    have ht : t.isOverload = false := by
      cases t with
      | overload alts => exact absurd rfl (h _ List.mem_cons_self alts)
      | _ => rfl
    have hrest := ih fun t ht => h t (List.mem_cons_of_mem _ ht)
    rw [alternativeTexts, List.map_cons, List.map_cons, hrest, operand, ht, Bool.or_false]
    split <;> simp

theorem toList_text_fn (p b : Ty) : (fn p b).text.toList = p.operand ++ (" -> ".toList ++ b.text.toList) := by
  rw [text, operand]
  split <;> simp

theorem toList_text_overload {a : Ty} {ts : List Ty} (h : ∀ t ∈ a :: ts, t.Single) :
    (overload (a :: ts)).text.toList = a.operand ++ ts.flatMap fun t => " | ".toList ++ t.operand := by
  rw [text, String.toList_intercalate, alternativeTexts_eq h, intercalate_map_cons]

theorem toList_text_list {ts : List Ty} (h : (list ts).Legible) :
    (list ts).text.toList = '[' :: (", ".toList.intercalate (ts.map fun t => t.text.toList) ++ [']']) := by
  have hshown : (if homogeneous ts then (texts ts).take 1 else texts ts) = ts.map text := by
    split
    · next hsame =>
      rw [texts_eq]
      exact List.take_of_length_le (by simpa using h.lists ts (.self _) hsame)
    · exact texts_eq ts
  rw [text, hshown]
  simp [bracketed, Function.comp_def]

/-- The text of a field. -/
def fieldText (f : String × Ty) : List Char := f.1.toList ++ (": ".toList ++ f.2.text.toList)

/-- The end of the text of a record that has fields. -/
def recordEnd (isOpen : Bool) : List Char := if isOpen then ", ... \x7d".toList else " \x7d".toList

/-- The text of a record behind its brace. -/
def recordBody : List (String × Ty) → Bool → List Char
  | [], true => "... \x7d".toList
  | [], false => "\x7d".toList
  | f :: fs, isOpen => fieldText f ++ (fs.flatMap (fun g => ", ".toList ++ fieldText g) ++ recordEnd isOpen)

theorem toList_text_record (fs : List (String × Ty)) (o : Bool) :
    (record fs o).text.toList = "\x7b ".toList ++ recordBody fs o := by
  rw [text, fieldTexts_eq]
  cases fs with
  | nil => cases o <;> rfl
  | cons f fs =>
    have hjoined : (", ".intercalate ((f :: fs).map fun g => g.1 ++ ": " ++ g.2.text)).toList =
        fieldText f ++ fs.flatMap fun g => ", ".toList ++ fieldText g := by
      have hfield : (String.toList ∘ fun g : String × Ty => g.1 ++ ": " ++ g.2.text) = fieldText := by
        funext g
        simp [fieldText]
      rw [String.toList_intercalate, List.map_map, hfield, intercalate_map_cons]
    have hends : (recordText ((f :: fs).map fun g => g.1 ++ ": " ++ g.2.text) o).toList =
        "\x7b ".toList ++
          (", ".intercalate ((f :: fs).map fun g => g.1 ++ ": " ++ g.2.text)).toList ++ recordEnd o := by
      cases o <;> simp [recordText, bracketed, recordEnd]
    rw [hends, hjoined, recordBody, List.append_assoc, List.append_assoc]

/-! ## Reading from the left -/

/-- The text goes on as it may behind a type: not at all, with the next item or with the end of a bracket. -/
inductive Closes : List Char → Prop where
  | done : Closes []
  | comma (r : List Char) : Closes (',' :: r)
  | bracket (r : List Char) : Closes (']' :: r)
  | paren (r : List Char) : Closes (')' :: r)
  | brace (r : List Char) : Closes (' ' :: '}' :: r)

theorem Closes.breaksOff {r : List Char} (h : Closes r) : BreaksOff r := by
  intro c hc
  cases h <;> cases hc <;> decide

/-- Where the two types are operands at the beginning of one text they are the same. -/
def Operands (t u : Ty) : Prop :=
  ∀ r r', BreaksOff r → BreaksOff r' → t.operand ++ r = u.operand ++ r' → t = u ∧ r = r'

/-- Where the two types stand at the beginning of one text they are the same. -/
def Texts (t u : Ty) : Prop :=
  ∀ r r', Closes r → Closes r' → t.text.toList ++ r = u.text.toList ++ r' → t = u ∧ r = r'

/-- The bracket with which an operand begins, if it is no word. -/
def opening? : Ty → Option Char
  | var _ | prim _ => none
  | list _ => some '['
  | fn _ _ | overload _ => some '('
  | record _ _ => some '{'

theorem wordChars {t : Ty} (h : t.opening? = none) :
    t.operand = t.text.toList ∧ t.operand ≠ [] ∧ ∀ c ∈ t.operand, Lexer.isIdentChar c = true := by
  cases t with
  | var v =>
    have htext : (var v).text.toList = varLetter v :: varRound v := by rw [text, toList_varName]
    refine ⟨rfl, ?_, ?_⟩
    · show (var v).text.toList ≠ []
      rw [htext]
      exact List.cons_ne_nil _ _
    · show ∀ c ∈ (var v).text.toList, _
      rw [htext]
      intro c hc
      rcases List.mem_cons.1 hc with rfl | hc
      · simp [Lexer.isIdentChar, isLetter_varLetter]
      · exact isIdentChar_of_isDigit (isDigit_of_mem_varRound hc)
  | prim p =>
    have hchars : ∀ c ∈ p.text.toList, Lexer.isIdentChar c = true := by
      rw [← List.all_eq_true]
      cases p <;> decide
    refine ⟨rfl, ?_, hchars⟩
    show p.text.toList ≠ []
    cases p <;> decide
  | _ => cases h

theorem operand_of_opening {t : Ty} (ht : t.Legible) {c : Char} (h : t.opening? = some c) :
    ∃ cs, t.operand = c :: cs ∧ Lexer.isIdentChar c = false := by
  cases t with
  | list ts =>
    cases h
    exact ⟨_, toList_text_list ht, by decide⟩
  | fn p b | overload ts =>
    cases h
    exact ⟨_, rfl, by decide⟩
  | record fs o =>
    cases h
    exact ⟨_, toList_text_record fs o, by decide⟩
  | _ => cases h

/-- Where operands begin one text, both are words or both begin with the same bracket. -/
theorem opening_eq {t u : Ty} (ht : t.Legible) (hu : u.Legible) {r r' : List Char}
    (h : t.operand ++ r = u.operand ++ r') : t.opening? = u.opening? := by
  have hword : ∀ {t u : Ty} {r r' : List Char} {c : Char}, u.Legible → t.opening? = none → u.opening? = some c →
      t.operand ++ r ≠ u.operand ++ r' := by
    intro t u r r' c hu ht hc h
    obtain ⟨-, hne, hchars⟩ := wordChars ht
    obtain ⟨cs, hcs, hbracket⟩ := operand_of_opening hu hc
    obtain ⟨d, ds, hds⟩ := List.exists_cons_of_ne_nil hne
    rw [hds, hcs] at h
    obtain ⟨rfl, -⟩ := List.cons.inj h
    rw [hchars d (by rw [hds]; exact List.mem_cons_self)] at hbracket
    cases hbracket
  cases hto : t.opening? with
  | none =>
    cases huo : u.opening? with
    | none => rfl
    | some c => exact absurd h (hword hu hto huo)
  | some c =>
    cases huo : u.opening? with
    | none => exact absurd h.symm (hword ht huo hto)
    | some d =>
      obtain ⟨cs, hcs, -⟩ := operand_of_opening ht hto
      obtain ⟨ds, hds, -⟩ := operand_of_opening hu huo
      rw [hcs, hds] at h
      rw [(List.cons.inj h).1]

/-- The text of the type is that of an operand, and then what is joined to it. -/
inductive Begins : Ty → Ty → List Char → Prop where
  | alone {t : Ty} (single : t.opening? ≠ some '(') : Begins t t []
  | fn (p b : Ty) : Begins (.fn p b) p (" -> ".toList ++ b.text.toList)
  | overload (a b : Ty) (ts : List Ty) :
    Begins (.overload (a :: b :: ts)) a ((b :: ts).flatMap fun t => " | ".toList ++ t.operand)

theorem exists_begins {t : Ty} (h : t.Legible) : ∃ a tail, Begins t a tail := by
  cases t with
  | fn p b => exact ⟨_, _, .fn p b⟩
  | overload ts =>
    have hlength := (h.sets ts (.self _)).1
    rcases ts with _ | ⟨a, _ | ⟨b, ts⟩⟩
    · simp at hlength
    · simp at hlength
    · exact ⟨_, _, .overload a b ts⟩
  | _ => exact ⟨_, _, .alone (by simp [opening?])⟩

section Begins
variable {t u a b : Ty} {tail : List Char}

theorem Begins.text_eq (h : Begins t a tail) (ht : t.Legible) : t.text.toList = a.operand ++ tail := by
  cases h with
  | alone single =>
    have hbare : (t.isFn || t.isOverload) = false := by
      cases t <;> first | rfl | exact absurd rfl single
    rw [operand, hbare, List.append_nil]
    rfl
  | fn => exact toList_text_fn _ _
  | overload => exact toList_text_overload (ht.sets _ (.self _)).2

theorem Begins.occursIn (h : Begins t a tail) : a.OccursIn t := by
  cases h with
  | alone => exact .self _
  | fn => exact .param _ (.self _)
  | overload => exact .alt List.mem_cons_self (.self _)

/-- What is joined to an operand does not go on with a name. -/
theorem Begins.breaksOff (h : Begins t a tail) {r : List Char} (hr : Closes r) : BreaksOff (tail ++ r) := by
  have hblank : ∀ x, BreaksOff (' ' :: x) := by
    rintro x c ⟨⟩
    decide
  cases h with
  | alone => exact hr.breaksOff
  | fn => exact hblank _
  | overload => exact hblank _

theorem operand_ne_close (h : t.Legible) : ∃ c cs, t.operand = c :: cs ∧ c ≠ ']' := by
  cases ho : t.opening? with
  | none =>
    obtain ⟨-, hne, hchars⟩ := wordChars ho
    obtain ⟨c, cs, hcs⟩ := List.exists_cons_of_ne_nil hne
    refine ⟨c, cs, hcs, ?_⟩
    rintro rfl
    exact absurd (hchars _ (hcs ▸ List.mem_cons_self)) (by decide)
  | some c =>
    obtain ⟨cs, hcs, -⟩ := operand_of_opening h ho
    refine ⟨c, cs, hcs, ?_⟩
    rintro rfl
    cases t <;> cases ho

/-- No type begins as a list ends. -/
theorem text_ne_close (h : t.Legible) (x r : List Char) : t.text.toList ++ x ≠ ']' :: r := by
  obtain ⟨a, tail, hbegins⟩ := exists_begins h
  obtain ⟨c, cs, hcs, hc⟩ := operand_ne_close (h.part hbegins.occursIn)
  rw [hbegins.text_eq h, hcs]
  exact fun heq => hc (List.cons.inj heq).1

end Begins

/-! ### Operands -/

section Operands
variable {t u : Ty}

theorem operands_word (ht : t.Legible) (hword : t.opening? = none) (hu : u.Legible) : Operands t u := by
  intro r r' hr hr' h
  have hopen := opening_eq ht hu h
  obtain ⟨htext, -, hchars⟩ := wordChars hword
  obtain ⟨htext', -, hchars'⟩ := wordChars (hopen ▸ hword)
  obtain ⟨hsame, hrest⟩ := word_append_inj hchars hchars' hr hr' h
  rw [htext, htext', String.toList_inj] at hsame
  refine ⟨?_, hrest⟩
  cases t with
  | var v =>
    cases u with
    | var w => exact congrArg var (varName_injective (by simpa [text] using hsame))
    | prim q => exact absurd (by simpa [text] using hsame) (varName_ne_text v q)
    | _ => cases hopen
  | prim p =>
    cases u with
    | var w => exact absurd (by simpa [text] using hsame.symm) (varName_ne_text w p)
    | prim q => exact congrArg prim (text_prim_injective (by simpa [text] using hsame))
    | _ => cases hopen
  | _ => cases hword

/-- In parentheses stands the text of a type. -/
theorem operands_wrapped (ht : t.Legible) (hwrapped : t.opening? = some '(') (hu : u.Legible) (htexts : Texts t u) :
    Operands t u := by
  have hoperand : ∀ {s : Ty}, s.opening? = some '(' → s.operand = '(' :: (s.text.toList ++ [')']) := by
    intro s hs
    cases s <;> first | rfl | cases hs
  intro r r' hr hr' h
  have hopen := opening_eq ht hu h
  rw [hoperand hwrapped, hoperand (hopen ▸ hwrapped)] at h
  simp only [List.cons_append, List.append_assoc, List.nil_append, List.cons.injEq, true_and] at h
  obtain ⟨rfl, hrest⟩ := htexts _ _ (.paren r) (.paren r') h
  exact ⟨rfl, (List.cons.inj hrest).2⟩

theorem operands_list {ts : List Ty} (ht : (list ts).Legible) (hu : u.Legible)
    (htexts : ∀ t ∈ ts, ∀ u : Ty, u.Legible → Texts t u) : Operands (list ts) u := by
  intro r r' hr hr' h
  have hopen := opening_eq ht hu h
  cases u with
  | list us =>
    have hpart : ∀ {ts : List Ty}, (list ts).Legible → ∀ t ∈ ts, t.Legible :=
      fun h t hmem => h.part (.elem hmem (.self t))
    have hoperand : ∀ {ts : List Ty}, (list ts).Legible → (list ts).operand =
        '[' :: (", ".toList.intercalate (ts.map fun t => t.text.toList) ++ [']']) := toList_text_list
    rw [hoperand ht, hoperand hu, List.cons_append, List.cons_append, List.append_assoc, List.append_assoc] at h
    replace h := (List.cons.inj h).2
    cases ts with
    | nil =>
      cases us with
      | nil => exact ⟨rfl, by simpa using h⟩
      | cons u us =>
        rw [intercalate_map_cons, List.append_assoc] at h
        exact absurd h.symm (text_ne_close (hpart hu u List.mem_cons_self) _ _)
    | cons t ts =>
      cases us with
      | nil =>
        rw [intercalate_map_cons, List.append_assoc] at h
        exact absurd h (text_ne_close (hpart ht t List.mem_cons_self) _ _)
      | cons u us =>
        rw [intercalate_map_cons, intercalate_map_cons, List.append_assoc, List.append_assoc] at h
        obtain ⟨hsame, hrest⟩ := joined_append_inj (fun x => .comma _)
          (fun t' ht' u' hu' => htexts t' ht' u' (hpart hu u' hu')) (.bracket r) (.bracket r') (by simp) (by simp) h
        exact ⟨congrArg list hsame, (List.cons.inj hrest).2⟩
  | _ => cases hopen

theorem fieldText_append_inj {f g : String × Ty} (hf : isIdentifier f.1 = true) (hg : isIdentifier g.1 = true)
    (htexts : Texts f.2 g.2) {x x' : List Char} (hx : Closes x) (hx' : Closes x')
    (h : fieldText f ++ x = fieldText g ++ x') : f = g ∧ x = x' := by
  have hcolon : ∀ y, BreaksOff (": ".toList ++ y) := by
    rintro y c ⟨⟩
    decide
  simp only [fieldText, List.append_assoc] at h
  obtain ⟨hname, hrest⟩ :=
    word_append_inj (chars_of_isIdentifier hf).2 (chars_of_isIdentifier hg).2 (hcolon _) (hcolon _) h
  obtain ⟨htype, rfl⟩ := htexts _ _ hx hx' (List.append_cancel_left hrest)
  exact ⟨Prod.ext (String.toList_inj.1 hname) htype, rfl⟩

/-- No field begins with a dot or a brace. -/
theorem fieldText_ne {f : String × Ty} (hf : isIdentifier f.1 = true) {c : Char} (hc : Lexer.isIdentChar c = false)
    (x r : List Char) : fieldText f ++ x ≠ c :: r := by
  obtain ⟨hne, hchars⟩ := chars_of_isIdentifier hf
  obtain ⟨d, ds, hds⟩ := List.exists_cons_of_ne_nil hne
  intro h
  rw [fieldText, hds] at h
  obtain ⟨rfl, -⟩ := List.cons.inj h
  rw [hchars d (hds ▸ List.mem_cons_self)] at hc
  cases hc

theorem recordBody_nil_ne {f : String × Ty} (hf : isIdentifier f.1 = true) (o : Bool) (r x : List Char) :
    recordBody [] o ++ r ≠ fieldText f ++ x := by
  cases o with
  | false => exact fun h => fieldText_ne (c := '}') hf (by decide) x r h.symm
  | true => exact fun h => fieldText_ne (c := '.') hf (by decide) x (".. \x7d".toList ++ r) h.symm

/-- The end of a record is no further field. -/
theorem recordEnd_ne {f : String × Ty} (hf : isIdentifier f.1 = true) (o : Bool) (r x : List Char) :
    recordEnd o ++ r ≠ ", ".toList ++ (fieldText f ++ x) := by
  cases o with
  | false => exact fun h => by cases h
  | true =>
    intro h
    have hdots : ", ".toList ++ '.' :: (".. \x7d".toList ++ r) = ", ".toList ++ (fieldText f ++ x) := h
    exact fieldText_ne hf (by decide) x _ (List.append_cancel_left hdots).symm

theorem closes_recordEnd (o : Bool) (r : List Char) : Closes (recordEnd o ++ r) := by
  cases o with
  | false => exact .brace r
  | true => exact .comma _

theorem recordBody_append_inj {fs gs : List (String × Ty)} {o o' : Bool} (hfs : ∀ f ∈ fs, isIdentifier f.1 = true)
    (hgs : ∀ g ∈ gs, isIdentifier g.1 = true) (htexts : ∀ f ∈ fs, ∀ g ∈ gs, Texts f.2 g.2) {r r' : List Char}
    (h : recordBody fs o ++ r = recordBody gs o' ++ r') : (fs = gs ∧ o = o') ∧ r = r' := by
  cases fs with
  | nil =>
    cases gs with
    | nil => cases o <;> cases o' <;> simp_all [recordBody]
    | cons g gs =>
      rw [recordBody, List.append_assoc] at h
      exact absurd h (recordBody_nil_ne (hgs g List.mem_cons_self) o r _)
  | cons f fs =>
    cases gs with
    | nil =>
      rw [recordBody, List.append_assoc] at h
      exact absurd h.symm (recordBody_nil_ne (hfs f List.mem_cons_self) o' r' _)
    | cons g gs =>
      simp only [recordBody, List.append_assoc] at h
      obtain ⟨hsame, hrest⟩ := joined_append_inj (fun x => .comma _)
        (fun f' hf' g' hg' x x' => fieldText_append_inj (hfs f' hf') (hgs g' hg') (htexts f' hf' g' hg'))
        (closes_recordEnd o r) (closes_recordEnd o' r') (fun g' hg' x => recordEnd_ne (hgs g' hg') o r x)
        (fun f' hf' x => recordEnd_ne (hfs f' hf') o' r' x) h
      refine ⟨⟨hsame, ?_⟩, ?_⟩ <;> cases o <;> cases o' <;> simp_all [recordEnd]

theorem operands_record {fs : List (String × Ty)} {o : Bool} (ht : (record fs o).Legible) (hu : u.Legible)
    (htexts : ∀ f ∈ fs, ∀ u : Ty, u.Legible → Texts f.2 u) : Operands (record fs o) u := by
  intro r r' hr hr' h
  have hopen := opening_eq ht hu h
  cases u with
  | record gs o' =>
    have hoperand : ∀ (fs : List (String × Ty)) (o : Bool), (record fs o).operand = _ := toList_text_record
    rw [hoperand, hoperand, List.append_assoc, List.append_assoc] at h
    obtain ⟨⟨rfl, rfl⟩, rfl⟩ := recordBody_append_inj (ht.fields _ _ (.self _)) (hu.fields _ _ (.self _))
      (fun f hf g hg => htexts f hf g.2 (hu.part (.field o' hg (.self _)))) (List.append_cancel_left h)
    exact ⟨rfl, rfl⟩
  | _ => cases hopen

end Operands

/-! ### Whole types -/

/-- What is joined to the operand of a type, said of the type itself. -/
structure Joins (t : Ty) : Prop where
  body : ∀ p b, t = fn p b → ∀ u : Ty, u.Legible → Texts b u
  alts : ∀ ts, t = overload ts → ∀ a ∈ ts, ∀ u : Ty, u.Legible → Operands a u

/-- Operands of one text are the same, and so is then what is joined to them. -/
theorem texts_of_begins {t u a : Ty} {tail : List Char} (ht : t.Legible) (hu : u.Legible) (hbegins : Begins t a tail)
    (hoperands : ∀ u : Ty, u.Legible → Operands a u) (hjoins : Joins t) : Texts t u := by
  intro r r' hr hr' h
  obtain ⟨a', tail', hbegins'⟩ := exists_begins hu
  rw [hbegins.text_eq ht, hbegins'.text_eq hu, List.append_assoc, List.append_assoc] at h
  obtain ⟨rfl, hrest⟩ := hoperands a' (hu.part hbegins'.occursIn) _ _ (hbegins.breaksOff hr) (hbegins'.breaksOff hr') h
  cases hbegins with
  | alone single =>
    cases hbegins' with
    | alone => exact ⟨rfl, hrest⟩
    | fn | overload => cases hr <;> cases hrest
  | fn _ b =>
    cases hbegins' with
    | alone => cases hr' <;> cases hrest
    | fn _ b' =>
      rw [List.append_assoc, List.append_assoc] at hrest
      obtain ⟨rfl, rfl⟩ :=
        hjoins.body _ b rfl b' (hu.part (.body _ (.self _))) r r' hr hr' (List.append_cancel_left hrest)
      exact ⟨rfl, rfl⟩
    | overload => cases hrest
  | overload _ b ts =>
    cases hbegins' with
    | alone => cases hr' <;> cases hrest
    | fn => cases hrest
    | overload _ b' ts' =>
      have hbar : ∀ x, BreaksOff (" | ".toList ++ x) := by
        rintro x c ⟨⟩
        decide
      have hlast : ∀ {r : List Char}, Closes r → ∀ x, r ≠ " | ".toList ++ x := by
        rintro r hr x rfl
        cases hr
      obtain ⟨hsame, rfl⟩ := items_append_inj hbar
        (fun s hs s' hs' => hjoins.alts _ rfl s (List.mem_cons_of_mem _ hs) s'
          (hu.part (.alt (List.mem_cons_of_mem _ hs') (.self _))))
        hr.breaksOff hr'.breaksOff (fun s hs x => hlast hr _) (fun s hs x => hlast hr' _) hrest
      rw [hsame]
      exact ⟨rfl, rfl⟩

/-- A type is told from every other, as an operand and by its whole text. -/
theorem told_apart {t : Ty} (ht : t.Legible) :
    (∀ u : Ty, u.Legible → Operands t u) ∧ ∀ u : Ty, u.Legible → Texts t u := by
  -- a type that stands alone is an operand, and any other is an operand in parentheses
  have halone : ∀ {t : Ty}, t.Legible → t.opening? ≠ some '(' → (∀ u : Ty, u.Legible → Operands t u) →
      (∀ u : Ty, u.Legible → Operands t u) ∧ ∀ u : Ty, u.Legible → Texts t u := by
    intro t ht hopen hoperands
    refine ⟨hoperands, fun u hu => texts_of_begins ht hu (.alone hopen) hoperands ⟨?_, ?_⟩⟩
    · rintro p b rfl
      exact absurd rfl hopen
    · rintro ts rfl
      exact absurd rfl hopen
  have hwrapped : ∀ {t : Ty}, t.Legible → t.opening? = some '(' → (∀ u : Ty, u.Legible → Texts t u) →
      (∀ u : Ty, u.Legible → Operands t u) ∧ ∀ u : Ty, u.Legible → Texts t u :=
    fun ht hopen htexts => ⟨fun u hu => operands_wrapped ht hopen hu (htexts u hu), htexts⟩
  induction t using Ty.ind with
  | var v => exact halone ht (by simp [opening?]) fun u hu => operands_word ht rfl hu
  | prim p => exact halone ht (by simp [opening?]) fun u hu => operands_word ht rfl hu
  | list ts ih =>
    refine halone ht (by simp [opening?]) fun u hu => operands_list ht hu fun s hs => ?_
    exact (ih s hs (ht.part (.elem hs (.self s)))).2
  | record fs o ih =>
    refine halone ht (by simp [opening?]) fun u hu => operands_record ht hu fun f hf => ?_
    exact (ih f hf (ht.part (.field o hf (.self _)))).2
  | fn p b ihp ihb =>
    have hparam := (ihp (ht.part (.param b (.self p)))).1
    refine hwrapped ht rfl fun u hu => texts_of_begins ht hu (.fn p b) hparam ⟨?_, by rintro ts ⟨⟩⟩
    rintro _ _ ⟨⟩
    exact (ihb (ht.part (.body p (.self b)))).2
  | overload ts ih =>
    have halts : ∀ a ∈ ts, ∀ u : Ty, u.Legible → Operands a u := fun a ha => (ih a ha (ht.part (.alt ha (.self a)))).1
    obtain ⟨a, tail, hbegins⟩ := exists_begins ht
    have ha : a ∈ ts := by
      cases hbegins with
      | alone single => exact absurd rfl single
      | overload => exact List.mem_cons_self
    refine hwrapped ht rfl fun u hu => texts_of_begins ht hu hbegins (halts a ha) ⟨by rintro p b ⟨⟩, ?_⟩
    rintro _ ⟨⟩
    exact halts

end Ty

/-- Printed types are unambiguous: legible types with the same text are the same. -/
theorem eq_of_text_eq {t u : Ty} (ht : t.Legible) (hu : u.Legible) (h : t.text = u.text) : t = u :=
  ((Ty.told_apart ht).2 u hu [] [] .done .done (by rw [h])).1

/-- A function from two alternatives, one of them a function, to an open record. -/
def chosenField (fields : Ty) : Ty := .fn (.overload [.fn (.var 0) .int, .list [.var 27]]) fields

/-- The fields of a record are sorted, so it has one text. -/
theorem eq_of_text_eq_sorted_fields :
    let given := chosenField (.ofFields [("b-2", .overload [.null, .var 1]), ("_a", .list [.int, .var 1])] true)
    let sorted := chosenField (.record [("_a", .list [.int, .var 1]), ("b-2", .overload [.null, .var 1])] true)
    given.Legible ∧ sorted.Legible ∧ given.text = sorted.text ∧
      sorted.text = "((a -> int) | [b1]) -> \x7b _a: [int, b], b-2: null | b, ... \x7d" ∧ given = sorted := by
  intro given sorted
  have hsorted : sorted.Legible := by
    refine ⟨fun ts h => ?_, fun fs o h => ?_, fun ts h => ?_⟩
    · rcases (by simpa [sorted, chosenField] using h : ts = [.fn (.var 0) .int, .list [.var 27]] ∨ ts = [.null, .var 1])
        with rfl | rfl <;> simp [Ty.Single]
    · obtain ⟨rfl, -⟩ := (by simpa [sorted, chosenField] using h :
        fs = [("_a", .list [.int, .var 1]), ("b-2", .overload [.null, .var 1])] ∧ o = true)
      have hnames : isIdentifier "_a" = true ∧ isIdentifier "b-2" = true := by decide
      simpa using hnames
    · rcases (by simpa [sorted, chosenField] using h : ts = [.var 27] ∨ ts = [.int, .var 1]) with rfl | rfl <;>
        simp [Ty.homogeneous]
  have hgiven : given = sorted := by cbv
  have htext : given.text = sorted.text := by cbv
  exact ⟨hgiven ▸ hsorted, hsorted, htext, by cbv, eq_of_text_eq (hgiven ▸ hsorted) hsorted htext⟩

example : (Ty.list [.int, .int]).text = (Ty.list [.int]).text := by cbv

end NixTyping
