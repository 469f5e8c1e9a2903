import NixTyping.Judge.Slots
/-!
# Histories of slots

A history is a list of calls on slots with their answers, from no slots on. `Effect`
says once what a call can do. The calls that change a slot make up its life: it is
filled, handed out and finished, each at most once and in this order, and its state
is that of its life so far (`lived_history`).

So a payload is handed out once, and it is the one that was filled in; until a value
comes back, the slot depends on itself; and from then on it has that value
(`slots_computed_once`).
-/

namespace NixTyping

/-- A call on slots. -/
inductive SlotCall (π α : Type) where
  | reserve
  | fill (id : Nat) (payload : π)
  | start (id : Nat)
  | finish (id : Nat) (value : α)

/-- What a call answers. -/
inductive SlotAnswer (π α : Type) where
  | reserved (id : Nat)
  | done
  | ready (value : α)
  | pending (payload : π)
  | refused (e : SlotError)

/-- A call with its answer. -/
abbrev SlotEntry (π α : Type) := SlotCall π α × SlotAnswer π α

namespace Slots
variable {π α : Type}

/-- Make a call. -/
def call (s : Slots π α) : SlotCall π α → SlotAnswer π α × Slots π α
  | .reserve => (.reserved s.reserve.1, s.reserve.2)
  | .fill id payload =>
    match s.fill id payload with
    | .ok filled => (.done, filled)
    | .error e => (.refused e, s)
  | .start id =>
    match s.start id with
    | .ok (.ready value, started) => (.ready value, started)
    | .ok (.pending payload, started) => (.pending payload, started)
    | .error e => (.refused e, s)
  | .finish id value =>
    match s.finish id value with
    | .ok finished => (.done, finished)
    | .error e => (.refused e, s)

/-- The slot that a call names, or the one that it appends. -/
def named (s : Slots π α) : SlotCall π α → Nat
  | .reserve => s.size
  | .fill id _ | .start id | .finish id _ => id

/-- Start a slot by taking out what is in it, looking at it, and putting it back where it has to stay. -/
def startInPlace (s : Slots π α) (id : Nat) : SlotAnswer π α × Slots π α :=
  match s.slots[id]? with
  | none => (.refused (.unknown id), s)
  | some slot =>
    let taken := s.put id .forcing
    match slot with
    | .reserved => (.refused (.unknown id), taken.put id .reserved)
    | .deferred payload => (.pending payload, taken)
    | .forcing => (.refused (.loop id), taken)
    | .forced value => (.ready value, taken.put id (.forced value))

/-- The slots after some calls. -/
def afterCalls (s : Slots π α) : List (SlotCall π α) → Slots π α
  | [] => s
  | c :: calls => (s.call c).2.afterCalls calls

/-- Some calls, each with its answer. -/
def history (s : Slots π α) : List (SlotCall π α) → List (SlotEntry π α)
  | [] => []
  | c :: calls => (c, (s.call c).1) :: (s.call c).2.history calls

/-! ## What a call can do -/

theorem getElem?_put (s : Slots π α) (id : Nat) (slot : Slot π α) (j : Nat) :
    (s.put id slot).slots[j]? = if id = j then s.slots[j]?.map fun _ => slot else s.slots[j]? := by
  rw [put, Array.getElem?_setIfInBounds]
  split
  · next h =>
    subst h
    split
    · next hlt => rw [Array.getElem?_eq_getElem hlt, Option.map_some]
    · next hge => rw [Array.getElem?_eq_none (Nat.le_of_not_lt hge), Option.map_none]
  · rfl

theorem put_of_getElem? {s : Slots π α} {id : Nat} {slot : Slot π α} (h : s.slots[id]? = some slot) :
    s.put id slot = s := by
  obtain ⟨hlt, rfl⟩ := Array.getElem?_eq_some_iff.1 h
  rw [put, Array.setIfInBounds_def, dif_pos hlt, Array.set_getElem_self]

theorem put_put (s : Slots π α) (id : Nat) (slot slot' : Slot π α) : (s.put id slot).put id slot' = s.put id slot' := by
  simp [put]

/-- What a call can do: the answer, and the slots after it. -/
inductive Effect (s : Slots π α) : SlotCall π α → SlotAnswer π α → Slots π α → Prop where
  | reserve : Effect s .reserve (.reserved s.size) ⟨s.slots.push .reserved⟩
  | fill {id : Nat} {p : π} (was : s.slots[id]? = some .reserved) : Effect s (.fill id p) .done (s.put id (.deferred p))
  | fillUnknown {id : Nat} {p : π} (was : s.slots[id]? = none) : Effect s (.fill id p) (.refused (.unknown id)) s
  | fillTwice {id : Nat} {p : π} {slot : Slot π α} (was : s.slots[id]? = some slot) (ne : slot ≠ .reserved) :
    Effect s (.fill id p) (.refused (.alreadyFilled id)) s
  | handOut {id : Nat} {p : π} (was : s.slots[id]? = some (.deferred p)) :
    Effect s (.start id) (.pending p) (s.put id .forcing)
  | ready {id : Nat} {v : α} (was : s.slots[id]? = some (.forced v)) : Effect s (.start id) (.ready v) s
  | loop {id : Nat} (was : s.slots[id]? = some .forcing) : Effect s (.start id) (.refused (.loop id)) s
  | unknown {id : Nat} (was : s.slots[id]? = none ∨ s.slots[id]? = some .reserved) :
    Effect s (.start id) (.refused (.unknown id)) s
  | finish {id : Nat} {v : α} (was : s.slots[id]? = some .forcing) :
    Effect s (.finish id v) .done (s.put id (.forced v))
  | finishUnknown {id : Nat} {v : α} (was : s.slots[id]? = none) : Effect s (.finish id v) (.refused (.unknown id)) s
  | finishIdle {id : Nat} {v : α} {slot : Slot π α} (was : s.slots[id]? = some slot) (ne : slot ≠ .forcing) :
    Effect s (.finish id v) (.refused (.notForcing id)) s

theorem call_effect (s : Slots π α) (c : SlotCall π α) : Effect s c (s.call c).1 (s.call c).2 := by
  cases c with
  | reserve => exact .reserve
  | fill id p =>
    cases h : s.slots[id]? with
    | none =>
      simp only [call, Slots.fill, h]
      exact .fillUnknown h
    | some slot =>
      cases slot <;> simp only [call, Slots.fill, h]
      case reserved => exact .fill h
      all_goals exact .fillTwice h (by simp)
  | start id =>
    cases h : s.slots[id]? with
    | none =>
      simp only [call, Slots.start, h]
      exact .unknown (.inl h)
    | some slot =>
      cases slot <;> simp only [call, Slots.start, h]
      case reserved => exact .unknown (.inr h)
      case deferred p => exact .handOut h
      case forcing => exact .loop h
      case forced v => exact .ready h
  | finish id v =>
    cases h : s.slots[id]? with
    | none =>
      simp only [call, Slots.finish, h]
      exact .finishUnknown h
    | some slot =>
      cases slot <;> simp only [call, Slots.finish, h]
      case forcing => exact .finish h
      all_goals exact .finishIdle h (by simp)

/-- Taking the slot out and putting it back comes to the same. -/
theorem startInPlace_eq (s : Slots π α) (id : Nat) : s.startInPlace id = s.call (.start id) := by
  cases h : s.slots[id]? with
  | none => simp only [startInPlace, call, start, h]
  | some slot =>
    cases slot with
    | reserved => simp only [startInPlace, call, start, h, put_put, put_of_getElem? h]
    | deferred p => simp only [startInPlace, call, start, h]
    | forcing => simp only [startInPlace, call, start, h, put_of_getElem? h]
    | forced v => simp only [startInPlace, call, start, h, put_put, put_of_getElem? h]

section Effect
variable {s s' : Slots π α} {c : SlotCall π α} {a : SlotAnswer π α} {id : Nat} {entries : List (SlotEntry π α)}

theorem Effect.unchanged_of_refused {e : SlotError} (h : Effect s c (.refused e) s') : s' = s := by
  cases h <;> rfl

theorem Effect.unnamed (h : Effect s c a s') {j : Nat} (hj : j ≠ s.named c) : s'.slots[j]? = s.slots[j]? := by
  cases h with
  | reserve => exact Array.getElem?_push.trans (if_neg hj)
  | fill | handOut | finish => exact (getElem?_put ..).trans (if_neg (Ne.symm hj))
  | fillUnknown | fillTwice | ready | loop | unknown | finishUnknown | finishIdle => rfl

/-! ## The life of a slot -/

/-- Whether a call changed a slot that was there before. -/
def changes (id : Nat) : SlotEntry π α → Bool
  | (.fill i _, .done) | (.start i, .pending _) | (.finish i _, .done) => i == id
  | _ => false

/-- The calls of a history that changed the slot. -/
def life (id : Nat) (entries : List (SlotEntry π α)) : List (SlotEntry π α) := entries.filter (changes id)

/-- The state of a slot after its life. -/
inductive Lived (id : Nat) : Option (Slot π α) → List (SlotEntry π α) → Prop where
  | absent : Lived id none []
  | reserved : Lived id (some .reserved) []
  | deferred (p : π) : Lived id (some (.deferred p)) [(.fill id p, .done)]
  | forcing (p : π) : Lived id (some .forcing) [(.fill id p, .done), (.start id, .pending p)]
  | forced (p : π) (v : α) :
    Lived id (some (.forced v)) [(.fill id p, .done), (.start id, .pending p), (.finish id v, .done)]

theorem life_append (id : Nat) (entries more : List (SlotEntry π α)) :
    life id (entries ++ more) = life id entries ++ life id more := List.filter_append ..

theorem Effect.life_unnamed (h : Effect s c a s') (hid : id ≠ s.named c) : life id [(c, a)] = [] := by
  cases h with
  | fill | handOut | finish => simpa [life, changes, named] using Ne.symm hid
  | reserve | fillUnknown | fillTwice | ready | loop | unknown | finishUnknown | finishIdle => rfl

/-- One more call keeps the state of a slot that of its life. -/
theorem Effect.lived (h : Effect s c a s') (hlived : Lived id s.slots[id]? (life id entries)) :
    Lived id s'.slots[id]? (life id (entries ++ [(c, a)])) := by
  rw [life_append]
  generalize life id entries = past at hlived ⊢
  by_cases hid : id = s.named c
  -- the state that the call needs fixes the life so far
  · subst hid
    have hput : ∀ i (slot : Slot π α), (s.put i slot).slots[i]? = s.slots[i]?.map fun _ => slot := fun i slot => by
      rw [getElem?_put, if_pos rfl]
    cases h with
    | reserve =>
      have hnone : s.slots[s.named (.reserve : SlotCall π α)]? = none := Array.getElem?_eq_none (Nat.le_refl _)
      rw [hnone] at hlived
      cases hlived
      simpa [life, changes, named, size] using Lived.reserved
    | @fill i p was =>
      simp only [named, was] at hlived
      cases hlived
      simpa [life, changes, named, hput, was] using Lived.deferred p
    | @handOut i p was =>
      simp only [named, was] at hlived
      cases hlived
      simpa [life, changes, named, hput, was] using Lived.forcing p
    | @finish i v was =>
      simp only [named, was] at hlived
      cases hlived with
      | forcing p => simpa [life, changes, named, hput, was] using Lived.forced p v
    | fillUnknown | fillTwice | ready | loop | unknown | finishUnknown | finishIdle =>
      simpa [life, changes] using hlived
  · rw [h.unnamed hid, h.life_unnamed hid, List.append_nil]
    exact hlived

/-- After any calls, the state of each slot is that of its life. -/
theorem lived_afterCalls (calls : List (SlotCall π α)) (hlived : Lived id s.slots[id]? (life id entries)) :
    Lived id (s.afterCalls calls).slots[id]? (life id (entries ++ s.history calls)) := by
  induction calls generalizing s entries with
  | nil => simpa [afterCalls, history] using hlived
  | cons c calls ih => simpa [afterCalls, history] using ih ((call_effect s c).lived hlived)

end Effect

theorem lived_history (calls : List (SlotCall π α)) (id : Nat) :
    Lived id ((∅ : Slots π α).afterCalls calls).slots[id]? (life id ((∅ : Slots π α).history calls)) := by
  have hnew : Lived id (∅ : Slots π α).slots[id]? (life id ([] : List (SlotEntry π α))) := .absent
  exact lived_afterCalls calls hnew

/-- Each call of a history is made on the slots after those before it. -/
theorem exists_of_history_eq {s : Slots π α} {calls : List (SlotCall π α)} {before after : List (SlotEntry π α)}
    {c : SlotCall π α} {a : SlotAnswer π α} (h : s.history calls = before ++ (c, a) :: after) :
    ∃ earlier, s.history earlier = before ∧ a = ((s.afterCalls earlier).call c).1 := by
  induction before generalizing s calls with
  | nil =>
    cases calls with
    | nil => cases h
    | cons d calls =>
      simp only [history, List.nil_append, List.cons.injEq, Prod.mk.injEq] at h
      obtain ⟨⟨rfl, rfl⟩, -⟩ := h
      exact ⟨[], rfl, rfl⟩
  | cons e before ih =>
    cases calls with
    | nil => cases h
    | cons d calls =>
      simp only [history, List.cons_append, List.cons.injEq] at h
      obtain ⟨rfl, htail⟩ := h
      obtain ⟨earlier, rfl, rfl⟩ := ih htail
      exact ⟨d :: earlier, rfl, rfl⟩

/-- Each call of a history has its effect on slots whose states are those of their lives before it. -/
theorem exists_effect_of_history_eq {calls : List (SlotCall π α)} {before after : List (SlotEntry π α)}
    {c : SlotCall π α} {a : SlotAnswer π α} (h : (∅ : Slots π α).history calls = before ++ (c, a) :: after) :
    ∃ s s' : Slots π α, Effect s c a s' ∧ ∀ id, Lived id s.slots[id]? (life id before) := by
  obtain ⟨earlier, rfl, rfl⟩ := exists_of_history_eq h
  exact ⟨_, _, call_effect _ c, lived_history earlier⟩

/-! ## What the life of a slot tells -/

section Lived
variable {id : Nat} {slot : Option (Slot π α)} {entries : List (SlotEntry π α)}

theorem mem_life {e : SlotEntry π α} (he : changes id e = true) : e ∈ life id entries ↔ e ∈ entries := by
  simp [life, he]

@[simp] theorem changes_fill (id : Nat) (p : π) : changes id ((.fill id p, .done) : SlotEntry π α) = true :=
  beq_self_eq_true id

@[simp] theorem changes_start (id : Nat) (p : π) : changes id ((.start id, .pending p) : SlotEntry π α) = true :=
  beq_self_eq_true id

@[simp] theorem changes_finish (id : Nat) (v : α) : changes id ((.finish id v, .done) : SlotEntry π α) = true :=
  beq_self_eq_true id

theorem Lived.forcing_iff (h : Lived id slot (life id entries)) :
    slot = some .forcing ↔ (∃ p, (.start id, .pending p) ∈ entries) ∧ ∀ v, (.finish id v, .done) ∉ entries := by
  have hstart : ∀ p, (.start id, .pending p) ∈ entries ↔ (.start id, .pending p) ∈ life id entries :=
    fun p => (mem_life (changes_start id p)).symm
  have hfinish : ∀ v, (.finish id v, .done) ∈ entries ↔ (.finish id v, .done) ∈ life id entries :=
    fun v => (mem_life (changes_finish id v)).symm
  simp only [hstart, hfinish]
  generalize life id entries = past at h
  cases h <;> simp

theorem Lived.forced_of_mem (h : Lived id slot (life id entries)) {v : α} (hv : (.finish id v, .done) ∈ entries) :
    slot = some (.forced v) := by
  rw [← mem_life (changes_finish id v)] at hv
  generalize life id entries = past at h hv
  cases h with
  | absent | reserved | deferred p | forcing p => simp at hv
  | forced p w => simp_all

theorem Lived.life_of_deferred {p : π} (h : Lived id (some (.deferred p)) (life id entries)) :
    life id entries = [(.fill id p, .done)] := by
  generalize life id entries = past at h
  cases h
  rfl

end Lived

/-! ## Computed once -/

/-- A slot is computed at most once in a history, and keeps its value. -/
structure ComputedOnce (id : Nat) (entries : List (SlotEntry π α)) : Prop where
  /-- A payload that is handed out is handed out once, and it is that of the only call that filled the slot. -/
  handedOut : ∀ before p after, entries = before ++ (.start id, .pending p) :: after →
    (∀ q, (.start id, .pending q) ∉ before ++ after) ∧
    ∃ first second, before = first ++ (.fill id p, .done) :: second ∧
      ∀ q, (.fill id q, .done) ∉ first ++ second ++ after
  /-- A value is taken exactly when the payload has been handed out and no value has come back yet. -/
  finished : ∀ before v a after, entries = before ++ (.finish id v, a) :: after →
    (a = .done ↔ (∃ p, (.start id, .pending p) ∈ before) ∧ ∀ w, (.finish id w, .done) ∉ before)
  /-- In between, the slot depends on itself. -/
  looping : ∀ before p between a after,
    entries = before ++ (.start id, .pending p) :: between ++ (.start id, a) :: after →
    (∀ v, (.finish id v, .done) ∉ between) → a = .refused (.loop id)
  /-- From then on it has the value. -/
  ready : ∀ before v between a after, entries = before ++ (.finish id v, .done) :: between ++ (.start id, a) :: after →
    a = .ready v

/-- Before a payload is handed out the slot has been filled with it, and after that it is at most finished. -/
theorem handedOut_history {calls : List (SlotCall π α)} {id : Nat} {before after : List (SlotEntry π α)} {p : π}
    (h : (∅ : Slots π α).history calls = before ++ (.start id, .pending p) :: after) :
    life id before = [(.fill id p, .done)] ∧ (life id after = [] ∨ ∃ v, life id after = [(.finish id v, .done)]) := by
  obtain ⟨s, s', heffect, hlived⟩ := exists_effect_of_history_eq h
  have hbefore : life id before = [(.fill id p, .done)] := by
    cases heffect with
    | handOut was => exact (was ▸ hlived id).life_of_deferred
  have hwhole := lived_history calls id
  have hhanded : life id [((.start id, .pending p) : SlotEntry π α)] =
      [(.start id, .pending p)] := by simp [life, changes]
  rw [h, List.append_cons, life_append, life_append, hbefore, hhanded] at hwhole
  refine ⟨hbefore, ?_⟩
  generalize life id after = future at hwhole
  generalize ((∅ : Slots π α).afterCalls calls).slots[id]? = slot at hwhole
  cases hwhole with
  | forcing => exact .inl rfl
  | forced p v => exact .inr ⟨v, rfl⟩

theorem computedOnce_history (calls : List (SlotCall π α)) (id : Nat) :
    ComputedOnce id ((∅ : Slots π α).history calls) where
  handedOut before p after h := by
    obtain ⟨hbefore, hafter⟩ := handedOut_history h
    refine ⟨fun q hq => ?_, ?_⟩
    · rw [← mem_life (changes_start id q), life_append, hbefore] at hq
      rcases hafter with hafter | ⟨v, hafter⟩ <;> simp [hafter] at hq
    · obtain ⟨first, second, rfl, hfirst, -, hsecond⟩ := List.filter_eq_cons_iff.1 hbefore
      refine ⟨first, second, rfl, fun q hq => ?_⟩
      have hfirst : life id first = [] := List.filter_eq_nil_iff.2 hfirst
      have hsecond : life id second = [] := hsecond
      rw [← mem_life (changes_fill id q), life_append, life_append, hfirst, hsecond] at hq
      rcases hafter with hafter | ⟨v, hafter⟩ <;> simp [hafter] at hq
  finished before v a after h := by
    obtain ⟨s, s', heffect, hlived⟩ := exists_effect_of_history_eq h
    rw [← (hlived id).forcing_iff]
    cases heffect with
    | finish was => simp [was]
    | finishUnknown was => simp [was]
    | finishIdle was ne => simp [was, ne]
  looping before p between a after h hbetween := by
    obtain ⟨hbefore, -⟩ := handedOut_history (h.trans (List.append_assoc _ _ _))
    obtain ⟨s, s', heffect, hlived⟩ := exists_effect_of_history_eq h
    have hforcing : s.slots[id]? = some .forcing := by
      refine (hlived id).forcing_iff.2 ⟨⟨p, by simp⟩, fun v hv => ?_⟩
      rcases List.mem_append.1 hv with hv | hv
      · rw [← mem_life (changes_finish id v), hbefore] at hv
        simp at hv
      · exact hbetween v (by simpa using hv)
    cases heffect <;> simp_all
  ready before v between a after h := by
    obtain ⟨s, s', heffect, hlived⟩ := exists_effect_of_history_eq h
    have hforced : s.slots[id]? = some (.forced v) := (hlived id).forced_of_mem (by simp)
    cases heffect <;> simp_all

end Slots

/-- In every history each slot is computed at most once and keeps its value. A call that is refused leaves all slots as
they are, any other changes at most the slot that it names or appends, and this also when a slot is started by taking
out what is in it. -/
theorem slots_computed_once {π α : Type} :
    (∀ (calls : List (SlotCall π α)) (id : Nat), Slots.ComputedOnce id ((∅ : Slots π α).history calls)) ∧
    (∀ (s : Slots π α) (c : SlotCall π α), (∀ e, (s.call c).1 = .refused e → (s.call c).2 = s) ∧
      ∀ j, j ≠ s.named c → (s.call c).2.slots[j]? = s.slots[j]?) ∧
    ∀ (s : Slots π α) (id : Nat), s.startInPlace id = s.call (.start id) := by
  refine ⟨Slots.computedOnce_history, fun s c => ⟨fun e he => ?_, fun j hj => ?_⟩, Slots.startInPlace_eq⟩
  · have heffect := s.call_effect c
    rw [he] at heffect
    exact heffect.unchanged_of_refused
  · exact (s.call_effect c).unnamed hj

/-- A slot that is asked for while it is computed, and finished twice. -/
theorem slots_computed_once_asked_early :
    (∅ : Slots String Nat).history
      [.reserve, .start 0, .fill 0 "hello", .start 0, .start 0, .finish 0 5, .finish 0 6, .start 0] =
      [(.reserve, .reserved 0), (.start 0, .refused (.unknown 0)), (.fill 0 "hello", .done),
        (.start 0, .pending "hello"), (.start 0, .refused (.loop 0)), (.finish 0 5, .done),
        (.finish 0 6, .refused (.notForcing 0)), (.start 0, .ready 5)] ∧
    Slots.ComputedOnce 0 ((∅ : Slots String Nat).history
      [.reserve, .start 0, .fill 0 "hello", .start 0, .start 0, .finish 0 5, .finish 0 6, .start 0]) :=
  ⟨rfl, slots_computed_once.1 _ 0⟩

end NixTyping
