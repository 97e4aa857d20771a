import FluentShift.Engine.Bus
import Mathlib.Data.List.Basic
import Mathlib.Logic.Function.Basic

/-!
# FluentShift.Proofs.Engine.Delivery - whole runs of a bus

The journal of a bus is in order (`Recorded`): each entry has the bus that those before it make, an event is heard of by
those who were subscribed when its delivery began, and none is lost that is not too deep.  Every operation keeps that,
with whatever subscribers do meanwhile (`keeps_tell`), and so does every run (`keeps_run`).  Who hears is run: after the
entry comes what the subscriber does, up to its first failure (`leads_react`), and only then the delivery goes on.
-/

namespace FluentShift.Engine.Bus

/-! ### What a journal says -/

section Journal

variable {H : Type} {es es' : List (Entry H)} {entry : Entry H}

/-- Who heard of what in the delivery with a number. -/
def hearings (n : Nat) (es : List (Entry H)) : List (H × Event) :=
  es.filterMap fun entry =>
    match entry.note with
    | .heard n' h e => if n' = n then some (h, e) else none
    | _ => none

theorem hearings_append {n : Nat} : hearings n (es ++ es') = hearings n es ++ hearings n es' := List.filterMap_append

/-- How many deliveries are under way after a note. -/
def Note.nest (level : Nat) : Note H → Nat
  | .began _ => level + 1
  | .ended _ => level - 1
  | _ => level

/-- How many deliveries are under way after the entries of a journal. -/
def level (es : List (Entry H)) : Nat := es.foldl (fun l entry => entry.note.nest l) 0

theorem level_concat : level (es ++ [entry]) = entry.note.nest (level es) := List.foldl_concat ..

theorem eq_or_of_getElem?_concat {i : Nat} {x : Entry H} (h : (es ++ [entry])[i]? = some x) :
    es[i]? = some x ∨ i = es.length ∧ x = entry := by
  rw [List.getElem?_append] at h
  split at h
  · exact .inl h
  · rw [List.getElem?_singleton] at h
    split at h
    · exact .inr ⟨by omega, (Option.some.inj h).symm⟩
    · cases h

variable [DecidableEq H] {k : EventKind} {hs : List H}

/-- What a note makes of the subscribers of a kind. -/
def Note.amend (k : EventKind) (hs : List H) : Note H → List H
  | .subscribed k' h => if k' = k then hs ++ [h] else hs
  | .unsubscribed k' h => if k' = k then hs.erase h else hs
  | .cleared (some k') => if k' = k then [] else hs
  | .cleared none => []
  | _ => hs

/-- The subscribers of a kind after the entries of a journal. -/
def replay (k : EventKind) (hs : List H) (es : List (Entry H)) : List H :=
  es.foldl (fun hs entry => entry.note.amend k hs) hs

theorem replay_append : replay k hs (es ++ es') = replay k (replay k hs es) es' := List.foldl_append

theorem replay_concat : replay k hs (es ++ [entry]) = entry.note.amend k (replay k hs es) := List.foldl_concat ..

end Journal

/-! ### Journals in order -/

variable {H : Type} [DecidableEq H]

/-- A note goes with a bus and the entries before it: a number of subscriptions is that of the bus, who hears of an event
does so in a delivery of it, and an event is lost only inside so many deliveries. -/
def Note.Fits (limit : Nat) (b : Bus H) (es : List (Entry H)) : Note H → Prop
  | .counted k n => n = (b.subscribers k).length
  | .heard n _ e => ∃ b, es[n]? = some ⟨b, .began e⟩
  | .lost _ => level es = limit
  | _ => True

/-- What an entry says is so after the entries before it, for a bus that had some subscribers and deliveries that are
nested up to a limit. -/
structure Proper (start : Bus H) (limit : Nat) (es : List (Entry H)) (entry : Entry H) : Prop where
  subscribers : ∀ k, entry.bus.subscribers k = replay k (start.subscribers k) es
  fits : entry.note.Fits limit entry.bus es

/-- A journal in order, and the bus that it makes.  To the deliveries with these numbers the subscribers `due` have yet to
hear. -/
structure Recorded (start : Bus H) (limit : Nat) (due : Nat → List H) (d : Delivery H) : Prop where
  proper : ∀ i entry, d.journal[i]? = some entry → Proper start limit (d.journal.take i) entry
  subscribers : ∀ k, d.bus.subscribers k = replay k (start.subscribers k) d.journal
  delivered : ∀ i b e, d.journal[i]? = some ⟨b, .began e⟩ →
    hearings i d.journal ++ (due i).map (·, e) = (b.subscribers e.kind).map (·, e)
  idle : ∀ i, d.journal.length ≤ i → due i = []

section Recorded

variable {start : Bus H} {limit : Nat} {due due' : Nat → List H} {d : Delivery H}

/-- Nobody hears of an event in a delivery that has not begun. -/
theorem Recorded.hearings_eq_nil (h : Recorded start limit due d) {n : Nat} (hn : d.journal.length ≤ n) :
    hearings n d.journal = [] := by
  refine List.filterMap_eq_nil_iff.mpr fun entry hmem => ?_
  split
  · rename_i n' x e hnote
    refine if_neg ?_
    rintro rfl
    obtain ⟨i, hi⟩ := List.mem_iff_getElem?.mp hmem
    -- whoever hears is entered behind the beginning of the delivery
    have hfits := (h.proper i entry hi).fits
    rw [hnote] at hfits
    obtain ⟨b, hb⟩ := hfits
    have hlt : n' < (d.journal.take i).length := (List.getElem?_eq_some_iff.mp hb).1
    rw [List.length_take] at hlt
    omega
  · rfl

/-- A journal stays in order with one more entry, when it is right about who has yet to hear. -/
theorem Recorded.add (h : Recorded start limit due d) {n : Note H} {b : Bus H} {lines : Log}
    (hproper : Proper start limit d.journal ⟨d.bus, n⟩) (hb : ∀ k, b.subscribers k = n.amend k (d.bus.subscribers k))
    (hdue : ∀ i b' e, (d.journal ++ [⟨d.bus, n⟩])[i]? = some ⟨b', .began e⟩ →
      hearings i d.journal ++ hearings i [⟨d.bus, n⟩] ++ (due' i).map (·, e) = (b'.subscribers e.kind).map (·, e))
    (hidle : ∀ i, d.journal.length < i → due' i = []) :
    Recorded start limit due' ⟨b, d.journal ++ [⟨d.bus, n⟩], lines⟩ := by
  refine ⟨fun i x hx => ?_, fun k => ?_, fun i b' e hi => ?_, fun i hi => hidle i ?_⟩
  · show Proper start limit ((d.journal ++ [_]).take i) x
    rcases eq_or_of_getElem?_concat hx with hx | ⟨rfl, rfl⟩
    · rw [List.take_append_of_le_length (Nat.le_of_lt (List.getElem?_eq_some_iff.mp hx).1)]
      exact h.proper i x hx
    · rw [List.take_left]
      exact hproper
  · show b.subscribers k = replay k _ (d.journal ++ [_])
    rw [replay_concat, hb, h.subscribers]
  · show hearings i (d.journal ++ [_]) ++ _ = _
    rw [hearings_append]
    exact hdue i b' e hi
  · exact Nat.lt_of_lt_of_le (by rw [List.length_append]; exact Nat.lt_succ_self _) hi

/-- A note that is about no delivery, or about its end. -/
def Note.IsPlain : Note H → Prop
  | .began _ | .heard .. => False
  | _ => True

theorem Recorded.add_plain (h : Recorded start limit due d) {n : Note H} (hplain : n.IsPlain) {b : Bus H} {lines : Log}
    (hproper : Proper start limit d.journal ⟨d.bus, n⟩) (hb : ∀ k, b.subscribers k = n.amend k (d.bus.subscribers k)) :
    Recorded start limit due ⟨b, d.journal ++ [⟨d.bus, n⟩], lines⟩ := by
  have hsilent : ∀ i, hearings i [⟨d.bus, n⟩] = [] := by
    intro i
    cases n <;> first | rfl | cases hplain
  refine h.add hproper hb (fun i b' e hi => ?_) fun i hi => h.idle i (Nat.le_of_lt hi)
  rw [hsilent, List.append_nil]
  rcases eq_or_of_getElem?_concat hi with hi | ⟨-, hi⟩
  · exact h.delivered i b' e hi
  · cases hi
    cases hplain

/-- When a delivery begins, all subscribers have yet to hear. -/
theorem Recorded.begin (h : Recorded start limit due d) (e : Event) :
    Recorded start limit (Function.update due d.journal.length (d.bus.subscribers e.kind)) (d.enter (.began e)) := by
  refine h.add ⟨h.subscribers, trivial⟩ (fun _ => rfl) (fun i b e' hi => ?_) fun i hi => ?_
  · show hearings i d.journal ++ [] ++ _ = _
    rw [List.append_nil]
    rcases eq_or_of_getElem?_concat hi with hi | ⟨rfl, hentry⟩
    · rw [Function.update_of_ne (Nat.ne_of_lt (List.getElem?_eq_some_iff.mp hi).1)]
      exact h.delivered i b e' hi
    · cases hentry
      rw [Function.update_self, h.hearings_eq_nil (Nat.le_refl _), List.nil_append]
  · rw [Function.update_of_ne (Nat.ne_of_gt hi)]
    exact h.idle i (Nat.le_of_lt hi)

/-- When the next subscriber of a delivery hears, those after it have yet to. -/
theorem Recorded.hear {n : Nat} {x : H} {hs : List H} {b : Bus H} {e : Event}
    (h : Recorded start limit (Function.update due n (x :: hs)) d) (hn : d.journal[n]? = some ⟨b, .began e⟩) :
    Recorded start limit (Function.update due n hs) (d.enter (.heard n x e)) := by
  refine h.add ⟨h.subscribers, b, hn⟩ (fun _ => rfl) (fun i b' e' hi => ?_) fun i hi => ?_
  · rcases eq_or_of_getElem?_concat hi with hi | ⟨-, hi⟩
    · have hdelivered := h.delivered i b' e' hi
      by_cases hin : n = i
      · -- in this delivery one more has heard, and one less has yet to
        subst hin
        rw [hn] at hi
        cases hi
        rw [Function.update_self] at hdelivered ⊢
        rw [← hdelivered, List.append_assoc]
        refine congrArg (_ ++ ·) ?_
        show [if n = n then some (x, e) else none].reduceOption ++ _ = _
        rw [if_pos rfl]
        rfl
      · rw [Function.update_of_ne (Ne.symm hin)] at hdelivered ⊢
        have hsilent : hearings i [⟨d.bus, .heard n x e⟩] = [] :=
          List.filterMap_eq_nil_iff.mpr (List.forall_mem_singleton.mpr (if_neg hin))
        rw [hsilent, List.append_nil]
        exact hdelivered
    · cases hi
  · have hlt : n < d.journal.length := (List.getElem?_eq_some_iff.mp hn).1
    have hidle := h.idle i (Nat.le_of_lt hi)
    rwa [Function.update_of_ne (by omega)] at hidle ⊢

end Recorded

/-! ### Operations -/

/-- From one delivery another one has come about: the journal has become longer, and as many deliveries are under way. -/
structure Onward (d d' : Delivery H) : Prop where
  journal : d.journal <+: d'.journal
  level : level d'.journal = level d.journal

omit [DecidableEq H] in
theorem Onward.refl (d : Delivery H) : Onward d d := ⟨List.prefix_refl _, rfl⟩

omit [DecidableEq H] in
theorem Onward.trans {d d' d'' : Delivery H} (h : Onward d d') (h' : Onward d' d'') : Onward d d'' :=
  ⟨h.journal.trans h'.journal, h'.level.trans h.level⟩

omit [DecidableEq H] in
theorem Onward.foldl {α : Type} {f : Delivery H → α → Delivery H} (hf : ∀ d x, Onward d (f d x)) (xs : List α)
    (d : Delivery H) : Onward d (xs.foldl f d) := by
  induction xs generalizing d with
  | nil => exact .refl d
  | cons x xs ih => exact (hf d x).trans (ih _)

omit [DecidableEq H] in
/-- What is in the journal stays where it is. -/
theorem Onward.getElem? {d d' : Delivery H} (h : Onward d d') {i : Nat} {entry : Entry H}
    (hi : d.journal[i]? = some entry) : d'.journal[i]? = some entry := by
  obtain ⟨es, hes⟩ := h.journal
  rw [← hes, List.getElem?_append_left (List.getElem?_eq_some_iff.mp hi).1, hi]

/-- What is done goes on from every delivery, and keeps journals in order while a number of deliveries is under way. -/
structure Keeps (start : Bus H) (limit l : Nat) (f : Delivery H → Delivery H) : Prop where
  onward : ∀ d, Onward d (f d)
  recorded : ∀ due d, Recorded start limit due d → level d.journal = l → Recorded start limit due (f d)

section Operations

variable {start : Bus H} {limit l : Nat} {names : Names H} {behaviour : Behaviour H}

theorem Keeps.id : Keeps start limit l fun d => d := ⟨.refl, fun _ _ h _ => h⟩

theorem Keeps.comp {f g : Delivery H → Delivery H} (hf : Keeps start limit l f) (hg : Keeps start limit l g) :
    Keeps start limit l fun d => g (f d) :=
  ⟨fun d => (hf.onward d).trans (hg.onward _),
    fun due d h hl => hg.recorded due _ (hf.recorded due d h hl) ((hf.onward d).level.trans hl)⟩

theorem Keeps.foldl {α : Type} {f : Delivery H → α → Delivery H} (hf : ∀ x, Keeps start limit l (f · x)) (xs : List α) :
    Keeps start limit l (xs.foldl f) := by
  induction xs with
  | nil => exact .id
  | cons x xs ih => exact (hf x).comp ih

/-- Something is entered that is about no delivery. -/
theorem keeps_of_plain {f : Delivery H → Delivery H} {n : Delivery H → Note H} (hplain : ∀ d, (n d).IsPlain)
    (hnest : ∀ d l, (n d).nest l = l) (hjournal : ∀ d, (f d).journal = d.journal ++ [⟨d.bus, n d⟩])
    (hbus : ∀ d k, (f d).bus.subscribers k = (n d).amend k (d.bus.subscribers k))
    (hfits : ∀ d, level d.journal = l → (n d).Fits limit d.bus d.journal) : Keeps start limit l f := by
  refine ⟨fun d => ⟨?_, ?_⟩, fun due d h hl => ?_⟩
  · rw [hjournal]
    exact List.prefix_append _ _
  · rw [hjournal, level_concat]
    exact hnest _ _
  · have hrecorded : Recorded start limit due ⟨(f d).bus, d.journal ++ [⟨d.bus, n d⟩], (f d).lines⟩ :=
      h.add_plain (hplain d) ⟨h.subscribers, hfits d hl⟩ (hbus d)
    rwa [← hjournal] at hrecorded

omit [DecidableEq H] in
theorem set_subscribers (b : Bus H) (k k' : EventKind) (hs : List H) :
    (b.set k hs).subscribers k' = if k = k' then hs else b.subscribers k' := by
  by_cases hk : k = k'
  · rw [if_pos hk]
    exact if_pos hk.symm
  · rw [if_neg hk]
    exact if_neg (Ne.symm hk)

omit [DecidableEq H] in
theorem subscribe_subscribers (d : Delivery H) (k k' : EventKind) (h : H) :
    (d.subscribe names k h).bus.subscribers k' =
      if k = k' then d.bus.subscribers k' ++ [h] else d.bus.subscribers k' := by
  refine (set_subscribers _ _ _ _).trans ?_
  split
  · rename_i hk
    rw [hk]
  · rfl

theorem unsubscribe_subscribers (d : Delivery H) (k k' : EventKind) (h : H) :
    (d.unsubscribe names k h).bus.subscribers k' =
      if k = k' then (d.bus.subscribers k').erase h else d.bus.subscribers k' := by
  unfold Delivery.unsubscribe
  split
  · refine (set_subscribers _ _ _ _).trans ?_
    split
    · rename_i hk
      rw [hk]
    · rfl
  · rename_i habsent
    split
    · rename_i hk
      rw [List.contains_iff_mem, hk] at habsent
      exact (List.erase_of_not_mem habsent).symm
    · rfl

theorem unsubscribe_journal (d : Delivery H) (k : EventKind) (h : H) :
    (d.unsubscribe names k h).journal = d.journal ++ [⟨d.bus, .unsubscribed k h⟩] := by
  unfold Delivery.unsubscribe
  split <;> rfl

variable {publish : Delivery H → Event → Delivery H}

/-- Every operation keeps journals in order when every announcement does. -/
theorem keeps_perform (hpublish : ∀ e, Keeps start limit l (publish · e)) (op : Op H) :
    Keeps start limit l (perform names publish · op) := by
  cases op with
  | subscribe k h =>
    exact keeps_of_plain (n := fun _ => .subscribed k h) (fun _ => trivial) (fun _ _ => rfl) (fun _ => rfl)
      (fun d k' => subscribe_subscribers d k k' h) fun _ _ => trivial
  | unsubscribe k h =>
    exact keeps_of_plain (n := fun _ => .unsubscribed k h) (fun _ => trivial) (fun _ _ => rfl)
      (fun d => unsubscribe_journal d k h) (fun d k' => unsubscribe_subscribers d k k' h) fun _ _ => trivial
  | clear k =>
    refine keeps_of_plain (n := fun _ => .cleared k) (fun _ => trivial) (fun _ _ => rfl) (fun _ => rfl) (fun d k' => ?_)
      fun _ _ => trivial
    cases k with
    | none => rfl
    | some k => exact set_subscribers _ _ _ _
  | count k =>
    exact keeps_of_plain (n := fun d => .counted k (d.bus.count k)) (fun _ => trivial) (fun _ _ => rfl) (fun _ => rfl)
      (fun _ _ => rfl) fun _ _ => rfl
  | publish e => exact hpublish e

theorem keeps_react (hpublish : ∀ e, Keeps start limit l (publish · e)) (k : EventKind) (rs : List (Reaction H)) :
    Keeps start limit l (react names publish k · rs) := by
  induction rs with
  | nil => exact .id
  | cons r rs ih =>
    cases r with
    | operate op => exact (keeps_perform hpublish op).comp ih
    | write line =>
      refine (keeps_of_plain (f := fun d => { d.enter (.wrote line) with lines := d.lines ++ [line] })
        (n := fun _ => .wrote line) (fun _ => trivial) (fun _ _ => rfl) (fun _ => rfl) (fun _ _ => rfl)
        fun _ _ => trivial).comp ih
    | fail message =>
      exact keeps_of_plain (n := fun _ => .failed k message) (fun _ => trivial) (fun _ _ => rfl) (fun _ => rfl)
        (fun _ _ => rfl) fun _ _ => trivial

theorem onward_inform (hpublish : ∀ e, Keeps start limit l (publish · e)) (n : Nat) (e : Event) (d : Delivery H) (x : H) :
    Onward d (inform names behaviour publish n e d x) := by
  have hheard : Onward d (d.enter (.heard n x e)) := ⟨List.prefix_append _ _, level_concat⟩
  exact hheard.trans ((keeps_react hpublish e.kind _).onward _)

/-- Those who have yet to hear of an event hear of it one after the other, whatever they do. -/
theorem recorded_inform (hpublish : ∀ e, Keeps start limit l (publish · e)) {n : Nat} {b : Bus H} {e : Event}
    {due : Nat → List H} (hs : List H) (d : Delivery H) (h : Recorded start limit (Function.update due n hs) d)
    (hl : level d.journal = l) (hn : d.journal[n]? = some ⟨b, .began e⟩) :
    Recorded start limit (Function.update due n []) (hs.foldl (inform names behaviour publish n e) d) := by
  induction hs generalizing d with
  | nil => exact h
  | cons x hs ih =>
    have honward : Onward d (inform names behaviour publish n e d x) := onward_inform hpublish n e d x
    refine ih _ ?_ (honward.level.trans hl) (honward.getElem? hn)
    exact (keeps_react hpublish e.kind _).recorded _ _ (h.hear hn) (level_concat.trans hl)

/-- Every announcement of an event keeps journals in order. -/
theorem keeps_tell (depth : Nat) (e : Event) (hl : l + depth = limit) :
    Keeps start limit l (tell names behaviour depth · e) := by
  induction depth generalizing l e with
  | zero =>
    exact keeps_of_plain (n := fun _ => .lost e) (fun _ => trivial) (fun _ _ => rfl) (fun _ => rfl) (fun _ _ => rfl)
      fun _ hlevel => hlevel.trans hl
  | succ depth ih =>
    have hnested : ∀ e, Keeps start limit (l + 1) (tell names behaviour depth · e) := fun e => ih e (by omega)
    have hinformed : ∀ d : Delivery H, Onward (d.enter (.began e)) ((d.bus.subscribers e.kind).foldl
        (inform names behaviour (tell names behaviour depth) d.journal.length e) (d.enter (.began e))) :=
      fun d => .foldl (onward_inform hnested _ _) _ _
    refine ⟨fun d => ⟨?_, ?_⟩, fun due d h hlevel => ?_⟩
    · exact ((List.prefix_append _ _).trans (hinformed d).journal).trans (List.prefix_append _ _)
    · refine level_concat.trans ?_
      show level _ - 1 = _
      rw [(hinformed d).level, Delivery.enter, level_concat]
      rfl
    · have htold : Recorded start limit (Function.update due d.journal.length []) ((d.bus.subscribers e.kind).foldl
          (inform names behaviour (tell names behaviour depth) d.journal.length e) (d.enter (.began e))) :=
        recorded_inform hnested _ _ (h.begin e) (level_concat.trans (congrArg (· + 1) hlevel))
          List.getElem?_concat_length
      -- nobody is due any more: as before the delivery had its number
      rw [← h.idle _ (Nat.le_refl _), Function.update_eq_self] at htold
      exact htold.add_plain (n := .ended _) trivial ⟨htold.subscribers, trivial⟩ fun _ => rfl

/-- Every run keeps journals in order. -/
theorem keeps_run (depth : Nat) (ops : List (Op H)) (hl : l + depth = limit) :
    Keeps start limit l (run names behaviour depth · ops) :=
  .foldl (fun op => keeps_perform (fun e => keeps_tell depth e hl) op) ops

end Operations

/-! ### What subscribers do -/

/-- What is entered for an operation. -/
def Op.note (b : Bus H) : Op H → Note H
  | .subscribe k h => .subscribed k h
  | .unsubscribe k h => .unsubscribed k h
  | .clear k => .cleared k
  | .count k => .counted k (b.subscribers k).length
  | .publish e => .began e

/-- What an operation leaves in a journal from the entry with a number on: an entry, and for an event all of the delivery
that begins there, or that it is lost. -/
def Op.Leaves (i : Nat) : Op H → List (Entry H) → Prop
  | .publish e, es =>
    (∃ b, es = [⟨b, .lost e⟩]) ∨ ∃ b inner b', es = ⟨b, .began e⟩ :: (inner ++ [⟨b', .ended i⟩])
  | op, es => ∃ b, es = [⟨b, op.note b⟩]

/-- What reactions to an event of a kind leave in a journal from the entry with a number on: what each of them does, one
after the other, up to the first failure. -/
inductive Reacted (k : EventKind) : Nat → List (Reaction H) → List (Entry H) → Prop
  | nil {i : Nat} : Reacted k i [] []
  | operate {i : Nat} {op : Op H} {rs : List (Reaction H)} {es es' : List (Entry H)} (hop : op.Leaves i es)
      (hrs : Reacted k (i + es.length) rs es') : Reacted k i (.operate op :: rs) (es ++ es')
  | write {i : Nat} {b : Bus H} {line : LogLine} {rs : List (Reaction H)} {es : List (Entry H)}
      (hrs : Reacted k (i + 1) rs es) : Reacted k i (.write line :: rs) (⟨b, .wrote line⟩ :: es)
  | fail {i : Nat} {b : Bus H} {message : String} {rs : List (Reaction H)} :
      Reacted k i (.fail message :: rs) [⟨b, .failed k message⟩]

/-- With this entry a delivery of an event goes on: the next one hears of it, or it ends. -/
def Entry.GoesOn (n : Nat) (e : Event) (entry : Entry H) : Prop :=
  entry.note = .ended n ∨ ∃ h, entry.note = .heard n h e

/-- What follows the entries `before` of a journal, of which the last one says that a subscriber hears of an event in the
delivery with a number: what the subscriber does, and then the delivery goes on. -/
def Heeds (behaviour : Behaviour H) (b : Bus H) (before : List (Entry H)) (n : Nat) (h : H) (e : Event)
    (after : List (Entry H)) : Prop :=
  ∃ es next rest, after = es ++ next :: rest ∧ Reacted e.kind before.length (behaviour b before h e) es ∧ next.GoesOn n e

/-- Of the entries `es`, which come after the entries `before`, each with which a subscriber hears is followed by what the
subscriber does. -/
def Heeded (behaviour : Behaviour H) (before es : List (Entry H)) : Prop :=
  ∀ l b n h e r, es = l ++ ⟨b, .heard n h e⟩ :: r →
    Heeds behaviour b (before ++ l ++ [⟨b, .heard n h e⟩]) n h e r

/-- The lines of the log for an entry. -/
def Entry.lines (names : Names H) (entry : Entry H) : Log :=
  match entry.note with
  | .subscribed k h => changeLine names h "Subscribed" "to" k
  | .unsubscribed k h =>
    if (entry.bus.subscribers k).contains h then changeLine names h "Unsubscribed" "from" k else []
  | .cleared (some k) => [⟨.debug, "Cleared subscribers for " ++ k.label⟩]
  | .cleared none => [⟨.debug, "Cleared all subscribers"⟩]
  | .wrote line => [line]
  | .failed k message => [failureLine k message]
  | _ => []

section Reactions

variable {names : Names H} {behaviour : Behaviour H} {before es es' : List (Entry H)} {entry : Entry H}

omit [DecidableEq H] in
theorem Heeded.nil : Heeded behaviour before [] := fun l _ _ _ _ _ h => by cases l <;> cases h

omit [DecidableEq H] in
theorem Heeded.append (h : Heeded behaviour before es) (h' : Heeded behaviour (before ++ es) es') :
    Heeded behaviour before (es ++ es') := by
  intro l b n x e r hr
  obtain ⟨l', rfl, hl'⟩ | ⟨r', rfl, hr'⟩ := List.append_eq_append_iff.mp hr
  · have hheeds := h' l' b n x e r hl'
    rwa [List.append_assoc before] at hheeds
  · cases r' with
    | nil =>
      rw [List.append_nil] at h h'
      have hheeds := h' [] b n x e r hr'.symm
      rwa [List.append_nil] at hheeds
    | cons y r' =>
      obtain ⟨rfl, rfl⟩ := List.cons.inj hr'
      obtain ⟨es₀, next, rest, rfl, hreacted, hgoesOn⟩ := h l b n x e r' rfl
      exact ⟨es₀, next, rest ++ es', List.append_assoc _ _ _, hreacted, hgoesOn⟩

omit [DecidableEq H] in
/-- An entry with which nobody hears. -/
theorem heeded_singleton (hentry : ∀ n x e, entry.note ≠ .heard n x e) : Heeded behaviour before [entry] := by
  intro l b n x e r hr
  cases l with
  | nil =>
    obtain ⟨rfl, -⟩ := List.cons.inj hr
    exact absurd rfl (hentry n x e)
  | cons y l => cases l <;> cases hr

omit [DecidableEq H] in
/-- A subscriber hears, does what it does, and the delivery goes on. -/
theorem Heeded.hear {b : Bus H} {n : Nat} {x : H} {e : Event} {next : Entry H} {rest : List (Entry H)}
    (hes : Heeded behaviour (before ++ [⟨b, .heard n x e⟩]) es)
    (hreacted : Reacted e.kind (before.length + 1) (behaviour b (before ++ [⟨b, .heard n x e⟩]) x e) es)
    (hgoesOn : next.GoesOn n e)
    (hrest : Heeded behaviour (before ++ [⟨b, .heard n x e⟩] ++ es) (next :: rest)) :
    Heeded behaviour before (⟨b, .heard n x e⟩ :: es ++ next :: rest) := by
  have hafter : Heeded behaviour (before ++ [⟨b, .heard n x e⟩]) (es ++ next :: rest) := hes.append hrest
  intro l b' n' x' e' r hr
  cases l with
  | nil =>
    obtain ⟨hentry, rfl⟩ := List.cons.inj hr
    cases hentry
    rw [List.append_nil]
    exact ⟨es, next, rest, rfl, by rwa [List.length_append], hgoesOn⟩
  | cons y l =>
    obtain ⟨rfl, hl⟩ := List.cons.inj hr
    have hheeds := hafter l b' n' x' e' r hl
    rwa [List.append_assoc before] at hheeds

/-- From one delivery to another the journal has grown by the entries `es`, the log by their lines, and each subscriber that
heard did what it does. -/
structure Leads (names : Names H) (behaviour : Behaviour H) (d : Delivery H) (es : List (Entry H)) (d' : Delivery H) :
    Prop where
  journal : d'.journal = d.journal ++ es
  lines : d'.lines = d.lines ++ es.flatMap (Entry.lines names)
  heeded : Heeded behaviour d.journal es

variable {d d' d'' : Delivery H}

theorem Leads.refl (d : Delivery H) : Leads names behaviour d [] d :=
  ⟨(List.append_nil _).symm, (List.append_nil _).symm, .nil⟩

theorem Leads.trans (h : Leads names behaviour d es d') (h' : Leads names behaviour d' es' d'') :
    Leads names behaviour d (es ++ es') d'' where
  journal := by rw [h'.journal, h.journal, List.append_assoc]
  lines := by rw [h'.lines, h.lines, List.flatMap_append, List.append_assoc]
  heeded := h.heeded.append (h.journal ▸ h'.heeded)

/-- An entry with which nobody hears. -/
theorem leads_singleton (hentry : ∀ n x e, entry.note ≠ .heard n x e) (hjournal : d'.journal = d.journal ++ [entry])
    (hlines : d'.lines = d.lines ++ entry.lines names) : Leads names behaviour d [entry] d' :=
  ⟨hjournal, by rw [hlines, List.flatMap_singleton], heeded_singleton hentry⟩

variable {publish : Delivery H → Event → Delivery H}

theorem leads_perform (hpublish : ∀ d e, ∃ es, (Op.publish e).Leaves d.journal.length es ∧
      Leads names behaviour d es (publish d e)) (d : Delivery H) (op : Op H) :
    ∃ es, op.Leaves d.journal.length es ∧ Leads names behaviour d es (perform names publish d op) := by
  cases op with
  | subscribe k h => exact ⟨_, ⟨d.bus, rfl⟩, leads_singleton (fun _ _ _ => nofun) rfl rfl⟩
  | unsubscribe k h =>
    refine ⟨_, ⟨d.bus, rfl⟩, leads_singleton (fun _ _ _ => nofun) (unsubscribe_journal d k h) ?_⟩
    show (d.unsubscribe names k h).lines = d.lines ++ if (d.bus.subscribers k).contains h then _ else []
    unfold Delivery.unsubscribe
    split
    · rfl
    · exact (List.append_nil _).symm
  | clear k =>
    refine ⟨_, ⟨d.bus, rfl⟩, leads_singleton (fun _ _ _ => nofun) rfl ?_⟩
    cases k <;> rfl
  | count k => exact ⟨_, ⟨d.bus, rfl⟩, leads_singleton (fun _ _ _ => nofun) rfl (List.append_nil _).symm⟩
  | publish e => exact hpublish d e

theorem leads_react (hpublish : ∀ d e, ∃ es, (Op.publish e).Leaves d.journal.length es ∧
      Leads names behaviour d es (publish d e)) (k : EventKind) (d : Delivery H) (rs : List (Reaction H)) :
    ∃ es, Reacted k d.journal.length rs es ∧ Leads names behaviour d es (react names publish k d rs) := by
  induction rs generalizing d with
  | nil => exact ⟨[], .nil, .refl d⟩
  | cons r rs ih =>
    cases r with
    | operate op =>
      obtain ⟨es, hop, hes⟩ := leads_perform hpublish d op
      obtain ⟨es', hrs, hes'⟩ := ih (perform names publish d op)
      rw [hes.journal, List.length_append] at hrs
      exact ⟨es ++ es', .operate hop hrs, hes.trans hes'⟩
    | write line =>
      have hwrote : Leads names behaviour d [⟨d.bus, .wrote line⟩]
          { d.enter (.wrote line) with lines := d.lines ++ [line] } :=
        leads_singleton (fun _ _ _ => nofun) rfl rfl
      obtain ⟨es, hrs, hes⟩ := ih { d.enter (.wrote line) with lines := d.lines ++ [line] }
      rw [hwrote.journal, List.length_append] at hrs
      exact ⟨_ :: es, .write hrs, hwrote.trans hes⟩
    | fail message => exact ⟨_, .fail, leads_singleton (fun _ _ _ => nofun) rfl rfl⟩

/-- The subscribers of a delivery hear one after the other, each does what it does, and the delivery ends. -/
theorem leads_inform (hpublish : ∀ d e, ∃ es, (Op.publish e).Leaves d.journal.length es ∧
      Leads names behaviour d es (publish d e)) (n : Nat) (e : Event) (hs : List H) (d : Delivery H) :
    ∃ inner b next rest, inner ++ [⟨b, .ended n⟩] = next :: rest ∧ next.GoesOn n e ∧
      Leads names behaviour d (next :: rest) ((hs.foldl (inform names behaviour publish n e) d).enter (.ended n)) := by
  induction hs generalizing d with
  | nil =>
    exact ⟨[], d.bus, _, [], rfl, .inl rfl, leads_singleton (fun _ _ _ => nofun) rfl (List.append_nil _).symm⟩
  | cons x hs ih =>
    obtain ⟨es, hreacted, hes⟩ := leads_react hpublish e.kind (d.enter (.heard n x e))
      (behaviour d.bus (d.enter (.heard n x e)).journal x e)
    have hes : Leads names behaviour (d.enter (.heard n x e)) es (inform names behaviour publish n e d x) := hes
    obtain ⟨inner, b, next, rest, hinner, hgoesOn, hrest⟩ := ih (inform names behaviour publish n e d x)
    refine ⟨⟨d.bus, .heard n x e⟩ :: es ++ inner, b, ⟨d.bus, .heard n x e⟩, es ++ next :: rest, ?_, .inr ⟨x, rfl⟩, ?_, ?_,
      ?_⟩
    · rw [List.append_assoc, hinner, List.cons_append]
    · exact (hes.trans hrest).journal.trans (List.append_assoc _ _ _)
    · exact (hes.trans hrest).lines
    · refine hes.heeded.hear ?_ hgoesOn ?_
      · rwa [Delivery.enter, List.length_append] at hreacted
      · have hheeded := hrest.heeded
        rwa [hes.journal] at hheeded

/-- An event that is announced is lost, or a delivery of it comes to its end. -/
theorem leads_tell (depth : Nat) (d : Delivery H) (e : Event) :
    ∃ es, (Op.publish e).Leaves d.journal.length es ∧ Leads names behaviour d es (tell names behaviour depth d e) := by
  induction depth generalizing d e with
  | zero =>
    exact ⟨_, .inl ⟨d.bus, rfl⟩, leads_singleton (fun _ _ _ => nofun) rfl (List.append_nil _).symm⟩
  | succ depth ih =>
    have hbegan : Leads names behaviour d [⟨d.bus, .began e⟩] (d.enter (.began e)) :=
      leads_singleton (fun _ _ _ => nofun) rfl (List.append_nil _).symm
    obtain ⟨inner, b, next, rest, hinner, -, hrest⟩ :=
      leads_inform ih d.journal.length e (d.bus.subscribers e.kind) (d.enter (.began e))
    exact ⟨_, .inr ⟨d.bus, inner, b, hinner ▸ rfl⟩, hbegan.trans hrest⟩

theorem leads_run (depth : Nat) (ops : List (Op H)) (d : Delivery H) :
    ∃ es, Leads names behaviour d es (run names behaviour depth d ops) := by
  induction ops generalizing d with
  | nil => exact ⟨[], .refl d⟩
  | cons op ops ih =>
    obtain ⟨es, -, hes⟩ := leads_perform (leads_tell depth) d op
    obtain ⟨es', hes'⟩ := ih (perform names (tell names behaviour depth) d op)
    exact ⟨es ++ es', hes.trans hes'⟩

end Reactions

/-! ### Log writers -/

section LogWriters

variable {names : Names H} {own : EventKind → H} {k : EventKind} {d : Delivery H}

omit [DecidableEq H] in
/-- What is done to the subscribers of some kinds, each in its turn. -/
theorem foldl_subscribers {f : Delivery H → EventKind → Delivery H} {g : EventKind → List H → List H}
    (hf : ∀ d k k', (f d k).bus.subscribers k' = if k = k' then g k' (d.bus.subscribers k') else d.bus.subscribers k')
    {ks : List EventKind} (hks : ks.Nodup) :
    (ks.foldl f d).bus.subscribers k = if k ∈ ks then g k (d.bus.subscribers k) else d.bus.subscribers k := by
  induction ks generalizing d with
  | nil => exact (if_neg List.not_mem_nil).symm
  | cons k' ks ih =>
    obtain ⟨hnotMem, hks⟩ := List.nodup_cons.mp hks
    rw [List.foldl_cons, ih hks, hf]
    by_cases hk : k' = k
    · subst hk
      rw [if_neg hnotMem, if_pos rfl, if_pos List.mem_cons_self]
    · simp only [if_neg hk, List.mem_cons, Ne.symm hk, false_or]

omit [DecidableEq H] in
theorem attach_subscribers : (d.attach names own).bus.subscribers k =
    if k ∈ EventKind.logged then d.bus.subscribers k ++ [own k] else d.bus.subscribers k := by
  rw [Delivery.attach]
  refine foldl_subscribers (g := fun k hs => hs ++ [own k]) (fun d k k' => ?_) (by decide)
  rw [subscribe_subscribers]
  split
  · rename_i hk
    rw [hk]
  · rfl

theorem detach_subscribers : (d.detach names own).bus.subscribers k =
    if k ∈ EventKind.logged then (d.bus.subscribers k).erase (own k) else d.bus.subscribers k := by
  rw [Delivery.detach]
  refine foldl_subscribers (g := fun k hs => hs.erase (own k)) (fun d k k' => ?_) (by decide)
  rw [unsubscribe_subscribers]
  split
  · rename_i hk
    rw [hk]
  · rfl

/-- What neither adds nor removes a subscriber does the same without it. -/
theorem erase_amend {n : Note H} {hs hs' : List H} {w : H} (h : hs = hs'.erase w) (hw : w ∉ hs)
    (hn : n ≠ .subscribed k w ∧ n ≠ .unsubscribed k w) :
    n.amend k hs = (n.amend k hs').erase w ∧ w ∉ n.amend k hs := by
  cases n with
  | subscribed k' x =>
    -- another name or another kind of event leaves the one at hand alone
    by_cases hk : k' = k
    · subst hk
      have hne : x ≠ w := fun hx => hn.1 (hx ▸ rfl)
      simp only [Note.amend, if_pos]
      refine ⟨?_, ?_⟩
      · rw [h, List.erase_append]
        split
        · rfl
        · rename_i habsent
          rw [List.erase_of_not_mem habsent, List.erase_of_not_mem]
          exact fun hmem => hne (List.mem_singleton.mp hmem).symm
      · rw [List.mem_append, List.mem_singleton]
        exact not_or.mpr ⟨hw, Ne.symm hne⟩
    · simp only [Note.amend, if_neg hk]
      exact ⟨h, hw⟩
  | unsubscribed k' x =>
    by_cases hk : k' = k
    · subst hk
      simp only [Note.amend, if_pos]
      exact ⟨by rw [h, List.erase_comm], fun hmem => hw (List.mem_of_mem_erase hmem)⟩
    · simp only [Note.amend, if_neg hk]
      exact ⟨h, hw⟩
  | cleared k' =>
    cases k' with
    | none => exact ⟨rfl, List.not_mem_nil⟩
    | some k' =>
      by_cases hk : k' = k
      · simp only [Note.amend, if_pos hk]
        exact ⟨rfl, List.not_mem_nil⟩
      · simp only [Note.amend, if_neg hk]
        exact ⟨h, hw⟩
  | _ => exact ⟨h, hw⟩

theorem erase_replay {es : List (Entry H)} {hs hs' : List H} {w : H} (h : hs = hs'.erase w) (hw : w ∉ hs)
    (hes : ∀ entry ∈ es, entry.note ≠ .subscribed k w ∧ entry.note ≠ .unsubscribed k w) :
    replay k hs es = (replay k hs' es).erase w ∧ w ∉ replay k hs es := by
  induction es generalizing hs hs' with
  | nil => exact ⟨h, hw⟩
  | cons entry es ih =>
    obtain ⟨hentry, hes⟩ := List.forall_mem_cons.mp hes
    obtain ⟨h', hw'⟩ := erase_amend h hw hentry
    exact ih h' hw' hes

/-- Removing the only entry of a subscriber removes all of them. -/
theorem erase_eq_filter {hs : List H} {w : H} (h : w ∉ hs.erase w) : hs.erase w = hs.filter (· ≠ w) := by
  have hkeep : ∀ l : List H, w ∉ l → l.filter (· ≠ w) = l := by
    intro l hl
    refine List.filter_eq_self.mpr fun x hx => decide_eq_true ?_
    rintro rfl
    exact hl hx
  by_cases hw : w ∈ hs
  · obtain ⟨l, r, hl, rfl, herase⟩ := List.exists_erase_eq hw
    rw [herase] at h ⊢
    rw [List.mem_append, not_or] at h
    rw [List.filter_append, List.filter_cons_of_neg (by simp), hkeep l h.1, hkeep r h.2]
  · rw [List.erase_of_not_mem hw]
    exact (hkeep hs hw).symm

end LogWriters

/-! ### Whole runs -/

/-- The journal of a bus that had some subscribers tells what became of every event and of every subscription, when
deliveries go down `depth` levels. -/
structure Accounted (names : Names H) (behaviour : Behaviour H) (start : Bus H) (depth : Nat) (d : Delivery H) : Prop where
  /-- Of an event hear those who were subscribed to its kind when its delivery began, each as often as it was subscribed
  and in the order of the subscriptions. -/
  delivered : ∀ i b e, d.journal[i]? = some ⟨b, .began e⟩ → hearings i d.journal = (b.subscribers e.kind).map (·, e)
  /-- Nobody hears of an event outside a delivery of it. -/
  heard : ∀ (i : Nat) b n h e, d.journal[i]? = some ⟨b, .heard n h e⟩ → n < i ∧ ∃ b', d.journal[n]? = some ⟨b', .began e⟩
  /-- Who hears of an event does what it does, one thing after the other up to its first failure, and only then the delivery
  goes on with the next one or ends. -/
  heeded : ∀ (i : Nat) b n h e, d.journal[i]? = some ⟨b, .heard n h e⟩ →
    Heeds behaviour b (d.journal.take (i + 1)) n h e (d.journal.drop (i + 1))
  /-- The log has a line for every change of subscriptions, every line that a subscriber writes and every failure. -/
  logged : d.lines = d.journal.flatMap (Entry.lines names)
  /-- At every point the subscribers are those that the operations before it make. -/
  before : ∀ i entry k, d.journal[i]? = some entry →
    entry.bus.subscribers k = replay k (start.subscribers k) (d.journal.take i)
  /-- So they are in the end. -/
  after : ∀ k, d.bus.subscribers k = replay k (start.subscribers k) d.journal
  /-- The number of subscriptions is that of the entries in the list. -/
  counted : ∀ (i : Nat) b k n, d.journal[i]? = some ⟨b, .counted k n⟩ → n = (b.subscribers k).length
  /-- An event is lost only inside of `depth` deliveries. -/
  lost : ∀ i b e, d.journal[i]? = some ⟨b, .lost e⟩ → level (d.journal.take i) = depth

section Runs

variable {names : Names H} {behaviour : Behaviour H} {depth : Nat} {start : Bus H} {d : Delivery H}

theorem Recorded.accounted (h : Recorded start depth (fun _ => []) d)
    (hd : Leads names behaviour ⟨start, [], []⟩ d.journal d) : Accounted names behaviour start depth d where
  delivered i b e hi := by
    rw [← h.delivered i b e hi, List.map_nil, List.append_nil]
  heard i b n x e hi := by
    obtain ⟨b', hb'⟩ : ∃ b', (d.journal.take i)[n]? = some ⟨b', .began e⟩ := (h.proper i _ hi).fits
    have hlt : n < i := by
      have := (List.getElem?_eq_some_iff.mp hb').1
      rw [List.length_take] at this
      omega
    rw [List.getElem?_take_of_lt hlt] at hb'
    exact ⟨hlt, b', hb'⟩
  heeded i b n x e hi := by
    have hlt : i < d.journal.length := (List.getElem?_eq_some_iff.mp hi).1
    have hentry : d.journal[i] = ⟨b, .heard n x e⟩ := (List.getElem?_eq_some_iff.mp hi).2
    have hsplit : d.journal = d.journal.take i ++ ⟨b, .heard n x e⟩ :: d.journal.drop (i + 1) := by
      rw [← hentry, List.getElem_cons_drop, List.take_append_drop]
    have hheeds := hd.heeded _ b n x e _ hsplit
    rwa [List.nil_append, ← hentry, List.take_append_getElem] at hheeds
  logged := hd.lines
  before i entry k hi := (h.proper i entry hi).subscribers k
  after := h.subscribers
  counted i b k n hi := (h.proper i _ hi).fits
  lost i b e hi := (h.proper i _ hi).fits

/-- A bus that has not been used. -/
theorem recorded_start (b : Bus H) (lines : Log) : Recorded b depth (fun _ => []) ⟨b, [], lines⟩ :=
  ⟨fun _ _ hi => absurd (List.getElem?_nil.symm.trans hi) nofun, fun _ => rfl,
    fun _ _ _ hi => absurd (List.getElem?_nil.symm.trans hi) nofun, fun _ _ => rfl⟩

theorem perform_journal (d : Delivery H) (op : Op H) :
    ∃ es, (perform names (tell names behaviour (depth + 1)) d op).journal = d.journal ++ ⟨d.bus, op.note d.bus⟩ :: es := by
  cases op with
  | subscribe k h => exact ⟨[], rfl⟩
  | unsubscribe k h => exact ⟨[], unsubscribe_journal d k h⟩
  | clear k => exact ⟨[], rfl⟩
  | count k => exact ⟨[], rfl⟩
  | publish e =>
    have hnested : ∀ e, Keeps d.bus (depth + 1) 1 (tell names behaviour depth · e) :=
      fun e => keeps_tell depth e (Nat.add_comm _ _)
    have hinformed : Onward (d.enter (.began e)) ((d.bus.subscribers e.kind).foldl
        (inform names behaviour (tell names behaviour depth) d.journal.length e) (d.enter (.began e))) :=
      .foldl (onward_inform hnested _ _) _ _
    have hended : (d.enter (.began e)).journal <+: (tell names behaviour (depth + 1) d e).journal :=
      hinformed.journal.trans (List.prefix_append _ _)
    obtain ⟨es, hes⟩ := hended
    exact ⟨es, hes.symm.trans (List.append_assoc _ _ _)⟩

/-- A log writer subscribes by operations. -/
theorem attach_eq_run {own : EventKind → H} (d : Delivery H) :
    d.attach names own = run names behaviour depth d (EventKind.logged.map fun k => .subscribe k (own k)) := by
  rw [run, List.foldl_map]
  rfl

/-- The subscribers after a run are those before it with what was done meanwhile. -/
theorem run_subscribers (hd : Recorded start depth (fun _ => []) d) (hlevel : level d.journal = 0) (ops : List (Op H))
    (k : EventKind) :
    (run names behaviour depth d ops).bus.subscribers k =
      replay k (d.bus.subscribers k) ((run names behaviour depth d ops).journal.drop d.journal.length) := by
  have hkeeps : Keeps start depth 0 (run names behaviour depth · ops) := keeps_run depth ops (Nat.zero_add _)
  obtain ⟨es, hes⟩ := (hkeeps.onward d).journal
  rw [(hkeeps.recorded _ d hd hlevel).subscribers, ← hes, replay_append, List.drop_left, hd.subscribers]

/-- Whatever subscribers do, a run of a bus tells every event to those who were subscribed to its kind when its delivery
began, as often and in the order as they were; each of them does what it does up to its first failure, which is logged and
keeps nobody from hearing.  The subscribers are at every point those that the operations so far make, and every operation is
entered as it begins.  A log writer that comes and goes takes away its own subscriptions and no others, so that the
subscribers are those that the others have made of the ones before it. -/
theorem run_accounted (names : Names H) (behaviour : Behaviour H) (depth : Nat) (b : Bus H) (ops : List (Op H)) :
    let d := run names behaviour depth ⟨b, [], []⟩ ops
    Accounted names behaviour b depth d ∧
    (0 < depth → ∀ d op, ∃ es,
      (perform names (tell names behaviour depth) d op).journal = d.journal ++ ⟨d.bus, op.note d.bus⟩ :: es) ∧
    ∀ (own : EventKind → H) (ops' : List (Op H)),
      let d₁ := d.attach names own
      let d₂ := run names behaviour depth d₁ ops'
      let between := d₂.journal.drop d₁.journal.length
      (∀ k ∈ EventKind.logged, own k ∉ d.bus.subscribers k) →
      (∀ entry ∈ between, ∀ k ∈ EventKind.logged,
        entry.note ≠ .subscribed k (own k) ∧ entry.note ≠ .unsubscribed k (own k)) →
      ∀ k, (d₂.detach names own).bus.subscribers k = replay k (d.bus.subscribers k) between ∧
        (d₂.detach names own).bus.subscribers k =
          (d₂.bus.subscribers k).filter fun h => k ∉ EventKind.logged ∨ h ≠ own k := by
  intro d
  -- one law for all operations, used three times: from the start, for the log writer, and for what follows it
  have hrun : ∀ ops : List (Op H), Keeps b depth 0 (run names behaviour depth · ops) :=
    fun ops => keeps_run depth ops (Nat.zero_add _)
  have hd : Recorded b depth (fun _ => []) d := (hrun ops).recorded _ _ (recorded_start b []) rfl
  have hlevel : level d.journal = 0 := ((hrun ops).onward _).level
  obtain ⟨es, hes⟩ : ∃ es, Leads names behaviour ⟨b, [], []⟩ es d := leads_run depth ops ⟨b, [], []⟩
  refine ⟨hd.accounted (hes.journal ▸ hes), ?_, ?_⟩
  · cases depth with
    | zero => exact fun hdepth => absurd hdepth (Nat.lt_irrefl 0)
    | succ depth => exact fun _ d op => perform_journal d op
  intro own ops' d₁ d₂ between hfresh huntouched k
  have hattach : d₁ = run names behaviour depth d (EventKind.logged.map fun k => .subscribe k (own k)) := attach_eq_run d
  have hd₁ : Recorded b depth (fun _ => []) d₁ := hattach ▸ (hrun _).recorded _ _ hd hlevel
  have hlevel₁ : level d₁.journal = 0 := hattach ▸ ((hrun _).onward d).level.trans hlevel
  have hwith : d₂.bus.subscribers k = replay k (d₁.bus.subscribers k) between := run_subscribers hd₁ hlevel₁ ops' k
  rw [detach_subscribers]
  by_cases hk : k ∈ EventKind.logged
  · -- with and without the log writer the others do the same, up to its one subscription
    rw [if_pos hk]
    have hsubscribers : d₁.bus.subscribers k = d.bus.subscribers k ++ [own k] := attach_subscribers.trans (if_pos hk)
    have herase : d.bus.subscribers k = (d₁.bus.subscribers k).erase (own k) := by
      rw [hsubscribers, List.erase_append_right _ (hfresh k hk), List.erase_cons_head, List.append_nil]
    obtain ⟨hreplay, hgone⟩ := erase_replay herase (hfresh k hk) fun entry hentry => huntouched entry hentry k hk
    rw [hwith, ← hreplay]
    refine ⟨rfl, ?_⟩
    rw [hreplay] at hgone ⊢
    rw [erase_eq_filter hgone]
    simp only [hk, not_true_eq_false, false_or]
  · rw [if_neg hk]
    have hsubscribers : d₁.bus.subscribers k = d.bus.subscribers k := attach_subscribers.trans (if_neg hk)
    refine ⟨by rw [hwith, hsubscribers], ?_⟩
    exact (List.filter_eq_self.mpr fun h _ => decide_eq_true (.inl hk)).symm

end Runs

/-- A subscriber that puts another one in the place of a third, announces an event and fails. -/
def busyReaction : Behaviour String := fun _ _ h e =>
  if h = "first" then
    [.unsubscribe e.kind "second", .subscribe e.kind "third", .operate (.publish .base), .fail "bug"]
  else []

/-- What is done before a log writer comes. -/
def busyStart : List (Op String) :=
  [.subscribe .base "first", .subscribe .base "second", .publish .base, .subscribe .stepStarted "first"]

/-- The bus with which the first announcement begins. -/
def busyTold : Bus String := (Bus.empty.subscribe .base "first").subscribe .base "second"

/-- The bus before the log writer comes. -/
def busyBefore : Delivery String := run some busyReaction 2 ⟨.empty, [], []⟩ busyStart

/-- The bus with the log writer. -/
def busyAttached : Delivery String := busyBefore.attach some EventKind.label

/-- What is done while the log writer listens. -/
def busyMeanwhile : List (Op String) := [.publish .base, .subscribe .stepStarted "second", .clear (some .fault)]

/-- The bus before the log writer goes. -/
def busyAfter : Delivery String := run some busyReaction 2 busyAttached busyMeanwhile

/-- Of the first event both hear that were subscribed.  The first one hears with entry 3: it puts a third one in the place of
the second, announces an event of which it and the third one hear, and fails, which is logged; only then the second one
hears. -/
theorem run_accounted_busy :
    (∀ k ∈ EventKind.logged, k.label ∉ busyBefore.bus.subscribers k) ∧
    (∀ entry ∈ busyAfter.journal.drop busyAttached.journal.length, ∀ k ∈ EventKind.logged,
      entry.note ≠ .subscribed k k.label ∧ entry.note ≠ .unsubscribed k k.label) ∧
    hearings 2 busyBefore.journal = [("first", .base), ("second", .base)] ∧
    Heeds busyReaction busyTold (busyBefore.journal.take 4) 2 "first" .base (busyBefore.journal.drop 4) ∧
    (busyBefore.journal.map Entry.note).drop 4 =
      [.unsubscribed .base "second", .subscribed .base "third", .began .base, .heard 6 "first" .base,
        .unsubscribed .base "second", .subscribed .base "third", .lost .base, .failed .base "bug",
        .heard 6 "third" .base, .ended 6, .failed .base "bug", .heard 2 "second" .base, .ended 2,
        .subscribed .stepStarted "first"] ∧
    busyBefore.bus.subscribers .base = ["first", "third", "third"] ∧
    busyBefore.lines.filter (fun l => l.level = .error) =
      [⟨.error, "Event handler error for BaseEvent: bug"⟩, ⟨.error, "Event handler error for BaseEvent: bug"⟩] ∧
    (busyAfter.detach some EventKind.label).bus.subscribers .stepStarted = ["first", "second"] := by
  have hfresh : ∀ k ∈ EventKind.logged, k.label ∉ busyBefore.bus.subscribers k := by decide +kernel
  have huntouched : ∀ entry ∈ busyAfter.journal.drop busyAttached.journal.length, ∀ k ∈ EventKind.logged,
      entry.note ≠ .subscribed k k.label ∧ entry.note ≠ .unsubscribed k k.label := by
    have hall : ((busyAfter.journal.drop busyAttached.journal.length).all fun entry =>
        match entry.note with
        | .subscribed k h | .unsubscribed k h => h ≠ k.label
        | _ => true) = true := by decide +kernel
    intro entry hentry k _
    have hentry := List.all_eq_true.mp hall entry hentry
    constructor
    all_goals
      intro hnote
      rw [hnote] at hentry
      exact of_decide_eq_true hentry rfl
  -- all that is left to compute is the subscribers without the log writer
  have hafter : replay .stepStarted (busyBefore.bus.subscribers .stepStarted)
      (busyAfter.journal.drop busyAttached.journal.length) = ["first", "second"] := by
    decide +kernel
  obtain ⟨haccounted, -, hwriter⟩ := run_accounted some busyReaction 2 .empty busyStart
  refine ⟨hfresh, huntouched, haccounted.delivered 2 busyTold .base rfl,
    haccounted.heeded 3 busyTold 2 "first" .base rfl, ?_, ?_, ?_, ?_⟩
  · rfl
  · decide +kernel
  · decide +kernel
  · exact (hwriter EventKind.label busyMeanwhile hfresh huntouched .stepStarted).1.trans hafter

end FluentShift.Engine.Bus
