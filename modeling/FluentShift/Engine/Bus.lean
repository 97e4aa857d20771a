import FluentShift.Engine.Event

/-!
# FluentShift.Engine.Bus - who hears of events

A `Bus` keeps, for every kind of event, the list of its subscribers in the order they came; one may be there several
times.  `tell` hands an event to those who were subscribed when delivery began, whatever they do to the bus meanwhile; one
that fails does not keep the others from hearing.

A `Delivery` is a bus in use.  It keeps a journal of all that happens on the bus, with the bus as it stood each time, and
of what subscribers write and how they fail.
-/

namespace FluentShift.Engine

/-- The subscribers of every kind of event. -/
structure Bus (H : Type) where
  subscribers : EventKind → List H

namespace Bus

variable {H : Type} [DecidableEq H]

/-- A bus that nobody listens to. -/
def empty : Bus H := ⟨fun _ => []⟩

/-- The bus with another list of subscribers for one kind. -/
def set (b : Bus H) (k : EventKind) (hs : List H) : Bus H :=
  ⟨fun k' => if k' = k then hs else b.subscribers k'⟩

/-- How many subscriptions a kind has. -/
def count (b : Bus H) (k : EventKind) : Nat := (b.subscribers k).length

/-- Adds a subscriber at the end. -/
def subscribe (b : Bus H) (k : EventKind) (h : H) : Bus H := b.set k (b.subscribers k ++ [h])

/-- Removes the first subscription of a subscriber, if there is one. -/
def unsubscribe (b : Bus H) (k : EventKind) (h : H) : Bus H := b.set k ((b.subscribers k).erase h)

/-- Removes all subscriptions of one kind, or of every kind. -/
def clear (b : Bus H) : Option EventKind → Bus H
  | some k => b.set k []
  | none => empty

/-! ### A bus in use -/

/-- What happens on a bus.  A delivery has the number of the entry with which it began. -/
inductive Note (H : Type) where
  | subscribed (k : EventKind) (h : H)
  | unsubscribed (k : EventKind) (h : H)
  | cleared (k : Option EventKind)
  | counted (k : EventKind) (n : Nat)
  | began (e : Event)
  | heard (delivery : Nat) (h : H) (e : Event)
  | ended (delivery : Nat)
  | wrote (line : LogLine)
  /-- A subscriber that heard of an event of a kind failed. -/
  | failed (k : EventKind) (message : String)
  /-- An event that was announced too deep inside other deliveries. -/
  | lost (e : Event)

/-- Something that happened, and the bus as it stood before. -/
structure Entry (H : Type) where
  bus : Bus H
  note : Note H

/-- A bus in use: the bus as it is, what happened on it so far, and the lines of the log. -/
structure Delivery (H : Type) where
  bus : Bus H
  journal : List (Entry H)
  lines : Log

/-- How a subscriber is named in the log; one without a name does not show. -/
abbrev Names (H : Type) := H → Option String

/-- The line for a change of subscriptions. -/
def changeLine (names : Names H) (h : H) (before after : String) (k : EventKind) : Log :=
  match names h with
  | some n => [⟨.debug, before ++ " handler " ++ n ++ " " ++ after ++ " " ++ k.label⟩]
  | none => []

namespace Delivery

/-- Enters something into the journal. -/
def enter (d : Delivery H) (n : Note H) : Delivery H := { d with journal := d.journal ++ [⟨d.bus, n⟩] }

/-- Who heard of what so far. -/
def heard (d : Delivery H) : List (H × Event) :=
  d.journal.filterMap fun entry =>
    match entry.note with
    | .heard _ h e => some (h, e)
    | _ => none

/-- Subscribes, and says so. -/
def subscribe (d : Delivery H) (names : Names H) (k : EventKind) (h : H) : Delivery H :=
  { d.enter (.subscribed k h) with
    bus := d.bus.subscribe k h, lines := d.lines ++ changeLine names h "Subscribed" "to" k }

/-- Unsubscribes, and says so if there was a subscription. -/
def unsubscribe (d : Delivery H) (names : Names H) (k : EventKind) (h : H) : Delivery H :=
  if (d.bus.subscribers k).contains h then
    { d.enter (.unsubscribed k h) with
      bus := d.bus.unsubscribe k h, lines := d.lines ++ changeLine names h "Unsubscribed" "from" k }
  else d.enter (.unsubscribed k h)

/-- Removes subscriptions, and says so. -/
def clear (d : Delivery H) (k : Option EventKind) : Delivery H :=
  let line := match k with
    | some k => "Cleared subscribers for " ++ k.label
    | none => "Cleared all subscribers"
  { d.enter (.cleared k) with bus := d.bus.clear k, lines := d.lines ++ [⟨.debug, line⟩] }

/-- Asks how many subscriptions a kind has. -/
def count (d : Delivery H) (k : EventKind) : Delivery H := d.enter (.counted k (d.bus.count k))

/-- Subscribes a log writer, with a handler of its own for every kind that it listens to. -/
def attach (d : Delivery H) (names : Names H) (own : EventKind → H) : Delivery H :=
  EventKind.logged.foldl (fun d k => d.subscribe names k (own k)) d

/-- Unsubscribes a log writer. -/
def detach (d : Delivery H) (names : Names H) (own : EventKind → H) : Delivery H :=
  EventKind.logged.foldl (fun d k => d.unsubscribe names k (own k)) d

end Delivery

/-! ### What subscribers do -/

/-- Something done with a bus. -/
inductive Op (H : Type) where
  | subscribe (k : EventKind) (h : H)
  | unsubscribe (k : EventKind) (h : H)
  | clear (k : Option EventKind)
  | count (k : EventKind)
  | publish (e : Event)

/-- What a subscriber does when it hears of an event. -/
inductive Reaction (H : Type) where
  | operate (op : Op H)
  | write (line : LogLine)
  | fail (message : String)

/-- A subscriber subscribes one. -/
def Reaction.subscribe (k : EventKind) (h : H) : Reaction H := .operate (.subscribe k h)

/-- A subscriber unsubscribes one. -/
def Reaction.unsubscribe (k : EventKind) (h : H) : Reaction H := .operate (.unsubscribe k h)

/-- How subscribers react to events; it may depend on all that happened so far. -/
abbrev Behaviour (H : Type) := Bus H → List (Entry H) → H → Event → List (Reaction H)

/-- Does something with a bus.  What is to be published is handed to `publish`. -/
def perform (names : Names H) (publish : Delivery H → Event → Delivery H) (d : Delivery H) : Op H → Delivery H
  | .subscribe k h => d.subscribe names k h
  | .unsubscribe k h => d.unsubscribe names k h
  | .clear k => d.clear k
  | .count k => d.count k
  | .publish e => publish d e

/-- The line for a subscriber that failed. -/
def failureLine (heardOf : EventKind) (message : String) : LogLine :=
  ⟨.error, "Event handler error for " ++ heardOf.label ++ ": " ++ message⟩

/-- Does what a subscriber does, up to its first failure. -/
def react (names : Names H) (publish : Delivery H → Event → Delivery H) (heardOf : EventKind) :
    Delivery H → List (Reaction H) → Delivery H
  | d, [] => d
  | d, .operate op :: rs => react names publish heardOf (perform names publish d op) rs
  | d, .write line :: rs =>
    react names publish heardOf { d.enter (.wrote line) with lines := d.lines ++ [line] } rs
  | d, .fail message :: _ =>
    { d.enter (.failed heardOf message) with lines := d.lines ++ [failureLine heardOf message] }

/-- One subscriber hears of an event in the delivery with a number, and reacts. -/
def inform (names : Names H) (behaviour : Behaviour H) (publish : Delivery H → Event → Delivery H) (n : Nat)
    (e : Event) (d : Delivery H) (h : H) : Delivery H :=
  let d := d.enter (.heard n h e)
  react names publish e.kind d (behaviour d.bus d.journal h e)

/-- Hands an event to its subscribers, one after the other; what they publish goes down at most `depth` levels. -/
def tell (names : Names H) (behaviour : Behaviour H) : Nat → Delivery H → Event → Delivery H
  | 0, d, e => d.enter (.lost e)
  | depth + 1, d, e =>
    -- the subscribers of this moment hear of it, whatever becomes of the list meanwhile
    let n := d.journal.length
    let d := (d.bus.subscribers e.kind).foldl (inform names behaviour (tell names behaviour depth) n e) (d.enter (.began e))
    d.enter (.ended n)

/-- Hands an event to subscribers that do the same each time. -/
def deliver (names : Names H) (behaviour : H → Event → List (Reaction H)) : Nat → Delivery H → Event → Delivery H :=
  tell names fun _ _ => behaviour

/-- Does one thing after the other with a bus. -/
def run (names : Names H) (behaviour : Behaviour H) (depth : Nat) (d : Delivery H) (ops : List (Op H)) : Delivery H :=
  ops.foldl (perform names (tell names behaviour depth)) d

end Bus

end FluentShift.Engine
