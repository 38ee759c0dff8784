import Backtrack.Failure

/-!
# Traces

What a parse does on the way is recorded in the order in which it happens: the calls that it makes on its context, each
with the number of items consumed, and the events that it reports.
-/

namespace Backtrack

/-! ## Events -/

/-- What a parse reports on its way. -/
inductive Event where
  | firstAlternativeMissed
  | alternativeMissed (index : Nat)
  | primaryMissed
  | recovering (failure : Failure)
  /-- The second part of a committed sequence did not match. -/
  | tailMissed (failure : Failure)
  /-- The unit after an optional part that was present did not match. -/
  | nextMissed (failure : Failure)
  | repetitionStopped (count : Nat)
  /-- A cursor moves past the item at `pos`. -/
  | advance (pos : Nat)
  | definedWhileDeclared
deriving DecidableEq, Inhabited

namespace Event

/-- The weight of an event. -/
inductive Level where
  | trace | debug | warn
deriving DecidableEq, Inhabited

/-- The word that opens an event's line. -/
def Level.render : Level → String
  | .trace => "TRACE"
  | .debug => "DEBUG"
  | .warn => "WARN"

/-- Going on is worth a trace, a hard failure made or recovered from a debug line, a doubtful declaration a warning. -/
def level : Event → Level
  | .recovering _ | .tailMissed _ | .nextMissed _ => .debug
  | .definedWhileDeclared => .warn
  | _ => .trace

/-- What an event says. -/
def message : Event → String
  | .firstAlternativeMissed => "first alternative did not match, backtracking"
  | .alternativeMissed _ => "alternative did not match, backtracking"
  | .primaryMissed => "primary did not match, backtracking"
  | .recovering _ => "recovering from hard failure"
  | .tailMissed _ => "sequence tail did not match after committed head"
  | .nextMissed _ => "unit after optional prefix did not match"
  | .repetitionStopped _ => "repetition stopped"
  | .advance _ => "advance"
  | .definedWhileDeclared => "recursive rule was defined while being declared, keeping the earlier definition"

/-- The named details of an event. -/
def fields : Event → List (String × String)
  | .alternativeMissed index => [("index", toString index)]
  | .recovering failure | .tailMissed failure | .nextMissed failure => [("failure", failure.message)]
  | .repetitionStopped count => [("count", toString count)]
  | .advance pos => [("pos", toString pos)]
  | _ => []

/-- The line shown for an event: its level, what it says, and its details. -/
def render (e : Event) : String :=
  e.fields.foldl (fun line (name, value) => line ++ " " ++ name ++ "=" ++ value) (e.level.render ++ " " ++ e.message)

end Event

/-! ## Calls -/

/-- A call on a context, with the number of items consumed before it, or after it for a restore. -/
inductive Call where
  | backup (consumed : Nat)
  | front (consumed : Nat)
  | popFront (consumed : Nat)
  | restore (consumed : Nat)
deriving DecidableEq, Inhabited

namespace Call

/-- The number of items consumed at a call. -/
def consumed : Call → Nat
  | .backup n | .front n | .popFront n | .restore n => n

/-- A letter for the call and the number of items consumed. -/
def render : Call → String
  | .backup n => "b" ++ toString n
  | .front n => "f" ++ toString n
  | .popFront n => "p" ++ toString n
  | .restore n => "r" ++ toString n

end Call

/-! ## Traces -/

/-- One step of a trace. -/
inductive Entry where
  | call (c : Call)
  | event (e : Event)
deriving DecidableEq, Inhabited

/-- All that a parse did, oldest first. A trace is a list of entries, kept as the way it puts them in front of later
entries, so that two traces are joined without copying either. -/
structure Trace where
  /-- Puts the entries in front of later ones. -/
  before : List Entry → List Entry
  before_eq : ∀ later, before later = before [] ++ later

namespace Trace

/-- The entries of a trace, oldest first. -/
def toList (t : Trace) : List Entry :=
  t.before []

/-- A trace is known by its entries. -/
theorem ext {t u : Trace} (h : t.toList = u.toList) : t = u := by
  obtain ⟨f, hf⟩ := t
  obtain ⟨g, hg⟩ := u
  have : f = g := funext fun later => by rw [hf, hg]; exact congrArg (· ++ later) h
  subst this
  rfl

/-- Traces are the same exactly when their entries are. -/
theorem ext_iff {t u : Trace} : t = u ↔ t.toList = u.toList :=
  ⟨congrArg toList, ext⟩

instance : DecidableEq Trace := fun _ _ => decidable_of_iff _ ext_iff.symm

/-- Nothing was done. -/
@[inline]
def nil : Trace :=
  ⟨id, fun _ => rfl⟩

instance : Inhabited Trace := ⟨nil⟩

/-- One thing was done. -/
@[inline]
def one (e : Entry) : Trace :=
  ⟨(e :: ·), fun _ => rfl⟩

/-- The trace of a list of entries. -/
def ofList (entries : List Entry) : Trace :=
  ⟨(entries ++ ·), by simp⟩

instance : Append Trace where
  append t u := ⟨fun later => t.before (u.before later), fun later => by
    rw [u.before_eq later, t.before_eq, t.before_eq (u.before []), List.append_assoc]⟩

@[simp] theorem toList_nil : nil.toList = [] := rfl

@[simp] theorem toList_one (e : Entry) : (one e).toList = [e] := rfl

@[simp] theorem toList_ofList (entries : List Entry) : (ofList entries).toList = entries :=
  List.append_nil entries

@[simp] theorem toList_append (t u : Trace) : (t ++ u).toList = t.toList ++ u.toList :=
  t.before_eq _

@[simp] theorem nil_append (t : Trace) : nil ++ t = t :=
  ext (by simp)

@[simp] theorem append_nil (t : Trace) : t ++ nil = t :=
  ext (by simp)

@[simp] theorem append_assoc (t u v : Trace) : t ++ u ++ v = t ++ (u ++ v) :=
  ext (by simp)

/-- The calls made on the context, in order. -/
def calls (t : Trace) : List Call :=
  t.toList.filterMap fun
    | .call c => some c
    | .event _ => none

/-- The events reported, in order. -/
def events (t : Trace) : List Event :=
  t.toList.filterMap fun
    | .call _ => none
    | .event e => some e

/-- The calls of two traces stand one after the other. -/
@[simp] theorem calls_append (t u : Trace) : (t ++ u).calls = t.calls ++ u.calls := by
  simp [calls]

/-- The events of two traces stand one after the other. -/
@[simp] theorem events_append (t u : Trace) : (t ++ u).events = t.events ++ u.events := by
  simp [events]

/-- The calls of a trace in their short form, divided by blanks. -/
def journal (t : Trace) : String :=
  " ".intercalate (t.calls.map Call.render)

end Trace

end Backtrack
