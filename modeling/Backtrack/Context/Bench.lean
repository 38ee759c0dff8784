import Backtrack.Context.Cursor

/-!
# Histories of cursors

A bench holds any number of cursors, and positions remembered under names, which can be applied to any of the cursors.
-/

namespace Backtrack

/-- Cursors, and the positions remembered under names. -/
structure Bench (ι : Type) where
  cursors : Array (Cursor ι)
  slots : List (String × Cursor.Snapshot)

namespace Bench

/-- What is asked of a cursor. -/
inductive Step where
  | advance
  | peek
  | backup (slot : String)
  | restore (slot : String)
  /-- Whether two remembered positions are the same. -/
  | sameSnapshot (slot other : String)
  | copy
  /-- Whether the cursor equals another one. -/
  | eq (other : Nat)
  | describe

/-- What is answered. -/
inductive Answer (ι : Type) where
  | item (value : Option ι)
  | saved (snapshot : Cursor.Snapshot)
  | done
  | refused (reason : OutOfBounds)
  | same (b : Bool)
  /-- The number of the copy. -/
  | copied (index : Nat)
  /-- The cursor to describe. -/
  | shown (cursor : Cursor ι)

variable {ι : Type} [DecidableEq ι]

/-- One step on the cursor numbered `c`, with the events reported; a number or a name that stands for nothing has no
answer. -/
def step (b : Bench ι) (c : Nat) (s : Step) : Option (Answer ι × List Event × Bench ι) := do
  let cursor ← b.cursors[c]?
  match s with
  | .advance =>
    let (item, moved) := cursor.advance
    return (.item item, cursor.advanceEvents, { b with cursors := b.cursors.setIfInBounds c moved })
  | .peek => return (.item cursor.peek, [], b)
  | .backup slot => return (.saved cursor.backup, [], { b with slots := (slot, cursor.backup) :: b.slots })
  | .restore slot => match cursor.restore (← b.slots.lookup slot) with
    | .ok moved => return (.done, [], { b with cursors := b.cursors.setIfInBounds c moved })
    | .error reason => return (.refused reason, [], b)
  | .sameSnapshot slot other => return (.same ((← b.slots.lookup slot) = (← b.slots.lookup other)), [], b)
  | .copy => return (.copied b.cursors.size, [], { b with cursors := b.cursors.push cursor })
  | .eq other => return (.same (cursor = (← b.cursors[other]?)), [], b)
  | .describe => return (.shown cursor, [], b)

/-- What is told after a step: its answer, the events reported, and the cursor that it was made on. -/
structure Entry (ι : Type) where
  answer : Answer ι
  events : List Event
  cursor : Cursor ι

/-- Runs a history of steps, each on a cursor given by its number. -/
def run (b : Bench ι) : List (Nat × Step) → Option (List (Entry ι))
  | [] => some []
  | (c, s) :: rest => do
    let (answer, events, next) ← b.step c s
    return ⟨answer, events, ← next.cursors[c]?⟩ :: (← run next rest)

end Bench

end Backtrack
