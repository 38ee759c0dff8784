import Backtrack.Context

/-!
# Cursors

A cursor walks over a fixed array of items. A remembered place is only a position: it can be applied to any cursor,
and is refused by one whose items end before it.
-/

namespace Backtrack

/-- A place in an array of items. -/
structure Cursor (ι : Type) where
  items : Array ι
  pos : Nat
deriving DecidableEq, Inhabited

namespace Cursor

/-- A remembered position. -/
structure Snapshot where
  pos : Nat
deriving DecidableEq, Inhabited

variable {ι : Type}

/-- A cursor at the first of its items. -/
def ofArray (items : Array ι) : Cursor ι :=
  ⟨items, 0⟩

/-- The items from the position on. -/
def remaining (c : Cursor ι) : List ι :=
  c.items.toList.drop c.pos

/-- Whether no item is left. -/
def isAtEnd (c : Cursor ι) : Bool :=
  c.items.size ≤ c.pos

/-- The item at the position. -/
def peek (c : Cursor ι) : Option ι :=
  c.items[c.pos]?

/-- The item at the position, and the cursor moved past it; at the end the cursor stays. -/
def advance (c : Cursor ι) : Option ι × Cursor ι :=
  match c.peek with
  | none => (none, c)
  | some x => (some x, { c with pos := c.pos + 1 })

/-- A move is reported with the position it starts from; nothing is reported at the end. -/
def advanceEvents (c : Cursor ι) : List Event :=
  match c.peek with
  | none => []
  | some _ => [.advance c.pos]

/-- Remembers the position. -/
def backup (c : Cursor ι) : Snapshot :=
  ⟨c.pos⟩

/-- Goes to a remembered position, unless the items end before it. -/
def restore (c : Cursor ι) (s : Snapshot) : Except OutOfBounds (Cursor ι) :=
  if s.pos ≤ c.items.size then .ok { c with pos := s.pos } else .error ⟨s.pos, c.items.size⟩

/-- The item at the position is the first of those that are left. -/
theorem peek_eq_head? (c : Cursor ι) : c.peek = c.remaining.head? := by
  simp [peek, remaining]

/-- A cursor is at its end exactly when no item is left. -/
theorem isAtEnd_iff (c : Cursor ι) : c.isAtEnd = true ↔ c.remaining = [] := by
  simp [isAtEnd, remaining]

/-- A move hands out the first of the items that are left. -/
theorem advance_fst (c : Cursor ι) : c.advance.1 = c.remaining.head? := by
  rw [← peek_eq_head?]
  unfold advance
  split <;> simp_all

/-- A move takes the first of the items that are left. -/
theorem remaining_advance (c : Cursor ι) : c.advance.2.remaining = c.remaining.tail := by
  unfold advance
  split
  · next h =>
    have : c.remaining = [] := by simpa [peek_eq_head?] using h
    simp [this]
  · simp [remaining]

/-- Going back to a position remembered on the same items gives back the cursor. -/
theorem restore_backup {c d : Cursor ι} (hitems : d.items = c.items) (hpos : c.pos ≤ c.items.size) :
    d.restore c.backup = .ok c := by
  simp [restore, backup, hitems, hpos]

instance [Item ι] : Context (Cursor ι) where
  Snapshot := Snapshot
  backup := backup
  restore := restore
  front c := c.peek.map Item.value
  popFront c := match c.advance with
    | (item, d) => (item.map Item.value, d)
  popEvents := advanceEvents
  remaining c := c.remaining.map Item.value
  consumed c := c.pos

end Cursor

end Backtrack
