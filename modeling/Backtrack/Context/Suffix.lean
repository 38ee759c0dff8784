import Backtrack.Context

/-!
# Suffixes

The simplest context is what is left of the input, with a count of what is gone. A remembered place is the suffix
itself, so going back always succeeds. Texts and slices are suffixes of characters and of values.
-/

namespace Backtrack

/-- The items not yet consumed, after `consumed` others. -/
structure Suffix (ι : Type) where
  consumed : Nat
  rest : List ι
deriving DecidableEq, Inhabited

/-- A text being consumed, character by character. -/
abbrev Text := Suffix Char

/-- A list of values being consumed. -/
abbrev Slice := Suffix Value

namespace Suffix

variable {ι : Type}

/-- All items, none of them consumed. -/
def ofList (items : List ι) : Suffix ι :=
  ⟨0, items⟩

/-- Takes the first item. -/
def popFront (s : Suffix ι) : Option ι × Suffix ι :=
  match s.rest with
  | [] => (none, s)
  | x :: xs => (some x, ⟨s.consumed + 1, xs⟩)

/-- Taking an item hands out the first that is left. -/
theorem popFront_fst (s : Suffix ι) : s.popFront.1 = s.rest.head? := by
  unfold popFront
  split <;> simp_all

/-- Taking an item leaves the others. -/
theorem rest_popFront (s : Suffix ι) : s.popFront.2.rest = s.rest.tail := by
  unfold popFront
  split <;> simp_all

instance [Item ι] : Context (Suffix ι) where
  Snapshot := Suffix ι
  backup s := s
  restore _ saved := .ok saved
  front s := s.rest.head?.map Item.value
  popFront s := match s.popFront with
    | (item, t) => (item.map Item.value, t)
  popEvents _ := []
  remaining s := s.rest.map Item.value
  consumed s := s.consumed

end Suffix

/-- A text before any of it is consumed. -/
def Text.ofString (text : String) : Text :=
  .ofList text.toList

/-- The text not yet consumed. -/
def Text.restString (t : Text) : String :=
  String.ofList t.rest

end Backtrack
