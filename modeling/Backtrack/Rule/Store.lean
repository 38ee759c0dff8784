import Backtrack.Grammar.Eval

/-!
# The store of rules

A rule is a cell that is created without a body and can be given one once. A link names a cell and says whether it
keeps the cell alive; a cell that no owner is left for is dropped.
-/

namespace Backtrack

/-- What has become of a rule. -/
inductive Cell where
  | unbound
  | bound (body : Grammar)
  /-- No owner is left. -/
  | dropped

/-- The body of a rule that is alive and has one. -/
def Cell.body? : Cell → Option Grammar
  | .bound body => some body
  | .unbound | .dropped => none

/-- The rules that a cell keeps alive: those that its body owns. -/
def Cell.owned : Cell → List RuleId
  | .bound body => body.owned
  | .unbound | .dropped => []

/-- All rules ever created, each under its number. -/
structure Store where
  cells : Array Cell

namespace Store

/-- No rules. -/
def empty : Store :=
  ⟨#[]⟩

instance : Inhabited Store := ⟨empty⟩

/-- What has become of a rule; one that was never created counts as dropped. -/
def cell (s : Store) (r : RuleId) : Cell :=
  s.cells.getD r .dropped

/-- The definitions of the rules that are alive and have one. -/
def bodies (s : Store) : Rules :=
  fun r => (s.cell r).body?

/-- Adds a cell, and gives the link that owns it. -/
def add (s : Store) (c : Cell) : Link × Store :=
  (⟨s.cells.size, true⟩, ⟨s.cells.push c⟩)

/-- A new rule without a body. -/
def fresh (s : Store) : Link × Store :=
  s.add .unbound

/-- A new rule whose body runs a unit. -/
def running (s : Store) (u : Grammar) : Link × Store :=
  s.add (.bound (.wrap .viaFunction u))

/-- Gives a rule its body. A rule that has one keeps it. -/
def define (s : Store) (l : Link) (body : Grammar) : Except BindError Store :=
  match s.cell l.rule with
  | .dropped => .error .dropped
  | .bound _ => .error .alreadyDefined
  | .unbound => .ok ⟨s.cells.setIfInBounds l.rule (.bound (.wrap .erased body))⟩

/-- A new cell stands under its own number. -/
@[simp] theorem cell_add_self (s : Store) (c : Cell) : (s.add c).2.cell (s.add c).1.rule = c := by
  simp [add, cell, Array.getD]

/-- Adding a cell changes no other. -/
theorem cell_add_of_ne (s : Store) (c : Cell) {r : RuleId} (h : r ≠ (s.add c).1.rule) :
    (s.add c).2.cell r = s.cell r := by
  simp only [add, cell, Array.getD_eq_getD_getElem?, Array.getElem?_push] at h ⊢
  simp [h]

/-- A definition is accepted exactly by a rule that is alive and has none, and changes that rule alone. -/
theorem define_eq_ok_iff {s t : Store} {l : Link} {body : Grammar} :
    s.define l body = .ok t ↔
      s.cell l.rule = .unbound ∧ t = ⟨s.cells.setIfInBounds l.rule (.bound (.wrap .erased body))⟩ := by
  unfold define
  cases s.cell l.rule with
  | dropped | bound => simp
  | unbound => simp [eq_comm]

/-- Whether a link leads to a rule that is alive and has a body. -/
def isDefined (s : Store) (l : Link) : Bool :=
  (s.bodies l.rule).isSome

end Store

end Backtrack
