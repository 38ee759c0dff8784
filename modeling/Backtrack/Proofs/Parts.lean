import Backtrack.Grammar.Eval
import Mathlib.Logic.Relation

/-!
# The parts of a grammar

A grammar reaches other units in one step: its own parts, the units that a value selects, and the bodies of the rules it links
to. Its parts at any depth are what it reaches in any number of such steps.
-/

namespace Backtrack.Grammar

/-- `Child rules g h`: the unit `h` is run by the unit `g` itself. -/
inductive Child (rules : Rules) : Grammar → Grammar → Prop where
  | seq_head {a b : Grammar} {onMissing : Action Failure} : Child rules (.seq a b onMissing) a
  | seq_tail {a b : Grammar} {onMissing : Action Failure} : Child rules (.seq a b onMissing) b
  | bind_base {a : Grammar} {next : Value → Grammar} {held : List RuleId} : Child rules (.bind a next held) a
  | bind_next {a : Grammar} {next : Value → Grammar} {held : List RuleId} (v : Value) :
      Child rules (.bind a next held) (next v)
  | choose_first {a b : Grammar} : Child rules (.choose a b) a
  | choose_second {a b : Grammar} : Child rules (.choose a b) b
  | candidate {g : Grammar} {gs : List Grammar} : g ∈ gs → Child rules (.oneOf gs) g
  | rescue_primary {a b : Grammar} : Child rules (.rescue a b) a
  | rescue_fallback {a b : Grammar} : Child rules (.rescue a b) b
  | maybe {a : Grammar} : Child rules (.maybe a) a
  | maybeThen_before {a b : Grammar} {onMissing : Action Failure} : Child rules (.maybeThen a b onMissing) a
  | maybeThen_next {a b : Grammar} {onMissing : Action Failure} : Child rules (.maybeThen a b onMissing) b
  | oneOrMany {a : Grammar} : Child rules (.oneOrMany a) a
  | zeroOrMany {a : Grammar} : Child rules (.zeroOrMany a) a
  | map {f : Value → Value} {a : Grammar} : Child rules (.map f a) a
  | transform {f : Value → Action (Except Failure Value)} {a : Grammar} : Child rules (.transform f a) a
  | wrap {how : Wrapper} {a : Grammar} : Child rules (.wrap how a) a
  | link {l : Link} {body : Grammar} : rules l.rule = some body → Child rules (.link l) body

/-- `Part rules g h`: the unit `h` is `g` or occurs in it at some depth, also inside the bodies of rules and the units that
values select. -/
def Part (rules : Rules) : Grammar → Grammar → Prop :=
  Relation.ReflTransGen (Child rules)

/-- `ExposedChild rules g h`: when the unit `h`, run by `g` itself, fails softly, `g` fails softly too and leaves the context
as `h` left it. -/
inductive ExposedChild (rules : Rules) : Grammar → Grammar → Prop where
  | seq_head {a b : Grammar} {onMissing : Action Failure} : ExposedChild rules (.seq a b onMissing) a
  | bind_base {a : Grammar} {next : Value → Grammar} {held : List RuleId} : ExposedChild rules (.bind a next held) a
  | choose_second {a b : Grammar} : ExposedChild rules (.choose a b) b
  | rescue_fallback {a b : Grammar} : ExposedChild rules (.rescue a b) b
  | maybeThen_next {a b : Grammar} {onMissing : Action Failure} : ExposedChild rules (.maybeThen a b onMissing) b
  | map {f : Value → Value} {a : Grammar} : ExposedChild rules (.map f a) a
  | transform {f : Value → Action (Except Failure Value)} {a : Grammar} : ExposedChild rules (.transform f a) a
  | wrap {how : Wrapper} {a : Grammar} : ExposedChild rules (.wrap how a) a
  | link {l : Link} {body : Grammar} : rules l.rule = some body → ExposedChild rules (.link l) body

/-- `Exposed rules g h`: the unit `h` is `g` or exposed in it at some depth. -/
def Exposed (rules : Rules) : Grammar → Grammar → Prop :=
  Relation.ReflTransGen (ExposedChild rules)

theorem Exposed.of_child {rules : Rules} {g h k : Grammar} (hgh : ExposedChild rules g h) (hhk : Exposed rules h k) :
    Exposed rules g k :=
  Relation.ReflTransGen.head hgh hhk

theorem Part.of_child {rules : Rules} {g h k : Grammar} (hgh : Child rules g h) (hhk : Part rules h k) : Part rules g k :=
  Relation.ReflTransGen.head hgh hhk

end Backtrack.Grammar
