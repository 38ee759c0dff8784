import Backtrack.Grammar
import Backtrack.Parser

/-!
# Running a grammar

A grammar denotes a parser, given the definitions of the rules that it refers to. Rules may refer to themselves, so
the denotation takes fuel, one unit for each level of nesting and each turn of a repetition; a run that needs more is
given up, and never ends in a wrong outcome.
-/

namespace Backtrack

/-- The definitions of rules; a rule that has none, or no longer exists, is left out. -/
abbrev Rules := RuleId → Option Grammar

namespace Grammar

/-- The parser of a grammar. -/
def eval {σ : Type} [Context σ] (rules : Rules) : (fuel : Nat) → Grammar → Parser σ Value
  | 0, _ => Engine.halt .outOfFuel
  | _ + 1, .pop pred => Parser.pop pred
  | _ + 1, .apply f => Parser.apply f
  | n + 1, .seq a b onMissing => Parser.seq .pair (eval rules n a) (eval rules n b) onMissing
  | n + 1, .bind a next _ => Parser.bind (eval rules n a) fun v => eval rules n (next v)
  | n + 1, .choose a b => Parser.choose (eval rules n a) (eval rules n b)
  | n + 1, .oneOf gs => Parser.oneOf (gs.map fun g => eval rules n g)
  | n + 1, .rescue a b => Parser.rescue (eval rules n a) (eval rules n b)
  | n + 1, .maybe a => Parser.maybe .opt (eval rules n a)
  | n + 1, .maybeThen a b onMissing =>
    Parser.maybeThen (fun before v => .pair (.opt before) v) (eval rules n a) (eval rules n b) onMissing
  | n + 1, .oneOrMany a => Parser.oneOrMany .list (eval rules n a) n
  | n + 1, .zeroOrMany a => Parser.zeroOrMany .list (eval rules n a) n
  | n + 1, .map f a => Parser.map f (eval rules n a)
  | n + 1, .transform f a => Parser.transform f (eval rules n a)
  | n + 1, .wrap _ a => eval rules n a
  | n + 1, .link l => match rules l.rule with
    | some body => eval rules n body
    | none => Engine.yield (.hard .unboundRecursion)

section

variable {σ : Type} [Context σ] {rules : Rules} {n : Nat} {a b : Grammar}

/-- One level of fuel is used up by a unit, and the rest is left to each of its parts. -/
theorem eval_seq {onMissing : Action Failure} : (a.seq b onMissing).eval (σ := σ) rules (n + 1) =
    Parser.seq .pair (a.eval rules n) (b.eval rules n) onMissing :=
  rfl

/-- The unit that the value selects gets as much as the one that gave it. -/
theorem eval_bind {next : Value → Grammar} {held : List RuleId} : (a.bind next held).eval (σ := σ) rules (n + 1) =
    Parser.bind (a.eval rules n) fun v => (next v).eval rules n :=
  rfl

/-- A choice leaves the same fuel to both of its units. -/
theorem eval_choose : (a.choose b).eval (σ := σ) rules (n + 1) = Parser.choose (a.eval rules n) (b.eval rules n) :=
  rfl

/-- A recovering unit leaves the same fuel to its primary unit and its fallback. -/
theorem eval_rescue : (a.rescue b).eval (σ := σ) rules (n + 1) = Parser.rescue (a.eval rules n) (b.eval rules n) :=
  rfl

theorem eval_maybe : a.maybe.eval (σ := σ) rules (n + 1) = Parser.maybe .opt (a.eval rules n) :=
  rfl

/-- An optional part and the unit after it are run like a sequence. -/
theorem eval_maybeThen {onMissing : Action Failure} : (a.maybeThen b onMissing).eval (σ := σ) rules (n + 1) =
    Parser.maybeThen (fun before v => .pair (.opt before) v) (a.eval rules n) (b.eval rules n) onMissing :=
  rfl

/-- What is left of the fuel bounds the turns of a repetition. -/
theorem eval_oneOrMany : a.oneOrMany.eval (σ := σ) rules (n + 1) = Parser.oneOrMany .list (a.eval rules n) n :=
  rfl

theorem eval_zeroOrMany : a.zeroOrMany.eval (σ := σ) rules (n + 1) = Parser.zeroOrMany .list (a.eval rules n) n :=
  rfl

theorem eval_map {f : Value → Value} : (a.map f).eval (σ := σ) rules (n + 1) = Parser.map f (a.eval rules n) :=
  rfl

theorem eval_transform {f : Value → Action (Except Failure Value)} :
    (a.transform f).eval (σ := σ) rules (n + 1) = Parser.transform f (a.eval rules n) :=
  rfl

/-- A link to a bound rule runs the body. -/
theorem eval_link {l : Link} {body : Grammar} (h : rules l.rule = some body) :
    (link l).eval (σ := σ) rules (n + 1) = body.eval rules n := by
  rw [eval, h]

/-- A link to a rule that is not bound fails hard where it stands. -/
theorem eval_link_unbound {l : Link} (h : rules l.rule = none) :
    (link l).eval (σ := σ) rules (n + 1) = Engine.yield (.hard .unboundRecursion) := by
  rw [eval, h]

end

/-- The run of a grammar on a context ends, in an outcome or because the context refused a remembered place. -/
def Ends {σ : Type} [Context σ] (rules : Rules) (g : Grammar) (s : σ) : Prop :=
  ∃ fuel, (g.eval rules fuel).run s ≠ .error .outOfFuel

/-- More fuel than any run that fits into a machine can use. -/
def ampleFuel : Nat :=
  0x4000000000000000

/-- Runs a grammar on a context. -/
def parse {σ : Type} [Context σ] (rules : Rules) (g : Grammar) (s : σ) : Except Halt (Report σ (Outcome Value)) :=
  (g.eval rules ampleFuel).run s

end Grammar

end Backtrack
