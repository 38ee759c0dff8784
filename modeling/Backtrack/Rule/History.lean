import Backtrack.Blueprint.Build
import Backtrack.Context.Suffix
import Backtrack.Rule.Lifetime

/-!
# Histories of rules

A workspace holds named links to rules. Each step of a history creates, copies, drops, defines or runs rules, and
after it the rules that lost their last owner are gone.
-/

namespace Backtrack

/-- Rules, and the variables that hold links to them. -/
structure Workspace where
  store : Store
  vars : Scope

namespace Workspace

/-- No rules and no variables. -/
def empty : Workspace :=
  ⟨.empty, []⟩

/-- One step of a history. -/
inductive Step where
  /-- A new rule without a body. -/
  | new (var : String)
  /-- A handle to the rule that another variable links to. -/
  | handle (var source : String)
  /-- A link of the same kind as the one in another variable. -/
  | clone (var source : String)
  | drop (var : String)
  | define (var : String) (body : Blueprint)
  /-- A rule built from a handle to itself, which the build may first define by `early`. -/
  | declare (var : String) (body : Blueprint) (early : Option Blueprint)
  /-- A rule whose body runs a unit. -/
  | running (var : String) (body : Blueprint)
  /-- The link in a variable, to be described. -/
  | describe (var : String)
  | parse (var : String) (input : String)
  /-- Builds a unit, parses with it and drops it. -/
  | once (unit : Blueprint) (input : String)

/-- What a step answers. -/
inductive Answer where
  | done
  /-- What became of a definition. -/
  | defined (result : Except BindError Unit)
  /-- What became of the early definition in a declaration. -/
  | early (result : Except BindError Unit)
  /-- The link to describe, with the rules as they are. -/
  | shown (link : Link) (store : Store)
  | parsed (outcome : Outcome Value) (rest : Text)

/-- Why a history cannot go on. -/
inductive Stop where
  | unknown (name : String)
  | halted (reason : Halt)

/-- The rules owned by variables. -/
def held (vars : Scope) : List RuleId :=
  vars.flatMap fun (_, link) => link.owned

/-- The variables without one of them. -/
def release (vars : Scope) (name : String) : Scope :=
  vars.filter (·.1 != name)

/-- The variables with one of them replaced or added. -/
def assign (vars : Scope) (name : String) (link : Link) : Scope :=
  (name, link) :: release vars name

/-- A workspace with new variables, without the rules that lost their last owner. -/
def settle (store : Store) (vars : Scope) : Workspace :=
  ⟨store.sweep (held vars), vars⟩

/-- The link in a variable. -/
def get (w : Workspace) (name : String) : Except Stop Link :=
  match w.vars.lookup name with
  | some link => .ok link
  | none => .error (.unknown name)

/-- Runs a builder on the rules of a workspace. -/
def build {α : Type} (w : Workspace) (b : Builder α) : Except Stop (α × Store) :=
  match b.run w.store with
  | .ok r => .ok r
  | .error e => .error (.unknown e.name)

/-- Parses a text with a unit. -/
def parseText (store : Store) (g : Grammar) (input : String) : Except Stop (Report Text (Outcome Value)) :=
  match g.parse store.bodies (Text.ofString input) with
  | .ok r => .ok r
  | .error reason => .error (.halted reason)

/-- Builds the body of a declared rule in a scope where `name` stands for the rule's handle, after the early
definition if there is one. -/
def declaredBody (vars : Scope) (name : String) (body : Blueprint) (early : Option Blueprint) (handle : Link) :
    Builder (Option (Except BindError Unit) × Grammar) := do
  let scope := assign vars name handle
  let result ← early.mapM fun u => do Builder.define handle (← u.build scope)
  return (result, ← body.build scope)

/-- One step of a history: its answer, the events reported, and the workspace after it. -/
def step (w : Workspace) : Step → Except Stop (Answer × List Event × Workspace)
  | .new var =>
    let (rule, store) := w.store.fresh
    .ok (.done, [], settle store (assign w.vars var rule))
  | .handle var source => do
    let link ← w.get source
    return (.done, [], settle w.store (assign w.vars var link.handle))
  | .clone var source => do
    let link ← w.get source
    return (.done, [], settle w.store (assign w.vars var link))
  | .drop var =>
    .ok (.done, [], settle w.store (release w.vars var))
  | .define var body => do
    let link ← w.get var
    let (result, store) ← w.build do Builder.define link (← body.build w.vars)
    return (.defined result, [], settle store w.vars)
  | .declare var body early => do
    let ((result, rule, events), store) ← w.build (Builder.declare (declaredBody w.vars var body early))
    let answer := match result with
      | some r => .early r
      | none => .done
    return (answer, events, settle store (assign w.vars var rule))
  | .running var body => do
    let (g, store) ← w.build (body.build w.vars)
    let (rule, store) := store.running g
    return (.done, [], settle store (assign w.vars var rule))
  | .describe var => do
    let link ← w.get var
    return (.shown link w.store, [], w)
  | .parse var input => do
    let link ← w.get var
    let r ← parseText w.store (.link link) input
    return (.parsed r.value r.context, r.trace.events, w)
  | .once unit input => do
    let (g, store) ← w.build (unit.build w.vars)
    let r ← parseText store g input
    return (.parsed r.value r.context, r.trace.events, settle store w.vars)

/-- Whether each variable leads to a rule that is alive and has a body. -/
def definedVars (w : Workspace) : List (String × Bool) :=
  w.vars.map fun (name, link) => (name, w.store.isDefined link)

/-- What is told after a step: its answer, the events reported, and which variables are defined. -/
structure Entry where
  answer : Answer
  events : List Event
  defined : List (String × Bool)

/-- Runs a history from a workspace. -/
def run (w : Workspace) : List Step → Except Stop (List Entry)
  | [] => .ok []
  | s :: rest => do
    let (answer, events, next) ← w.step s
    return ⟨answer, events, next.definedVars⟩ :: (← run next rest)

end Workspace

end Backtrack
