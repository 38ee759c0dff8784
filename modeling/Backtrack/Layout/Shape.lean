import Backtrack.Context.Cursor
import Backtrack.Layout.Doc
import Backtrack.Layout.Quoted
import Backtrack.Rule.Lifetime

/-!
# Descriptions of units, rules, cursors and failures

How the parts of a grammar describe themselves: leaves and erased units show their name only, the other units their
parts.
-/

namespace Backtrack

/-- The description of a numbered error and of the errors that caused it. -/
def Payload.taggedDoc (tag : Int64) : (causes : List Int64) → Doc
  | [] => .record "Tagged" [("tag", .ofInt64 tag), ("cause", .atom "None")]
  | cause :: causes => .record "Tagged" [("tag", .ofInt64 tag), ("cause", .call "Some" (taggedDoc cause causes))]

/-- The description of a payload. -/
def Payload.doc : Payload → Doc
  | .tagged tag causes => taggedDoc tag causes
  | .other text => .call "Other" (.atom (Layout.Quoted.quote text))

/-- The description of a failure. -/
def Failure.doc : Failure → Doc
  | .unexpected => .atom "Unexpected"
  | .unboundRecursion => .atom "UnboundRecursion"
  | .note text => .call "Message" (.atom (Layout.Quoted.quote text))
  | .custom payload => .call "Custom" payload.doc

/-- The description of a link: whether it owns its rule, and whether the rule is alive and has a body. -/
def Link.doc (store : Store) (l : Link) : Doc :=
  .record "Recursive" [("owner", .ofBool l.owner), ("defined", .ofBool (store.isDefined l))]

/-- The description of a cursor over integers: its position and the items that are left. -/
def Cursor.doc (c : Cursor Int64) : Doc :=
  .record "Cursor" [("pos", .ofNat c.pos), ("remaining", .list (c.remaining.map .ofInt64))]

/-- The description of a remembered position. -/
def Cursor.Snapshot.doc (s : Cursor.Snapshot) : Doc :=
  .record "CursorSnapshot" [("pos", .ofNat s.pos)]

/-- A rule as it is shown: whether it has a body, whether a handle to it is shown instead of its owner, and whether
the owner of that handle is gone. -/
structure RuleView where
  defined : Bool
  handle : Bool
  dead : Bool
deriving DecidableEq, Inhabited

/-- The description of a rule: it is created, defined and left to its owners as the view says. -/
def RuleView.doc (v : RuleView) : Doc :=
  let (owner, store) := if v.defined then Store.empty.running Grammar.never else Store.empty.fresh
  let shown := if v.handle then owner.handle else owner
  let held := shown.owned ++ if v.dead then [] else owner.owned
  shown.doc (store.sweep held)

/-- What the description of a unit shows of it. -/
inductive Shape where
  | pop
  | apply
  | erased
  | choose (first second : Shape)
  | rescue (primary fallback : Shape)
  | oneOf (candidates : List Shape)
  | maybe (base : Shape)
  | oneOrMany (base : Shape)
  | zeroOrMany (base : Shape)
  | rule (view : RuleView)
  | failure (f : Failure)

namespace Shape

mutual

/-- The description of a unit. -/
def doc : Shape → Doc
  | .pop => .elided "PopFirst"
  | .apply => .elided "Apply"
  | .erased => .elided "AnyCombinator"
  | .choose a b => .record "Choose" [("first", doc a), ("second", doc b)]
  | .rescue a b => .record "TryCatch" [("primary", doc a), ("fallback", doc b)]
  | .oneOf us => .record "ChooseN" [("candidates", .list (docs us))]
  | .maybe a => .record "Maybe" [("base", doc a)]
  | .oneOrMany a => .record "OneOrMany" [("base", doc a)]
  | .zeroOrMany a => .record "ZeroOrMany" [("base", doc a)]
  | .rule view => view.doc
  | .failure f => f.doc

/-- The descriptions of the units of a list. -/
def docs : List Shape → List Doc
  | [] => []
  | u :: us => doc u :: docs us

end

/-- The number of candidates of an alternation. -/
def candidateCount? : Shape → Option Nat
  | .oneOf us => some us.length
  | _ => none

end Shape

end Backtrack
