import Backtrack.Proofs.Lawful

/-!
# All contexts agree

A cursor remembers a position and a suffix remembers what was left, but a grammar cannot tell them apart: over the same items it
comes to the same outcome, leaves the same items, and reports the same events, the moves of the cursor aside. This is so for any
two lawful contexts. A run on a context set beside itself then shows that no remembered place is refused.
-/

namespace Backtrack

open LawfulContext (InBounds)

/-- Whether the event is a move of a cursor. -/
def Event.isMove : Event → Bool
  | .advance _ => true
  | _ => false

namespace Trace

theorem events_call (c : Call) : (one (.call c)).events = [] := rfl

/-- The events of a call that reports some. -/
theorem events_call_events (c : Call) (es : List Event) : (ofList (.call c :: es.map .event)).events = es := by
  simp only [events, toList_ofList, List.filterMap_cons, List.filterMap_map]
  exact List.filterMap_some

end Trace

/-- A way to compare what two computations report: event by event, but for the moves that the contexts report themselves. -/
structure Comparison (σ τ : Type) [Context σ] [Context τ] where
  alike : List Event → List Event → Prop
  nil : alike [] []
  append {as bs cs ds : List Event} : alike as bs → alike cs ds → alike (as ++ cs) (bs ++ ds)
  event {e : Event} : e.isMove = false → alike [e] [e]
  popEvents (s : σ) (t : τ) : alike (Context.popEvents s) (Context.popEvents t)

/-- Two computations end alike: for want of fuel, or with the same value, contexts related by `rel`, and alike events. -/
inductive Agreement {σ τ α : Type} (alike : List Event → List Event → Prop) (rel : σ → τ → Prop) :
    Except Halt (Report σ α) → Except Halt (Report τ α) → Prop where
  | ended {a : α} {s : σ} {t : τ} {tr tr' : Trace} :
      rel s t → alike tr.events tr'.events → Agreement alike rel (.ok ⟨a, s, tr⟩) (.ok ⟨a, t, tr'⟩)
  | outOfFuel : Agreement alike rel (.error .outOfFuel) (.error .outOfFuel)

/-- What is said of the contexts that are left may be weakened. -/
theorem Agreement.mono {σ τ α : Type} {alike : List Event → List Event → Prop} {rel rel' : σ → τ → Prop}
    {x : Except Halt (Report σ α)} {y : Except Halt (Report τ α)} (hxy : Agreement alike rel x y)
    (h : ∀ s t, rel s t → rel' s t) : Agreement alike rel' x y := by
  cases hxy with
  | ended hst htr => exact .ended (h _ _ hst) htr
  | outOfFuel => exact .outOfFuel

section

variable {σ τ : Type} [Context σ] [LawfulContext σ] [Context τ] [LawfulContext τ]

/-- From `s` and `t`, in bounds and with the same items left, the contexts have descended to `s'` and `t'`, which have the same
items left again. -/
structure Abreast (s : σ) (t : τ) (s' : σ) (t' : τ) : Prop where
  inBounds_left : InBounds s
  inBounds_right : InBounds t
  start : Context.remaining s = Context.remaining t
  left : Descends s s'
  right : Descends t t'
  remaining : Context.remaining s' = Context.remaining t'

namespace Abreast

variable {s s' s'' : σ} {t t' t'' : τ}

/-- Contexts within their inputs that have the same items left are abreast from where they are. -/
theorem refl (hs : InBounds s) (ht : InBounds t) (hst : Context.remaining s = Context.remaining t) : Abreast s t s t :=
  ⟨hs, ht, hst, .refl, .refl, hst⟩

/-- Contexts that have come abreast were so where they began. -/
theorem back (h : Abreast s t s' t') : Abreast s t s t :=
  .refl h.inBounds_left h.inBounds_right h.start

/-- They are so again from where they have come to. -/
theorem here (h : Abreast s t s' t') : Abreast s' t' s' t' :=
  .refl (h.left.inBounds h.inBounds_left) (h.right.inBounds h.inBounds_right) h.remaining

/-- What they descend to from there they descend to from the start. -/
theorem trans (h : Abreast s t s' t') (h' : Abreast s' t' s'' t'') : Abreast s t s'' t'' :=
  { h with left := h.left.trans h'.left, right := h.right.trans h'.right, remaining := h'.remaining }

/-- Both contexts hand out the same item, and are abreast without it. -/
theorem popFront (h : Abreast s t s' t') : Abreast s t (Context.popFront s').2 (Context.popFront t').2 := by
  have hrest : Context.remaining (Context.popFront s').2 = Context.remaining (Context.popFront t').2 := by
    rw [LawfulContext.remaining_popFront, LawfulContext.remaining_popFront, h.remaining]
  exact { h with left := .pop h.left, right := .pop h.right, remaining := hrest }

end Abreast

/-- From places abreast of `s` and `t` the two computations end alike, abreast of `s` and `t` again. -/
def Engine.Agree {α : Type} (cmp : Comparison σ τ) (s : σ) (t : τ) (x : Engine σ α) (y : Engine τ α) : Prop :=
  ∀ ⦃s' t'⦄, Abreast s t s' t' → Agreement cmp.alike (Abreast s t) (x.run s') (y.run t')

namespace Engine.Agree

variable {cmp : Comparison σ τ} {s : σ} {t : τ} {α β : Type}

/-- Computations that agree, one after the other, agree. -/
theorem bind {x : Engine σ α} {y : Engine τ α} {f : α → Engine σ β} {g : α → Engine τ β} (hxy : Agree cmp s t x y)
    (hfg : ∀ a, Agree cmp s t (f a) (g a)) : Agree cmp s t (x >>= f) (y >>= g) := by
  intro s₀ t₀ h₀
  rw [Engine.run_bind, Engine.run_bind]
  have h := hxy h₀
  generalize x.run s₀ = rx at h
  generalize y.run t₀ = ry at h
  cases h with
  | outOfFuel => exact .outOfFuel
  | @ended a s₁ t₁ tr tr' h₁ htr =>
    have h := hfg a h₁
    dsimp only
    generalize (f a).run s₁ = rf at h
    generalize (g a).run t₁ = rg at h
    cases h with
    | outOfFuel => exact .outOfFuel
    | ended h₂ htr' =>
      refine .ended h₂ ?_
      rw [Trace.events_append, Trace.events_append]
      exact cmp.append htr htr'

theorem pure (a : α) : Agree cmp s t (Pure.pure a : Engine σ α) (Pure.pure a : Engine τ α) :=
  fun _ _ h => .ended h cmp.nil

/-- Both lack fuel together. -/
theorem halt : Agree cmp s t (Engine.halt .outOfFuel : Engine σ α) (Engine.halt .outOfFuel : Engine τ α) :=
  fun _ _ _ => .outOfFuel

/-- Any event but a move is reported alike. -/
theorem emit {e : Event} (he : e.isMove = false) :
    Agree cmp s t (Engine.emit e : Engine σ Unit) (Engine.emit e : Engine τ Unit) :=
  fun _ _ h => .ended h (cmp.event he)

/-- Two computations that remember the place agree when, from there, what follows does. -/
theorem backup {f : Context.Snapshot σ → Engine σ β} {g : Context.Snapshot τ → Engine τ β}
    (hfg : ∀ s t, Agree cmp s t (f (Context.backup s)) (g (Context.backup t))) :
    Agree cmp s t (Engine.backup >>= f) (Engine.backup >>= g) := by
  intro s₀ t₀ h₀
  rw [Engine.run_bind, Engine.run_bind, Engine.run_backup, Engine.run_backup]
  dsimp only
  have h := hfg s₀ t₀ h₀.here
  generalize (f (Context.backup s₀)).run s₀ = rf at h
  generalize (g (Context.backup t₀)).run t₀ = rg at h
  cases h with
  | outOfFuel => exact .outOfFuel
  | ended h₁ htr =>
    refine .ended (h₀.trans h₁) ?_
    rw [Trace.events_append, Trace.events_append, Trace.events_call, Trace.events_call]
    exact htr

/-- Both contexts go back to where they set out. -/
theorem restore : Agree cmp s t (Engine.restore (Context.backup s) : Engine σ Unit)
    (Engine.restore (Context.backup t) : Engine τ Unit) := by
  intro s' t' h
  rw [Engine.run_restore (LawfulContext.restore_backup h.inBounds_left h.left),
    Engine.run_restore (LawfulContext.restore_backup h.inBounds_right h.right)]
  exact .ended h.back cmp.nil

/-- Both see the same first item. -/
theorem front : Agree cmp s t (Engine.front : Engine σ (Option Value)) (Engine.front : Engine τ (Option Value)) := by
  intro s' t' h
  have hfront : Context.front s' = Context.front t' := by
    rw [LawfulContext.front_eq, LawfulContext.front_eq, h.remaining]
  rw [Engine.run_front, Engine.run_front, hfront]
  exact .ended h cmp.nil

/-- Both take the same item, and report it as they each do. -/
theorem popFront : Agree cmp s t (Engine.popFront : Engine σ (Option Value)) (Engine.popFront : Engine τ (Option Value)) := by
  intro s' t' h
  have hitem : (Context.popFront s').1 = (Context.popFront t').1 := by
    rw [LawfulContext.popFront_fst, LawfulContext.popFront_fst, h.remaining]
  rw [Engine.run_popFront, Engine.run_popFront, hitem]
  refine .ended h.popFront ?_
  rw [Trace.events_call_events, Trace.events_call_events]
  exact cmp.popEvents s' t'

/-- Both view the same items. -/
theorem remaining : Agree cmp s t (Engine.remaining : Engine σ (List Value)) (Engine.remaining : Engine τ (List Value)) := by
  intro s' t' h
  have hrun : (Engine.remaining : Engine σ (List Value)).run s' = .ok ⟨Context.remaining t', s', .nil⟩ := by
    rw [← h.remaining]
    rfl
  rw [hrun]
  exact .ended h cmp.nil

/-- A program of the grammar author's own cannot tell the contexts apart. -/
theorem action (f : Action α) : Agree cmp s t (f.run : Engine σ α) (f.run : Engine τ α) := by
  induction f with
  | done a => exact pure a
  | front k ih => exact front.bind ih
  | popFront k ih => exact popFront.bind ih
  | remaining k ih => exact remaining.bind ih

end Engine.Agree

/-! ## The combinators -/

/-- From any two contexts with the same items left the computations end alike, with the same value. -/
def Engine.Same {α : Type} (cmp : Comparison σ τ) (x : Engine σ α) (y : Engine τ α) : Prop :=
  ∀ s t, Engine.Agree cmp s t x y

namespace Engine.Same

variable {cmp : Comparison σ τ} {α β γ : Type} {p : Parser σ α} {p' : Parser τ α} {q : Parser σ β} {q' : Parser τ β}

/-- Both make the same failure for a missing part, and report it. -/
theorem escalate {event : Failure → Event} (hevent : ∀ failure, (event failure).isMove = false) (onMissing : Action Failure) :
    Same cmp (Parser.escalate event onMissing : Parser σ α) (Parser.escalate event onMissing : Parser τ α) := by
  intro s t
  exact (Agree.action onMissing).bind fun failure => (Agree.emit (hevent failure)).bind fun _ => .pure _

/-- The predicate leaf is the same on both. -/
theorem pop (pred : Value → Bool) : Same cmp (Parser.pop pred : Parser σ Value) (Parser.pop pred : Parser τ Value) := by
  intro s t
  refine Agree.front.bind fun item => ?_
  cases item with
  | none => exact .pure _
  | some v =>
    by_cases hv : pred v = true
    · simp only [hv, if_true]
      exact Agree.popFront.bind fun _ => .pure _
    · simp only [hv]
      exact .pure _

/-- A sequence is the same on both, if its parts are. -/
theorem seq (f : α → β → γ) (hp : Same cmp p p') (hq : Same cmp q q') (onMissing : Action Failure) :
    Same cmp (Parser.seq f p q onMissing) (Parser.seq f p' q' onMissing) := by
  intro s t
  refine (hp s t).bind fun o => ?_
  cases o with
  | soft | hard => exact .pure _
  | matched v =>
    refine (hq s t).bind fun o => ?_
    cases o with
    | matched | hard => exact .pure _
    | soft => exact escalate (fun _ => rfl) onMissing s t

/-- A unit whose value selects the next one is the same on both, if the two units are. -/
theorem bind {next : α → Parser σ β} {next' : α → Parser τ β} (hp : Same cmp p p')
    (hnext : ∀ v, Same cmp (next v) (next' v)) : Same cmp (Parser.bind p next) (Parser.bind p' next') := by
  intro s t
  refine .backup fun s t => (hp s t).bind fun o => ?_
  cases o with
  | soft | hard => exact .pure _
  | matched v =>
    refine (hnext v s t).bind fun o => ?_
    cases o with
    | matched | hard => exact .pure _
    | soft => exact Agree.restore.bind fun _ => .pure _

/-- A choice is the same on both, if its units are. -/
theorem choose {q : Parser σ α} {q' : Parser τ α} (hp : Same cmp p p') (hq : Same cmp q q') :
    Same cmp (Parser.choose p q) (Parser.choose p' q') := by
  intro s t
  refine .backup fun s t => (hp s t).bind fun o => ?_
  cases o with
  | matched | hard => exact .pure _
  | soft => exact (Agree.emit rfl).bind fun _ => Agree.restore.bind fun _ => hq s t

/-- Candidates that are the same one by one are the same together. -/
theorem oneOfFrom {ι : Type} {f : ι → Parser σ α} {f' : ι → Parser τ α} (hf : ∀ i, Same cmp (f i) (f' i)) (is : List ι) :
    ∀ index, Same cmp (Parser.oneOfFrom index (is.map f)) (Parser.oneOfFrom index (is.map f')) := by
  induction is with
  | nil => exact fun _ _ _ => .pure _
  | cons i is ih =>
    intro index s t
    refine .backup fun s t => (hf i s t).bind fun o => ?_
    cases o with
    | matched | hard => exact .pure _
    | soft => exact (Agree.emit rfl).bind fun _ => Agree.restore.bind fun _ => ih (index + 1) s t

/-- A recovering unit is the same on both, if its units are. -/
theorem rescue {q : Parser σ α} {q' : Parser τ α} (hp : Same cmp p p') (hq : Same cmp q q') :
    Same cmp (Parser.rescue p q) (Parser.rescue p' q') := by
  intro s t
  refine .backup fun s t => (hp s t).bind fun o => ?_
  cases o with
  | matched => exact .pure _
  | soft | hard => exact (Agree.emit rfl).bind fun _ => Agree.restore.bind fun _ => hq s t

/-- An optional unit is the same on both, if its part is. -/
theorem maybe (f : Option α → β) (hp : Same cmp p p') : Same cmp (Parser.maybe f p) (Parser.maybe f p') := by
  intro s t
  refine .backup fun s t => (hp s t).bind fun o => ?_
  cases o with
  | matched | hard => exact .pure _
  | soft => exact Agree.restore.bind fun _ => .pure _

/-- An optional part with the unit after it is the same on both, if the two are. -/
theorem maybeThen (f : Option α → β → γ) (hp : Same cmp p p') (hq : Same cmp q q') (onMissing : Action Failure) :
    Same cmp (Parser.maybeThen f p q onMissing) (Parser.maybeThen f p' q' onMissing) := by
  intro s t
  refine (hp.maybe id s t).bind fun o => ?_
  cases o with
  | soft | hard => exact .pure _
  | matched before =>
    refine (hq s t).bind fun o => ?_
    cases o with
    | matched | hard => exact .pure _
    | soft =>
      cases before with
      | none => exact .pure _
      | some v => exact escalate (fun _ => rfl) onMissing s t

/-- A repetition gathers the same values on both. -/
theorem gather (hp : Same cmp p p') (bound : Nat) : Same cmp (Parser.gather p bound) (Parser.gather p' bound) := by
  induction bound with
  | zero => exact fun _ _ => .halt
  | succ bound ih =>
    intro s t
    refine .backup fun s t => (hp s t).bind fun o => ?_
    cases o with
    | matched v => exact (ih s t).bind fun _ => .pure _
    | soft => exact Agree.restore.bind fun _ => .pure _
    | hard => exact .pure _

/-- A repetition reports the same number of turns on both. -/
theorem collect (hp : Same cmp p p') (bound : Nat) : Same cmp (Parser.collect p bound) (Parser.collect p' bound) := by
  intro s t
  refine (hp.gather bound s t).bind fun x => ?_
  cases x with
  | ok => exact (Agree.emit rfl).bind fun _ => .pure _
  | error => exact .pure _

/-- A repetition of any number of matches is the same on both. -/
theorem zeroOrMany (f : List α → β) (hp : Same cmp p p') (bound : Nat) :
    Same cmp (Parser.zeroOrMany f p bound) (Parser.zeroOrMany f p' bound) := by
  intro s t
  refine (hp.collect bound s t).bind fun x => ?_
  cases x <;> exact .pure _

/-- A repetition of at least one match is the same on both. -/
theorem oneOrMany (f : List α → β) (hp : Same cmp p p') (bound : Nat) :
    Same cmp (Parser.oneOrMany f p bound) (Parser.oneOrMany f p' bound) := by
  intro s t
  refine (hp.collect bound s t).bind fun x => ?_
  cases x with
  | ok vs => cases vs <;> exact .pure _
  | error => exact .pure _

/-- A conversion is the same on both, if its unit is. -/
theorem map (f : α → β) (hp : Same cmp p p') : Same cmp (Parser.map f p) (Parser.map f p') :=
  fun s t => (hp s t).bind fun _ => .pure _

/-- An action on the value is the same on both, if the unit is. -/
theorem transform (f : α → Action (Except Failure β)) (hp : Same cmp p p') :
    Same cmp (Parser.transform f p) (Parser.transform f p') := by
  intro s t
  refine (hp s t).bind fun o => ?_
  cases o with
  | soft | hard => exact .pure _
  | matched v => exact (Agree.action (f v)).bind fun _ => .pure _

end Engine.Same

/-- With the same fuel a grammar does the same on two contexts with the same items left. -/
theorem Grammar.eval_same (cmp : Comparison σ τ) (rules : Rules) (fuel : Nat) :
    ∀ g : Grammar, Engine.Same cmp (g.eval rules fuel) (g.eval rules fuel) := by
  induction fuel with
  | zero => exact fun _ _ _ => .halt
  | succ n ih =>
    intro g
    cases g with
    | pop pred => exact .pop pred
    | apply f => exact fun _ _ => .action f
    | seq a b onMissing => exact (ih a).seq _ (ih b) onMissing
    | bind a next held => exact (ih a).bind fun v => ih (next v)
    | choose a b => exact (ih a).choose (ih b)
    | oneOf gs => exact Engine.Same.oneOfFrom ih gs 0
    | rescue a b => exact (ih a).rescue (ih b)
    | maybe a => exact (ih a).maybe _
    | maybeThen a b onMissing => exact (ih a).maybeThen _ (ih b) onMissing
    | oneOrMany a => exact (ih a).oneOrMany _ n
    | zeroOrMany a => exact (ih a).zeroOrMany _ n
    | map f a => exact (ih a).map f
    | transform f a => exact (ih a).transform f
    | wrap how a => exact ih a
    | link l =>
      intro s t
      cases hbody : rules l.rule with
      | none =>
        rw [Grammar.eval_link_unbound hbody, Grammar.eval_link_unbound hbody]
        exact .pure _
      | some body =>
        rw [Grammar.eval_link hbody, Grammar.eval_link hbody]
        exact ih body s t

/-- Within the input a run either ends in an outcome or is given up for want of fuel: no remembered place is refused, as a run set beside
itself shows. -/
theorem Grammar.eval_ok_or_outOfFuel (rules : Rules) (g : Grammar) (fuel : Nat) {s : σ} (hs : InBounds s) :
    (∃ r, (g.eval rules fuel).run s = .ok r) ∨ (g.eval rules fuel).run s = .error .outOfFuel := by
  let cmp : Comparison σ σ := ⟨fun _ _ => True, trivial, fun _ _ => trivial, fun _ => trivial, fun _ _ => trivial⟩
  have h := g.eval_same cmp rules fuel s s (.refl hs hs rfl)
  generalize (g.eval rules fuel).run s = r at h
  cases h with
  | ended => exact .inl ⟨_, rfl⟩
  | outOfFuel => exact .inr rfl

end

/-! ## Cursors and suffixes -/

section

variable {ι κ : Type} [Item ι] [Item κ]

/-- What descends from a cursor has an end of its items left. -/
theorem Cursor.remaining_suffix {c d : Cursor ι} (h : Descends c d) : d.remaining <:+ c.remaining := by
  induction h with
  | refl => exact List.suffix_refl _
  | @pop d _ ih =>
    have htail : d.advance.2.remaining <:+ d.remaining := by
      rw [Cursor.remaining_advance]
      exact List.tail_suffix _
    exact htail.trans ih

/-- What descends from a suffix is an end of it. -/
theorem Suffix.rest_suffix {s t : Suffix κ} (h : Descends s t) : t.rest <:+ s.rest := by
  induction h with
  | refl => exact List.suffix_refl _
  | @pop t _ ih =>
    have htail : t.popFront.2.rest <:+ t.rest := by
      rw [Suffix.rest_popFront]
      exact List.tail_suffix _
    exact htail.trans ih

/-- The events over a cursor without its moves are those over a suffix. -/
def Comparison.exceptMoves : Comparison (Cursor ι) (Suffix κ) where
  alike es es' := es.filter (fun e => !e.isMove) = es'
  nil := rfl
  append h h' := by rw [List.filter_append, h, h']
  event h := by simp [h]
  popEvents c t := by
    simp only [Context.popEvents, Cursor.advanceEvents]
    split <;> rfl

/-- A cursor abreast of a suffix walks over its items still, and its position is their number less that of the items left. -/
theorem Abreast.cursor {xs : Array ι} {p : Nat} {t₀ : Suffix κ} {c : Cursor ι} {t : Suffix κ}
    (h : Abreast (⟨xs, p⟩ : Cursor ι) t₀ c t) :
    c.items = xs ∧ c.remaining.map Item.value = t.rest.map Item.value ∧ c.pos = xs.size - t.rest.length := by
  have hitems : c.items = xs := Cursor.items_eq_of_descends h.left
  have hpos : c.pos ≤ c.items.size := h.left.inBounds h.inBounds_left
  have hvalues : c.remaining.map Item.value = t.rest.map Item.value := h.remaining
  have hlength : c.items.size - c.pos = t.rest.length := by
    have hlengths := congrArg List.length hvalues
    simpa [Cursor.remaining] using hlengths
  rw [hitems] at hpos hlength
  exact ⟨hitems, hvalues, by omega⟩

/-- For every grammar, all definitions of rules and every amount of fuel, a parse with a cursor over the items `xs` from the
position `p` and a parse of the slice of `xs` from there either both lack fuel, or both end with the same outcome. Then the items
left are the same, the position of the cursor is the number of all items less the number of those, and the events are the same
when the moves of the cursor are left out. If the items from the position on are characters, so it is with the text of them. -/
theorem contexts_agree (rules : Rules) (g : Grammar) (fuel : Nat) (xs : Array ι) (p : Nat) (hp : p ≤ xs.size) :
    Agreement (fun es es' => es.filter (fun e => !e.isMove) = es')
        (fun c t => c.items = xs ∧ c.remaining = t.rest ∧ c.pos = xs.size - t.rest.length)
        ((g.eval rules fuel).run (⟨xs, p⟩ : Cursor ι)) ((g.eval rules fuel).run (Suffix.ofList (xs.toList.drop p))) ∧
      ∀ text : String, (xs.toList.drop p).map Item.value = text.toList.map .char →
        Agreement (fun es es' => es.filter (fun e => !e.isMove) = es')
          (fun c t => c.items = xs ∧ c.remaining.map Item.value = t.rest.map .char ∧ c.pos = xs.size - t.rest.length)
          ((g.eval rules fuel).run (⟨xs, p⟩ : Cursor ι)) ((g.eval rules fuel).run (Text.ofString text)) := by
  refine ⟨?_, fun text htext => ?_⟩
  · refine (g.eval_same Comparison.exceptMoves rules fuel _ _ (.refl hp trivial rfl)).mono fun c t h => ?_
    obtain ⟨hitems, hvalues, hpos⟩ := h.cursor
    have hlength : c.remaining.length = t.rest.length := by simpa using congrArg List.length hvalues
    have hsuffix := List.suffix_of_suffix_length_le (Cursor.remaining_suffix h.left) (Suffix.rest_suffix h.right)
      (Nat.le_of_eq hlength)
    exact ⟨hitems, hsuffix.eq_of_length hlength, hpos⟩
  · refine (g.eval_same Comparison.exceptMoves rules fuel _ _ (.refl hp trivial htext)).mono fun c t h => ?_
    exact h.cursor

end

/-! ### A letter before another one -/

/-- The letters `a` and `c`, or else all items that are left. -/
def pairOrAll : Grammar :=
  .choose (.bind (.pop (· == .char 'a')) (fun _ => .pop (· == .char 'c')) []) (.zeroOrMany (.pop fun _ => true))

/-- A cursor past the first of three letters and the text of the other two agree: after a detour both are taken. -/
theorem pairOrAll_agrees :
    ∃ (c : Cursor Char) (t : Text) (tr tr' : Trace),
      (pairOrAll.eval (fun _ => none) 6).run (⟨#['x', 'a', 'b'], 1⟩ : Cursor Char) =
        .ok ⟨.matched (.list [.char 'a', .char 'b']), c, tr⟩ ∧
      (pairOrAll.eval (fun _ => none) 6).run (Text.ofString "ab") = .ok ⟨.matched (.list [.char 'a', .char 'b']), t, tr'⟩ ∧
      c.pos = 3 ∧ t.rest = [] ∧ tr.events.filter (fun e => !e.isMove) = [.firstAlternativeMissed, .repetitionStopped 2] := by
  have hagree := (contexts_agree (fun _ => none) pairOrAll 6 #['x', 'a', 'b'] 1 (by decide)).2 "ab" (by decide)
  have htext : ((pairOrAll.eval (fun _ => none) 6).run (Text.ofString "ab")).toOption.map
      (fun r => (r.value, r.context.rest, r.trace.events)) =
      some (.matched (.list [.char 'a', .char 'b']), [], [.firstAlternativeMissed, .repetitionStopped 2]) := by decide +kernel
  generalize (pairOrAll.eval (fun _ => none) 6).run (⟨#['x', 'a', 'b'], 1⟩ : Cursor Char) = rc at hagree ⊢
  generalize (pairOrAll.eval (fun _ => none) 6).run (Text.ofString "ab") = rt at hagree htext ⊢
  cases hagree with
  | outOfFuel => nomatch htext
  | @ended o c t tr tr' hct htr =>
    obtain ⟨-, -, hpos⟩ := hct
    simp only [Except.toOption, Option.map_some, Option.some.injEq, Prod.mk.injEq] at htext
    obtain ⟨rfl, hrest, hevents⟩ := htext
    rw [hrest] at hpos
    exact ⟨c, t, tr, tr', rfl, rfl, hpos, hrest, htr.trans hevents⟩

end Backtrack
