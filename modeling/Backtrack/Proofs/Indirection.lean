import Backtrack.Proofs.Adequacy
import Backtrack.Proofs.Building
import Mathlib.Data.List.Forall2

/-!
# Indirection

A unit can be passed on in a wrapper, and the body of a rule stands behind its links. Neither shows in a parse: where a wrapper is
taken off or a body put in place of a link, here or there and to any depth, every parse comes to the same result, with the same
trace, and ends exactly when it did before. Only the fuel that it needs is another, so the two are compared as computations that
may need more fuel than each other.
-/

namespace Backtrack

/-! ## Computations that need more fuel -/

/-- Unless the computation `x` is given up for want of fuel, the computations `y n` do the same from some `n` on. -/
def Engine.Within {σ α : Type} (x : Engine σ α) (y : Nat → Engine σ α) : Prop :=
  ∀ s, x.run s = .error .outOfFuel ∨ Lasts fun n => (y n).run s = x.run s

namespace Engine.Within

section

variable {σ α β : Type} {x : Engine σ α} {y z : Nat → Engine σ α}

theorem refl (x : Engine σ α) : Within x fun _ => x :=
  fun _ => .inr ⟨0, fun _ _ => rfl⟩

/-- A computation that lacks fuel is within any other. -/
theorem halt : Within (Engine.halt .outOfFuel) y :=
  fun _ => .inl rfl

/-- Computations one after the other are within those that take their places. -/
theorem bind {f : α → Engine σ β} {g : Nat → α → Engine σ β} (hx : Within x y) (hf : ∀ a, Within (f a) fun n => g n a) :
    Within (x >>= f) fun n => y n >>= g n := by
  intro s
  rcases hx s with hout | hlasts
  · exact .inl (by rw [run_bind, hout])
  · cases hrun : x.run s with
    | error reason =>
      obtain ⟨enough, h⟩ := hlasts
      refine .inr ⟨enough, fun n hn => ?_⟩
      have hn : (y n).run s = x.run s := h n hn
      simp only [run_bind, hn, hrun]
    | ok r =>
      rcases hf r.value r.context with hout | hlasts'
      · exact .inl (by simp only [run_bind, hrun, hout])
      · obtain ⟨enough, h⟩ := hlasts.and hlasts'
        refine .inr ⟨enough, fun n hn => ?_⟩
        obtain ⟨h₁, h₂⟩ := h n hn
        simp only [run_bind, h₁, hrun, h₂]

/-- One unit of fuel more or less makes no difference. -/
theorem of_succ (h : Within x fun n => y (n + 1)) : Within x y := by
  intro s
  refine (h s).imp_right fun hlasts => ?_
  obtain ⟨enough, h⟩ := hlasts
  refine ⟨enough + 1, fun n hn => ?_⟩
  obtain ⟨m, rfl⟩ : ∃ m, n = m + 1 := ⟨n - 1, by omega⟩
  exact h m (by omega)

/-- Nor does what the others do with little fuel. -/
theorem of_lasts (h : Within x y) (heq : Lasts fun n => z n = y n) : Within x z := by
  intro s
  refine (h s).imp_right fun hlasts => ?_
  obtain ⟨enough, h⟩ := hlasts.and heq
  refine ⟨enough, fun n hn => ?_⟩
  obtain ⟨hrun, hz⟩ := h n hn
  rw [hz, hrun]

/-- What the computation ends in, one of the others does. -/
theorem ends {s : σ} {result : Except Halt (Report σ α)} (h : Within x y) (hresult : result ≠ .error .outOfFuel)
    (hrun : x.run s = result) : ∃ n, (y n).run s = result := by
  subst hrun
  obtain ⟨enough, hn⟩ := (h s).resolve_left hresult
  exact ⟨enough, hn enough (Nat.le_refl enough)⟩

end

section

variable {σ α β γ : Type} [Context σ] {p : Parser σ α} {p' : Nat → Parser σ α} {q : Parser σ β} {q' : Nat → Parser σ β}

/-- A committed sequence is within the sequence of those that its parts are within. -/
theorem seq (f : α → β → γ) (hp : Within p p') (hq : Within q q') (onMissing : Action Failure) :
    Within (Parser.seq f p q onMissing) fun n => Parser.seq f (p' n) (q' n) onMissing := by
  refine hp.bind fun o => ?_
  cases o with
  | soft | hard => exact .refl _
  | matched v =>
    refine hq.bind fun o => ?_
    cases o <;> exact .refl _

/-- A unit whose value selects the next one is within the selection from those that the two are within. -/
theorem parserBind {next : α → Parser σ β} {next' : Nat → α → Parser σ β} (hp : Within p p')
    (hnext : ∀ v, Within (next v) fun n => next' n v) :
    Within (Parser.bind p next) fun n => Parser.bind (p' n) (next' n) := by
  refine (refl Engine.backup).bind fun start => hp.bind fun o => ?_
  cases o with
  | soft | hard => exact .refl _
  | matched v =>
    refine (hnext v).bind fun o => ?_
    cases o <;> exact .refl _

/-- A choice is within the choice of those that its units are within. -/
theorem choose {q : Parser σ α} {q' : Nat → Parser σ α} (hp : Within p p') (hq : Within q q') :
    Within (Parser.choose p q) fun n => Parser.choose (p' n) (q' n) := by
  refine (refl Engine.backup).bind fun start => hp.bind fun o => ?_
  cases o with
  | matched | hard => exact .refl _
  | soft => exact (refl _).bind fun _ => (refl _).bind fun _ => hq

/-- An alternation is so candidate by candidate. -/
theorem oneOfFrom {ι κ : Type} {f : ι → Parser σ α} {f' : Nat → κ → Parser σ α} {is : List ι} {js : List κ}
    (h : List.Forall₂ (fun i j => Within (f i) fun n => f' n j) is js) :
    ∀ index, Within (Parser.oneOfFrom index (is.map f)) fun n => Parser.oneOfFrom index (js.map (f' n)) := by
  induction h with
  | nil => exact fun _ => .refl _
  | cons hhead _ ih =>
    intro index
    refine (refl Engine.backup).bind fun start => hhead.bind fun o => ?_
    cases o with
    | matched | hard => exact .refl _
    | soft => exact (refl _).bind fun _ => (refl _).bind fun _ => ih (index + 1)

/-- A recovering unit is so with its primary unit and its fallback. -/
theorem rescue {q : Parser σ α} {q' : Nat → Parser σ α} (hp : Within p p') (hq : Within q q') :
    Within (Parser.rescue p q) fun n => Parser.rescue (p' n) (q' n) := by
  refine (refl Engine.backup).bind fun start => hp.bind fun o => ?_
  cases o with
  | matched => exact .refl _
  | soft | hard => exact (refl _).bind fun _ => (refl _).bind fun _ => hq

/-- An optional unit is so with its part. -/
theorem maybe (f : Option α → β) (hp : Within p p') : Within (Parser.maybe f p) fun n => Parser.maybe f (p' n) := by
  refine (refl Engine.backup).bind fun start => hp.bind fun o => ?_
  cases o <;> exact .refl _

/-- An optional part with the unit after it is within that of those that the two are within. -/
theorem maybeThen (f : Option α → β → γ) (hp : Within p p') (hq : Within q q') (onMissing : Action Failure) :
    Within (Parser.maybeThen f p q onMissing) fun n => Parser.maybeThen f (p' n) (q' n) onMissing := by
  refine (hp.maybe id).bind fun o => ?_
  cases o with
  | soft | hard => exact .refl _
  | matched before =>
    refine hq.bind fun o => ?_
    cases o <;> exact .refl _

/-- The turns of a repetition, of which the others may make as many as they have fuel, less any number. -/
theorem gather (hp : Within p p') (bound : Nat) :
    ∀ less, Within (Parser.gather p bound) fun n => Parser.gather (p' n) (n - less) := by
  induction bound with
  | zero => exact fun _ => .halt
  | succ bound ih =>
    intro less
    have hturn : Within (Parser.gather p (bound + 1)) fun n => Parser.gather (p' n) (n - (less + 1) + 1) := by
      refine (refl Engine.backup).bind fun start => hp.bind fun o => ?_
      cases o with
      | matched v => exact (ih (less + 1)).bind fun _ => .refl _
      | soft | hard => exact .refl _
    refine hturn.of_lasts ⟨less + 1, fun n hn => ?_⟩
    have hless : n - less = n - (less + 1) + 1 := by omega
    exact congrArg (Parser.gather (p' n)) hless

/-- A bounded repetition is within one whose bound grows with the fuel. -/
theorem collect (hp : Within p p') (bound : Nat) : Within (Parser.collect p bound) fun n => Parser.collect (p' n) n := by
  refine (hp.gather bound 0).bind fun x => ?_
  cases x <;> exact .refl _

/-- A repetition of at least one match is within one whose bound grows with the fuel. -/
theorem oneOrMany (f : List α → β) (hp : Within p p') (bound : Nat) :
    Within (Parser.oneOrMany f p bound) fun n => Parser.oneOrMany f (p' n) n :=
  (hp.collect bound).bind fun _ => .refl _

/-- A repetition of any number of matches is within one whose bound grows with the fuel. -/
theorem zeroOrMany (f : List α → β) (hp : Within p p') (bound : Nat) :
    Within (Parser.zeroOrMany f p bound) fun n => Parser.zeroOrMany f (p' n) n :=
  (hp.collect bound).bind fun _ => .refl _

omit [Context σ] in
/-- A conversion is within the conversion of what its unit is within. -/
theorem map (f : α → β) (hp : Within p p') : Within (Parser.map f p) fun n => Parser.map f (p' n) :=
  hp.bind fun _ => .refl _

/-- An action on the value is within the same action on what its unit is within. -/
theorem transform (f : α → Action (Except Failure β)) (hp : Within p p') :
    Within (Parser.transform f p) fun n => Parser.transform f (p' n) :=
  hp.bind fun _ => .refl _

end

end Engine.Within

/-! ## Units with some wrappers taken off -/

/-- `g.Inlines rules same g'`: the unit `g'` is `g` with some wrappers taken off, and some links replaced by the bodies of their
rules; none, all, or any of those in its parts, in the units that values select and in the bodies put in. A link that stays leads
to the same rule, which may have another number. -/
inductive Grammar.Inlines (rules : Rules) (same : RuleId → RuleId → Prop) : Grammar → Grammar → Prop where
  | pop (pred : Value → Bool) : Inlines rules same (.pop pred) (.pop pred)
  | apply (f : Action (Outcome Value)) : Inlines rules same (.apply f) (.apply f)
  | seq {a a' b b' : Grammar} (onMissing : Action Failure) :
      Inlines rules same a a' → Inlines rules same b b' → Inlines rules same (.seq a b onMissing) (.seq a' b' onMissing)
  | bind {a a' : Grammar} {next next' : Value → Grammar} (held held' : List RuleId) :
      Inlines rules same a a' → (∀ v, Inlines rules same (next v) (next' v)) →
      Inlines rules same (.bind a next held) (.bind a' next' held')
  | choose {a a' b b' : Grammar} :
      Inlines rules same a a' → Inlines rules same b b' → Inlines rules same (.choose a b) (.choose a' b')
  /-- Each candidate is replaced by the one in its place. -/
  | oneOf {gs gs' : List Grammar} : gs.length = gs'.length → (∀ g g', (g, g') ∈ gs.zip gs' → Inlines rules same g g') →
      Inlines rules same (.oneOf gs) (.oneOf gs')
  | rescue {a a' b b' : Grammar} :
      Inlines rules same a a' → Inlines rules same b b' → Inlines rules same (.rescue a b) (.rescue a' b')
  | maybe {a a' : Grammar} : Inlines rules same a a' → Inlines rules same (.maybe a) (.maybe a')
  | maybeThen {a a' b b' : Grammar} (onMissing : Action Failure) : Inlines rules same a a' → Inlines rules same b b' →
      Inlines rules same (.maybeThen a b onMissing) (.maybeThen a' b' onMissing)
  | oneOrMany {a a' : Grammar} : Inlines rules same a a' → Inlines rules same (.oneOrMany a) (.oneOrMany a')
  | zeroOrMany {a a' : Grammar} : Inlines rules same a a' → Inlines rules same (.zeroOrMany a) (.zeroOrMany a')
  | map {a a' : Grammar} (f : Value → Value) : Inlines rules same a a' → Inlines rules same (.map f a) (.map f a')
  | transform {a a' : Grammar} (f : Value → Action (Except Failure Value)) :
      Inlines rules same a a' → Inlines rules same (.transform f a) (.transform f a')
  | wrap {a a' : Grammar} (how how' : Wrapper) : Inlines rules same a a' → Inlines rules same (.wrap how a) (.wrap how' a')
  /-- A wrapper is taken off. -/
  | unwrap {a a' : Grammar} (how : Wrapper) : Inlines rules same a a' → Inlines rules same (.wrap how a) a'
  | link {l l' : Link} : same l.rule l'.rule → Inlines rules same (.link l) (.link l')
  /-- A link is replaced by the body of its rule. -/
  | unfold {l : Link} {body g' : Grammar} :
      rules l.rule = some body → Inlines rules same body g' → Inlines rules same (.link l) g'

namespace Grammar

/-- Parsing does not tell the two units apart, each with its own rules: from every context one comes to a result, be it a report
or the refusal of a remembered place, exactly when the other comes to the same, and one ends exactly when the other does. -/
def Indistinguishable (rules : Rules) (g : Grammar) (rules' : Rules) (g' : Grammar) : Prop :=
  ∀ (σ : Type) [Context σ] (s : σ),
    (∀ result, result ≠ .error .outOfFuel →
      ((∃ fuel, (g.eval rules fuel).run s = result) ↔ ∃ fuel, (g'.eval rules' fuel).run s = result)) ∧
    (g.Ends rules s ↔ g'.Ends rules' s)

namespace Inlines

variable {rules rules' : Rules} {same : RuleId → RuleId → Prop} {g g' : Grammar}

/-- The candidates are replaced one by one. -/
theorem oneOf_of_forall₂ {gs gs' : List Grammar} (h : List.Forall₂ (Inlines rules same) gs gs') :
    (Grammar.oneOf gs).Inlines rules same (.oneOf gs') := by
  obtain ⟨hlength, hgs⟩ := List.forall₂_iff_zip.1 h
  exact .oneOf hlength fun _ _ => hgs

mutual

/-- Nothing need be replaced. -/
theorem refl (hsame : ∀ r, same r r) : ∀ g : Grammar, Inlines rules same g g
  | .pop pred => .pop pred
  | .apply f => .apply f
  | .seq a b onMissing => .seq onMissing (refl hsame a) (refl hsame b)
  | .bind a next held => .bind held held (refl hsame a) fun v => refl hsame (next v)
  | .choose a b => .choose (refl hsame a) (refl hsame b)
  | .oneOf gs => oneOf_of_forall₂ (refl_list hsame gs)
  | .rescue a b => .rescue (refl hsame a) (refl hsame b)
  | .maybe a => .maybe (refl hsame a)
  | .maybeThen a b onMissing => .maybeThen onMissing (refl hsame a) (refl hsame b)
  | .oneOrMany a => .oneOrMany (refl hsame a)
  | .zeroOrMany a => .zeroOrMany (refl hsame a)
  | .map f a => .map f (refl hsame a)
  | .transform f a => .transform f (refl hsame a)
  | .wrap how a => .wrap how how (refl hsame a)
  | .link l => .link (hsame l.rule)

/-- Nothing need be replaced in a list of units. -/
theorem refl_list (hsame : ∀ r, same r r) : ∀ gs : List Grammar, List.Forall₂ (Inlines rules same) gs gs
  | [] => .nil
  | g :: gs => .cons (refl hsame g) (refl_list hsame gs)

end

/-- No body need be replaced either. -/
theorem refl_rules (rules : Rules) (r r' : RuleId) (h : r = r') : Option.Rel (Inlines rules Eq) (rules r) (rules r') := by
  subst h
  cases rules r with
  | none => exact .none
  | some body => exact .some (refl (fun _ => rfl) body)

/-- Owners and handles of a rule are replaced by the same units. -/
theorem of_link {l l' : Link} (hl : l.rule = l'.rule) (h : (Grammar.link l).Inlines rules same g') :
    (Grammar.link l').Inlines rules same g' := by
  cases h with
  | link hsame => exact .link (hl ▸ hsame)
  | unfold hbody h => exact .unfold (hl ▸ hbody) h

section

variable {σ : Type} [Context σ]

/-- Where the unit ends with some fuel, what it is replaced by does the same. -/
theorem within (hrules : ∀ r r', same r r' → Option.Rel (Inlines rules same) (rules r) (rules' r')) (fuel : Nat) :
    ∀ {g g' : Grammar}, g.Inlines rules same g' → Engine.Within (σ := σ) (g.eval rules fuel) fun n => g'.eval rules' n := by
  induction fuel with
  | zero => exact fun _ => .halt
  | succ fuel ih =>
    intro g g' h
    cases h with
    | unwrap how ha => exact ih ha
    | unfold hbody h =>
      simp only [eval, hbody]
      exact ih h
    | pop pred | apply f => exact .of_succ (.refl _)
    | seq onMissing ha hb => exact .of_succ ((ih ha).seq _ (ih hb) onMissing)
    | bind _ _ ha hnext => exact .of_succ ((ih ha).parserBind fun v => ih (hnext v))
    | choose ha hb => exact .of_succ ((ih ha).choose (ih hb))
    | oneOf hlength hgs =>
      have hall := List.forall₂_iff_zip.2 ⟨hlength, fun {g g'} hmem => ih (hgs g g' hmem)⟩
      exact .of_succ (Engine.Within.oneOfFrom hall 0)
    | rescue ha hb => exact .of_succ ((ih ha).rescue (ih hb))
    | maybe ha => exact .of_succ ((ih ha).maybe _)
    | maybeThen onMissing ha hb => exact .of_succ ((ih ha).maybeThen _ (ih hb) onMissing)
    | oneOrMany ha => exact .of_succ ((ih ha).oneOrMany _ fuel)
    | zeroOrMany ha => exact .of_succ ((ih ha).zeroOrMany _ fuel)
    | map f ha => exact .of_succ ((ih ha).map f)
    | transform f ha => exact .of_succ ((ih ha).transform f)
    | wrap _ _ ha => exact .of_succ (ih ha)
    | @link l l' hsame =>
      refine .of_succ ?_
      have hrel := hrules _ _ hsame
      generalize hbody : rules l.rule = body at hrel
      generalize hbody' : rules' l'.rule = body' at hrel
      simp only [eval, hbody, hbody']
      cases hrel with
      | none => exact .refl _
      | some h => exact ih h

/-- Where what a unit is replaced by ends with some fuel, the unit does the same, with one unit of fuel more for each of the wrappers and
links that stand before it. -/
theorem within_back (hrules : ∀ r r', same r r' → Option.Rel (Inlines rules same) (rules r) (rules' r')) (fuel : Nat) :
    ∀ {g g' : Grammar}, g.Inlines rules same g' → Engine.Within (σ := σ) (g'.eval rules' fuel) fun n => g.eval rules n := by
  induction fuel with
  | zero => exact fun _ => .halt
  | succ fuel ih =>
    intro g g' h
    induction h with
    | unwrap how _ ih_inner => exact .of_succ ih_inner
    | unfold hbody _ ih_inner =>
      refine .of_succ ?_
      simp only [eval, hbody]
      exact ih_inner
    | pop pred | apply f => exact .of_succ (.refl _)
    | seq onMissing ha hb => exact .of_succ ((ih ha).seq _ (ih hb) onMissing)
    | bind _ _ ha hnext => exact .of_succ ((ih ha).parserBind fun v => ih (hnext v))
    | choose ha hb => exact .of_succ ((ih ha).choose (ih hb))
    | oneOf hlength hgs =>
      have hall := List.forall₂_iff_zip.2 ⟨hlength, fun {g g'} hmem => ih (hgs g g' hmem)⟩
      exact .of_succ (Engine.Within.oneOfFrom hall.flip 0)
    | rescue ha hb => exact .of_succ ((ih ha).rescue (ih hb))
    | maybe ha => exact .of_succ ((ih ha).maybe _)
    | maybeThen onMissing ha hb => exact .of_succ ((ih ha).maybeThen _ (ih hb) onMissing)
    | oneOrMany ha => exact .of_succ ((ih ha).oneOrMany _ fuel)
    | zeroOrMany ha => exact .of_succ ((ih ha).zeroOrMany _ fuel)
    | map f ha => exact .of_succ ((ih ha).map f)
    | transform f ha => exact .of_succ ((ih ha).transform f)
    | wrap _ _ ha => exact .of_succ (ih ha)
    | @link l l' hsame =>
      refine .of_succ ?_
      have hrel := hrules _ _ hsame
      generalize hbody : rules l.rule = body at hrel
      generalize hbody' : rules' l'.rule = body' at hrel
      simp only [eval, hbody, hbody']
      cases hrel with
      | none => exact .refl _
      | some h => exact ih h

end

/-- A unit is not told from what it is replaced by. -/
theorem indistinguishable (hrules : ∀ r r', same r r' → Option.Rel (Inlines rules same) (rules r) (rules' r'))
    (h : g.Inlines rules same g') : Indistinguishable rules g rules' g' := by
  intro σ _ s
  have hresults : ∀ result, result ≠ .error .outOfFuel →
      ((∃ fuel, (g.eval rules fuel).run s = result) ↔ ∃ fuel, (g'.eval rules' fuel).run s = result) := by
    intro result hresult
    constructor
    · rintro ⟨fuel, hrun⟩
      exact (h.within hrules fuel).ends hresult hrun
    · rintro ⟨fuel, hrun⟩
      exact (h.within_back hrules fuel).ends hresult hrun
  refine ⟨hresults, ?_, ?_⟩
  · rintro ⟨fuel, hends⟩
    obtain ⟨fuel', hrun⟩ := (hresults _ hends).1 ⟨fuel, rfl⟩
    exact ⟨fuel', hrun ▸ hends⟩
  · rintro ⟨fuel, hends⟩
    obtain ⟨fuel', hrun⟩ := (hresults _ hends).2 ⟨fuel, rfl⟩
    exact ⟨fuel', hrun ▸ hends⟩

end Inlines

end Grammar

/-! ## Rules declared, and created and then defined -/

namespace Builder

variable {α : Type}

/-- A new rule, which is then defined by what is built from a handle to it. -/
def defineNew (build : Link → Builder (α × Grammar)) : Builder (α × Link × Except BindError Unit) := do
  let rule ← fresh
  let (extra, body) ← build rule.handle
  return (extra, rule, ← define rule body)

/-- A new rule is defined with the body that is built behind its handle, on the store that building it leaves. -/
theorem run_defineNew (build : Link → Builder (α × Grammar)) (s : Store) :
    (defineNew build).run s = match (build s.fresh.1.handle).run s.fresh.2 with
      | .error e => .error e
      | .ok ((extra, body), t) => match t.define s.fresh.1 body with
        | .ok u => .ok ((extra, s.fresh.1, .ok ()), u)
        | .error reason => .ok ((extra, s.fresh.1, .error reason), t) := by
  have hfresh : (fresh : Builder Link).run s = .ok s.fresh := rfl
  rw [defineNew, run_bind, hfresh]
  simp only [run_bind]
  cases (build s.fresh.1.handle).run s.fresh.2 with
  | error e => rfl
  | ok p =>
    obtain ⟨⟨extra, body⟩, t⟩ := p
    simp only [run_define]
    cases t.define s.fresh.1 body <;> rfl

/-- Both ways of making a rule give the same link, and leave the same rules. -/
theorem declare_iff_defineNew {build : Link → Builder (α × Grammar)} {s t : Store} {extra : α} {rule : Link} :
    (∃ events, (declare build).run s = .ok ((extra, rule, events), t)) ↔
      ∃ result, (defineNew build).run s = .ok ((extra, rule, result), t) := by
  rw [run_declare, run_defineNew]
  cases (build s.fresh.1.handle).run s.fresh.2 with
  | error e => simp
  | ok p =>
    obtain ⟨⟨extra', body⟩, t'⟩ := p
    cases h : t'.define s.fresh.1 body <;> simp [h]

end Builder

/-- Let every rule that is linked to be bound in both versions or in neither, to a body with some wrappers taken off and some links
replaced by bodies in the second version. Then a unit with some wrappers taken off and some links replaced is not told from the
unit: every parse comes to the same result, with the same outcome, context and trace, and ends exactly when the other does. A
declaration makes the same rule, among the same rules, as a new rule that is then defined by what is built from its handle, and
no unfolding of a link to it is told from the rule. -/
theorem indirection_transparent {rules rules' : Rules} {same : RuleId → RuleId → Prop}
    (hrules : ∀ r r', same r r' → Option.Rel (Grammar.Inlines rules same) (rules r) (rules' r')) {g g' : Grammar}
    (hg : g.Inlines rules same g') :
    g.Indistinguishable rules rules' g' ∧
      ∀ {α : Type} (build : Link → Builder (α × Grammar)) (s t : Store) (extra : α) (rule : Link),
        ((∃ events, (Builder.declare build).run s = .ok ((extra, rule, events), t)) ↔
          ∃ result, (Builder.defineNew build).run s = .ok ((extra, rule, result), t)) ∧
        ∀ (l : Link) (u : Grammar), l.rule = rule.rule → (Grammar.link l).Inlines t.bodies Eq u →
          (Grammar.link rule).Indistinguishable t.bodies t.bodies u := by
  refine ⟨hg.indistinguishable hrules, fun build s t extra rule => ⟨Builder.declare_iff_defineNew, fun l u hl hu => ?_⟩⟩
  exact (hu.of_link hl).indistinguishable (Grammar.Inlines.refl_rules t.bodies)

/-! ### Signs behind a declared rule -/

/-- A sign and then what the link leads to, or a letter. -/
def signedOrLetter (rule : Link) : Grammar :=
  .choose (.seq (.pop (· == .char '-')) (.wrap .boxed (.link rule)) (.done .unexpected)) (.pop (· == .char 'a'))

/-- The rule of signs and a letter, as it is declared. -/
def declaredSigns : Store :=
  ⟨#[.bound (.wrap .erased (signedOrLetter ⟨0, false⟩))]⟩

/-- The same rule under another number, with no wrappers. -/
def plainSigns : Rules
  | 1 => some (.choose (.seq (.pop (· == .char '-')) (.link ⟨1, true⟩) (.done .unexpected)) (.pop (· == .char 'a')))
  | _ => none

/-- The body of the rule, with the body put in place of the link once more. -/
def unfoldedSigns : Grammar :=
  .choose (.seq (.pop (· == .char '-'))
    (.choose (.seq (.pop (· == .char '-')) (.link ⟨1, false⟩) (.done .unexpected)) (.pop (· == .char 'a')))
    (.done .unexpected)) (.pop (· == .char 'a'))

/-- The body of the declared rule is the plain one in two wrappers. -/
theorem plainSigns_inlines (r r' : RuleId) (h : r = 0 ∧ r' = 1) :
    Option.Rel (Grammar.Inlines declaredSigns.bodies fun r r' => r = 0 ∧ r' = 1) (declaredSigns.bodies r) (plainSigns r') := by
  obtain ⟨rfl, rfl⟩ := h
  exact .some (.unwrap _ (.choose (.seq _ (.pop _) (.unwrap _ (.link ⟨rfl, rfl⟩))) (.pop _)))

/-- The link is unfolded twice, and the wrappers are taken off. -/
theorem unfoldedSigns_inlines :
    (Grammar.link ⟨0, true⟩).Inlines declaredSigns.bodies (fun r r' => r = 0 ∧ r' = 1) unfoldedSigns := by
  refine .unfold rfl (.unwrap _ (.choose (.seq _ (.pop _) (.unwrap _ ?_)) (.pop _)))
  exact .unfold rfl (.unwrap _ (.choose (.seq _ (.pop _) (.unwrap _ (.link ⟨rfl, rfl⟩))) (.pop _)))

/-- The declared rule is made the other way as well, and its unfolding takes two signs and a letter as the rule does. -/
theorem unfoldedSigns_transparent :
    (∃ result, (Builder.defineNew fun handle => pure ((), signedOrLetter handle)).run .empty =
      .ok (((), ⟨0, true⟩, result), declaredSigns)) ∧
    ∃ v, (Grammar.link ⟨0, true⟩).Yields declaredSigns.bodies (Text.ofString "--ab") (.matched v) ⟨3, ['b']⟩ ∧
      unfoldedSigns.Yields plainSigns (Text.ofString "--ab") (.matched v) ⟨3, ['b']⟩ := by
  obtain ⟨hsame, hdeclared⟩ := indirection_transparent plainSigns_inlines unfoldedSigns_inlines
  refine ⟨(hdeclared _ _ _ _ _).1.1 ⟨[], rfl⟩, .pair (.char '-') (.pair (.char '-') (.char 'a')), ?_⟩
  have h : (Grammar.link ⟨0, true⟩).Yields declaredSigns.bodies (Text.ofString "--ab")
      (.matched (.pair (.char '-') (.pair (.char '-') (.char 'a')))) ⟨3, ['b']⟩ := Grammar.yields_of_run 20 (by decide +kernel)
  refine ⟨h, ?_⟩
  obtain ⟨fuel, tr, hrun⟩ := h
  have hends : (Grammar.eval declaredSigns.bodies fuel (.link ⟨0, true⟩)).run (Text.ofString "--ab") ≠ .error .outOfFuel := by
    rw [hrun]
    nofun
  obtain ⟨fuel', hrun'⟩ := ((hsame Text _).1 _ hends).1 ⟨fuel, rfl⟩
  exact ⟨fuel', tr, hrun'.trans hrun⟩

end Backtrack
