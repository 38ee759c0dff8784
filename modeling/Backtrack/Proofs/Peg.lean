import Backtrack.Proofs.Adequacy
import Backtrack.Proofs.Agreement
import Backtrack.Rule.Store

/-!
# Parsing expression grammars

A parsing expression grammar recognises prefixes of its input by ordered choice and greedy repetition, without commitment. Its
meaning is a relation between an expression, an input, and a result: success with the rest of the input, or failure. The
grammars that do not commit to anything say the same in units: a sequence is a `bind`, a choice a `choose` or a `oneOf`.
-/

namespace Backtrack.Peg

/-- A parsing expression over the nonterminals `N`. -/
inductive Expr (N : Type) where
  /-- One item that satisfies a predicate. -/
  | terminal (pred : Value → Bool)
  | empty
  | seq (a b : Expr N)
  | choice (a b : Expr N)
  | option (a : Expr N)
  | star (a : Expr N)
  | plus (a : Expr N)
  | nonterminal (n : N)

/-- What an expression comes to on an input. -/
inductive Result where
  /-- A part at the front was recognised, and `rest` is left. -/
  | success (rest : List Value)
  | failure

variable {N : Type}

/-- `Derives G e xs r`: with the definitions `G` of the nonterminals, the expression `e` comes to the result `r` on the input
`xs`. -/
inductive Derives (G : N → Expr N) : Expr N → List Value → Result → Prop where
  | terminal {pred : Value → Bool} {x : Value} {xs : List Value} :
      pred x = true → Derives G (.terminal pred) (x :: xs) (.success xs)
  | terminal_other {pred : Value → Bool} {x : Value} {xs : List Value} :
      pred x = false → Derives G (.terminal pred) (x :: xs) .failure
  | terminal_end {pred : Value → Bool} : Derives G (.terminal pred) [] .failure
  | empty {xs : List Value} : Derives G .empty xs (.success xs)
  | seq {a b : Expr N} {xs ys : List Value} {r : Result} :
      Derives G a xs (.success ys) → Derives G b ys r → Derives G (.seq a b) xs r
  | seq_head {a b : Expr N} {xs : List Value} : Derives G a xs .failure → Derives G (.seq a b) xs .failure
  | choice_first {a b : Expr N} {xs ys : List Value} :
      Derives G a xs (.success ys) → Derives G (.choice a b) xs (.success ys)
  | choice_second {a b : Expr N} {xs : List Value} {r : Result} :
      Derives G a xs .failure → Derives G b xs r → Derives G (.choice a b) xs r
  | option_present {a : Expr N} {xs ys : List Value} :
      Derives G a xs (.success ys) → Derives G (.option a) xs (.success ys)
  | option_absent {a : Expr N} {xs : List Value} : Derives G a xs .failure → Derives G (.option a) xs (.success xs)
  | star_more {a : Expr N} {xs ys zs : List Value} :
      Derives G a xs (.success ys) → Derives G (.star a) ys (.success zs) → Derives G (.star a) xs (.success zs)
  | star_stop {a : Expr N} {xs : List Value} : Derives G a xs .failure → Derives G (.star a) xs (.success xs)
  | plus {a : Expr N} {xs ys zs : List Value} :
      Derives G a xs (.success ys) → Derives G (.star a) ys (.success zs) → Derives G (.plus a) xs (.success zs)
  | plus_none {a : Expr N} {xs : List Value} : Derives G a xs .failure → Derives G (.plus a) xs .failure
  | nonterminal {n : N} {xs : List Value} {r : Result} : Derives G (G n) xs r → Derives G (.nonterminal n) xs r

/-- A leaf that matches and takes nothing; it may look at the context. -/
inductive Idle : Action (Outcome Value) → Prop where
  | done (v : Value) : Idle (.done (.matched v))
  | front {k : Option Value → Action (Outcome Value)} : (∀ item, Idle (k item)) → Idle (.front k)
  | remaining {k : List Value → Action (Outcome Value)} : (∀ items, Idle (k items)) → Idle (.remaining k)

/-- `Renders place e g`: the unit `g` stands for the expression `e`, where `place` gives the rule of each nonterminal. A choice
may be rendered by alternatives in pairs or, when it is nested to the right, by one list of candidates, and any unit may be passed
on by wrappers, as the body of a rule and an erased candidate are. -/
inductive Renders (place : N → RuleId) : Expr N → Grammar → Prop where
  | terminal (pred : Value → Bool) : Renders place (.terminal pred) (.pop pred)
  | empty {f : Action (Outcome Value)} : Idle f → Renders place .empty (.apply f)
  | seq {a b : Expr N} {g h : Grammar} (held : List RuleId) :
      Renders place a g → Renders place b h → Renders place (.seq a b) (.bind g (fun x => .map (.pair x) h) held)
  | choose {a b : Expr N} {g h : Grammar} :
      Renders place a g → Renders place b h → Renders place (.choice a b) (.choose g h)
  | oneOf {a b : Expr N} {g h : Grammar} :
      Renders place a g → Renders place b h → Renders place (.choice a b) (.oneOf [g, h])
  | oneOf_cons {a b : Expr N} {g h : Grammar} {hs : List Grammar} :
      Renders place a g → Renders place b (.oneOf (h :: hs)) → Renders place (.choice a b) (.oneOf (g :: h :: hs))
  | maybe {a : Expr N} {g : Grammar} : Renders place a g → Renders place (.option a) (.maybe g)
  | zeroOrMany {a : Expr N} {g : Grammar} : Renders place a g → Renders place (.star a) (.zeroOrMany g)
  | oneOrMany {a : Expr N} {g : Grammar} : Renders place a g → Renders place (.plus a) (.oneOrMany g)
  | nonterminal (n : N) (owner : Bool) : Renders place (.nonterminal n) (.link ⟨place n, owner⟩)
  | wrap {e : Expr N} {g : Grammar} (how : Wrapper) : Renders place e g → Renders place e (.wrap how g)

/-- Every nonterminal has a rule, and its body stands for the definition of the nonterminal. -/
def Bound (G : N → Expr N) (place : N → RuleId) (rules : Rules) : Prop :=
  ∀ n, ∃ body, rules (place n) = some body ∧ Renders place (G n) body

/-- A unit without the wrappers around it. -/
def bare : Grammar → Grammar
  | .wrap _ g => bare g
  | g => g

/-- Nothing is left to unwrap. -/
theorem bare_ne_wrap (g : Grammar) (how : Wrapper) (h : Grammar) : bare g ≠ .wrap how h := by
  fun_induction bare g with
  | case1 _ _ ih => exact ih
  | case2 g hg => exact hg how h

/-- Without its wrappers a unit stands for the same expression. -/
theorem Renders.bare {place : N → RuleId} {e : Expr N} {g : Grammar} (h : Renders place e g) : Renders place e (bare g) := by
  fun_induction Peg.bare g with
  | case1 _ _ ih =>
    cases h with
    | wrap _ h => exact ih h
  | case2 => exact h

/-- What an expression leaves is the end of its input. -/
theorem Derives.isSuffix {G : N → Expr N} {e : Expr N} {xs ys : List Value} (h : Derives G e xs (.success ys)) :
    ys <:+ xs := by
  generalize hr : Result.success ys = r at h
  induction h generalizing ys with
  | terminal => cases hr; exact List.suffix_cons _ _
  | empty | option_absent | star_stop => cases hr; exact List.suffix_refl _
  | seq _ _ ih₁ ih₂ | star_more _ _ ih₁ ih₂ | plus _ _ ih₁ ih₂ => exact (ih₂ hr).trans (ih₁ rfl)
  | choice_first _ ih | option_present _ ih | nonterminal _ ih => exact ih hr
  | choice_second _ _ _ ih => exact ih hr
  | terminal_other | terminal_end | seq_head | plus_none => nomatch hr

/-! ## Runs of a unit that stands for an expression -/

section

variable {σ : Type} [Context σ]

/-- What the outcome of a run says about the expression: a match that it succeeds and leaves the same items, a soft failure that
it fails and the context is unchanged; there are no hard failures. -/
def Agrees (G : N → Expr N) (e : Expr N) (s : σ) (o : Outcome Value) (t : σ) : Prop :=
  match o with
  | .matched _ => Derives G e (Context.remaining s) (.success (Context.remaining t))
  | .soft => t = s ∧ Derives G e (Context.remaining s) .failure
  | .hard _ => False

/-- What the outcome of the turns of a repetition says about its base: without a turn the base fails and the context is
unchanged, and otherwise the base is recognised once or more. -/
def TurnsAgree (G : N → Expr N) (e : Expr N) (s : σ) (o : Outcome Value) (t : σ) : Prop :=
  match o with
  | .matched (.list []) => t = s ∧ Derives G e (Context.remaining s) .failure
  | .matched (.list (_ :: _)) => Derives G (.plus e) (Context.remaining s) (.success (Context.remaining t))
  | _ => False

/-- The job, other than the turns of a repetition, is done for the expression. -/
inductive Carries (place : N → RuleId) : Job → Expr N → Prop where
  | unit {e : Expr N} {g : Grammar} : Renders place e g → Carries place (.unit g) e
  /-- The second part of a sequence, whose value is paired with that of the first. -/
  | paired {e : Expr N} {f : Value → Value} {g : Grammar} : Renders place e g → Carries place (.unit (.map f g)) e
  | candidates {e : Expr N} {gs : List Grammar} {index : Nat} :
      Renders place e (.oneOf gs) → Carries place (.candidates index gs) e
  | last {e : Expr N} {g : Grammar} {index : Nat} : Renders place e g → Carries place (.candidates index [g]) e

/-- What a run of the job says about the expressions it is done for. -/
def Tells (G : N → Expr N) (place : N → RuleId) : Job → σ → Outcome Value → σ → Prop
  | .turns g, s, o, t => ∀ e, Renders place e g → TurnsAgree G e s o t
  | .unit g, s, o, t => ∀ e, Carries place (.unit g) e → Agrees G e s o t
  | .candidates index gs, s, o, t => ∀ e, Carries place (.candidates index gs) e → Agrees G e s o t

variable {G : N → Expr N} {place : N → RuleId} {rules : Rules}

namespace Agrees

variable {a b : Expr N} {s t u : σ} {o : Outcome Value}

/-- A sequence whose first part does not match. -/
theorem seq_head (h : Agrees G a s o t) (ho : o.isMatch = false) : Agrees G (.seq a b) s o t := by
  rcases Outcome.isMatch_eq_false_iff.1 ho with rfl | ⟨failure, rfl⟩
  · exact ⟨h.1, .seq_head h.2⟩
  · exact h

/-- A sequence whose second part does not fail. -/
theorem seq {v : Value} (ha : Agrees G a s (.matched v) t) (hb : Agrees G b t o u) (ho : o.isSoft = false) :
    Agrees G (.seq a b) s o u := by
  rcases Outcome.isSoft_eq_false_iff.1 ho with ⟨w, rfl⟩ | ⟨failure, rfl⟩
  · exact .seq ha hb
  · exact hb

/-- A choice whose first alternative does not fail. -/
theorem choice_first (h : Agrees G a s o t) (ho : o.isSoft = false) : Agrees G (.choice a b) s o t := by
  rcases Outcome.isSoft_eq_false_iff.1 ho with ⟨v, rfl⟩ | ⟨failure, rfl⟩
  · exact .choice_first h
  · exact h

/-- A choice whose first alternative fails, and whose second one starts from the same context. -/
theorem choice_second (ha : Agrees G a s .soft t) (hb : Agrees G b s o u) : Agrees G (.choice a b) s o u := by
  cases o with
  | matched v => exact .choice_second ha.2 hb
  | soft => exact ⟨hb.1, .choice_second ha.2 hb.2⟩
  | hard failure => exact hb

/-- A nonterminal says what its definition says. -/
theorem nonterminal {n : N} (h : Agrees G (G n) s o t) : Agrees G (.nonterminal n) s o t := by
  cases o with
  | matched v => exact .nonterminal h
  | soft => exact ⟨h.1, .nonterminal h.2⟩
  | hard failure => exact h

end Agrees

/-- What the turns of a repetition say about its base they say about its star. -/
theorem TurnsAgree.star {e : Expr N} {s t : σ} {vs : List Value} (h : TurnsAgree G e s (.matched (.list vs)) t) :
    Derives G (.star e) (Context.remaining s) (.success (Context.remaining t)) := by
  cases vs with
  | nil =>
    obtain ⟨rfl, hd⟩ := h
    exact .star_stop hd
  | cons v vs =>
    cases h with
    | plus hd hstar => exact .star_more hd hstar

/-- A leaf that takes nothing matches, and leaves the context as it is. -/
theorem Idle.run {f : Action (Outcome Value)} (hf : Idle f) (s : σ) : ∃ v tr, f.run.run s = .ok ⟨.matched v, s, tr⟩ := by
  induction hf with
  | done v => exact ⟨v, .nil, rfl⟩
  | front _ ih =>
    obtain ⟨v, tr, h⟩ := ih (Context.front s)
    exact ⟨v, _, Engine.run_bind_eq_ok.2 ⟨_, _, _, rfl, tr, h, rfl⟩⟩
  | remaining _ ih =>
    obtain ⟨v, tr, h⟩ := ih (Context.remaining s)
    exact ⟨v, _, Engine.run_bind_eq_ok.2 ⟨_, _, _, rfl, tr, h, rfl⟩⟩

/-- Such a leaf agrees with the empty expression. -/
theorem agrees_idle {f : Action (Outcome Value)} (hf : Idle f) {s t : σ} {o : Outcome Value} {tr : Trace}
    (h : f.run.run s = .ok ⟨o, t, tr⟩) : Agrees G .empty s o t := by
  obtain ⟨v, tr', h'⟩ := hf.run s
  rw [h] at h'
  cases h'
  exact .empty

/-- The outcome `o`, in the context `t` left of `s`, is what the result says. -/
def Result.Realized (s : σ) (o : Outcome Value) (t : σ) : Result → Prop
  | .success ys => (∃ v, o = .matched v) ∧ Context.remaining t = ys
  | .failure => o = .soft ∧ t = s

/-- The unit has a run from the context that is what the result says. -/
def Attains (rules : Rules) (g : Grammar) (s : σ) (r : Result) : Prop :=
  ∃ o t tr, Runs rules (.unit g) s o t tr ∧ r.Realized s o t

/-- What a unit attains without its wrappers, it attains with them. -/
theorem Attains.of_bare {g : Grammar} {s : σ} {r : Result} (h : Attains rules (bare g) s r) : Attains rules g s r := by
  fun_induction bare g with
  | case1 _ _ ih =>
    obtain ⟨o, t, tr, hrun, hr⟩ := ih h
    exact ⟨o, t, tr, .wrap hrun, hr⟩
  | case2 => exact h

/-- The turns behind a repetition that succeeds. -/
theorem runs_turns {a : Grammar} {s : σ} {ys : List Value}
    (h : Attains rules (.zeroOrMany a) s (.success ys)) :
    ∃ t vs tr, Runs rules (.turns a) s (.matched (.list vs)) t tr ∧ Context.remaining t = ys := by
  obtain ⟨_, t, tr, hrun, ⟨v, rfl⟩, ht⟩ := h
  cases hrun with
  | zeroOrMany_some hturns => exact ⟨t, _, _, hturns, ht⟩

namespace Tells

variable {job : Job} {a b : Grammar} {s t u w : σ} {o : Outcome Value} {v : Value} {tr tr₁ tr₂ : Trace}

/-- A leaf that takes nothing tells about the empty expression. -/
theorem apply {f : Action (Outcome Value)} (h : f.run.run s = .ok ⟨o, t, tr⟩) : Tells G place (.unit (.apply f)) s o t := by
  rintro e ⟨hr⟩
  cases hr with
  | empty hf => exact agrees_idle hf h

section

variable {next : Value → Grammar} {held : List RuleId}

/-- The base of a sequence does not match. -/
theorem bind_stop (h : Tells G place (.unit a) s o t) (ho : o.isMatch = false) :
    Tells G place (.unit (.bind a next held)) s o t := by
  rintro e ⟨hr⟩
  cases hr with
  | seq held ha hb => exact (h _ (.unit ha)).seq_head ho

/-- The second part of a sequence decides where the first one matched. -/
theorem bind_go (h₁ : Tells G place (.unit a) s (.matched v) t) (h₂ : Tells G place (.unit (next v)) t o u)
    (ho : o.isSoft = false) : Tells G place (.unit (.bind a next held)) s o u := by
  rintro e ⟨hr⟩
  cases hr with
  | seq held ha hb => exact (h₁ _ (.unit ha)).seq (h₂ _ (.paired hb)) ho

/-- The unit that the value of the base selects does not match, and the start is gone back to. -/
theorem bind_back (h₁ : Tells G place (.unit a) s (.matched v) t) (h₂ : Tells G place (.unit (next v)) t .soft u)
    (hback : w = s) : Tells G place (.unit (.bind a next held)) s .soft w := by
  rintro e ⟨hr⟩
  cases hr with
  | seq held ha hb => exact ⟨hback, .seq (h₁ _ (.unit ha)) (h₂ _ (.paired hb)).2⟩

end

/-- The first unit of a choice decides where it does not fail softly. -/
theorem choose_first (h : Tells G place (.unit a) s o t) (ho : o.isSoft = false) :
    Tells G place (.unit (.choose a b)) s o t := by
  rintro e ⟨hr⟩
  cases hr with
  | choose ha hb => exact (h _ (.unit ha)).choice_first ho

/-- The second unit of a choice decides where the first one fails. -/
theorem choose_second (h₁ : Tells G place (.unit a) s .soft t) (h₂ : Tells G place (.unit b) s o u) :
    Tells G place (.unit (.choose a b)) s o u := by
  rintro e ⟨hr⟩
  cases hr with
  | choose ha hb => exact (h₁ _ (.unit ha)).choice_second (h₂ _ (.unit hb))

section

variable {g : Grammar} {gs : List Grammar} {index : Nat}

/-- An alternation tells what its candidates tell. -/
theorem oneOf (h : Tells G place (.candidates 0 gs) s o t) : Tells G place (.unit (.oneOf gs)) s o t := by
  rintro e ⟨hr⟩
  exact h e (.candidates hr)

/-- An alternation without candidates stands for no expression. -/
theorem candidates_none : Tells G place (.candidates index []) s o t := by
  intro e he
  cases he with
  | candidates hr => nomatch hr

/-- A candidate that does not fail softly decides. -/
theorem candidates_here (h : Tells G place (.unit g) s o t) (ho : o.isSoft = false) :
    Tells G place (.candidates index (g :: gs)) s o t := by
  intro e he
  cases he with
  | last hr => exact h e (.unit hr)
  | candidates hr =>
    cases hr with
    | oneOf ha hb => exact (h _ (.unit ha)).choice_first ho
    | oneOf_cons ha hb => exact (h _ (.unit ha)).choice_first ho

/-- The first candidate fails. If it is the last one, then so does the alternation. -/
theorem candidates_next (h₁ : Tells G place (.unit g) s .soft t) (h₂ : Tells G place (.candidates (index + 1) gs) s o u)
    (hnone : gs = [] → o = .soft ∧ u = s) : Tells G place (.candidates index (g :: gs)) s o u := by
  intro e he
  cases he with
  | last hr =>
    obtain ⟨rfl, rfl⟩ := hnone rfl
    exact ⟨rfl, (h₁ e (.unit hr)).2⟩
  | candidates hr =>
    cases hr with
    | oneOf ha hb => exact (h₁ _ (.unit ha)).choice_second (h₂ _ (.last hb))
    | oneOf_cons ha hb => exact (h₁ _ (.unit ha)).choice_second (h₂ _ (.candidates hb))

end

/-- An optional expression that is present succeeds with what it leaves. -/
theorem maybe_present (h : Tells G place (.unit a) s (.matched v) t) :
    Tells G place (.unit (.maybe a)) s (.matched (.opt (some v))) t := by
  rintro e ⟨hr⟩
  cases hr with
  | maybe ha => exact .option_present (h _ (.unit ha))

/-- An optional expression that is absent succeeds and leaves all. -/
theorem maybe_absent (h : Tells G place (.unit a) s .soft t) : Tells G place (.unit (.maybe a)) s (.matched (.opt none)) s := by
  rintro e ⟨hr⟩
  cases hr with
  | maybe ha => exact .option_absent (h _ (.unit ha)).2

/-- An optional part that stands for an expression does not fail hard. -/
theorem maybe_hard {failure : Failure} (h : Tells G place (.unit a) s (.hard failure) t) :
    Tells G place (.unit (.maybe a)) s (.hard failure) t := by
  rintro e ⟨hr⟩
  cases hr with
  | maybe ha => exact (h _ (.unit ha)).elim

/-- Without a turn that matched, at least one match fails. -/
theorem oneOrMany_none (h : Tells G place (.turns a) s (.matched (.list [])) t) :
    Tells G place (.unit (.oneOrMany a)) s .soft t := by
  rintro e ⟨hr⟩
  cases hr with
  | oneOrMany ha =>
    obtain ⟨ht, hd⟩ := h _ ha
    exact ⟨ht, .plus_none hd⟩

/-- With a turn that matched, at least one match succeeds with what the turns leave. -/
theorem oneOrMany_some {vs : List Value} (h : Tells G place (.turns a) s (.matched (.list (v :: vs))) t) :
    Tells G place (.unit (.oneOrMany a)) s (.matched (.list (v :: vs))) t := by
  rintro e ⟨hr⟩
  cases hr with
  | oneOrMany ha => exact h _ ha

/-- Any number of matches succeeds, with what the turns leave. -/
theorem zeroOrMany_some {vs : List Value} (h : Tells G place (.turns a) s (.matched (.list vs)) t) :
    Tells G place (.unit (.zeroOrMany a)) s (.matched (.list vs)) t := by
  rintro e ⟨hr⟩
  cases hr with
  | zeroOrMany ha => exact TurnsAgree.star (h _ ha)

/-- The turns of a repetition that stands for an expression do not fail hard. -/
theorem turns_hard {failure : Failure} (h : Tells G place (.unit a) s (.hard failure) t) :
    Tells G place (.turns a) s (.hard failure) t :=
  fun e he => h e (.unit he)

/-- A repetition that stands for an expression does not fail hard. -/
theorem oneOrMany_hard {failure : Failure} (h : Tells G place (.turns a) s (.hard failure) t) :
    Tells G place (.unit (.oneOrMany a)) s (.hard failure) t := by
  rintro e ⟨hr⟩
  cases hr with
  | oneOrMany ha => exact h _ ha

/-- A repetition of any number of matches that stands for an expression does not fail hard. -/
theorem zeroOrMany_hard {failure : Failure} (h : Tells G place (.turns a) s (.hard failure) t) :
    Tells G place (.unit (.zeroOrMany a)) s (.hard failure) t := by
  rintro e ⟨hr⟩
  cases hr with
  | zeroOrMany ha => exact h _ ha

/-- The second part of a sequence tells what the unit tells whose value is paired. -/
theorem map {f : Value → Value} (h : Tells G place (.unit a) s o t) : Tells G place (.unit (.map f a)) s (o.map f) t := by
  intro e he
  cases he with
  | unit hr => nomatch hr
  | paired hr =>
    have hagrees := h e (.unit hr)
    cases o with
    | matched | soft | hard => exact hagrees

/-- A wrapped unit tells what the unit tells. -/
theorem wrap {how : Wrapper} (h : Tells G place (.unit a) s o t) : Tells G place (.unit (.wrap how a)) s o t := by
  rintro e ⟨hr⟩
  cases hr with
  | wrap _ hr => exact h e (.unit hr)

/-- A link to the rule of a nonterminal tells what the body tells about the definition. -/
theorem link (hrules : Bound G place rules) {l : Link} {body : Grammar} (hbody : rules l.rule = some body)
    (h : Tells G place (.unit body) s o t) : Tells G place (.unit (.link l)) s o t := by
  rintro e ⟨hr⟩
  cases hr with
  | nonterminal n owner =>
    obtain ⟨body', hplace, hr⟩ := hrules n
    cases hbody.symm.trans hplace
    exact (h _ (.unit hr)).nonterminal

/-- The rule of a nonterminal is bound. -/
theorem link_unbound (hrules : Bound G place rules) {l : Link} (hnone : rules l.rule = none) :
    Tells G place (.unit (.link l)) s o t := by
  rintro e ⟨hr⟩
  cases hr with
  | nonterminal n owner =>
    obtain ⟨body, hplace, _⟩ := hrules n
    cases hnone.symm.trans hplace

end Tells

variable [LawfulContext σ]

/-- The predicate leaf agrees with the terminal. -/
theorem agrees_pop {pred : Value → Bool} {s t : σ} {o : Outcome Value} {tr : Trace}
    (h : (Parser.pop pred).run s = .ok ⟨o, t, tr⟩) : Agrees G (.terminal pred) s o t := by
  rcases Parser.run_pop_cases h with ⟨v, vs, hs, hv, rfl, rfl⟩ | ⟨hs, rfl, rfl⟩
  · have ht : Context.remaining (Context.popFront s).2 = vs := by
      rw [LawfulContext.remaining_popFront, hs]
      rfl
    rw [Agrees, ht, hs]
    exact .terminal hv
  · refine ⟨rfl, ?_⟩
    cases hrest : Context.remaining t with
    | nil => exact .terminal_end
    | cons v vs =>
      rw [hrest] at hs
      exact .terminal_other (hs v rfl)

/-- The predicate leaf tells about the terminal. -/
theorem Tells.pop {pred : Value → Bool} {s t : σ} {o : Outcome Value} {tr : Trace}
    (h : (Parser.pop pred).run s = .ok ⟨o, t, tr⟩) : Tells G place (.unit (.pop pred)) s o t := by
  rintro e ⟨hr⟩
  cases hr
  exact agrees_pop h

/-- What a run says about the expressions that its job is done for. -/
theorem runs_agree (hrules : Bound G place rules) {job : Job} {s t : σ} {o : Outcome Value} {tr : Trace}
    (h : Runs rules job s o t tr) : Tells G place job s o t := by
  induction h with
  | pop h => exact .pop h
  | apply h => exact .apply h
  | bind_stop _ ho ih => exact ih.bind_stop ho
  | bind_go _ _ ho ih₁ ih₂ => exact ih₁.bind_go ih₂ ho
  | bind_back h₁ h₂ hr ih₁ ih₂ =>
    exact ih₁.bind_back ih₂ (LawfulContext.eq_of_restore (h₁.descends.trans h₂.descends) hr)
  | choose_first _ ho ih => exact ih.choose_first ho
  | choose_second h₁ hr _ ih₁ ih₂ =>
    obtain rfl := LawfulContext.eq_of_restore h₁.descends hr
    exact ih₁.choose_second ih₂
  | oneOf _ ih => exact ih.oneOf
  | candidates_none => exact .candidates_none
  | candidates_here _ ho ih => exact ih.candidates_here ho
  | candidates_next h₁ hr h₂ ih₁ ih₂ =>
    obtain rfl := LawfulContext.eq_of_restore h₁.descends hr
    refine ih₁.candidates_next ih₂ ?_
    rintro rfl
    cases h₂
    exact ⟨rfl, rfl⟩
  | maybe_present _ ih => exact ih.maybe_present
  | maybe_hard _ ih => exact ih.maybe_hard
  | maybe_absent h₁ hr ih =>
    obtain rfl := LawfulContext.eq_of_restore h₁.descends hr
    exact ih.maybe_absent
  | turns_stop h₁ hr ih => exact fun e he => ⟨LawfulContext.eq_of_restore h₁.descends hr, (ih e (.unit he)).2⟩
  | turns_hard _ ih => exact ih.turns_hard
  | turns_more _ _ ih₁ ih₂ => exact fun e he => .plus (ih₁ e (.unit he)) (TurnsAgree.star (ih₂ e he))
  | turns_more_hard _ _ _ ih => exact ih
  | oneOrMany_none _ ih => exact ih.oneOrMany_none
  | oneOrMany_some _ ih => exact ih.oneOrMany_some
  | oneOrMany_hard _ ih => exact ih.oneOrMany_hard
  | zeroOrMany_some _ ih => exact ih.zeroOrMany_some
  | zeroOrMany_hard _ ih => exact ih.zeroOrMany_hard
  | map_match _ ih => exact ih.map
  | map_stop _ ho ih =>
    rcases Outcome.isMatch_eq_false_iff.1 ho with rfl | ⟨failure, rfl⟩
    · exact ih.map
    · exact ih.map
  | wrap _ ih => exact ih.wrap
  | link hbody _ ih => exact .link hrules hbody ih
  | link_unbound hnone => exact .link_unbound hrules hnone
  | _ =>
    rintro e ⟨hr⟩
    nomatch hr

/-! ## Every meaning of an expression is a run -/

open LawfulContext (InBounds)

/-- The last candidate of an alternation decides it. -/
theorem runs_candidates_last {g : Grammar} (index : Nat) {s t : σ} (hs : InBounds s) {o : Outcome Value} {tr : Trace}
    {r : Result} (hrun : Runs rules (.unit g) s o t tr) (hr : r.Realized s o t) :
    ∃ tr', Runs rules (.candidates index [g]) s o t tr' := by
  cases r with
  | success ys =>
    obtain ⟨⟨v, rfl⟩, -⟩ := hr
    exact ⟨_, .candidates_here hrun rfl⟩
  | failure =>
    obtain ⟨rfl, rfl⟩ := hr
    exact ⟨_, .candidates_next hrun (LawfulContext.restore_backup hs .refl) .candidates_none⟩

/-- A sequence of which the first part matched ends as the second part does, and gives back what the first part took if that
fails. -/
theorem runs_pair {a b : Grammar} (held : List RuleId) {s t u : σ} (hs : InBounds s) {v : Value} {o : Outcome Value}
    {tr₁ tr₂ : Trace} {r : Result} (ha : Runs rules (.unit a) s (.matched v) t tr₁) (hb : Runs rules (.unit b) t o u tr₂)
    (hr : r.Realized t o u) :
    ∃ o' u' tr, Runs rules (.unit (.bind a (fun x => .map (.pair x) b) held)) s o' u' tr ∧ r.Realized s o' u' := by
  cases r with
  | success ys =>
    obtain ⟨⟨w, rfl⟩, hu⟩ := hr
    exact ⟨_, _, _, .bind_go ha (.map_match hb) rfl, ⟨_, rfl⟩, hu⟩
  | failure =>
    obtain ⟨rfl, rfl⟩ := hr
    have hback := LawfulContext.restore_backup hs (ha.descends.trans hb.descends)
    exact ⟨_, _, _, .bind_back ha (.map_stop hb rfl) hback, rfl, rfl⟩

/-- Every unit that stands for the expression attains the result on the items. -/
def Serves (σ : Type) [Context σ] [LawfulContext σ] (rules : Rules) (place : N → RuleId) (e : Expr N) (xs : List Value)
    (r : Result) : Prop :=
  ∀ ⦃g : Grammar⦄ ⦃s : σ⦄, Renders place e g → InBounds s → Context.remaining s = xs → Attains rules g s r

namespace Serves

variable {a b e : Expr N} {xs ys zs : List Value} {r : Result} {pred : Value → Bool}

/-- It is enough to look at the units that are not wrapped. -/
theorem of_bare (h : ∀ g (s : σ), Renders place e g → (∀ how h, g ≠ .wrap how h) → InBounds s → Context.remaining s = xs →
    Attains rules g s r) : Serves σ rules place e xs r :=
  fun g s hg hs hxs => .of_bare (h (bare g) s hg.bare (bare_ne_wrap g) hs hxs)

/-- A terminal takes the first item where it satisfies the predicate. -/
theorem terminal {x : Value} (hx : pred x = true) : Serves σ rules place (.terminal pred) (x :: xs) (.success xs) := by
  refine .of_bare fun g s hg hne hs hxs => ?_
  cases hg with
  | wrap => exact absurd rfl (hne _ _)
  | terminal =>
    obtain ⟨tr, hrun⟩ := Parser.run_pop_match hxs hx
    refine ⟨_, _, tr, .pop hrun, ⟨_, rfl⟩, ?_⟩
    rw [LawfulContext.remaining_popFront, hxs]
    rfl

/-- A terminal fails where the first item, if there is one, does not satisfy its predicate. -/
theorem terminal_miss (hmiss : ∀ x, xs.head? = some x → pred x = false) :
    Serves σ rules place (.terminal pred) xs .failure := by
  refine .of_bare fun g s hg hne hs hxs => ?_
  cases hg with
  | wrap => exact absurd rfl (hne _ _)
  | terminal =>
    obtain ⟨tr, hrun⟩ := Parser.run_pop_miss (s := s) (by rwa [hxs])
    exact ⟨_, _, tr, .pop hrun, rfl, rfl⟩

/-- The empty expression succeeds and takes nothing. -/
theorem empty : Serves σ rules place .empty xs (.success xs) := by
  refine .of_bare fun g s hg hne hs hxs => ?_
  cases hg with
  | wrap => exact absurd rfl (hne _ _)
  | empty hf =>
    obtain ⟨v, tr, hrun⟩ := hf.run s
    exact ⟨_, _, tr, .apply hrun, ⟨v, rfl⟩, hxs⟩

/-- After the first part has succeeded a sequence has the result of the second. -/
theorem seq (ha : Serves σ rules place a xs (.success ys)) (hb : Serves σ rules place b ys r) :
    Serves σ rules place (.seq a b) xs r := by
  refine .of_bare fun g s hg hne hs hxs => ?_
  cases hg with
  | wrap => exact absurd rfl (hne _ _)
  | seq held ga gb =>
    obtain ⟨_, t, tr₁, hrun₁, ⟨v, rfl⟩, ht⟩ := ha ga hs hxs
    obtain ⟨o, u, tr₂, hrun₂, hr⟩ := hb gb (hrun₁.descends.inBounds hs) ht
    exact runs_pair held hs hrun₁ hrun₂ hr

/-- A sequence fails where its first part does. -/
theorem seq_head (ha : Serves σ rules place a xs .failure) : Serves σ rules place (.seq a b) xs .failure := by
  refine .of_bare fun g s hg hne hs hxs => ?_
  cases hg with
  | wrap => exact absurd rfl (hne _ _)
  | seq held ga gb =>
    obtain ⟨_, _, tr, hrun, rfl, rfl⟩ := ha ga hs hxs
    exact ⟨_, _, _, .bind_stop hrun rfl, rfl, rfl⟩

/-- A choice succeeds where its first expression does. -/
theorem choice_first (ha : Serves σ rules place a xs (.success ys)) : Serves σ rules place (.choice a b) xs (.success ys) := by
  refine .of_bare fun g s hg hne hs hxs => ?_
  cases hg with
  | wrap => exact absurd rfl (hne _ _)
  | choose ga gb =>
    obtain ⟨_, t, tr, hrun, ⟨v, rfl⟩, ht⟩ := ha ga hs hxs
    exact ⟨_, t, _, .choose_first hrun rfl, ⟨v, rfl⟩, ht⟩
  | oneOf ga gb =>
    obtain ⟨_, t, tr, hrun, ⟨v, rfl⟩, ht⟩ := ha ga hs hxs
    exact ⟨_, t, _, .oneOf (.candidates_here hrun rfl), ⟨v, rfl⟩, ht⟩
  | oneOf_cons ga gb =>
    obtain ⟨_, t, tr, hrun, ⟨v, rfl⟩, ht⟩ := ha ga hs hxs
    exact ⟨_, t, _, .oneOf (.candidates_here hrun rfl), ⟨v, rfl⟩, ht⟩

/-- The second alternative decides. In a list of candidates, those after the first are numbered on, as they are not when they
stand alone. -/
theorem choice_second (ha : Serves σ rules place a xs .failure) (hb : Serves σ rules place b xs r) :
    Serves σ rules place (.choice a b) xs r := by
  refine .of_bare fun g s hg hne hs hxs => ?_
  have hback : Context.restore s (Context.backup s) = .ok s := LawfulContext.restore_backup hs .refl
  cases hg with
  | wrap => exact absurd rfl (hne _ _)
  | choose ga gb =>
    obtain ⟨_, _, tr₁, hrun₁, rfl, rfl⟩ := ha ga hs hxs
    obtain ⟨o, u, tr₂, hrun₂, hr⟩ := hb gb hs hxs
    exact ⟨o, u, _, .choose_second hrun₁ hback hrun₂, hr⟩
  | oneOf ga gb =>
    obtain ⟨_, _, tr₁, hrun₁, rfl, rfl⟩ := ha ga hs hxs
    obtain ⟨o, u, tr₂, hrun₂, hr⟩ := hb gb hs hxs
    obtain ⟨tr₃, hlast⟩ := runs_candidates_last 1 hs hrun₂ hr
    exact ⟨o, u, _, .oneOf (.candidates_next hrun₁ hback hlast), hr⟩
  | oneOf_cons ga gb =>
    obtain ⟨_, _, tr₁, hrun₁, rfl, rfl⟩ := ha ga hs hxs
    obtain ⟨o, u, tr₂, hrun₂, hr⟩ := hb gb hs hxs
    cases hrun₂ with
    | oneOf hrest =>
      obtain ⟨tr₃, hrest'⟩ := hrest.candidates_renumber 1
      exact ⟨o, u, _, .oneOf (.candidates_next hrun₁ hback hrest'), hr⟩

/-- An option succeeds with what its expression leaves. -/
theorem option_present (ha : Serves σ rules place a xs (.success ys)) : Serves σ rules place (.option a) xs (.success ys) := by
  refine .of_bare fun g s hg hne hs hxs => ?_
  cases hg with
  | wrap => exact absurd rfl (hne _ _)
  | maybe ga =>
    obtain ⟨_, t, tr, hrun, ⟨v, rfl⟩, ht⟩ := ha ga hs hxs
    exact ⟨_, t, _, .maybe_present hrun, ⟨_, rfl⟩, ht⟩

/-- Where its expression fails, an option succeeds and leaves all. -/
theorem option_absent (ha : Serves σ rules place a xs .failure) : Serves σ rules place (.option a) xs (.success xs) := by
  refine .of_bare fun g s hg hne hs hxs => ?_
  cases hg with
  | wrap => exact absurd rfl (hne _ _)
  | maybe ga =>
    obtain ⟨_, _, tr, hrun, rfl, rfl⟩ := ha ga hs hxs
    exact ⟨_, _, _, .maybe_absent hrun (LawfulContext.restore_backup hs .refl), ⟨_, rfl⟩, hxs⟩

/-- A base that succeeds once, and then as often as its star says, is gathered in turns. -/
theorem turns_more (ha : Serves σ rules place a xs (.success ys)) (hstar : Serves σ rules place (.star a) ys (.success zs))
    {g : Grammar} (hg : Renders place a g) {s : σ} (hs : InBounds s) (hxs : Context.remaining s = xs) :
    ∃ t v vs tr, Runs rules (.turns g) s (.matched (.list (v :: vs))) t tr ∧ Context.remaining t = zs := by
  obtain ⟨_, t, tr₁, hrun, ⟨v, rfl⟩, ht⟩ := ha hg hs hxs
  obtain ⟨u, vs, tr₂, hturns, hu⟩ := runs_turns (hstar (.zeroOrMany hg) (hrun.descends.inBounds hs) ht)
  exact ⟨u, v, vs, _, .turns_more hrun hturns, hu⟩

/-- A base that fails at once is gathered in no turn. -/
theorem turns_stop (ha : Serves σ rules place a xs .failure) {g : Grammar} (hg : Renders place a g) {s : σ} (hs : InBounds s)
    (hxs : Context.remaining s = xs) : ∃ tr, Runs rules (.turns g) s (.matched (.list [])) s tr := by
  obtain ⟨_, _, tr, hrun, rfl, rfl⟩ := ha hg hs hxs
  exact ⟨_, .turns_stop hrun (LawfulContext.restore_backup hs .refl)⟩

/-- A repetition goes on after each success. -/
theorem star_more (ha : Serves σ rules place a xs (.success ys)) (hstar : Serves σ rules place (.star a) ys (.success zs)) :
    Serves σ rules place (.star a) xs (.success zs) := by
  refine .of_bare fun g s hg hne hs hxs => ?_
  cases hg with
  | wrap => exact absurd rfl (hne _ _)
  | zeroOrMany ga =>
    obtain ⟨t, v, vs, tr, hturns, ht⟩ := ha.turns_more hstar ga hs hxs
    exact ⟨_, t, _, .zeroOrMany_some hturns, ⟨_, rfl⟩, ht⟩

/-- A repetition ends where its expression fails, and leaves what is there. -/
theorem star_stop (ha : Serves σ rules place a xs .failure) : Serves σ rules place (.star a) xs (.success xs) := by
  refine .of_bare fun g s hg hne hs hxs => ?_
  cases hg with
  | wrap => exact absurd rfl (hne _ _)
  | zeroOrMany ga =>
    obtain ⟨tr, hturns⟩ := ha.turns_stop ga hs hxs
    exact ⟨_, s, _, .zeroOrMany_some hturns, ⟨_, rfl⟩, hxs⟩

/-- At least one match is one match and then any number. -/
theorem plus (ha : Serves σ rules place a xs (.success ys)) (hstar : Serves σ rules place (.star a) ys (.success zs)) :
    Serves σ rules place (.plus a) xs (.success zs) := by
  refine .of_bare fun g s hg hne hs hxs => ?_
  cases hg with
  | wrap => exact absurd rfl (hne _ _)
  | oneOrMany ga =>
    obtain ⟨t, v, vs, tr, hturns, ht⟩ := ha.turns_more hstar ga hs hxs
    exact ⟨_, t, _, .oneOrMany_some hturns, ⟨_, rfl⟩, ht⟩

/-- At least one match fails where the first match does. -/
theorem plus_none (ha : Serves σ rules place a xs .failure) : Serves σ rules place (.plus a) xs .failure := by
  refine .of_bare fun g s hg hne hs hxs => ?_
  cases hg with
  | wrap => exact absurd rfl (hne _ _)
  | oneOrMany ga =>
    obtain ⟨tr, hturns⟩ := ha.turns_stop ga hs hxs
    exact ⟨_, s, _, .oneOrMany_none hturns, rfl, rfl⟩

/-- A link to the rule of a nonterminal attains what the units attain that stand for the definition. -/
theorem nonterminal (hrules : Bound G place rules) {n : N} (h : Serves σ rules place (G n) xs r) :
    Serves σ rules place (.nonterminal n) xs r := by
  refine .of_bare fun g s hg hne hs hxs => ?_
  cases hg with
  | wrap => exact absurd rfl (hne _ _)
  | nonterminal _ owner =>
    obtain ⟨body, hplace, hbody⟩ := hrules n
    obtain ⟨o, t, tr, hrun, hr⟩ := h hbody hs hxs
    exact ⟨o, t, tr, .link hplace hrun, hr⟩

end Serves

/-- An expression that comes to a result is run to that result, by every unit that stands for it. -/
theorem Derives.serves (hrules : Bound G place rules) {e : Expr N} {xs : List Value} {r : Result} (h : Derives G e xs r) :
    Serves σ rules place e xs r := by
  induction h with
  | terminal hx => exact .terminal hx
  | terminal_other hx => exact .terminal_miss fun _ h => by cases h; exact hx
  | terminal_end => exact .terminal_miss nofun
  | empty => exact .empty
  | seq _ _ ih₁ ih₂ => exact ih₁.seq ih₂
  | seq_head _ ih => exact ih.seq_head
  | choice_first _ ih => exact ih.choice_first
  | choice_second _ _ ih₁ ih₂ => exact ih₁.choice_second ih₂
  | option_present _ ih => exact ih.option_present
  | option_absent _ ih => exact ih.option_absent
  | star_more _ _ ih₁ ih₂ => exact ih₁.star_more ih₂
  | star_stop _ ih => exact ih.star_stop
  | plus _ _ ih₁ ih₂ => exact ih₁.plus ih₂
  | plus_none _ ih => exact ih.plus_none
  | nonterminal _ ih => exact ih.nonterminal hrules

/-- What a parse returns agrees with the expression. -/
theorem agrees_of_yields (hrules : Bound G place rules) {e : Expr N} {g : Grammar} (hg : Renders place e g) {s t : σ}
    {o : Outcome Value} (h : g.Yields rules s o t) : Agrees G e s o t := by
  obtain ⟨tr, hrun⟩ := Grammar.yields_iff_runs.1 h
  exact runs_agree hrules hrun e (.unit hg)

/-- A result of the expression is what a parse returns. -/
theorem Derives.yields (hrules : Bound G place rules) {e : Expr N} {g : Grammar} (hg : Renders place e g) {s : σ}
    (hs : InBounds s) {r : Result} (h : Derives G e (Context.remaining s) r) :
    ∃ o t, g.Yields rules s o t ∧ r.Realized s o t := by
  obtain ⟨o, t, tr, hrun, hr⟩ := h.serves hrules hg hs rfl
  exact ⟨o, t, Grammar.yields_iff_runs.2 ⟨tr, hrun⟩, hr⟩

/-- A parse that ends comes to a result of the expression. -/
theorem derives_of_ends (hrules : Bound G place rules) {e : Expr N} {g : Grammar} (hg : Renders place e g) {s : σ}
    (hs : InBounds s) (h : g.Ends rules s) : ∃ r, Derives G e (Context.remaining s) r := by
  obtain ⟨fuel, hfuel⟩ := h
  rcases Grammar.eval_ok_or_outOfFuel rules g fuel hs with ⟨⟨o, t, tr⟩, hrun⟩ | hrun
  · have hagrees : Agrees G e s o t := agrees_of_yields hrules hg ⟨fuel, tr, hrun⟩
    cases o with
    | matched v => exact ⟨_, hagrees⟩
    | soft => exact ⟨_, hagrees.2⟩
    | hard failure => exact hagrees.elim
  · exact absurd hrun hfuel

/-- The parse of a unit that stands for an expression, under rules that stand for the definitions of all nonterminals, does what
the expression says on every input. It matches and leaves `rest` exactly when the expression succeeds and leaves `rest`, which
is then an end of the input; it fails softly, and leaves the context unchanged, exactly when the expression fails; it never
fails hard; and it runs forever exactly when the expression has no result. -/
theorem parse_iff_derives (hrules : Bound G place rules) {e : Expr N} {g : Grammar} (hg : Renders place e g) {s : σ}
    (hs : InBounds s) :
    (∀ rest, (∃ v t, g.Yields rules s (.matched v) t ∧ Context.remaining t = rest) ↔
        Derives G e (Context.remaining s) (.success rest)) ∧
      (∀ v t, g.Yields rules s (.matched v) t → Context.remaining t <:+ Context.remaining s) ∧
      (g.Yields rules s .soft s ↔ Derives G e (Context.remaining s) .failure) ∧
      (∀ t, g.Yields rules s .soft t → t = s) ∧
      (∀ failure t, ¬ g.Yields rules s (.hard failure) t) ∧
      (¬ g.Ends rules s ↔ ∀ r, ¬ Derives G e (Context.remaining s) r) := by
  refine ⟨fun rest => ⟨?_, ?_⟩, ?_, ⟨?_, ?_⟩, ?_, ?_, ⟨?_, ?_⟩⟩
  · rintro ⟨v, t, h, rfl⟩
    exact agrees_of_yields hrules hg h
  · intro h
    obtain ⟨_, t, h, ⟨v, rfl⟩, ht⟩ := h.yields hrules hg hs
    exact ⟨v, t, h, ht⟩
  · intro v t h
    exact (agrees_of_yields hrules hg h).isSuffix
  · intro h
    exact (agrees_of_yields hrules hg h).2
  · intro h
    obtain ⟨_, _, h, rfl, rfl⟩ := h.yields hrules hg hs
    exact h
  · intro t h
    exact (agrees_of_yields hrules hg h).1
  · intro failure t h
    exact agrees_of_yields hrules hg h
  · intro hforever r hr
    obtain ⟨o, t, ⟨fuel, tr, hrun⟩, -⟩ := hr.yields hrules hg hs
    exact hforever ⟨fuel, by simp [hrun]⟩
  · intro hnone hends
    obtain ⟨r, hr⟩ := derives_of_ends hrules hg hs hends
    exact hnone r hr

end

/-! ### Nested lists -/

/-- A letter, or the items of a list in parentheses; the second nonterminal is one item or more. -/
def nest : Bool → Expr Bool
  | true => .choice (.terminal (· == .char 'a'))
      (.seq (.terminal (· == .char '(')) (.seq (.nonterminal false) (.terminal (· == .char ')'))))
  | false => .seq (.nonterminal true) (.option (.nonterminal false))

/-- Where the definitions of `nest` stand among `nestRules`. -/
def nestPlace : Bool → RuleId
  | true => 0
  | false => 1

/-- The body of the rule for one item; the candidates are erased to stand in one list. -/
def oneNested : Grammar :=
  .oneOf [.wrap .erased (.pop (· == .char 'a')), .wrap .erased (.bind (.pop (· == .char '(')) (fun x => .map (.pair x)
    (.bind (.link ⟨1, false⟩) (fun y => .map (.pair y) (.pop (· == .char ')'))) [])) [])]

/-- The body of the rule for one item or more. -/
def manyNested : Grammar :=
  .bind (.link ⟨0, false⟩) (fun x => .map (.pair x) (.maybe (.link ⟨1, false⟩))) []

/-- Two new rules, given their bodies one after the other. -/
def nestStore : Except BindError Store :=
  let (one, cells) := Store.empty.fresh
  let (many, cells) := cells.fresh
  do (← cells.define one oneNested).define many.handle manyNested

/-- Nested lists in units, as the store of the two rules holds them. -/
def nestRules : Rules :=
  match nestStore with
  | .ok cells => cells.bodies
  | .error _ => fun _ => none

/-- The rules of the nest are bound as the definitions say. -/
theorem nestRules_bound : Bound nest nestPlace nestRules := by
  intro n
  cases n with
  | true =>
    refine ⟨.wrap .erased oneNested, rfl, .wrap _ (.oneOf (.wrap _ (.terminal _)) (.wrap _ (.seq [] (.terminal _) ?_)))⟩
    exact .seq [] (.nonterminal false false) (.terminal _)
  | false =>
    exact ⟨.wrap .erased manyNested, rfl, .wrap _ (.seq [] (.nonterminal true false) (.maybe (.nonterminal false false)))⟩

/-- What is parsed of two texts, read as derivations. -/
theorem nest_derives :
    Derives nest (.nonterminal true) (Context.remaining (Text.ofString "(a)b")) (.success [.char 'b']) ∧
      Derives nest (.nonterminal true) (Context.remaining (Text.ofString "(ab")) .failure := by
  have hg : Renders nestPlace (.nonterminal true) (.link ⟨0, false⟩) := .nonterminal true false
  obtain ⟨hmatch, -⟩ := parse_iff_derives nestRules_bound hg (s := Text.ofString "(a)b") trivial
  obtain ⟨-, -, hsoft, -⟩ := parse_iff_derives nestRules_bound hg (s := Text.ofString "(ab") trivial
  refine ⟨(hmatch _).1 ⟨?_, ⟨3, ['b']⟩, ?_, rfl⟩, hsoft.1 ?_⟩
  · exact .pair (.char '(') (.pair (.pair (.char 'a') (.opt none)) (.char ')'))
  · exact Grammar.yields_of_run 30 (by decide +kernel)
  · exact Grammar.yields_of_run 30 (by decide +kernel)

end Backtrack.Peg
