import Backtrack.Proofs.Adequacy
import Backtrack.Proofs.Histories

/-!
# Binding rules

A rule is given its body once, through any link to it, and keeps it as long as it lives. What a definition answers says what had
become of the rule; a refused definition changes no rule, a declaration always leaves a rule with a body, and all links to a rule
do the same.
-/

namespace Backtrack

namespace Workspace

variable {w : Workspace} {x y : String} {l l' : Link} {body early : Blueprint} {g g' : Grammar} {t u : Store} {r : RuleId}

/-! ## Definitions -/

/-- The body is built, and then offered to the rule. -/
theorem step_define {result : Except BindError Unit} (hl : w.get x = .ok l) (hbuild : w.build (body.build w.vars) = .ok (g, t))
    (hdefine : (Builder.define l g).run t = .ok (result, u)) :
    w.step (.define x body) = .ok (.defined result, [], settle u w.vars) := by
  have hrun : w.build (do Builder.define l (← body.build w.vars)) = .ok (result, u) :=
    build_eq_ok.2 (Builder.run_bind_eq_ok.2 ⟨g, t, build_eq_ok.1 hbuild, hdefine⟩)
  exact bind_eq_ok.2 ⟨l, hl, bind_eq_ok.2 ⟨(result, u), hrun, rfl⟩⟩

/-- A rule that is there and has no body takes the one that it is offered. -/
theorem Sound.define_unbound (hw : w.Sound) (hl : w.get x = .ok l) (hbuild : w.build (body.build w.vars) = .ok (g, t))
    (hcell : w.store.cell l.rule = .unbound) :
    ∃ w', w.step (.define x body) = .ok (.defined (.ok ()), [], w') ∧ w'.vars = w.vars ∧
      w'.store.cell l.rule = .bound (.wrap .erased g) ∧
      ∀ r, r < w.store.cells.size → r ≠ l.rule → w'.store.cell r = w.store.cell r := by
  have hlt : l.rule < w.store.cells.size := hw.linked_of_get hl
  have hext : w.store.Extends t := (hw.build hbuild).1
  have hunbound : t.cell l.rule = .unbound := by rw [hext.cell_eq _ hlt, hcell]
  have hdefine : (Builder.define l g).run t = .ok (.ok (), t.put l.rule (.bound (.wrap .erased g))) := by
    rw [Builder.run_define, Store.define_eq_ok_iff.2 ⟨hunbound, rfl⟩]
    rfl
  have hgrows := hext.grows_put hunbound (.wrap .erased g)
  refine ⟨_, step_define hl hbuild hdefine, rfl, ?_, fun r hr hne => ?_⟩
  · rw [cell_settle hw hgrows (fun _ hr => hr) hlt, Store.cell_put_self (Nat.lt_of_lt_of_le hlt hext.size_le)]
  · rw [cell_settle hw hgrows (fun _ hr => hr) hr, Store.cell_put_of_ne t _ hne, hext.cell_eq r hr]

/-- A refused definition changes no rule. -/
theorem Sound.define_refused {reason : BindError} (hw : w.Sound) (hl : w.get x = .ok l)
    (hbuild : w.build (body.build w.vars) = .ok (g, t)) (hrefused : t.define l g = .error reason) :
    ∃ w', w.step (.define x body) = .ok (.defined (.error reason), [], w') ∧ w'.vars = w.vars ∧
      ∀ r, r < w.store.cells.size → w'.store.cell r = w.store.cell r := by
  have hext : w.store.Extends t := (hw.build hbuild).1
  have hdefine : (Builder.define l g).run t = .ok (.error reason, t) := by
    rw [Builder.run_define, hrefused]
  refine ⟨_, step_define hl hbuild hdefine, rfl, fun r hr => ?_⟩
  rw [cell_settle hw hext.grows (fun _ hr => hr) hr, hext.cell_eq r hr]

/-- What a definition answers, and what it changes. -/
theorem Sound.define (hw : w.Sound) (hl : w.get x = .ok l) (hbuild : w.build (body.build w.vars) = .ok (g, t)) :
    ∃ result w', w.step (.define x body) = .ok (.defined result, [], w') ∧ w'.vars = w.vars ∧
      (result = .ok () ↔ w.store.cell l.rule = .unbound) ∧
      (result = .error .alreadyDefined ↔ ∃ body, w.store.cell l.rule = .bound body) ∧
      (result = .error .dropped ↔ ¬ w.HasOwner l.rule) ∧
      (result = .ok () → w'.store.cell l.rule = .bound (.wrap .erased g)) ∧
      ∀ r, r < w.store.cells.size → (result = .ok () → r ≠ l.rule) → w'.store.cell r = w.store.cell r := by
  have hcell_t : t.cell l.rule = w.store.cell l.rule := (hw.build hbuild).1.cell_eq _ (hw.linked_of_get hl)
  have howner := hw.isAlive_iff (r := l.rule)
  rw [Store.isAlive_iff] at howner
  rw [← howner]
  cases hcell : w.store.cell l.rule with
  | unbound =>
    obtain ⟨w', hstep, hvars, hself, hother⟩ := hw.define_unbound hl hbuild hcell
    exact ⟨.ok (), w', hstep, hvars, by simp, by simp, by simp, fun _ => hself, fun r hr hne => hother r hr (hne rfl)⟩
  | bound b =>
    have hrefused : t.define l g = .error .alreadyDefined := by rw [Store.define, hcell_t, hcell]
    obtain ⟨w', hstep, hvars, hsame⟩ := hw.define_refused hl hbuild hrefused
    exact ⟨.error .alreadyDefined, w', hstep, hvars, by simp, by simp, by simp, by simp, fun r hr _ => hsame r hr⟩
  | dropped =>
    have hrefused : t.define l g = .error .dropped := by rw [Store.define, hcell_t, hcell]
    obtain ⟨w', hstep, hvars, hsame⟩ := hw.define_refused hl hbuild hrefused
    exact ⟨.error .dropped, w', hstep, hvars, by simp, by simp, by simp, by simp, fun r hr _ => hsame r hr⟩

/-! ## Declarations -/

/-- The new rule is in its variable, which keeps it alive, and has its body. -/
theorem Declared.settled (h : Declared w.vars w.store g t) (x : String) :
    (settle t (assign w.vars x w.store.fresh.1)).get x = .ok w.store.fresh.1 ∧
      (settle t (assign w.vars x w.store.fresh.1)).store.cell w.store.fresh.1.rule = .bound (.wrap .erased g) := by
  refine ⟨get_eq_ok.2 ?_, ?_⟩
  · simp [settle, assign]
  · have hheld : w.store.fresh.1.rule ∈ held (assign w.vars x w.store.fresh.1) :=
      mem_held.2 ⟨x, _, List.mem_cons_self, List.mem_cons_self⟩
    rw [settle, Store.cell_sweep_of_supported (fun r hr => .inl hr) hheld, h.cell]

/-- A declaration whose builder does not define the rule binds the rule to what is built. -/
theorem Sound.declare_plain (hw : w.Sound)
    (hbody : (body.build (assign w.vars x w.store.fresh.1.handle)).run w.store.fresh.2 = .ok (g, t)) :
    ∃ w', w.step (.declare x body none) = .ok (.done, [], w') ∧ w'.get x = .ok w.store.fresh.1 ∧
      w'.store.cell w.store.fresh.1.rule = .bound (.wrap .erased g) := by
  obtain ⟨u, hrun, hdeclared⟩ := Workspace.declare_plain hw.kept hbody
  exact ⟨_, bind_eq_ok.2 ⟨_, build_eq_ok.2 hrun, rfl⟩, hdeclared.settled x⟩

/-- Where the builder has defined the rule already, that definition stands, and a warning is reported. -/
theorem Sound.declare_early (hw : w.Sound)
    (hearly : (early.build (assign w.vars x w.store.fresh.1.handle)).run w.store.fresh.2 = .ok (g, t))
    (hbody : (body.build (assign w.vars x w.store.fresh.1.handle)).run
      (t.put w.store.fresh.1.rule (.bound (.wrap .erased g))) = .ok (g', u)) :
    ∃ w', w.step (.declare x body (some early)) = .ok (.early (.ok ()), [.definedWhileDeclared], w') ∧
      w'.get x = .ok w.store.fresh.1 ∧ w'.store.cell w.store.fresh.1.rule = .bound (.wrap .erased g) := by
  obtain ⟨hrun, hdeclared⟩ := Workspace.declare_early hw.kept hearly hbody
  exact ⟨_, bind_eq_ok.2 ⟨_, build_eq_ok.2 hrun, rfl⟩, hdeclared.settled x⟩

/-! ## Parses -/

/-- A rule is defined exactly when it is bound to a body. -/
theorem isDefined_iff {s : Store} : s.isDefined l = true ↔ ∃ body, s.cell l.rule = .bound body := by
  unfold Store.isDefined Store.bodies Cell.body?
  cases s.cell l.rule <;> simp

/-- A link runs the body of its rule, whether it owns the rule or not. -/
theorem parse_link_congr {σ : Type} [Context σ] (rules : Rules) (h : l.rule = l'.rule) (s : σ) :
    (Grammar.link l).parse rules s = (Grammar.link l').parse rules s := by
  have hfuel : Grammar.ampleFuel = 0x3FFFFFFFFFFFFFFF + 1 := rfl
  rw [Grammar.parse, Grammar.parse, hfuel, Grammar.eval, Grammar.eval, h]

/-- Where there is no body to run, the context is not even looked at. -/
theorem parse_link_of_not_bound {σ : Type} [Context σ] {store : Store} (h : ¬ ∃ body, store.cell l.rule = .bound body) (s : σ) :
    (Grammar.link l).parse store.bodies s = .ok ⟨.hard .unboundRecursion, s, .nil⟩ := by
  have hnone : store.bodies l.rule = none := by
    rw [← isDefined_iff, Store.isDefined] at h
    simpa using h
  have hfuel : Grammar.ampleFuel = 0x3FFFFFFFFFFFFFFF + 1 := rfl
  rw [Grammar.parse, hfuel, Grammar.eval_link_unbound hnone]
  rfl

/-- A link to a rule that has a body takes one unit of fuel, and then runs the body. -/
theorem eval_link_of_bound {σ : Type} [Context σ] {store : Store} {bound : Grammar} (h : store.cell l.rule = .bound bound)
    (fuel : Nat) : (Grammar.link l).eval (σ := σ) store.bodies (fuel + 1) = bound.eval store.bodies fuel := by
  have hbody : store.bodies l.rule = some bound := by rw [Store.bodies, h]; rfl
  exact Grammar.eval_link hbody

/-- So a parse through the link is a parse of the body. -/
theorem parse_link_of_bound {σ : Type} [Context σ] {store : Store} {bound : Grammar} (h : store.cell l.rule = .bound bound)
    (s : σ) : (Grammar.link l).parse store.bodies s = (bound.eval store.bodies (Grammar.ampleFuel - 1)).run s := by
  rw [← eval_link_of_bound h]
  rfl

/-- The link returns what the body returns. -/
theorem yields_link_iff {σ : Type} [Context σ] {store : Store} {bound : Grammar} (h : store.cell l.rule = .bound bound) (s : σ)
    (o : Outcome Value) (t : σ) : (Grammar.link l).Yields store.bodies s o t ↔ bound.Yields store.bodies s o t := by
  constructor
  · rintro ⟨fuel, tr, hrun⟩
    cases fuel with
    | zero => nomatch hrun
    | succ fuel =>
      rw [eval_link_of_bound h] at hrun
      exact ⟨fuel, tr, hrun⟩
  · rintro ⟨fuel, tr, hrun⟩
    rw [← eval_link_of_bound h] at hrun
    exact ⟨fuel + 1, tr, hrun⟩

/-- A parse leaves the workspace as it is. -/
theorem step_parse (hx : w.get x = .ok l) (input : String) :
    w.step (.parse x input) = do
      let r ← parseText w.store (.link l) input
      return (.parsed r.value r.context, r.trace.events, w) := by
  simp only [step, hx]
  rfl

/-- All links to a rule parse alike. -/
theorem step_parse_congr (hx : w.get x = .ok l) (hy : w.get y = .ok l') (h : l.rule = l'.rule) (input : String) :
    w.step (.parse x input) = w.step (.parse y input) := by
  rw [step_parse hx, step_parse hy, parseText, parseText, parse_link_congr _ h]

/-- A parse through a link to a rule that has no body, or is gone, fails hard where it started. -/
theorem step_parse_of_not_bound (hx : w.get x = .ok l) (h : ¬ ∃ body, w.store.cell l.rule = .bound body) (input : String) :
    w.step (.parse x input) = .ok (.parsed (.hard .unboundRecursion) (.ofString input), [], w) := by
  rw [step_parse hx, parseText, parse_link_of_not_bound h]
  rfl

/-- A parse through a link to a rule that has a body answers what the body's parse comes to, and reports its events. -/
theorem step_parse_of_bound {bound : Grammar} {input : String} {o : Outcome Value} {rest : Text} {tr : Trace}
    (hx : w.get x = .ok l) (h : w.store.cell l.rule = .bound bound)
    (hrun : (bound.eval w.store.bodies (Grammar.ampleFuel - 1)).run (Text.ofString input) = .ok ⟨o, rest, tr⟩) :
    w.step (.parse x input) = .ok (.parsed o rest, tr.events, w) := by
  rw [step_parse hx, parseText, parse_link_of_bound h, hrun]
  rfl

/-- A parse leaves the workspace as it is. -/
theorem eq_of_step_parse {input : String} {answer : Answer} {events : List Event} {w' : Workspace}
    (h : w.step (.parse x input) = .ok (answer, events, w')) : w' = w := by
  obtain ⟨l, hl, h⟩ := bind_eq_ok.1 h
  obtain ⟨r, hr, ⟨⟩⟩ := bind_eq_ok.1 h
  rfl

/-- A unit that is built only for one parse changes no rule that was there. -/
theorem Sound.cell_once {unit : Blueprint} {input : String} {answer : Answer} {events : List Event} {w' : Workspace} (hw : w.Sound)
    (h : w.step (.once unit input) = .ok (answer, events, w')) (hr : r < w.store.cells.size) :
    w'.store.cell r = w.store.cell r := by
  obtain ⟨⟨g, t⟩, hrun, h⟩ := bind_eq_ok.1 h
  obtain ⟨report, hreport, ⟨⟩⟩ := bind_eq_ok.1 h
  have hext : w.store.Extends t := (hw.build hrun).1
  rw [cell_settle hw hext.grows (fun _ hr => hr) hr, hext.cell_eq r hr]

/-! ## Every history -/

/-- Rules are bound at most once, over every history. Whatever happens later, a rule is as it was, is gone, or had no body and has
been given one. A definition through any link answers what has become of the rule, and changes a rule only if it is accepted. A
declared rule has the body that was built, or else the one that it was given while that was built, and then there is a warning.
Parses change no rule. All links to a rule agree on whether it is defined, which is whether it is alive and has a body, and on every
parse. Where the rule has a body, that is the parse of the body; where it has none or is gone, it is a hard failure, and the context
is left alone. -/
theorem rules_bound_once (hw : w.Reachable) :
    (∀ w', w.Later w' → ∀ r, r < w.store.cells.size →
      w'.store.cell r = w.store.cell r ∨ w'.store.cell r = .dropped ∨
        w.store.cell r = .unbound ∧ ∃ body, w'.store.cell r = .bound body) ∧
    (∀ x l body g t, w.get x = .ok l → w.build (body.build w.vars) = .ok (g, t) →
      ∃ result w', w.step (.define x body) = .ok (.defined result, [], w') ∧ w'.vars = w.vars ∧
        (result = .ok () ↔ w.store.cell l.rule = .unbound) ∧
        (result = .error .alreadyDefined ↔ ∃ body, w.store.cell l.rule = .bound body) ∧
        (result = .error .dropped ↔ ¬ w.HasOwner l.rule) ∧
        (result = .ok () → w'.store.cell l.rule = .bound (.wrap .erased g)) ∧
        ∀ r, r < w.store.cells.size → (result = .ok () → r ≠ l.rule) → w'.store.cell r = w.store.cell r) ∧
    (∀ x body g t, (body.build (assign w.vars x w.store.fresh.1.handle)).run w.store.fresh.2 = .ok (g, t) →
      ∃ w', w.step (.declare x body none) = .ok (.done, [], w') ∧ w'.get x = .ok w.store.fresh.1 ∧
        w'.store.cell w.store.fresh.1.rule = .bound (.wrap .erased g)) ∧
    (∀ x body early g t g' u, (early.build (assign w.vars x w.store.fresh.1.handle)).run w.store.fresh.2 = .ok (g, t) →
      (body.build (assign w.vars x w.store.fresh.1.handle)).run (t.put w.store.fresh.1.rule (.bound (.wrap .erased g))) =
        .ok (g', u) →
      ∃ w', w.step (.declare x body (some early)) = .ok (.early (.ok ()), [.definedWhileDeclared], w') ∧
        w'.get x = .ok w.store.fresh.1 ∧ w'.store.cell w.store.fresh.1.rule = .bound (.wrap .erased g)) ∧
    (∀ x input answer events w', w.step (.parse x input) = .ok (answer, events, w') → w' = w) ∧
    (∀ unit input answer events w', w.step (.once unit input) = .ok (answer, events, w') →
      ∀ r, r < w.store.cells.size → w'.store.cell r = w.store.cell r) ∧
    (∀ x y l l', w.get x = .ok l → w.get y = .ok l' → l.rule = l'.rule →
      w.store.isDefined l = w.store.isDefined l' ∧
      (w.store.isDefined l = true ↔ ∃ body, w.store.cell l.rule = .bound body) ∧
      (∀ input, w.step (.parse x input) = w.step (.parse y input)) ∧
      ∀ (σ : Type) [Context σ] (s : σ), (Grammar.link l).parse w.store.bodies s = (Grammar.link l').parse w.store.bodies s) ∧
    (∀ x l body, w.get x = .ok l → w.store.cell l.rule = .bound body →
      (∀ input o rest tr, (body.eval w.store.bodies (Grammar.ampleFuel - 1)).run (Text.ofString input) = .ok ⟨o, rest, tr⟩ →
        w.step (.parse x input) = .ok (.parsed o rest, tr.events, w)) ∧
      ∀ (σ : Type) [Context σ] (s : σ),
        (Grammar.link l).parse w.store.bodies s = (body.eval w.store.bodies (Grammar.ampleFuel - 1)).run s ∧
        ∀ o t, (Grammar.link l).Yields w.store.bodies s o t ↔ body.Yields w.store.bodies s o t) ∧
    ∀ x l, w.get x = .ok l → (¬ ∃ body, w.store.cell l.rule = .bound body) →
      (∀ input, w.step (.parse x input) = .ok (.parsed (.hard .unboundRecursion) (.ofString input), [], w)) ∧
      ∀ (σ : Type) [Context σ] (s : σ),
        (Grammar.link l).parse w.store.bodies s = .ok ⟨.hard .unboundRecursion, s, .nil⟩ := by
  have hsound : w.Sound := hw.sound
  refine ⟨fun w' hlater r hr => ?_, fun x l body g t hl hbuild => hsound.define hl hbuild,
    fun x body g t hbody => hsound.declare_plain hbody, fun x body early g t g' u hearly hbody => hsound.declare_early hearly hbody,
    fun x input answer events w' h => eq_of_step_parse h, fun unit input answer events w' h r hr => hsound.cell_once h hr,
    fun x y l l' hx hy hrule => ⟨?_, isDefined_iff, step_parse_congr hx hy hrule, fun σ _ s => parse_link_congr _ hrule s⟩,
    fun x l body hx hbound => ⟨fun input o rest tr hrun => step_parse_of_bound hx hbound hrun, fun σ _ s => ?_⟩,
    fun x l hx hnot => ⟨step_parse_of_not_bound hx hnot, fun σ _ s => parse_link_of_not_bound hnot s⟩⟩
  · rcases (hlater.cell hw).2 r hr with (h | h) | h
    · exact .inl h
    · exact .inr (.inr h)
    · exact .inr (.inl h)
  · rw [Store.isDefined, Store.isDefined, hrule]
  · exact ⟨parse_link_of_bound hbound s, yields_link_iff hbound s⟩

/-- A rule without a body, with an owner and a handle. -/
def openRule : Workspace :=
  ⟨⟨#[.unbound]⟩, [("handle", ⟨0, false⟩), ("rule", ⟨0, true⟩)]⟩

theorem openRule_reachable : openRule.Reachable := by
  have hnew : Next empty ⟨⟨#[.unbound]⟩, [("rule", ⟨0, true⟩)]⟩ := ⟨.new "rule", .done, [], rfl⟩
  have hhandle : Next ⟨⟨#[.unbound]⟩, [("rule", ⟨0, true⟩)]⟩ openRule := ⟨.handle "handle" "rule", .done, [], rfl⟩
  exact .tail (.tail .refl hnew) hhandle

/-- The rule with a body that takes one item. -/
def letterRule : Workspace :=
  ⟨⟨#[.bound (.wrap .erased (.pop fun _ => true))]⟩, openRule.vars⟩

theorem letterRule_reachable : letterRule.Reachable :=
  .tail openRule_reachable ⟨.define "handle" (.pop fun _ => true), .defined (.ok ()), [], rfl⟩

/-- The handle defines the rule, and until then parses fail; then they take an item. A rule that is defined while it is declared
keeps that body. -/
theorem openRule_bound_once :
    (∃ result w', openRule.step (.define "handle" (.pop fun _ => true)) = .ok (.defined result, [], w') ∧ result = .ok () ∧
      w'.store.cell 0 = .bound (.wrap .erased (.pop fun _ => true))) ∧
    (∃ w', openRule.step (.declare "other" (.ref "rule" true) (some (.ref "other" false))) =
        .ok (.early (.ok ()), [.definedWhileDeclared], w') ∧
      w'.get "other" = .ok ⟨1, true⟩ ∧ w'.store.cell 1 = .bound (.wrap .erased (.link ⟨1, false⟩))) ∧
    openRule.step (.parse "rule" "text") = .ok (.parsed (.hard .unboundRecursion) (.ofString "text"), [], openRule) ∧
    letterRule.step (.parse "rule" "text") = .ok (.parsed (.matched (.char 't')) ⟨1, ['e', 'x', 't']⟩, [], letterRule) := by
  obtain ⟨-, hdefine, -, hdeclare, -, -, -, -, hfails⟩ := rules_bound_once openRule_reachable
  obtain ⟨-, -, -, -, -, -, -, hparses, -⟩ := rules_bound_once letterRule_reachable
  refine ⟨?_, hdeclare "other" (.ref "rule" true) (.ref "other" false) _ _ _ _ rfl rfl, ?_, ?_⟩
  · obtain ⟨result, w', hstep, -, hok, -, -, hself, -⟩ := hdefine "handle" _ (.pop fun _ => true) _ _ rfl rfl
    exact ⟨result, w', hstep, hok.2 rfl, hself (hok.2 rfl)⟩
  · exact (hfails "rule" _ rfl nofun).1 "text"
  · exact (hparses "rule" _ _ rfl rfl).1 "text" _ _ _ rfl

end Workspace

end Backtrack
