import Backtrack.Proofs.Binding
import Backtrack.Proofs.Invocations

/-!
# The order of definitions

A definition gives one rule its body and changes no other, so definitions of different rules commute: in whatever order they are
given, the same rules have the same bodies, and every link leads to the same. A run that came to no rule without a body is the same
run after more rules have been given theirs.
-/

namespace Backtrack

/-! ## Definitions commute -/

namespace Store

variable {s t u : Store} {l l' : Link} {g g' : Grammar} {defs defs' : List (Link × Grammar)}

/-- Gives rules their bodies, one after another, and stops at the first that is refused. -/
def defineAll (s : Store) : List (Link × Grammar) → Except BindError Store
  | [] => .ok s
  | (l, g) :: defs => do (← s.define l g).defineAll defs

/-- Definitions of different rules, of which each is there and has no body. -/
structure Definable (s : Store) (defs : List (Link × Grammar)) : Prop where
  distinct : (defs.map (·.1.rule)).Nodup
  unbound : ∀ d ∈ defs, s.cell d.1.rule = .unbound

/-- Definitions are made one after the other. -/
theorem defineAll_cons : s.defineAll ((l, g) :: defs) = .ok u ↔ ∃ t, s.define l g = .ok t ∧ t.defineAll defs = .ok u :=
  bind_eq_ok

/-- The rule that is defined gets the body. -/
theorem cell_define_self (h : s.define l g = .ok t) : t.cell l.rule = .bound (.wrap .erased g) := by
  obtain ⟨hunbound, rfl⟩ := define_eq_ok_iff.1 h
  exact cell_put_self (lt_size_of_cell_ne (by rw [hunbound]; nofun)) _

/-- A definition changes no other rule. -/
theorem cell_define_of_ne {r : RuleId} (h : s.define l g = .ok t) (hne : r ≠ l.rule) : t.cell r = s.cell r := by
  obtain ⟨-, rfl⟩ := define_eq_ok_iff.1 h
  exact cell_put_of_ne s _ hne

/-- Two definitions that are accepted are accepted the other way round, and lead to the same. -/
theorem define_comm (h : s.define l g = .ok t) (h' : t.define l' g' = .ok u) :
    ∃ t', s.define l' g' = .ok t' ∧ t'.define l g = .ok u := by
  have hne : l'.rule ≠ l.rule := by
    intro heq
    obtain ⟨hunbound, -⟩ := define_eq_ok_iff.1 h'
    rw [heq, cell_define_self h] at hunbound
    nomatch hunbound
  obtain ⟨hl, rfl⟩ := define_eq_ok_iff.1 h
  obtain ⟨hl', rfl⟩ := define_eq_ok_iff.1 h'
  rw [cell_define_of_ne h hne] at hl'
  have hfirst : s.define l' g' = .ok (s.put l'.rule (.bound (.wrap .erased g'))) := define_eq_ok_iff.2 ⟨hl', rfl⟩
  refine ⟨_, hfirst, define_eq_ok_iff.2 ⟨?_, ?_⟩⟩
  · rw [cell_define_of_ne hfirst hne.symm, hl]
  · simp only [put]
    rw [Array.setIfInBounds_comm _ _ hne.symm]

/-- Definitions that are accepted in one order are accepted in every order, and lead to the same. -/
theorem defineAll_perm (hperm : defs.Perm defs') (h : s.defineAll defs = .ok t) : s.defineAll defs' = .ok t := by
  induction hperm generalizing s with
  | nil => exact h
  | cons d _ ih =>
    obtain ⟨s₁, hd, hrest⟩ := defineAll_cons.1 h
    exact defineAll_cons.2 ⟨s₁, hd, ih hrest⟩
  | swap d d' defs =>
    obtain ⟨s₁, hd', hrest⟩ := defineAll_cons.1 h
    obtain ⟨s₂, hd, hrest⟩ := defineAll_cons.1 hrest
    obtain ⟨s₁', hd, hd'⟩ := define_comm hd' hd
    exact defineAll_cons.2 ⟨s₁', hd, defineAll_cons.2 ⟨s₂, hd', hrest⟩⟩
  | trans _ _ ih ih' => exact ih' (ih h)

/-- Definitions of different rules without bodies are all accepted. -/
theorem Definable.exists_defineAll (h : s.Definable defs) : ∃ t, s.defineAll defs = .ok t := by
  induction defs generalizing s with
  | nil => exact ⟨s, rfl⟩
  | cons d defs ih =>
    obtain ⟨hnotin, hdistinct⟩ := List.nodup_cons.1 h.distinct
    have hd : s.define d.1 d.2 = .ok (s.put d.1.rule (.bound (.wrap .erased d.2))) :=
      define_eq_ok_iff.2 ⟨h.unbound d List.mem_cons_self, rfl⟩
    have hrest : (s.put d.1.rule (.bound (.wrap .erased d.2))).Definable defs := by
      refine ⟨hdistinct, fun d' hd' => ?_⟩
      have hne : d'.1.rule ≠ d.1.rule := fun heq => hnotin (List.mem_map.2 ⟨d', hd', heq⟩)
      rw [cell_define_of_ne hd hne, h.unbound d' (List.mem_cons_of_mem _ hd')]
    obtain ⟨t, ht⟩ := ih hrest
    exact ⟨t, defineAll_cons.2 ⟨_, hd, ht⟩⟩

/-! ## What definitions change -/

/-- A rule is as it was, or was given its body. -/
theorem matures_defineAll (h : s.defineAll defs = .ok t) (r : RuleId) : (s.cell r).Matures (t.cell r) := by
  induction defs generalizing s with
  | nil =>
    cases h
    exact .refl _
  | cons d defs ih =>
    obtain ⟨s₁, hd, hrest⟩ := defineAll_cons.1 h
    refine .trans ?_ (ih hrest)
    by_cases heq : r = d.1.rule
    · rw [heq, cell_define_self hd]
      exact .inr ⟨(define_eq_ok_iff.1 hd).1, _, rfl⟩
    · rw [cell_define_of_ne hd heq]
      exact .refl _

/-- Each rule has the body that it was offered. -/
theorem cell_defineAll_of_mem (h : s.defineAll defs = .ok t) (hmem : (l, g) ∈ defs) :
    t.cell l.rule = .bound (.wrap .erased g) := by
  induction defs generalizing s with
  | nil => nomatch hmem
  | cons d defs ih =>
    obtain ⟨s₁, hd, hrest⟩ := defineAll_cons.1 h
    rcases List.mem_cons.1 hmem with rfl | hmem
    · exact (matures_defineAll hrest l.rule).bound (cell_define_self hd)
    · exact ih hrest hmem

/-- The other rules are as they were. -/
theorem cell_defineAll_of_not_mem {r : RuleId} (h : s.defineAll defs = .ok t) (hnot : ∀ d ∈ defs, d.1.rule ≠ r) :
    t.cell r = s.cell r := by
  induction defs generalizing s with
  | nil =>
    cases h
    rfl
  | cons d defs ih =>
    obtain ⟨s₁, hd, hrest⟩ := defineAll_cons.1 h
    rw [ih hrest fun d' hd' => hnot d' (List.mem_cons_of_mem _ hd')]
    exact cell_define_of_ne hd (hnot d List.mem_cons_self).symm

/-- After definitions the rules that were defined before are so, and those among the definitions. -/
theorem isDefined_defineAll (h : s.defineAll defs = .ok t) :
    t.isDefined l = true ↔ s.isDefined l = true ∨ ∃ d ∈ defs, d.1.rule = l.rule := by
  rw [Workspace.isDefined_iff, Workspace.isDefined_iff]
  constructor
  · rintro ⟨body, hbody⟩
    by_cases hmem : ∃ d ∈ defs, d.1.rule = l.rule
    · exact .inr hmem
    · rw [cell_defineAll_of_not_mem h fun d hd heq => hmem ⟨d, hd, heq⟩] at hbody
      exact .inl ⟨body, hbody⟩
  · rintro (⟨body, hbody⟩ | ⟨d, hd, heq⟩)
    · exact ⟨body, (matures_defineAll h l.rule).bound hbody⟩
    · rw [← heq]
      exact ⟨_, cell_defineAll_of_mem h hd⟩

/-- A store that is kept has nothing to drop. -/
theorem sweep_of_kept {held : List RuleId} (h : s.Kept held) : s.sweep held = s := by
  have hnone : s.orphans held = [] := by
    refine List.eq_nil_iff_forall_not_mem.2 fun r hr => ?_
    obtain ⟨halive, hnot⟩ := mem_orphans.1 hr
    exact hnot ((h r).1 halive)
  unfold sweep
  cases s.cells.size with
  | zero => rfl
  | succ n => simp only [sweepFor, hnone]

end Store

/-! ## Definitions in a history -/

namespace Workspace

variable {vars : Scope} {s t : Store}

/-- A definition that can be made from these variables: the one that is defined leads to a rule, and the body is built from them and
adds no rule of its own. -/
structure Definition (vars : Scope) where
  var : String
  body : Blueprint
  link : Link
  unit : Grammar
  lookup_var : vars.lookup var = some link
  build_body : ∀ s, (body.build vars).run s = .ok (unit, s)

/-- The rule that is defined, and the unit that it is offered. -/
def Definition.binding (d : Definition vars) : Link × Grammar :=
  (d.link, d.unit)

/-- `Defines w defs w'`: the definitions, made one after another from the workspace `w`, are all accepted and lead to `w'`. -/
inductive Defines : Workspace → List (Definition vars) → Workspace → Prop where
  | nil (w : Workspace) : Defines w [] w
  | cons {w w₁ w₂ : Workspace} {d : Definition vars} {defs : List (Definition vars)} :
      w.step (.define d.var d.body) = .ok (.defined (.ok ()), [], w₁) → Defines w₁ defs w₂ → Defines w (d :: defs) w₂

/-- A definition that is accepted gives the rule its body, and nothing is dropped. -/
theorem Definition.step_eq (d : Definition vars) (hw : Sound ⟨s, vars⟩) (h : s.define d.link d.unit = .ok t) :
    step ⟨s, vars⟩ (.define d.var d.body) = .ok (.defined (.ok ()), [], ⟨t, vars⟩) := by
  have hbuild : build ⟨s, vars⟩ (d.body.build vars) = .ok (d.unit, s) := build_eq_ok.2 (d.build_body s)
  have hdefine : (Builder.define d.link d.unit).run s = .ok (.ok (), t) := by
    rw [Builder.run_define, h]
  have hkept : t.Kept (held vars) := by
    obtain ⟨hunbound, rfl⟩ := Store.define_eq_ok_iff.1 h
    refine Store.Kept.bind ?_ nofun hunbound
    rw [Store.owned_bound_wrap]
    exact (hw.build hbuild).2
  have hstep := step_define (w := ⟨s, vars⟩) (get_eq_ok.2 d.lookup_var) hbuild hdefine
  rw [hstep, settle, Store.sweep_of_kept hkept]

/-- Definitions that the store accepts are accepted as steps. -/
theorem Sound.defines {defs : List (Definition vars)} (hw : Sound ⟨s, vars⟩)
    (h : s.defineAll (defs.map (·.binding)) = .ok t) : Defines ⟨s, vars⟩ defs ⟨t, vars⟩ := by
  induction defs generalizing s with
  | nil =>
    cases h
    exact .nil _
  | cons d defs ih =>
    obtain ⟨s₁, hd, hrest⟩ := Store.defineAll_cons.1 h
    have hstep := d.step_eq hw hd
    have hw₁ : Sound ⟨s₁, vars⟩ := (Next.effect ⟨_, _, _, hstep⟩ hw).sound hw
    exact .cons hstep (ih hw₁ hrest)

end Workspace

/-! ## Runs and definitions -/

/-- A run depends on the rules that it comes to, and on no other. -/
theorem Runs.of_rules_agree {σ : Type} [Context σ] {rules rules' : Rules} {job : Job} {s t : σ} {o : Outcome Value} {tr : Trace}
    (h : Runs rules job s o t tr)
    (hagree : Throughout rules (fun job' _ => ∀ l, job' = .unit (.link l) → rules' l.rule = rules l.rule) job s) :
    Runs rules' job s o t tr := by
  induction h with
  | pop h => exact .pop h
  | apply h => exact .apply h
  | seq_stop _ ho ih => exact .seq_stop (ih (hagree.of_invokes .seq_head)) ho
  | seq_match h₁ _ ih₁ ih₂ => exact .seq_match (ih₁ (hagree.of_invokes .seq_head)) (ih₂ (hagree.of_invokes (.seq_tail h₁)))
  | seq_hard h₁ _ ih₁ ih₂ => exact .seq_hard (ih₁ (hagree.of_invokes .seq_head)) (ih₂ (hagree.of_invokes (.seq_tail h₁)))
  | seq_escalate h₁ _ hf ih₁ ih₂ =>
    exact .seq_escalate (ih₁ (hagree.of_invokes .seq_head)) (ih₂ (hagree.of_invokes (.seq_tail h₁))) hf
  | bind_stop _ ho ih => exact .bind_stop (ih (hagree.of_invokes .bind_base)) ho
  | bind_go h₁ _ ho ih₁ ih₂ =>
    exact .bind_go (ih₁ (hagree.of_invokes .bind_base)) (ih₂ (hagree.of_invokes (.bind_next h₁))) ho
  | bind_back h₁ _ hr ih₁ ih₂ =>
    exact .bind_back (ih₁ (hagree.of_invokes .bind_base)) (ih₂ (hagree.of_invokes (.bind_next h₁))) hr
  | choose_first _ ho ih => exact .choose_first (ih (hagree.of_invokes .choose_first)) ho
  | choose_second h₁ hr _ ih₁ ih₂ =>
    exact .choose_second (ih₁ (hagree.of_invokes .choose_first)) hr (ih₂ (hagree.of_invokes (.choose_second h₁ hr)))
  | oneOf _ ih => exact .oneOf (ih (hagree.of_invokes .oneOf))
  | candidates_none => exact .candidates_none
  | candidates_here _ ho ih => exact .candidates_here (ih (hagree.of_invokes .candidates_here)) ho
  | candidates_next h₁ hr _ ih₁ ih₂ =>
    exact .candidates_next (ih₁ (hagree.of_invokes .candidates_here)) hr (ih₂ (hagree.of_invokes (.candidates_next h₁ hr)))
  | rescue_primary _ ih => exact .rescue_primary (ih (hagree.of_invokes .rescue_primary))
  | rescue_missed h₁ hr _ ih₁ ih₂ =>
    exact .rescue_missed (ih₁ (hagree.of_invokes .rescue_primary)) hr (ih₂ (hagree.of_invokes (.rescue_missed h₁ hr)))
  | rescue_recover h₁ hr _ ih₁ ih₂ =>
    exact .rescue_recover (ih₁ (hagree.of_invokes .rescue_primary)) hr (ih₂ (hagree.of_invokes (.rescue_recover h₁ hr)))
  | maybe_present _ ih => exact .maybe_present (ih (hagree.of_invokes .maybe))
  | maybe_hard _ ih => exact .maybe_hard (ih (hagree.of_invokes .maybe))
  | maybe_absent _ hr ih => exact .maybe_absent (ih (hagree.of_invokes .maybe)) hr
  | maybeThen_stop _ ih => exact .maybeThen_stop (ih (hagree.of_invokes .maybeThen_before))
  | maybeThen_match h₁ _ ih₁ ih₂ =>
    exact .maybeThen_match (ih₁ (hagree.of_invokes .maybeThen_before)) (ih₂ (hagree.of_invokes (.maybeThen_next h₁)))
  | maybeThen_hard h₁ _ ih₁ ih₂ =>
    exact .maybeThen_hard (ih₁ (hagree.of_invokes .maybeThen_before)) (ih₂ (hagree.of_invokes (.maybeThen_next h₁)))
  | maybeThen_absent h₁ _ ih₁ ih₂ =>
    exact .maybeThen_absent (ih₁ (hagree.of_invokes .maybeThen_before)) (ih₂ (hagree.of_invokes (.maybeThen_next h₁)))
  | maybeThen_escalate h₁ _ hf ih₁ ih₂ =>
    exact .maybeThen_escalate (ih₁ (hagree.of_invokes .maybeThen_before)) (ih₂ (hagree.of_invokes (.maybeThen_next h₁))) hf
  | turns_stop _ hr ih => exact .turns_stop (ih (hagree.of_invokes .turns_base)) hr
  | turns_hard _ ih => exact .turns_hard (ih (hagree.of_invokes .turns_base))
  | turns_more h₁ _ ih₁ ih₂ =>
    exact .turns_more (ih₁ (hagree.of_invokes .turns_base)) (ih₂ (hagree.of_invokes (.turns_more h₁)))
  | turns_more_hard h₁ _ ih₁ ih₂ =>
    exact .turns_more_hard (ih₁ (hagree.of_invokes .turns_base)) (ih₂ (hagree.of_invokes (.turns_more h₁)))
  | oneOrMany_none _ ih => exact .oneOrMany_none (ih (hagree.of_invokes .oneOrMany))
  | oneOrMany_some _ ih => exact .oneOrMany_some (ih (hagree.of_invokes .oneOrMany))
  | oneOrMany_hard _ ih => exact .oneOrMany_hard (ih (hagree.of_invokes .oneOrMany))
  | zeroOrMany_some _ ih => exact .zeroOrMany_some (ih (hagree.of_invokes .zeroOrMany))
  | zeroOrMany_hard _ ih => exact .zeroOrMany_hard (ih (hagree.of_invokes .zeroOrMany))
  | map_match _ ih => exact .map_match (ih (hagree.of_invokes .map))
  | map_stop _ ho ih => exact .map_stop (ih (hagree.of_invokes .map)) ho
  | transform_stop _ ho ih => exact .transform_stop (ih (hagree.of_invokes .transform)) ho
  | transform_match _ hf ih => exact .transform_match (ih (hagree.of_invokes .transform)) hf
  | transform_hard _ hf ih => exact .transform_hard (ih (hagree.of_invokes .transform)) hf
  | wrap _ ih => exact .wrap (ih (hagree.of_invokes .wrap))
  | @link l _ _ _ _ _ hbody _ ih =>
    have hbody' := hagree.here l rfl
    exact .link (hbody'.trans hbody) (ih (hagree.of_invokes (.link hbody)))
  | @link_unbound l _ hnone =>
    have hnone' := hagree.here l rfl
    exact .link_unbound (hnone'.trans hnone)

/-- Definitions of rules that a run does not come to do not change it. -/
theorem Runs.of_defineAll {σ : Type} [Context σ] {s t : Store} {defs : List (Link × Grammar)} {job : Job} {c c' : σ}
    {o : Outcome Value} {tr : Trace} (h : Runs s.bodies job c o c' tr) (hdefine : s.defineAll defs = .ok t)
    (hbound : Throughout s.bodies (fun job' _ => ∀ l, job' = .unit (.link l) → s.cell l.rule ≠ .unbound) job c) :
    Runs t.bodies job c o c' tr := by
  refine h.of_rules_agree fun job' c₁ before hreach l hl => ?_
  rcases Store.matures_defineAll hdefine l.rule with hsame | ⟨hunbound, -⟩
  · rw [Store.bodies, Store.bodies, hsame]
  · exact absurd hunbound (hbound job' c₁ before hreach l hl)

/-- Definitions of rules that are there and have none are accepted in every order, and every order leads to the same rules, so that
every link and every unit does the same after it: the rules have the bodies that they were offered, and the others are as they were.
So it is in every history, where the bodies are built when the rules are defined. And definitions only add behaviour: a parse that
came to no rule without a body is the same after any further definitions, with all its calls and events. -/
theorem definitions_commute :
    (∀ (s : Store) (defs : List (Link × Grammar)), s.Definable defs →
      ∃ t, (∀ defs', defs'.Perm defs → s.defineAll defs' = .ok t) ∧
        (∀ l, t.isDefined l = true ↔ s.isDefined l = true ∨ ∃ d ∈ defs, d.1.rule = l.rule) ∧
        (∀ l g, (l, g) ∈ defs → t.bodies l.rule = some (.wrap .erased g)) ∧
        ∀ r, (∀ d ∈ defs, d.1.rule ≠ r) → t.bodies r = s.bodies r) ∧
    (∀ (w : Workspace) (defs : List (Workspace.Definition w.vars)), w.Reachable → w.store.Definable (defs.map (·.binding)) →
      ∃ t, w.store.defineAll (defs.map (·.binding)) = .ok t ∧
        ∀ defs', defs'.Perm defs → w.Defines defs' ⟨t, w.vars⟩) ∧
    ∀ (s t : Store) (defs : List (Link × Grammar)), s.defineAll defs = .ok t →
      ∀ (σ : Type) [Context σ] (g : Grammar) (c c' : σ) (o : Outcome Value) (tr : Trace),
        (∃ fuel, (g.eval s.bodies fuel).run c = .ok ⟨o, c', tr⟩) →
        (∀ l c₁ before, Reaches s.bodies (fun _ _ => True) (.unit g) c (.unit (.link l)) c₁ before → s.cell l.rule ≠ .unbound) →
        ∃ fuel, (g.eval t.bodies fuel).run c = .ok ⟨o, c', tr⟩ := by
  refine ⟨fun s defs hdefs => ?_, fun w defs hw hdefs => ?_, fun s t defs hdefine σ _ g c c' o tr heval hbound => ?_⟩
  · obtain ⟨t, ht⟩ := hdefs.exists_defineAll
    refine ⟨t, fun defs' hperm => Store.defineAll_perm hperm.symm ht, fun l => Store.isDefined_defineAll ht,
      fun l g hmem => ?_, fun r hnot => ?_⟩
    · rw [Store.bodies, Store.cell_defineAll_of_mem ht hmem]
      rfl
    · rw [Store.bodies, Store.bodies, Store.cell_defineAll_of_not_mem ht hnot]
  · obtain ⟨t, ht⟩ := hdefs.exists_defineAll
    exact ⟨t, ht, fun defs' hperm => hw.sound.defines (Store.defineAll_perm (hperm.map _).symm ht)⟩
  · refine runs_iff_eval.1 ((runs_iff_eval.2 heval).of_defineAll hdefine ?_)
    rintro _ c₁ before hreach l rfl
    exact hbound l c₁ before hreach

/-! ### Two rules that refer to one another -/

namespace Workspace

/-- Two rules without bodies, with their owners. -/
def twoRules : Workspace :=
  ⟨⟨#[.unbound, .unbound]⟩, [("b", ⟨1, true⟩), ("a", ⟨0, true⟩)]⟩

theorem twoRules_reachable : twoRules.Reachable := by
  have hfirst : Next empty ⟨⟨#[.unbound]⟩, [("a", ⟨0, true⟩)]⟩ := ⟨.new "a", .done, [], rfl⟩
  have hsecond : Next ⟨⟨#[.unbound]⟩, [("a", ⟨0, true⟩)]⟩ twoRules := ⟨.new "b", .done, [], rfl⟩
  exact .tail (.tail .refl hfirst) hsecond

/-- The letter `x`, or what the other rule matches. -/
def defineA : Definition twoRules.vars where
  var := "a"
  body := .choose (.pop (· == .char 'x')) (.ref "b" false)
  link := ⟨0, true⟩
  unit := .choose (.pop (· == .char 'x')) (.link ⟨1, false⟩)
  lookup_var := rfl
  build_body _ := rfl

/-- The letter `y`, and then what the first rule matches. -/
def defineB : Definition twoRules.vars where
  var := "b"
  body := .seq (.pop (· == .char 'y')) (.ref "a" false) (.done .unexpected)
  link := ⟨1, true⟩
  unit := .seq (.pop (· == .char 'y')) (.link ⟨0, false⟩) (.done .unexpected)
  lookup_var := rfl
  build_body _ := rfl

/-- The rules when only the first has its body. -/
def halfDefined : Store :=
  ⟨#[.bound (.wrap .erased defineA.unit), .unbound]⟩

/-- On `x` the first rule matches its letter, and does not come to the other rule. -/
theorem halfDefined_reaches {job : Job} {s : Text} {before : Trace}
    (h : Reaches halfDefined.bodies (fun _ _ => True) (.unit (.link ⟨0, false⟩)) (Text.ofString "x") job s before) :
    s = Text.ofString "x" ∧ (job = .unit (.link ⟨0, false⟩) ∨ job = .unit (.wrap .erased defineA.unit) ∨ job = .unit defineA.unit ∨
      job = .unit (.pop (· == .char 'x'))) := by
  induction h with
  | here => exact ⟨rfl, .inl rfl⟩
  | invoke _ hinv _ ih =>
    obtain ⟨rfl, rfl | rfl | rfl | rfl⟩ := ih
    · cases hinv with
      | link hbody =>
        cases hbody
        exact ⟨rfl, .inr (.inl rfl)⟩
    · cases hinv
      exact ⟨rfl, .inr (.inr (.inl rfl))⟩
    · cases hinv with
      | choose_first => exact ⟨rfl, .inr (.inr (.inr rfl))⟩
      | choose_second hmissed _ =>
        cases hmissed with
        | pop hmissed => nomatch hmissed
    · nomatch hinv

theorem twoRules_definable : twoRules.store.Definable ([defineA, defineB].map (·.binding)) := by
  refine ⟨by decide, fun d hd => ?_⟩
  rcases List.mem_pair.1 hd with rfl | rfl
  · rfl
  · rfl

/-- The rules may be defined in either order; and what the first rule does on `x` before the second is defined, it does after. -/
theorem twoRules_definitions_commute :
    (∃ t, twoRules.Defines [defineA, defineB] ⟨t, twoRules.vars⟩ ∧ twoRules.Defines [defineB, defineA] ⟨t, twoRules.vars⟩) ∧
    ∃ t tr, halfDefined.defineAll [defineB.binding] = .ok t ∧
      (∃ fuel, ((Grammar.link ⟨0, false⟩).eval halfDefined.bodies fuel).run (Text.ofString "x") =
        .ok ⟨.matched (.char 'x'), ⟨1, []⟩, tr⟩) ∧
      ∃ fuel, ((Grammar.link ⟨0, false⟩).eval t.bodies fuel).run (Text.ofString "x") =
        .ok ⟨.matched (.char 'x'), ⟨1, []⟩, tr⟩ := by
  obtain ⟨-, hhistory, hmore⟩ := definitions_commute
  obtain ⟨t, -, hdefines⟩ := hhistory twoRules [defineA, defineB] twoRules_reachable twoRules_definable
  refine ⟨⟨t, hdefines _ (.refl _), hdefines _ (.swap _ _ _)⟩, ?_⟩
  have hyields : (Grammar.link ⟨0, false⟩).Yields halfDefined.bodies (Text.ofString "x") (.matched (.char 'x')) ⟨1, []⟩ :=
    Grammar.yields_of_run 10 (by decide +kernel)
  obtain ⟨fuel, tr, heval⟩ := hyields
  refine ⟨_, tr, rfl, ⟨fuel, heval⟩, ?_⟩
  refine hmore halfDefined _ [defineB.binding] rfl _ _ _ _ _ _ ⟨fuel, heval⟩ fun l c₁ before hreach => ?_
  obtain ⟨-, hl | hl | hl | hl⟩ := halfDefined_reaches hreach
  · cases hl
    nofun
  · nomatch hl
  · nomatch hl
  · nomatch hl

end Workspace

end Backtrack
