import Backtrack.Proofs.Parts
import Backtrack.Proofs.Rewinds

/-!
# The leaves of a value

A grammar can be read as a rule for building values out of items, with no regard to the order in which alternatives are tried or
to what is committed: `Grammar.Spells`. Whatever a parse tries and gives up on its way, the value of a match is built out of exactly
the items that are gone from the context. In a grammar that only puts values together these items are the leaves of the value.
-/

namespace Backtrack

namespace Value

/-- Whether the value is neither a list nor a pair nor an option, so that it cannot be put together from others. -/
def isAtom : Value → Bool
  | .list _ | .pair _ _ | .opt _ => false
  | .int _ | .char _ | .str _ | .bool _ | .tag _ _ => true

mutual

/-- The parts of a value that are not put together, from left to right. -/
def leaves : Value → List Value
  | .list items => leavesList items
  | .pair a b => leaves a ++ leaves b
  | .opt content => leavesOption content
  | .int n => [.int n]
  | .char c => [.char c]
  | .str text => [.str text]
  | .bool b => [.bool b]
  | .tag name content => [.tag name content]

/-- The leaves of the values of a list, one after another. -/
def leavesList : List Value → List Value
  | [] => []
  | v :: vs => leaves v ++ leavesList vs

/-- The leaves of an option's content, if it has one. -/
def leavesOption : Option Value → List Value
  | none => []
  | some v => leaves v

end

/-- A value that is not put together is its own leaf. -/
theorem leaves_of_isAtom {v : Value} (h : v.isAtom = true) : v.leaves = [v] := by
  cases v with
  | list | pair | opt => nomatch h
  | int | char | str | bool | tag => simp only [leaves]

end Value

/-! ## What a unit builds -/

/-- `g.Spells rules v items`: the unit can build the value `v` out of the items. What the actions of the grammar author's own make
of the items that they take is left open. -/
inductive Grammar.Spells (rules : Rules) : Grammar → Value → List Value → Prop where
  | pop {pred : Value → Bool} {v : Value} : pred v = true → Spells rules (.pop pred) v [v]
  | apply {f : Action (Outcome Value)} {v : Value} {items : List Value} : Spells rules (.apply f) v items
  | seq {a b : Grammar} {onMissing : Action Failure} {v w : Value} {xs ys : List Value} :
      Spells rules a v xs → Spells rules b w ys → Spells rules (.seq a b onMissing) (.pair v w) (xs ++ ys)
  | bind {a : Grammar} {next : Value → Grammar} {held : List RuleId} {v w : Value} {xs ys : List Value} :
      Spells rules a v xs → Spells rules (next v) w ys → Spells rules (.bind a next held) w (xs ++ ys)
  | choose_first {a b : Grammar} {v : Value} {items : List Value} :
      Spells rules a v items → Spells rules (.choose a b) v items
  | choose_second {a b : Grammar} {v : Value} {items : List Value} :
      Spells rules b v items → Spells rules (.choose a b) v items
  | oneOf {g : Grammar} {gs : List Grammar} {v : Value} {items : List Value} :
      g ∈ gs → Spells rules g v items → Spells rules (.oneOf gs) v items
  | rescue_primary {a b : Grammar} {v : Value} {items : List Value} :
      Spells rules a v items → Spells rules (.rescue a b) v items
  | rescue_fallback {a b : Grammar} {v : Value} {items : List Value} :
      Spells rules b v items → Spells rules (.rescue a b) v items
  | maybe_present {a : Grammar} {v : Value} {items : List Value} :
      Spells rules a v items → Spells rules (.maybe a) (.opt (some v)) items
  | maybe_absent {a : Grammar} : Spells rules (.maybe a) (.opt none) []
  | maybeThen {a b : Grammar} {onMissing : Action Failure} {v w : Value} {xs ys : List Value} :
      Spells rules (.maybe a) v xs → Spells rules b w ys → Spells rules (.maybeThen a b onMissing) (.pair v w) (xs ++ ys)
  | zeroOrMany_none {a : Grammar} : Spells rules (.zeroOrMany a) (.list []) []
  | zeroOrMany_more {a : Grammar} {v : Value} {vs : List Value} {xs ys : List Value} :
      Spells rules a v xs → Spells rules (.zeroOrMany a) (.list vs) ys →
      Spells rules (.zeroOrMany a) (.list (v :: vs)) (xs ++ ys)
  | oneOrMany {a : Grammar} {v : Value} {vs : List Value} {items : List Value} :
      Spells rules (.zeroOrMany a) (.list (v :: vs)) items → Spells rules (.oneOrMany a) (.list (v :: vs)) items
  | map {f : Value → Value} {a : Grammar} {v : Value} {items : List Value} :
      Spells rules a v items → Spells rules (.map f a) (f v) items
  | transform {f : Value → Action (Except Failure Value)} {a : Grammar} {v w : Value} {xs ys : List Value} :
      Spells rules a v xs → Spells rules (.transform f a) w (xs ++ ys)
  | wrap {how : Wrapper} {a : Grammar} {v : Value} {items : List Value} :
      Spells rules a v items → Spells rules (.wrap how a) v items
  | link {l : Link} {body : Grammar} {v : Value} {items : List Value} :
      rules l.rule = some body → Spells rules body v items → Spells rules (.link l) v items

/-- The same of a job: one of its candidates builds the value, or its turns do. -/
def Job.Spells (rules : Rules) : Job → Value → List Value → Prop
  | .unit g, v, items => g.Spells rules v items
  | .candidates _ gs, v, items => ∃ g ∈ gs, g.Spells rules v items
  | .turns a, v, items => (Grammar.zeroOrMany a).Spells rules v items

section

variable {σ : Type} [Context σ]

/-- The job can build the value out of the items that stand in the context `s` before what is left in `t`. -/
def Job.Builds (rules : Rules) (job : Job) (v : Value) (s t : σ) : Prop :=
  ∃ items, job.Spells rules v items ∧ items ++ Context.remaining t = Context.remaining s

namespace Job.Builds

variable {rules : Rules} {job job' job'' : Job} {v v' v'' : Value} {s t u : σ}

/-- Out of no items. -/
theorem none (h : job.Spells rules v []) : job.Builds rules v s s :=
  ⟨[], h, rfl⟩

/-- Out of the items that another job builds a value out of. -/
theorem imp (h : job.Builds rules v s t) (hspells : ∀ items, job.Spells rules v items → job'.Spells rules v' items) :
    job'.Builds rules v' s t := by
  obtain ⟨items, hitems, htaken⟩ := h
  exact ⟨items, hspells items hitems, htaken⟩

/-- Out of the items of two jobs, one after the other. -/
theorem both (h : job.Builds rules v s t) (h' : job'.Builds rules v' t u)
    (hspells : ∀ xs ys, job.Spells rules v xs → job'.Spells rules v' ys → job''.Spells rules v'' (xs ++ ys)) :
    job''.Builds rules v'' s u := by
  obtain ⟨xs, hv, hxs⟩ := h
  obtain ⟨ys, hv', hys⟩ := h'
  exact ⟨xs ++ ys, hspells xs ys hv hv', by rw [List.append_assoc, hys, hxs]⟩

end Job.Builds

/-- The value of a match is built out of the items that are gone from the context, in their order. -/
theorem Runs.builds [LawfulContext σ] {rules : Rules} {job : Job} {s t : σ} {o : Outcome Value} {tr : Trace}
    (h : Runs rules job s o t tr) {v : Value} (ho : o = .matched v) : job.Builds rules v s t := by
  induction h generalizing v with
  | pop h =>
    rcases Parser.run_pop_cases h with ⟨w, vs, hs, hw, rfl, rfl⟩ | ⟨_, rfl, _⟩
    · cases ho
      refine ⟨[v], .pop hw, ?_⟩
      rw [LawfulContext.remaining_popFront, hs]
      rfl
    · nomatch ho
  | apply h =>
    obtain ⟨items, hitems⟩ := (Action.descends h).remaining_suffix
    exact ⟨items, .apply, hitems⟩
  | seq_match _ _ ih₁ ih₂ =>
    cases ho
    exact (ih₁ rfl).both (ih₂ rfl) fun _ _ => .seq
  | bind_go _ _ _ ih₁ ih₂ => exact (ih₁ rfl).both (ih₂ ho) fun _ _ => .bind
  | choose_first _ _ ih => exact (ih ho).imp fun _ => .choose_first
  | choose_second h₁ hr _ _ ih =>
    obtain rfl := LawfulContext.eq_of_restore h₁.descends hr
    exact (ih ho).imp fun _ => .choose_second
  | oneOf _ ih => exact (ih ho).imp fun _ ⟨_, hg, hspells⟩ => .oneOf hg hspells
  | candidates_here _ _ ih => exact (ih ho).imp fun _ hg => ⟨_, List.mem_cons_self, hg⟩
  | candidates_next h₁ hr _ _ ih =>
    obtain rfl := LawfulContext.eq_of_restore h₁.descends hr
    exact (ih ho).imp fun _ ⟨g, hg, hspells⟩ => ⟨g, List.mem_cons_of_mem _ hg, hspells⟩
  | rescue_primary _ ih => exact (ih ho).imp fun _ => .rescue_primary
  | rescue_missed h₁ hr _ _ ih | rescue_recover h₁ hr _ _ ih =>
    obtain rfl := LawfulContext.eq_of_restore h₁.descends hr
    exact (ih ho).imp fun _ => .rescue_fallback
  | maybe_present _ ih =>
    cases ho
    exact (ih rfl).imp fun _ => .maybe_present
  | maybe_absent h₁ hr =>
    cases ho
    obtain rfl := LawfulContext.eq_of_restore h₁.descends hr
    exact .none .maybe_absent
  | maybeThen_match _ _ ih₁ ih₂ =>
    cases ho
    exact (ih₁ rfl).both (ih₂ rfl) fun _ _ => .maybeThen
  | turns_stop h₁ hr =>
    cases ho
    obtain rfl := LawfulContext.eq_of_restore h₁.descends hr
    exact .none .zeroOrMany_none
  | turns_more _ _ ih₁ ih₂ =>
    cases ho
    exact (ih₁ rfl).both (ih₂ rfl) fun _ _ => .zeroOrMany_more
  | oneOrMany_some _ ih =>
    cases ho
    exact (ih rfl).imp fun _ => .oneOrMany
  | zeroOrMany_some _ ih => exact (ih ho).imp fun _ => id
  | map_match _ ih =>
    cases ho
    exact (ih rfl).imp fun _ => .map
  | transform_match _ hf ih =>
    obtain ⟨xs, ha, hxs⟩ := ih rfl
    obtain ⟨ys, hys⟩ := (Action.descends hf).remaining_suffix
    exact ⟨xs ++ ys, .transform ha, by rw [List.append_assoc, hys, hxs]⟩
  | wrap _ ih => exact (ih ho).imp fun _ => .wrap
  | link hbody _ ih => exact (ih ho).imp fun _ => .link hbody
  | seq_stop _ hmatch | bind_stop _ hmatch | map_stop _ hmatch | transform_stop _ hmatch =>
    subst ho
    nomatch hmatch
  | _ => nomatch ho

end

/-! ## Grammars that only put values together -/

/-- The unit only puts the values of its parts together, as pairs, lists and options. Where a value selects the next unit, the
value of that one is put behind it. -/
inductive Grammar.Plain : Grammar → Prop where
  | pop (pred : Value → Bool) : Plain (.pop pred)
  | seq {a b : Grammar} (onMissing : Action Failure) : Plain a → Plain b → Plain (.seq a b onMissing)
  | bind {a : Grammar} {unit : Value → Grammar} (held : List RuleId) :
      Plain a → (∀ v, Plain (unit v)) → Plain (.bind a (fun v => .map (.pair v) (unit v)) held)
  | choose {a b : Grammar} : Plain a → Plain b → Plain (.choose a b)
  | oneOf {gs : List Grammar} : (∀ g ∈ gs, Plain g) → Plain (.oneOf gs)
  | rescue {a b : Grammar} : Plain a → Plain b → Plain (.rescue a b)
  | maybe {a : Grammar} : Plain a → Plain (.maybe a)
  | maybeThen {a b : Grammar} (onMissing : Action Failure) : Plain a → Plain b → Plain (.maybeThen a b onMissing)
  | oneOrMany {a : Grammar} : Plain a → Plain (.oneOrMany a)
  | zeroOrMany {a : Grammar} : Plain a → Plain (.zeroOrMany a)
  | wrap {a : Grammar} (how : Wrapper) : Plain a → Plain (.wrap how a)
  | link (l : Link) : Plain (.link l)

/-- The rules that the grammar comes to have plain bodies. -/
def Grammar.PlainRules (rules : Rules) (g : Grammar) : Prop :=
  ∀ l body, g.Part rules (.link l) → rules l.rule = some body → body.Plain

namespace Grammar

variable {rules : Rules} {a g h : Grammar}

theorem PlainRules.of_child (hg : g.PlainRules rules) (hgh : g.Child rules h) : h.PlainRules rules :=
  fun l body hl => hg l body (.of_child hgh hl)

/-- A unit other than a link comes to the rules that its parts come to. -/
theorem PlainRules.of_children (hlink : ∀ l, g ≠ .link l) (hparts : ∀ h, g.Child rules h → h.PlainRules rules) :
    g.PlainRules rules := by
  intro l body hl
  rcases Relation.ReflTransGen.cases_head hl with heq | ⟨h, hchild, hl⟩
  · exact absurd heq (hlink l)
  · exact hparts h hchild l body hl

/-- As an option a unit comes to the same rules. -/
theorem PlainRules.maybe (ha : a.PlainRules rules) : (Grammar.maybe a).PlainRules rules :=
  .of_children (fun _ => nofun) fun _ hchild => by cases hchild; exact ha

/-- As a repetition a unit comes to the same rules. -/
theorem PlainRules.zeroOrMany (ha : a.PlainRules rules) : (Grammar.zeroOrMany a).PlainRules rules :=
  .of_children (fun _ => nofun) fun _ hchild => by cases hchild; exact ha

/-- The items that a plain unit builds a value out of are its leaves, and those of a unit that only puts a value in front of what a
plain unit builds are the leaves behind that value. -/
theorem Spells.eq_leaves {v : Value} {items : List Value} (h : g.Spells rules v items) (hrules : g.PlainRules rules)
    (hatoms : ∀ x ∈ items, x.isAtom = true) :
    (g.Plain → items = v.leaves) ∧
      ∀ x a, g = .map (.pair x) a → a.Plain → ∃ w, v = .pair x w ∧ items = w.leaves := by
  induction h with
  | pop =>
    refine ⟨fun _ => ?_, nofun⟩
    rw [Value.leaves_of_isAtom (hatoms _ List.mem_cons_self)]
  | apply | transform => exact ⟨nofun, nofun⟩
  | seq _ _ ih₁ ih₂ =>
    refine ⟨fun hplain => ?_, nofun⟩
    cases hplain with
    | seq _ ha hb =>
      obtain ⟨hxs, hys⟩ := List.forall_mem_append.1 hatoms
      rw [(ih₁ (hrules.of_child .seq_head) hxs).1 ha, (ih₂ (hrules.of_child .seq_tail) hys).1 hb, Value.leaves]
  | bind _ _ ih₁ ih₂ =>
    refine ⟨fun hplain => ?_, nofun⟩
    cases hplain with
    | bind _ ha hunit =>
      obtain ⟨hxs, hys⟩ := List.forall_mem_append.1 hatoms
      obtain ⟨w, rfl, hw⟩ := (ih₂ (hrules.of_child (.bind_next _)) hys).2 _ _ rfl (hunit _)
      rw [(ih₁ (hrules.of_child .bind_base) hxs).1 ha, hw, Value.leaves]
  | choose_first _ ih =>
    refine ⟨fun hplain => ?_, nofun⟩
    cases hplain with
    | choose ha hb => exact (ih (hrules.of_child .choose_first) hatoms).1 ha
  | choose_second _ ih =>
    refine ⟨fun hplain => ?_, nofun⟩
    cases hplain with
    | choose ha hb => exact (ih (hrules.of_child .choose_second) hatoms).1 hb
  | oneOf hg _ ih =>
    refine ⟨fun hplain => ?_, nofun⟩
    cases hplain with
    | oneOf hgs => exact (ih (hrules.of_child (.candidate hg)) hatoms).1 (hgs _ hg)
  | rescue_primary _ ih =>
    refine ⟨fun hplain => ?_, nofun⟩
    cases hplain with
    | rescue ha hb => exact (ih (hrules.of_child .rescue_primary) hatoms).1 ha
  | rescue_fallback _ ih =>
    refine ⟨fun hplain => ?_, nofun⟩
    cases hplain with
    | rescue ha hb => exact (ih (hrules.of_child .rescue_fallback) hatoms).1 hb
  | maybe_present _ ih =>
    refine ⟨fun hplain => ?_, nofun⟩
    cases hplain with
    | maybe ha => simp only [(ih (hrules.of_child .maybe) hatoms).1 ha, Value.leaves, Value.leavesOption]
  | maybe_absent => exact ⟨fun _ => rfl, nofun⟩
  | maybeThen _ _ ih₁ ih₂ =>
    refine ⟨fun hplain => ?_, nofun⟩
    cases hplain with
    | maybeThen _ ha hb =>
      obtain ⟨hxs, hys⟩ := List.forall_mem_append.1 hatoms
      rw [(ih₁ (hrules.of_child .maybeThen_before).maybe hxs).1 (.maybe ha),
        (ih₂ (hrules.of_child .maybeThen_next) hys).1 hb, Value.leaves]
  | zeroOrMany_none => exact ⟨fun _ => rfl, nofun⟩
  | zeroOrMany_more _ _ ih₁ ih₂ =>
    refine ⟨fun hplain => ?_, nofun⟩
    cases hplain with
    | zeroOrMany ha =>
      obtain ⟨hxs, hys⟩ := List.forall_mem_append.1 hatoms
      rw [(ih₁ (hrules.of_child .zeroOrMany) hxs).1 ha, (ih₂ hrules hys).1 (.zeroOrMany ha)]
      simp only [Value.leaves, Value.leavesList]
  | oneOrMany _ ih =>
    refine ⟨fun hplain => ?_, nofun⟩
    cases hplain with
    | oneOrMany ha => exact (ih (hrules.of_child .oneOrMany).zeroOrMany hatoms).1 (.zeroOrMany ha)
  | map _ ih =>
    refine ⟨nofun, fun x a hmap hplain => ?_⟩
    cases hmap
    exact ⟨_, rfl, (ih (hrules.of_child .map) hatoms).1 hplain⟩
  | wrap _ ih =>
    refine ⟨fun hplain => ?_, nofun⟩
    cases hplain with
    | wrap _ ha => exact (ih (hrules.of_child .wrap) hatoms).1 ha
  | link hbody _ ih =>
    exact ⟨fun _ => (ih (hrules.of_child (.link hbody)) hatoms).1 (hrules _ _ .refl hbody), nofun⟩

end Grammar

/-- Let a grammar and the rules that it comes to only put values together, and let a parse with it match, whatever it tried and
gave back before. Then the value is built by the grammar out of some items, and these, followed by the items of the context that is
left, are the items of the context at the start. If these are themselves not put together, as characters are not, then they are
the leaves of the value. -/
theorem match_keeps_items {σ : Type} [Context σ] [LawfulContext σ] {rules : Rules} {g : Grammar} (hg : g.Plain)
    (hrules : ∀ l body, g.Part rules (.link l) → rules l.rule = some body → body.Plain) {s t : σ} {v : Value}
    (h : g.Yields rules s (.matched v) t) :
    (∃ items, g.Spells rules v items ∧ items ++ Context.remaining t = Context.remaining s) ∧
      ((∀ x ∈ Context.remaining s, x.isAtom = true) → v.leaves ++ Context.remaining t = Context.remaining s) := by
  obtain ⟨tr, hrun⟩ := Grammar.yields_iff_runs.1 h
  obtain ⟨items, hspells, hitems⟩ := hrun.builds rfl
  refine ⟨⟨items, hspells, hitems⟩, fun hatoms => ?_⟩
  rw [← hitems] at hatoms ⊢
  rw [(hspells.eq_leaves hrules (List.forall_mem_append.1 hatoms).1).1 hg]

/-! ### Brackets around letters -/

/-- Brackets around the same again, or else any number of letters. -/
def enclosedRules : Rules
  | 0 => some (.choose (.bind (.pop (· == .char '(')) (fun v => .map (.pair v) (.seq (.link ⟨0, false⟩) (.pop (· == .char ')'))
      (.done .unexpected))) []) (.zeroOrMany (.pop fun v => v == .char 'a' || v == .char 'b')))
  | _ => none

/-- Enclosed letters, with a mark behind them or without. -/
def markedOrNot : Grammar :=
  .rescue (.seq (.link ⟨0, true⟩) (.pop (· == .char '!')) (.done .unexpected)) (.link ⟨0, true⟩)

/-- In `((ab))c` the mark is missing; the letters are given back and taken again, and of the value, followed by the rest, the whole
text can be read. -/
theorem markedOrNot_keeps_items :
    ∃ v, markedOrNot.Yields enclosedRules (Text.ofString "((ab))c") (.matched v) ⟨6, ['c']⟩ ∧
      v.leaves ++ [.char 'c'] = "((ab))c".toList.map .char := by
  have hplain : markedOrNot.Plain := .rescue (.seq _ (.link _) (.pop _)) (.link _)
  have hrules : ∀ l body, markedOrNot.Part enclosedRules (.link l) → enclosedRules l.rule = some body → body.Plain := by
    rintro ⟨id, owner⟩ body - hbody
    cases id with
    | zero =>
      cases hbody
      exact .choose (.bind _ (.pop _) fun _ => .seq _ (.link _) (.pop _)) (.zeroOrMany (.pop _))
    | succ id => nomatch hbody
  have h : markedOrNot.Yields enclosedRules (Text.ofString "((ab))c") (.matched (.pair (.char '(') (.pair (.pair (.char '(')
      (.pair (.list [.char 'a', .char 'b']) (.char ')'))) (.char ')')))) ⟨6, ['c']⟩ :=
    Grammar.yields_of_run 20 (by decide +kernel)
  exact ⟨_, h, (match_keeps_items hplain hrules h).2 (by decide)⟩

end Backtrack
