import Backtrack.Proofs.Building
import Mathlib.Logic.Relation

/-!
# Histories of rules

What a step of a history can do to a workspace, and what every history therefore keeps: exactly the rules that have an owner are
alive, a rule is given a body at most once and dropped at most once, and rules that own one another are there for good.
-/

namespace Backtrack

/-- The cell is as it was, or it was given its body. -/
def Cell.Matures (c c' : Cell) : Prop :=
  c' = c ∨ c = .unbound ∧ ∃ body, c' = .bound body

/-- The cell is as it was, or it was given its body, or it was dropped. -/
def Cell.Becomes (c c' : Cell) : Prop :=
  c.Matures c' ∨ c' = .dropped

namespace Cell

variable {c c' c'' : Cell}

theorem mem_owned {r : RuleId} : r ∈ c.owned ↔ ∃ body, c = .bound body ∧ r ∈ body.owned := by
  unfold owned
  cases c <;> simp

theorem Matures.refl (c : Cell) : c.Matures c :=
  .inl rfl

theorem Matures.trans (h : c.Matures c') (h' : c'.Matures c'') : c.Matures c'' := by
  rcases h with rfl | ⟨rfl, body, rfl⟩
  · exact h'
  · rcases h' with rfl | ⟨h, -⟩
    · exact .inr ⟨rfl, body, rfl⟩
    · nomatch h

/-- A body stays. -/
theorem Matures.bound {body : Grammar} (h : c.Matures c') (hc : c = .bound body) : c' = .bound body := by
  rcases h with rfl | ⟨rfl, -⟩
  · exact hc
  · nomatch hc

/-- A cell that is not dropped is not dropped by being given a body. -/
theorem Matures.ne_dropped (h : c.Matures c') (hc : c ≠ .dropped) : c' ≠ .dropped := by
  rcases h with rfl | ⟨rfl, body, rfl⟩
  · exact hc
  · nofun

/-- A cell that owns a rule has its body already. -/
theorem Matures.mem_owned (h : c.Matures c') {r : RuleId} (hr : r ∈ c.owned) : r ∈ c'.owned := by
  obtain ⟨body, hc, hmem⟩ := Cell.mem_owned.1 hr
  exact Cell.mem_owned.2 ⟨body, h.bound hc, hmem⟩

theorem Becomes.trans (h : c.Becomes c') (h' : c'.Becomes c'') : c.Becomes c'' := by
  rcases h' with h' | rfl
  · rcases h with h | rfl
    · exact .inl (h.trans h')
    · rcases h' with rfl | ⟨h, -⟩
      · exact .inr rfl
      · nomatch h
  · exact .inr rfl

end Cell

namespace Store

variable {s t u : Store}

/-- Rules were added, and some that were there were given bodies. -/
structure Grows (s t : Store) : Prop where
  size_le : s.cells.size ≤ t.cells.size
  cell : ∀ r, r < s.cells.size → (s.cell r).Matures (t.cell r)

/-- Adding rules gives no body to those that are there. -/
theorem Extends.grows (h : s.Extends t) : s.Grows t :=
  ⟨h.size_le, fun r hr => .inl (h.cell_eq r hr)⟩

/-- A rule that has none is given its body. -/
theorem Extends.grows_put {l : Link} (h : s.Extends t) (hl : t.cell l.rule = .unbound) (body : Grammar) :
    s.Grows (t.put l.rule (.bound body)) := by
  refine ⟨by rw [size_put]; exact h.size_le, fun r hr => ?_⟩
  by_cases heq : r = l.rule
  · subst heq
    rw [h.cell_eq _ hr] at hl
    rw [cell_put_self (Nat.lt_of_lt_of_le hr h.size_le)]
    exact .inr ⟨hl, body, rfl⟩
  · rw [cell_put_of_ne t _ heq]
    exact .inl (h.cell_eq r hr)

end Store

theorem bind_eq_ok {ε α β : Type} {x : Except ε α} {f : α → Except ε β} {b : β} :
    x >>= f = .ok b ↔ ∃ a, x = .ok a ∧ f a = .ok b := by
  cases x with
  | error e => exact ⟨nofun, fun ⟨_, h, _⟩ => nomatch h⟩
  | ok a => exact ⟨fun h => ⟨a, rfl, h⟩, fun ⟨_, rfl, h⟩ => h⟩

namespace Workspace

variable {w w' : Workspace} {r : RuleId}

/-! ## Variables -/

/-- The variables hold what some link among them owns. -/
theorem mem_held {vars : Scope} : r ∈ held vars ↔ ∃ x l, (x, l) ∈ vars ∧ r ∈ l.owned := by
  simp [held]

/-- Letting go of a variable leaves no more held than before. -/
theorem held_release {vars : Scope} {x : String} (h : r ∈ held (release vars x)) : r ∈ held vars := by
  obtain ⟨y, l, hmem, hr⟩ := mem_held.1 h
  exact mem_held.2 ⟨y, l, List.mem_of_mem_filter hmem, hr⟩

/-- Assigning a variable adds what the new link owns. -/
theorem held_assign {vars : Scope} {x : String} {l : Link} (h : r ∈ held (assign vars x l)) : r ∈ held vars ∨ r ∈ l.owned := by
  obtain ⟨y, l', hmem, hr⟩ := mem_held.1 h
  rcases List.mem_cons.1 hmem with heq | hmem
  · cases heq
    exact .inr hr
  · exact .inl (held_release (mem_held.2 ⟨y, l', hmem, hr⟩))

/-- A handle owns nothing, so assigning it adds nothing. -/
theorem held_assign_handle {vars : Scope} {x : String} {l : Link} (h : r ∈ held (assign vars x l.handle)) : r ∈ held vars := by
  rcases held_assign h with h | h
  · exact h
  · nomatch h

theorem get_eq_ok {x : String} {l : Link} : w.get x = .ok l ↔ w.vars.lookup x = some l := by
  unfold get
  cases w.vars.lookup x <;> simp

theorem build_eq_ok {α : Type} {b : Builder α} {p : α × Store} : w.build b = .ok p ↔ b.run w.store = .ok p := by
  unfold build
  cases b.run w.store <;> simp

/-! ## Declarations -/

section Declarations

variable {vars : Scope} {x : String} {body e : Blueprint} {early : Option Blueprint} {s t u : Store} {g g' : Grammar}

/-- A declaration has added its rule, with this body, and changed none of the rules that were there. -/
structure Declared (vars : Scope) (s : Store) (body : Grammar) (t : Store) : Prop where
  extended : s.Extends t
  cell : t.cell s.fresh.1.rule = .bound (.wrap .erased body)
  /-- What a refused body owned is still held. -/
  kept : ∃ refused, t.Kept (held vars ++ [s.fresh.1.rule] ++ refused)

/-- The rule itself is among those that were added. -/
theorem Declared.size_le (h : Declared vars s g t) : s.fresh.2.cells.size ≤ t.cells.size := by
  have hlt : s.fresh.1.rule < t.cells.size := Store.lt_size_of_cell_ne (by rw [h.cell]; nofun)
  rw [Store.fresh, Store.add, Array.size_push]
  exact hlt

/-- A unit that is built while a rule is being declared. -/
theorem build_declared {before : Store} (h : (body.build (assign vars x s.fresh.1.handle)).run before = .ok (g, t))
    (hbefore : before.Kept (held vars ++ [s.fresh.1.rule])) :
    before.Extends t ∧ t.Kept (held vars ++ [s.fresh.1.rule] ++ g.owned) := by
  have hmoves : Builder.Moves vars (body.build (assign vars x s.fresh.1.handle)) [] Grammar.owned :=
    (Blueprint.moves_build _ body).of_scope fun _ hr => held_assign_handle hr
  refine hmoves _ _ _ _ (fun r hr => List.mem_append_left _ hr) ?_ h
  rwa [List.append_nil]

/-- A new rule is kept by its first owner. -/
theorem kept_fresh (hs : s.Kept (held vars)) : s.fresh.2.Kept (held vars ++ [s.fresh.1.rule]) := by
  refine Store.Kept.add ?_ nofun
  rwa [Cell.owned, List.append_nil]

/-- The first body that is built for the rule becomes its own. -/
theorem declared_put (hs : s.Kept (held vars)) (h : (body.build (assign vars x s.fresh.1.handle)).run s.fresh.2 = .ok (g, t)) :
    t.cell s.fresh.1.rule = .unbound ∧ s.Extends (t.put s.fresh.1.rule (.bound (.wrap .erased g))) ∧
      (t.put s.fresh.1.rule (.bound (.wrap .erased g))).cell s.fresh.1.rule = .bound (.wrap .erased g) ∧
      (t.put s.fresh.1.rule (.bound (.wrap .erased g))).Kept (held vars ++ [s.fresh.1.rule]) := by
  obtain ⟨hext, hkept⟩ := build_declared h (kept_fresh hs)
  have hunbound : t.cell s.fresh.1.rule = .unbound := Builder.cell_fresh hext
  have hlt : s.fresh.1.rule < t.cells.size := Store.lt_size_of_cell_ne (by rw [hunbound]; nofun)
  refine ⟨hunbound, ((Store.Extends.add s .unbound).trans hext).put (Nat.le_refl _) _, Store.cell_put_self hlt _, ?_⟩
  refine Store.Kept.bind ?_ nofun hunbound
  rwa [Store.owned_bound_wrap]

/-- Without an early definition the rule gets the body that is built. -/
theorem declare_plain (hs : s.Kept (held vars)) (hbody : (body.build (assign vars x s.fresh.1.handle)).run s.fresh.2 = .ok (g, t)) :
    ∃ u, (Builder.declare (declaredBody vars x body none)).run s = .ok ((none, s.fresh.1, []), u) ∧ Declared vars s g u := by
  obtain ⟨-, hext, hcell, hkept⟩ := declared_put hs hbody
  refine ⟨_, Builder.run_declare_of_extends ?_ (build_declared hbody (kept_fresh hs)).1, hext, hcell, [], by rwa [List.append_nil]⟩
  exact Builder.run_bind_eq_ok.2 ⟨none, _, rfl, Builder.run_bind_eq_ok.2 ⟨g, t, hbody, rfl⟩⟩

theorem mapM_some (f : Blueprint → Builder (Except BindError Unit)) (e : Blueprint) :
    (some e).mapM f = do return some (← f e) :=
  rfl

/-- After an early definition that one stays, and the body that is built is refused. -/
theorem declare_early (hs : s.Kept (held vars)) (hearly : (e.build (assign vars x s.fresh.1.handle)).run s.fresh.2 = .ok (g, t))
    (hbody : (body.build (assign vars x s.fresh.1.handle)).run (t.put s.fresh.1.rule (.bound (.wrap .erased g))) = .ok (g', u)) :
    (Builder.declare (declaredBody vars x body (some e))).run s =
        .ok ((some (.ok ()), s.fresh.1, [.definedWhileDeclared]), u) ∧
      Declared vars s g u := by
  obtain ⟨hunbound, hext, hcell, hkept⟩ := declared_put hs hearly
  obtain ⟨hext', hkept'⟩ := build_declared hbody hkept
  have hbound : u.cell s.fresh.1.rule = .bound (.wrap .erased g) := by
    rw [hext'.cell_eq _ (Store.lt_size_of_cell_ne (by rw [hcell]; nofun)), hcell]
  have hdefine : t.define s.fresh.1.handle g = .ok (t.put s.fresh.1.rule (.bound (.wrap .erased g))) :=
    Store.define_eq_ok_iff.2 ⟨hunbound, rfl⟩
  have hrefused : u.define s.fresh.1 g' = .error .alreadyDefined := by
    rw [Store.define, hbound]
  have hrun : (declaredBody vars x body (some e) s.fresh.1.handle).run s.fresh.2 = .ok ((some (.ok ()), g'), u) := by
    refine Builder.run_bind_eq_ok.2 ⟨some (.ok ()), _, ?_, Builder.run_bind_eq_ok.2 ⟨g', u, hbody, rfl⟩⟩
    rw [mapM_some]
    refine Builder.run_bind_eq_ok.2 ⟨.ok (), _, Builder.run_bind_eq_ok.2 ⟨g, t, hearly, ?_⟩, rfl⟩
    rw [Builder.run_define, hdefine]
  refine ⟨?_, hext.trans hext', hbound, g'.owned, hkept'⟩
  rw [Builder.run_declare, hrun]
  simp only [hrefused]

/-- A declaration that goes through has built all that it was to build. -/
theorem declare_cases {p : Option (Except BindError Unit) × Link × List Event} (hs : s.Kept (held vars))
    (h : (Builder.declare (declaredBody vars x body early)).run s = .ok (p, u)) :
    (early = none ∧ ∃ g t, (body.build (assign vars x s.fresh.1.handle)).run s.fresh.2 = .ok (g, t)) ∨
    ∃ e g t g' u, early = some e ∧ (e.build (assign vars x s.fresh.1.handle)).run s.fresh.2 = .ok (g, t) ∧
      (body.build (assign vars x s.fresh.1.handle)).run (t.put s.fresh.1.rule (.bound (.wrap .erased g))) = .ok (g', u) := by
  rw [Builder.run_declare] at h
  cases hrun : (declaredBody vars x body early s.fresh.1.handle).run s.fresh.2 with
  | error _ =>
    rw [hrun] at h
    nomatch h
  | ok p =>
    obtain ⟨result, s₁, hresult, hrest⟩ := Builder.run_bind_eq_ok.1 hrun
    obtain ⟨g', u', hbody, -⟩ := Builder.run_bind_eq_ok.1 hrest
    cases early with
    | none =>
      cases hresult
      exact .inl ⟨rfl, g', u', hbody⟩
    | some e =>
      rw [mapM_some] at hresult
      obtain ⟨_, s₂, hresult, hs₂⟩ := Builder.run_bind_eq_ok.1 hresult
      cases hs₂
      obtain ⟨g, t, hearly, hdefine⟩ := Builder.run_bind_eq_ok.1 hresult
      have hok : t.define s.fresh.1.handle g = .ok (t.put s.fresh.1.rule (.bound (.wrap .erased g))) :=
        Store.define_eq_ok_iff.2 ⟨(declared_put hs hearly).1, rfl⟩
      rw [Builder.run_define, hok] at hdefine
      cases hdefine
      exact .inr ⟨e, g, t, g', u', rfl, hearly, hbody⟩

end Declarations

/-! ## One step -/

/-- A step leads from one workspace to the other. -/
def Next (w w' : Workspace) : Prop :=
  ∃ step answer events, w.step step = .ok (answer, events, w')

/-- The links in the variables lead to rules of the store, and the rules that they own are among those held. -/
structure Fits (vars : Scope) (s : Store) (before : List RuleId) : Prop where
  held : ∀ r ∈ held vars, r ∈ before
  linked : ∀ x l, (x, l) ∈ vars → l.rule < s.cells.size

namespace Fits

variable {vars : Scope} {s t : Store} {before before' : List RuleId} {x : String} {l : Link}

/-- Variables fit a larger store, and more rules that are held. -/
theorem mono (h : Fits vars s before) (hsize : s.cells.size ≤ t.cells.size) (hbefore : ∀ r ∈ before, r ∈ before') :
    Fits vars t before' :=
  ⟨fun r hr => hbefore r (h.held r hr), fun x l hmem => Nat.lt_of_lt_of_le (h.linked x l hmem) hsize⟩

/-- Variables fit after one of them is let go of. -/
theorem release (h : Fits vars s before) (x : String) : Fits (release vars x) s before :=
  ⟨fun r hr => h.held r (held_release hr), fun y l hmem => h.linked y l (List.mem_of_mem_filter hmem)⟩

/-- Variables fit after one of them is given a link to a rule that is there and held. -/
theorem assign (h : Fits vars s before) (hl : ∀ r ∈ l.owned, r ∈ before) (hlt : l.rule < s.cells.size) (x : String) :
    Fits (assign vars x l) s before := by
  refine ⟨fun r hr => ?_, fun y l' hmem => ?_⟩
  · rcases held_assign hr with hr | hr
    · exact h.held r hr
    · exact hl r hr
  · rcases List.mem_cons.1 hmem with heq | hmem
    · cases heq
      exact hlt
    · exact (h.release x).linked y l' hmem

/-- A variable is given a new rule. -/
theorem assign_added {c : Cell} (h : Fits vars s before) (hsize : (s.add c).2.cells.size ≤ t.cells.size) (x : String) :
    Fits (Workspace.assign vars x (s.add c).1) t (before ++ [(s.add c).1.rule]) := by
  have hlt : (s.add c).1.rule < (s.add c).2.cells.size := by simp [Store.add]
  refine (h.mono (Nat.le_trans (Nat.le_of_lt hlt) hsize) fun r hr => List.mem_append_left _ hr).assign (fun r hr => ?_)
    (Nat.lt_of_lt_of_le hlt hsize) x
  exact List.mem_append_right _ hr

end Fits

/-- Exactly the rules that have an owner are alive, and variables hold only links to rules that were created. -/
structure Sound (w : Workspace) : Prop where
  kept : w.store.Kept (held w.vars)
  linked : ∀ x l, (x, l) ∈ w.vars → l.rule < w.store.cells.size

/-- A link that a variable gives leads to a rule that was created. -/
theorem Sound.linked_of_get {x : String} {l : Link} (hw : w.Sound) (h : w.get x = .ok l) : l.rule < w.store.cells.size := by
  obtain ⟨before, after, hvars, -⟩ := List.lookup_eq_some_iff.1 (get_eq_ok.1 h)
  exact hw.linked x l (by simp [hvars])

/-- The variables of a sound workspace fit its own store. -/
theorem Sound.fits (hw : w.Sound) : Fits w.vars w.store (held w.vars) :=
  ⟨fun _ hr => hr, hw.linked⟩

/-- All that a step can do: leave the workspace as it is, or make rules and give them bodies, and then drop those for which no
owner is left among the new variables. -/
inductive Effect (w : Workspace) : Workspace → Prop
  | idle : Effect w w
  | settles {t : Store} {vars : Scope} {before : List RuleId} : w.store.Grows t → t.Kept before → Fits vars t before →
    Effect w (settle t vars)

/-- A declaration has the effect of a step. -/
theorem Declared.effect {body : Grammar} {t : Store} (h : Declared w.vars w.store body t) (hw : w.Sound) (x : String) :
    w.Effect (settle t (assign w.vars x w.store.fresh.1)) := by
  obtain ⟨refused, hkept⟩ := h.kept
  have hsize : w.store.fresh.2.cells.size ≤ t.cells.size := h.size_le
  have hfits : Fits (assign w.vars x w.store.fresh.1) t (held w.vars ++ [w.store.fresh.1.rule]) := hw.fits.assign_added hsize x
  exact .settles h.extended.grows hkept (hfits.mono (Nat.le_refl _) fun r hr => List.mem_append_left _ hr)

/-- A unit that is built from the variables. -/
theorem Sound.build {body : Blueprint} {g : Grammar} {t : Store} (hw : w.Sound) (h : w.build (body.build w.vars) = .ok (g, t)) :
    w.store.Extends t ∧ t.Kept (held w.vars ++ g.owned) := by
  refine Blueprint.moves_build w.vars body _ _ _ _ (fun _ hr => hr) ?_ (build_eq_ok.1 h)
  rw [List.append_nil]
  exact hw.kept

/-- What a step can do. -/
theorem Next.effect (h : w.Next w') (hw : w.Sound) : w.Effect w' := by
  obtain ⟨step, answer, events, h⟩ := h
  have hself : w.store.Grows w.store := (Store.Extends.refl _).grows
  cases step with
  | new x =>
    cases h
    exact .settles (Store.Extends.add _ _).grows (kept_fresh hw.kept) (hw.fits.assign_added (Nat.le_refl _) x)
  | handle x source =>
    obtain ⟨l, hl, ⟨⟩⟩ := bind_eq_ok.1 h
    have hlt : l.rule < w.store.cells.size := hw.linked_of_get hl
    exact .settles hself hw.kept (hw.fits.assign (l := l.handle) (fun r hr => nomatch hr) hlt x)
  | clone x source =>
    obtain ⟨l, hl, ⟨⟩⟩ := bind_eq_ok.1 h
    have hheld : ∀ r ∈ l.owned, r ∈ held w.vars := fun r hr => Builder.mem_held_of_lookup (get_eq_ok.1 hl) hr
    exact .settles hself hw.kept (hw.fits.assign hheld (hw.linked_of_get hl) x)
  | drop x =>
    cases h
    exact .settles hself hw.kept (hw.fits.release x)
  | define x body =>
    obtain ⟨l, hl, h⟩ := bind_eq_ok.1 h
    obtain ⟨⟨result, u⟩, hrun, ⟨⟩⟩ := bind_eq_ok.1 h
    obtain ⟨g, t, hbuild, hdefine⟩ := Builder.run_bind_eq_ok.1 (build_eq_ok.1 hrun)
    obtain ⟨hext, hkept⟩ := hw.build (build_eq_ok.2 hbuild)
    rw [Builder.run_define] at hdefine
    split at hdefine
    next t' hok =>
      obtain ⟨hunbound, rfl⟩ := Store.define_eq_ok_iff.1 hok
      cases hdefine
      have hgrows := hext.grows_put hunbound (.wrap .erased g)
      refine .settles hgrows (Store.Kept.bind ?_ nofun hunbound) (hw.fits.mono hgrows.size_le fun _ hr => hr)
      rwa [Store.owned_bound_wrap]
    next reason hrefused =>
      cases hdefine
      exact .settles hext.grows hkept (hw.fits.mono hext.size_le fun r hr => List.mem_append_left _ hr)
  | declare x body early =>
    obtain ⟨⟨⟨result, rule, events⟩, u⟩, hrun, ⟨⟩⟩ := bind_eq_ok.1 h
    have hrun := build_eq_ok.1 hrun
    rcases declare_cases hw.kept hrun with ⟨rfl, g, t, hbody⟩ | ⟨e, g, t, g', u', rfl, hearly, hbody⟩
    · obtain ⟨u', heq, hdeclared⟩ := declare_plain hw.kept hbody
      rw [heq] at hrun
      cases hrun
      exact hdeclared.effect hw x
    · obtain ⟨heq, hdeclared⟩ := declare_early hw.kept hearly hbody
      rw [heq] at hrun
      cases hrun
      exact hdeclared.effect hw x
  | running x body =>
    obtain ⟨⟨g, t⟩, hrun, ⟨⟩⟩ := bind_eq_ok.1 h
    obtain ⟨hext, hkept⟩ := hw.build hrun
    refine .settles (hext.trans (.add t _)).grows (Store.Kept.add ?_ nofun)
      ((hw.fits.mono hext.size_le fun _ hr => hr).assign_added (Nat.le_refl _) x)
    rwa [Store.owned_bound_wrap]
  | describe x =>
    obtain ⟨l, hl, ⟨⟩⟩ := bind_eq_ok.1 h
    exact .idle
  | parse x input =>
    obtain ⟨l, hl, h⟩ := bind_eq_ok.1 h
    obtain ⟨r, hr, ⟨⟩⟩ := bind_eq_ok.1 h
    exact .idle
  | once unit input =>
    obtain ⟨⟨g, t⟩, hrun, h⟩ := bind_eq_ok.1 h
    obtain ⟨r, hr, ⟨⟩⟩ := bind_eq_ok.1 h
    obtain ⟨hext, hkept⟩ := hw.build hrun
    exact .settles hext.grows hkept (hw.fits.mono hext.size_le fun r hr => List.mem_append_left _ hr)

/-- A step keeps alive exactly the rules that have an owner after it. -/
theorem Effect.sound (h : w.Effect w') (hw : w.Sound) : w'.Sound := by
  cases h with
  | idle => exact hw
  | settles hgrows hkept hfits =>
    refine ⟨Store.kept_sweep (hkept.backed hfits.held), fun x l hmem => ?_⟩
    rw [settle, Store.size_sweep]
    exact hfits.linked x l hmem

/-- No step takes a rule out of the store. -/
theorem Effect.size_le (h : w.Effect w') : w.store.cells.size ≤ w'.store.cells.size := by
  cases h with
  | idle => exact Nat.le_refl _
  | settles hgrows hkept hfits =>
    rw [settle, Store.size_sweep]
    exact hgrows.size_le

/-- To a rule that is there a step does nothing, or gives it its body, or drops it. -/
theorem Effect.cell (h : w.Effect w') (hr : r < w.store.cells.size) : (w.store.cell r).Becomes (w'.store.cell r) := by
  cases h with
  | idle => exact .inl (.refl _)
  | @settles t vars _ hgrows hkept hfits =>
    rcases Store.cell_sweep t (held vars) r with heq | heq
    · refine .inl ?_
      rw [settle, heq]
      exact hgrows.cell r hr
    · exact .inr heq

/-- Rules of which each is owned by another of them outlive a step. -/
theorem Effect.cell_of_supported {P : RuleId → Prop} (h : w.Effect w') (hw : w.Sound)
    (hP : ∀ r, P r → ∃ q, P q ∧ r ∈ (w.store.cell q).owned) (hr : P r) : (w.store.cell r).Matures (w'.store.cell r) := by
  have hlt : ∀ r, P r → r < w.store.cells.size := by
    intro r hr
    obtain ⟨q, -, hq⟩ := hP r hr
    exact Store.lt_size_of_cell_ne (Store.isAlive_iff.1 ((hw.kept r).2 (.inr ⟨q, hq⟩)))
  cases h with
  | idle => exact .refl _
  | @settles t vars _ hgrows hkept hfits =>
    have hsupported : ∀ r, P r → r ∈ held vars ∨ ∃ q, P q ∧ r ∈ (t.cell q).owned := by
      intro r hr
      obtain ⟨q, hq, hqr⟩ := hP r hr
      exact .inr ⟨q, hq, (hgrows.cell q (hlt q hq)).mem_owned hqr⟩
    rw [settle, Store.cell_sweep_of_supported hsupported hr]
    exact hgrows.cell r (hlt r hr)

/-- Where no variable lets go of a rule, none of the rules that were there goes: they own one another, or variables do, as before. -/
theorem cell_settle {t : Store} {vars : Scope} (hw : w.Sound) (hgrows : w.store.Grows t)
    (hheld : ∀ r ∈ held w.vars, r ∈ held vars) (hr : r < w.store.cells.size) : (settle t vars).store.cell r = t.cell r := by
  by_cases halive : w.store.isAlive r = true
  · have hsupported : ∀ p, w.store.isAlive p = true → p ∈ held vars ∨ ∃ q, w.store.isAlive q = true ∧ p ∈ (t.cell q).owned := by
      intro p hp
      rcases (hw.kept p).1 hp with hp | ⟨q, hq⟩
      · exact .inl (hheld p hp)
      · have hne : w.store.cell q ≠ .dropped := by
          intro heq
          rw [heq] at hq
          nomatch hq
        exact .inr ⟨q, Store.isAlive_iff.2 hne, (hgrows.cell q (Store.lt_size_of_cell_ne hne)).mem_owned hq⟩
    exact Store.cell_sweep_of_supported hsupported halive
  · have hdropped : w.store.cell r = .dropped := by
      by_contra hne
      exact halive (Store.isAlive_iff.2 hne)
    have ht : t.cell r = .dropped := by
      rcases hgrows.cell r hr with heq | ⟨heq, -⟩
      · rw [heq, hdropped]
      · rw [hdropped] at heq
        nomatch heq
    rcases Store.cell_sweep t (held vars) r with heq | heq
    · exact heq
    · rw [ht]
      exact heq

/-! ## Owners -/

/-- A variable holds an owner of the rule. -/
def HeldByVar (w : Workspace) (r : RuleId) : Prop :=
  ∃ x l, (x, l) ∈ w.vars ∧ l.owner = true ∧ l.rule = r

/-- The body of the one rule holds an owner of the other. -/
def Owns (w : Workspace) (q r : RuleId) : Prop :=
  ∃ body, w.store.cell q = .bound body ∧ r ∈ body.owned

/-- Some owner of the rule is left. -/
def HasOwner (w : Workspace) (r : RuleId) : Prop :=
  w.HeldByVar r ∨ ∃ q, w.Owns q r

/-- A rule is held by the variables exactly when some variable owns it. -/
theorem mem_held_vars : r ∈ held w.vars ↔ w.HeldByVar r := by
  rw [mem_held, HeldByVar]
  refine exists_congr fun x => exists_congr fun l => and_congr_right fun _ => ?_
  unfold Link.owned
  split
  next howner => simp [howner, eq_comm]
  next howner => simp [howner]

/-- In a sound workspace the rules that are alive are those that have an owner. -/
theorem Sound.isAlive_iff (hw : w.Sound) : w.store.isAlive r = true ↔ w.HasOwner r := by
  rw [hw.kept r, Store.Owned, HasOwner, mem_held_vars]
  simp only [Cell.mem_owned, Owns]

/-! ## Histories -/

/-- A history leads from one workspace to the other. -/
def Later : Workspace → Workspace → Prop :=
  Relation.ReflTransGen Next

/-- The workspace is one that a history leads to. -/
def Reachable (w : Workspace) : Prop :=
  empty.Later w

theorem sound_empty : empty.Sound := by
  have hcell : ∀ r, empty.store.cell r = .dropped := fun r => by simp [empty, Store.empty, Store.cell]
  refine ⟨fun r => ?_, fun x l hmem => absurd hmem List.not_mem_nil⟩
  rw [Store.isAlive_iff, Store.Owned]
  simp only [hcell, Cell.owned]
  simp [held, empty]

/-- At every point of every history exactly the rules that have an owner are alive. -/
theorem Reachable.sound (h : w.Reachable) : w.Sound := by
  induction h with
  | refl => exact sound_empty
  | tail _ hnext ih => exact (hnext.effect ih).sound ih

/-- What comes later in a history is come to by a history. -/
theorem Reachable.later (h : w.Reachable) (hlater : w.Later w') : w'.Reachable :=
  Relation.ReflTransGen.trans h hlater

/-- No rule that was created is forgotten, and each is as it was, was given its body, or was dropped. -/
theorem Later.cell (h : w.Later w') (hw : w.Reachable) :
    w.store.cells.size ≤ w'.store.cells.size ∧
      ∀ r, r < w.store.cells.size → (w.store.cell r).Becomes (w'.store.cell r) := by
  induction h with
  | refl => exact ⟨Nat.le_refl _, fun r hr => .inl (.refl _)⟩
  | tail hlater hnext ih =>
    have heffect := hnext.effect (hw.later hlater).sound
    refine ⟨Nat.le_trans ih.1 heffect.size_le, fun r hr => ?_⟩
    exact (ih.2 r hr).trans (heffect.cell (Nat.lt_of_lt_of_le hr ih.1))

/-- Rules of which each is owned by another of them are there for good. -/
theorem Later.cell_of_supported {P : RuleId → Prop} (h : w.Later w') (hw : w.Reachable)
    (hP : ∀ r, P r → ∃ q, P q ∧ r ∈ (w.store.cell q).owned) (hr : P r) : (w.store.cell r).Matures (w'.store.cell r) := by
  induction h generalizing r with
  | refl => exact .refl _
  | @tail w₁ w₂ hlater hnext ih =>
    have hsupported : ∀ r, P r → ∃ q, P q ∧ r ∈ (w₁.store.cell q).owned := by
      intro r hr
      obtain ⟨q, hq, hqr⟩ := hP r hr
      exact ⟨q, hq, (ih hq).mem_owned hqr⟩
    have hsound := (hw.later hlater).sound
    exact (ih hr).trans ((hnext.effect hsound).cell_of_supported hsound hsupported hr)

end Workspace

end Backtrack
