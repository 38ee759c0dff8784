import Backtrack.Rule.History
import Backtrack.Proofs.Ownership

/-!
# Owners while a grammar is built

Building a blueprint adds rules and changes none that are there. The links that it takes go into the unit that is built, or into
the bodies of the rules that it adds, so a store that is kept stays kept by what was held before and by the unit.
-/

namespace Backtrack

namespace Store

variable {s t u : Store} {r : RuleId}

/-- Rules were added, and those that were there are as they were. -/
structure Extends (s t : Store) : Prop where
  size_le : s.cells.size ≤ t.cells.size
  cell_eq : ∀ r, r < s.cells.size → t.cell r = s.cell r

namespace Extends

theorem refl (s : Store) : s.Extends s :=
  ⟨Nat.le_refl _, fun _ _ => rfl⟩

theorem trans (hst : s.Extends t) (htu : t.Extends u) : s.Extends u := by
  refine ⟨Nat.le_trans hst.size_le htu.size_le, fun r hr => ?_⟩
  rw [htu.cell_eq r (Nat.lt_of_lt_of_le hr hst.size_le), hst.cell_eq r hr]

theorem add (s : Store) (c : Cell) : s.Extends (s.add c).2 := by
  refine ⟨?_, fun r hr => cell_add_of_ne s c (Nat.ne_of_lt hr)⟩
  simp [Store.add]

/-- What becomes of a rule that was added later does not matter. -/
theorem put (h : s.Extends t) (hr : s.cells.size ≤ r) (c : Cell) : s.Extends (t.put r c) := by
  refine ⟨?_, fun q hq => ?_⟩
  · rw [size_put]
    exact h.size_le
  · rw [cell_put_of_ne t c (Nat.ne_of_lt (Nat.lt_of_lt_of_le hq hr)), h.cell_eq q hq]

end Extends

end Store

namespace Builder

variable {α β : Type} {scope : Scope} {s t : Store}

/-- The second builder runs on the store that the first one leaves. -/
theorem run_bind (x : Builder α) (f : α → Builder β) (s : Store) :
    (x >>= f).run s = match x.run s with
      | .ok (a, t) => (f a).run t
      | .error e => .error e := by
  rw [StateT.run_bind]
  cases x.run s <;> rfl

/-- Two builders succeed together exactly when both do. -/
theorem run_bind_eq_ok {x : Builder α} {f : α → Builder β} {b : β} :
    (x >>= f).run s = .ok (b, t) ↔ ∃ a s₁, x.run s = .ok (a, s₁) ∧ (f a).run s₁ = .ok (b, t) := by
  rw [run_bind]
  cases x.run s with
  | error e => simp
  | ok p => simp [Prod.ext_iff, and_assoc]

/-- A definition that is refused is an answer, and leaves the store as it was. -/
theorem run_define (l : Link) (body : Grammar) (s : Store) :
    (define l body).run s = match s.define l body with
      | .ok t => .ok (.ok (), t)
      | .error reason => .ok (.error reason, s) := by
  cases h : s.define l body <;> simp [define, h] <;> rfl

/-- The rule is created, its body is built, and then the rule is defined, unless it has been already. -/
theorem run_declare (build : Link → Builder (α × Grammar)) (s : Store) :
    (declare build).run s = match (build s.fresh.1.handle).run s.fresh.2 with
      | .error e => .error e
      | .ok ((extra, body), t) => match t.define s.fresh.1 body with
        | .ok u => .ok ((extra, s.fresh.1, []), u)
        | .error _ => .ok ((extra, s.fresh.1, [.definedWhileDeclared]), t) := by
  have hfresh : (fresh : Builder Link).run s = .ok s.fresh := rfl
  rw [declare, run_bind, hfresh]
  simp only [run_bind]
  cases (build s.fresh.1.handle).run s.fresh.2 with
  | error e => rfl
  | ok p =>
    obtain ⟨⟨extra, body⟩, t⟩ := p
    simp only [run_define]
    cases t.define s.fresh.1 body <;> rfl

/-- A new rule has no body, and none is given to it by adding more rules. -/
theorem cell_fresh (h : s.fresh.2.Extends t) : t.cell s.fresh.1.rule = .unbound := by
  have hself : s.fresh.2.cell s.fresh.1.rule = .unbound := Store.cell_add_self s .unbound
  rw [h.cell_eq _ (Store.lt_size_of_cell_ne (by rw [hself]; nofun)), hself]

/-- A rule that has no body yet when its own is built gets that one. -/
theorem run_declare_of_extends {build : Link → Builder (α × Grammar)} {extra : α} {body : Grammar}
    (hbuild : (build s.fresh.1.handle).run s.fresh.2 = .ok ((extra, body), t)) (hext : s.fresh.2.Extends t) :
    (declare build).run s = .ok ((extra, s.fresh.1, []), t.put s.fresh.1.rule (.bound (.wrap .erased body))) := by
  have hdefine : t.define s.fresh.1 body = .ok (t.put s.fresh.1.rule (.bound (.wrap .erased body))) :=
    Store.define_eq_ok_iff.2 ⟨cell_fresh hext, rfl⟩
  rw [run_declare, hbuild]
  simp only [hdefine]

/-- A rule that got its body leads to it. -/
theorem bodies_put_fresh (h : s.fresh.2.Extends t) (body : Grammar) :
    (t.put s.fresh.1.rule (.bound body)).bodies s.fresh.1.rule = some body := by
  have hlt : s.fresh.1.rule < t.cells.size := Store.lt_size_of_cell_ne (by rw [cell_fresh h]; nofun)
  rw [Store.bodies, Store.cell_put_self hlt]
  rfl

/-- A variable holds what its link owns. -/
theorem mem_held_of_lookup {name : String} {l : Link} {r : RuleId} (h : scope.lookup name = some l) (hr : r ∈ l.owned) :
    r ∈ Workspace.held scope := by
  obtain ⟨before, after, rfl, -⟩ := List.lookup_eq_some_iff.1 h
  simp [Workspace.held, hr]

/-- A builder that takes over the links `taken`, and leaves the rules that it gives or that were held before as the only ones
owned outside. -/
def Moves (scope : Scope) (x : Builder α) (taken : List RuleId) (given : α → List RuleId) : Prop :=
  ∀ held s a t, (∀ r ∈ Workspace.held scope, r ∈ held) → s.Kept (held ++ taken) → x.run s = .ok (a, t) →
    s.Extends t ∧ t.Kept (held ++ given a)

namespace Moves

variable {x : Builder α} {f : α → Builder β} {taken : List RuleId} {mid : α → List RuleId} {given : β → List RuleId}

/-- A builder that adds nothing gives on what it takes. -/
theorem pure {b : β} (h : ∀ r, r ∈ taken ↔ r ∈ given b) : Moves scope (Pure.pure b) taken given := by
  rintro held s _ _ - hs ⟨⟩
  refine ⟨.refl s, hs.congr fun r => ?_⟩
  rw [List.mem_append, List.mem_append, h r]

/-- What one builder gives, the next one takes over. -/
theorem bind (hx : Moves scope x taken mid) (hf : ∀ a, Moves scope (f a) (mid a) given) : Moves scope (x >>= f) taken given := by
  intro held s b t hscope hs hrun
  obtain ⟨a, s₁, hrun₁, hrun₂⟩ := run_bind_eq_ok.1 hrun
  obtain ⟨hext₁, hs₁⟩ := hx held s a s₁ hscope hs hrun₁
  obtain ⟨hext₂, ht⟩ := hf a held s₁ b t hscope hs₁ hrun₂
  exact ⟨hext₁.trans hext₂, ht⟩

/-- Links that a builder does not touch stay where they are. -/
theorem frame (hx : Moves scope x [] mid) (more : List RuleId) : Moves scope x more fun a => more ++ mid a := by
  intro held s a t hscope hs hrun
  rw [← List.append_assoc]
  refine hx (held ++ more) s a t (fun r hr => List.mem_append_left _ (hscope r hr)) ?_ hrun
  rwa [List.append_nil]

/-- A declared rule takes over what its body owns. -/
theorem declare {build : Link → Builder (α × Grammar)} (h : ∀ l : Link, Moves scope (build l.handle) [] fun p => p.2.owned) :
    Moves scope (Builder.declare build) [] fun p => p.2.1.owned := by
  intro held s p t hscope hs hrun
  cases hbuild : (build s.fresh.1.handle).run s.fresh.2 with
  | error e =>
    rw [run_declare, hbuild] at hrun
    nomatch hrun
  | ok p₁ =>
    obtain ⟨⟨extra, body⟩, s₁⟩ := p₁
    have hfresh : s.fresh.2.Kept (held ++ [s.fresh.1.rule]) := Store.Kept.add hs nofun
    obtain ⟨hext, hs₁⟩ := (h _).frame [s.fresh.1.rule] held s.fresh.2 _ s₁ hscope hfresh hbuild
    rw [run_declare_of_extends hbuild hext] at hrun
    cases hrun
    refine ⟨((Store.Extends.add s .unbound).trans hext).put (Nat.le_refl _) _, .bind ?_ nofun (cell_fresh hext)⟩
    rw [Store.owned_bound_wrap, List.append_assoc]
    exact hs₁

/-- A new rule that runs a unit takes over what the unit owns. -/
theorem running (g : Grammar) : Moves scope (modifyGet (Store.running · g)) g.owned Link.owned := by
  rintro held s _ _ - hs ⟨⟩
  refine ⟨.add s _, .add ?_ nofun⟩
  rwa [Store.owned_bound_wrap]

/-- The link that a name stands for is in scope, and so is held already. -/
theorem resolve (name : String) (shared : Bool) :
    Moves scope (Builder.resolve scope name) [] fun l => (if shared then l else l.handle).owned := by
  intro held s l t hscope hs hrun
  unfold Builder.resolve at hrun
  split at hrun
  next link hlink =>
    cases hrun
    refine ⟨.refl s, hs.congr fun r => ?_⟩
    have hmem : r ∈ (if shared then l else l.handle).owned → r ∈ held := by
      intro hr
      cases shared with
      | false => nomatch hr
      | true => exact hscope r (mem_held_of_lookup hlink hr)
    simpa using hmem
  next => nomatch hrun

/-- A builder that moves its links under some variables does so under more. -/
theorem of_scope {scope' : Scope} (h : Moves scope' x taken mid) (hscope : ∀ r ∈ Workspace.held scope', r ∈ Workspace.held scope) :
    Moves scope x taken mid :=
  fun held s a t hheld => h held s a t fun r hr => hheld r (hscope r hr)

end Moves

end Builder

namespace Blueprint

open Builder (Moves)

mutual

/-- The unit that is built takes over the links that building it takes; inside a body the name of its rule owns nothing. -/
theorem moves_build (scope : Scope) : (u : Blueprint) → Moves scope (u.build scope) [] Grammar.owned
  | .pop _ | .apply _ => by
    unfold build
    exact .pure (by simp [Grammar.owned])
  | .seq a b _ | .choose a b | .rescue a b | .maybeThen a b _ => by
    unfold build
    exact .bind (moves_build scope a) fun g => .bind ((moves_build scope b).frame g.owned) fun g' =>
      .pure (by simp [Grammar.owned])
  | .bind a parts next => by
    unfold build
    exact .bind (moves_build scope a) fun g => .bind ((moves_buildAll scope parts).frame g.owned) fun gs =>
      .pure (by simp [Grammar.owned])
  | .oneOf us => by
    unfold build
    exact .bind (moves_buildAll scope us) fun gs => .pure (by simp [Grammar.owned])
  | .maybe a | .oneOrMany a | .zeroOrMany a | .map _ a | .transform _ a | .wrap _ a => by
    unfold build
    exact .bind (moves_build scope a) fun g => .pure (by simp [Grammar.owned])
  | .twice a => by
    unfold build
    exact .bind (moves_build scope a) fun g => .pure (by simp [Grammar.owned])
  | .declare name body => by
    unfold build
    refine .bind (.declare fun l => ?_) fun p => .pure (by simp [Grammar.owned])
    exact .bind ((moves_build ((name, l.handle) :: scope) body).of_scope fun _ hr => hr) fun g => .pure (by simp)
  | .running a => by
    unfold build
    exact .bind (moves_build scope a) fun g => .bind (.running g) fun l => .pure (by simp [Grammar.owned])
  | .ref name shared => by
    unfold build
    exact .bind (.resolve name shared) fun l => .pure (by simp [Grammar.owned])

/-- The units that are built from a list take over the links that building them takes. -/
theorem moves_buildAll (scope : Scope) : (us : List Blueprint) → Moves scope (buildAll scope us) [] Grammar.ownedList
  | [] => by
    unfold buildAll
    exact .pure (by simp [Grammar.ownedList])
  | u :: us => by
    unfold buildAll
    exact .bind (moves_build scope u) fun g => .bind ((moves_buildAll scope us).frame g.owned) fun gs =>
      .pure (by simp [Grammar.ownedList])

end

end Blueprint

end Backtrack
