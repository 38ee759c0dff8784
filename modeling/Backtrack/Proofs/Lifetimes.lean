import Backtrack.Proofs.Histories
import Mathlib.Order.WellFoundedSet

/-!
# Lifetimes of rules

A rule lives exactly as long as something owns it: a variable, a unit that is held, or the body of a living rule. Where bodies do
not own one another in a ring, that makes the rules that live those that variables reach through owners. A ring is never dropped,
nor is anything that it owns.
-/

namespace Backtrack

namespace Workspace

open Relation (ReflTransGen TransGen)

variable {w w' : Workspace} {q r : RuleId}

/-- A variable holds an owner of a rule from which owners lead to this one. -/
def Reached (w : Workspace) (r : RuleId) : Prop :=
  ∃ q, w.HeldByVar q ∧ ReflTransGen w.Owns q r

/-- No rule owns itself through others. -/
def Acyclic (w : Workspace) : Prop :=
  ∀ r, ¬ TransGen w.Owns r r

/-- A rule that owns another is alive, since it has a body. -/
theorem Owns.isAlive (h : w.Owns q r) : w.store.isAlive q = true := by
  obtain ⟨body, hbody, -⟩ := h
  rw [Store.isAlive_iff, hbody]
  nofun

/-- What variables reach through owners is alive. -/
theorem Sound.isAlive_of_reached (hw : w.Sound) (h : w.Reached r) : w.store.isAlive r = true := by
  obtain ⟨q, hheld, hpath⟩ := h
  rcases hpath.cases_tail with rfl | ⟨p, -, howns⟩
  · exact hw.isAlive_iff.2 (.inl hheld)
  · exact hw.isAlive_iff.2 (.inr ⟨p, howns⟩)

/-- Without rings, going from a rule to one that owns it comes to an end, and that can only be a variable. -/
theorem Sound.isAlive_iff_reached (hw : w.Sound) (hacyclic : w.Acyclic) : w.store.isAlive r = true ↔ w.Reached r := by
  refine ⟨fun halive => ?_, hw.isAlive_of_reached⟩
  have horder : IsStrictOrder RuleId (TransGen w.Owns) := { irrefl := hacyclic, trans := fun _ _ _ => TransGen.trans }
  have hwf : (w.store.living : Set RuleId).WellFoundedOn (TransGen w.Owns) := w.store.living.finite_toSet.wellFoundedOn
  refine hwf.induction (Finset.mem_coe.2 (Store.mem_living.2 halive)) fun r hr ih => ?_
  rcases hw.isAlive_iff.1 (Store.mem_living.1 (Finset.mem_coe.1 hr)) with hheld | ⟨q, howns⟩
  · exact ⟨r, hheld, .refl⟩
  · obtain ⟨p, hheld, hpath⟩ := ih q (Finset.mem_coe.2 (Store.mem_living.2 howns.isAlive)) (.single howns)
    exact ⟨p, hheld, hpath.tail howns⟩

/-- A rule that owns itself through others, and all rules that it owns through others, are there for good. -/
theorem Later.cell_of_ring (h : w.Later w') (hw : w.Reachable) (hring : TransGen w.Owns r r) (hpath : ReflTransGen w.Owns r q) :
    (w.store.cell q).Matures (w'.store.cell q) := by
  refine h.cell_of_supported (P := ReflTransGen w.Owns r) hw (fun p hp => ?_) hpath
  rcases hp.cases_tail with rfl | ⟨p', hp', howns⟩
  · obtain ⟨p', hp', howns⟩ := TransGen.tail'_iff.1 hring
    exact ⟨p', hp', Cell.mem_owned.2 howns⟩
  · exact ⟨p', hp', Cell.mem_owned.2 howns⟩

/-- Without rings, letting go of a variable takes exactly the rules that no other variable reaches: the sweep only drops, so what owns
afterwards did before, and all that another variable reaches supports itself from that variable on. -/
theorem Sound.isAlive_drop {x : String} {answer : Answer} {events : List Event} (hw : w.Sound) (hacyclic : w.Acyclic)
    (h : w.step (.drop x) = .ok (answer, events, w')) :
    w'.store.isAlive r = true ↔ ∃ y l, (y, l) ∈ w.vars ∧ y ≠ x ∧ l.owner = true ∧ ReflTransGen w.Owns l.rule r := by
  have hw' : w'.Sound := (Next.effect ⟨_, _, _, h⟩ hw).sound hw
  cases h
  have howns : ∀ p q, (settle w.store (release w.vars x)).Owns p q → w.Owns p q := by
    rintro p q ⟨body, hbody, hq⟩
    rcases Store.cell_sweep w.store (held (release w.vars x)) p with heq | heq
    · exact ⟨body, heq.symm.trans hbody, hq⟩
    · exact nomatch heq.symm.trans hbody
  constructor
  · intro halive
    have hacyclic' : (settle w.store (release w.vars x)).Acyclic := fun p hp => hacyclic p (TransGen.mono howns p p hp)
    obtain ⟨q, ⟨y, l, hmem, howner, rfl⟩, hpath⟩ := (hw'.isAlive_iff_reached hacyclic').1 halive
    obtain ⟨hmem, hne⟩ := List.mem_filter.1 hmem
    exact ⟨y, l, hmem, by simpa using hne, howner, ReflTransGen.mono howns _ _ hpath⟩
  · rintro ⟨y, l, hmem, hne, howner, hpath⟩
    have hheld : l.rule ∈ held (release w.vars x) := by
      refine mem_held.2 ⟨y, l, List.mem_filter.2 ⟨hmem, by simpa using hne⟩, ?_⟩
      rw [Link.owned, if_pos howner]
      exact List.mem_cons_self
    have hsupported : ∀ p, ReflTransGen w.Owns l.rule p →
        p ∈ held (release w.vars x) ∨ ∃ q, ReflTransGen w.Owns l.rule q ∧ p ∈ (w.store.cell q).owned := by
      intro p hp
      rcases hp.cases_tail with rfl | ⟨q, hq, hqp⟩
      · exact .inl hheld
      · exact .inr ⟨q, hq, Cell.mem_owned.2 hqp⟩
    have hsame : (settle w.store (release w.vars x)).store.cell r = w.store.cell r :=
      Store.cell_sweep_of_supported hsupported hpath
    rw [Store.isAlive_iff, hsame, ← Store.isAlive_iff]
    exact hw.isAlive_of_reached ⟨l.rule, ⟨y, l, hmem, howner, rfl⟩, hpath⟩

/-- While a unit is held, what it owns counts as well. -/
theorem Sound.isAlive_build {unit : Blueprint} {g : Grammar} {t : Store} (hw : w.Sound)
    (h : w.build (unit.build w.vars) = .ok (g, t)) :
    t.isAlive r = true ↔ w.HeldByVar r ∨ r ∈ g.owned ∨ ∃ q body, t.cell q = .bound body ∧ r ∈ body.owned := by
  rw [(hw.build h).2 r, Store.Owned, List.mem_append, mem_held_vars, or_assoc]
  simp only [Cell.mem_owned]

/-- Over every history a rule is alive if and only if a variable owns it, or a unit that is held, or the body of a living rule.
Without rings, the rules that are alive are therefore those that variables reach through owners: a rule is gone after the very step
that takes the last way to it, and with a variable go all the rules that no other variable reaches. The rules of a ring keep their
bodies for good, and all that they own stays alive, and bound once it is bound. -/
theorem alive_iff_owned (hw : w.Reachable) :
    (∀ r, w.store.isAlive r = true ↔ w.HeldByVar r ∨ ∃ q, w.store.isAlive q = true ∧ w.Owns q r) ∧
    (∀ (unit : Blueprint) (g : Grammar) (t : Store), w.build (unit.build w.vars) = .ok (g, t) → ∀ r,
      t.isAlive r = true ↔ w.HeldByVar r ∨ r ∈ g.owned ∨ ∃ q body, t.cell q = .bound body ∧ r ∈ body.owned) ∧
    (w.Acyclic → ∀ r, w.store.isAlive r = true ↔ w.Reached r) ∧
    (∀ w', w.Next w' → w'.Acyclic → ∀ r, w.Reached r → (w'.store.cell r = .dropped ↔ ¬ w'.Reached r)) ∧
    (w.Acyclic → ∀ x answer events w', w.step (.drop x) = .ok (answer, events, w') → ∀ r,
      w'.store.isAlive r = true ↔ ∃ y l, (y, l) ∈ w.vars ∧ y ≠ x ∧ l.owner = true ∧ ReflTransGen w.Owns l.rule r) ∧
    ∀ r, TransGen w.Owns r r → ∀ q, ReflTransGen w.Owns r q → ∀ w', w.Later w' →
      (∃ body, w.store.cell r = .bound body ∧ w'.store.cell r = .bound body) ∧ w'.store.isAlive q = true ∧
        ∀ body, w.store.cell q = .bound body → w'.store.cell q = .bound body := by
  have hsound : w.Sound := hw.sound
  refine ⟨fun r => ?_, fun unit g t h r => hsound.isAlive_build h, fun hacyclic r => hsound.isAlive_iff_reached hacyclic,
    fun w' hnext hacyclic r _ => ?_, fun hacyclic x answer events w' h r => hsound.isAlive_drop hacyclic h,
    fun r hring q hpath w' hlater => ?_⟩
  · rw [hsound.isAlive_iff, HasOwner]
    exact or_congr_right (exists_congr fun q => ⟨fun h => ⟨h.isAlive, h⟩, fun h => h.2⟩)
  · have hsound' : w'.Sound := (hnext.effect hsound).sound hsound
    rw [← hsound'.isAlive_iff_reached hacyclic, Store.isAlive_iff, not_not]
  · obtain ⟨p, howns, -⟩ := TransGen.head'_iff.1 hring
    have hq : w.store.isAlive q = true := by
      rcases hpath.cases_tail with rfl | ⟨p', -, howns'⟩
      · exact howns.isAlive
      · exact hsound.isAlive_iff.2 (.inr ⟨p', howns'⟩)
    obtain ⟨body, hbody, -⟩ := howns
    have hmatures := hlater.cell_of_ring hw hring hpath
    refine ⟨⟨body, hbody, (hlater.cell_of_ring hw hring .refl).bound hbody⟩, ?_, fun b hb => hmatures.bound hb⟩
    exact Store.isAlive_iff.2 (hmatures.ne_dropped (Store.isAlive_iff.1 hq))

/-- A variable that owns a rule, which owns another. -/
def chain : Workspace :=
  ⟨⟨#[.unbound, .bound (.wrap .viaFunction (.link ⟨0, true⟩))]⟩, [("outer", ⟨1, true⟩)]⟩

theorem chain_reachable : chain.Reachable := by
  have hnew : Next empty ⟨⟨#[.unbound]⟩, [("inner", ⟨0, true⟩)]⟩ := ⟨.new "inner", .done, [], rfl⟩
  have hrunning : Next ⟨⟨#[.unbound]⟩, [("inner", ⟨0, true⟩)]⟩
      ⟨chain.store, [("outer", ⟨1, true⟩), ("inner", ⟨0, true⟩)]⟩ :=
    ⟨.running "outer" (.ref "inner" true), .done, [], rfl⟩
  have hdrop : Next ⟨chain.store, [("outer", ⟨1, true⟩), ("inner", ⟨0, true⟩)]⟩ chain := ⟨.drop "inner", .done, [], rfl⟩
  exact .tail (.tail (.tail .refl hnew) hrunning) hdrop

/-- In the chain the second rule owns the first one. -/
theorem chain_owns_iff : chain.Owns q r ↔ q = 1 ∧ r = 0 := by
  unfold Owns
  rcases q with _ | _ | q <;> simp [chain, Store.cell, Grammar.owned, Link.owned]

theorem chain_acyclic : chain.Acyclic := by
  intro r hr
  obtain ⟨p, hp, -⟩ := TransGen.head'_iff.1 hr
  obtain ⟨q, -, hq⟩ := TransGen.tail'_iff.1 hr
  exact absurd ((chain_owns_iff.1 hp).1.symm.trans (chain_owns_iff.1 hq).2) (by decide)

/-- A rule whose body owns the rule itself. -/
def selfOwner : Workspace :=
  ⟨⟨#[.bound (.wrap .erased (.link ⟨0, true⟩))]⟩, [("rule", ⟨0, true⟩)]⟩

theorem selfOwner_reachable : selfOwner.Reachable := by
  have hnew : Next empty ⟨⟨#[.unbound]⟩, [("rule", ⟨0, true⟩)]⟩ := ⟨.new "rule", .done, [], rfl⟩
  have hdefine : Next ⟨⟨#[.unbound]⟩, [("rule", ⟨0, true⟩)]⟩ selfOwner :=
    ⟨.define "rule" (.ref "rule" true), .defined (.ok ()), [], rfl⟩
  exact .tail (.tail .refl hnew) hdefine

/-- The chain goes with its variable, both rules at once; the rule that owns itself never goes. -/
theorem chain_and_selfOwner_lifetimes :
    chain.store.isAlive 0 = true ∧
    (∃ w', chain.step (.drop "outer") = .ok (.done, [], w') ∧ ∀ r, w'.store.isAlive r = false) ∧
    ∀ w', selfOwner.Later w' → w'.store.isAlive 0 = true := by
  obtain ⟨-, -, hreached, -, hdrop, -⟩ := alive_iff_owned chain_reachable
  obtain ⟨-, -, -, -, -, hring⟩ := alive_iff_owned selfOwner_reachable
  have hself : selfOwner.Owns 0 0 := ⟨_, rfl, List.mem_cons_self⟩
  refine ⟨?_, ⟨_, rfl, fun r => ?_⟩, fun w' hlater => (hring 0 (.single hself) 0 .refl w' hlater).2.1⟩
  · exact (hreached chain_acyclic 0).2 ⟨1, ⟨"outer", _, List.mem_cons_self, rfl, rfl⟩, .single (chain_owns_iff.2 ⟨rfl, rfl⟩)⟩
  · rw [Bool.eq_false_iff, ne_eq, hdrop chain_acyclic "outer" _ _ _ rfl r]
    rintro ⟨y, l, hmem, hne, -⟩
    cases List.mem_singleton.1 hmem
    exact hne rfl

end Workspace

end Backtrack
