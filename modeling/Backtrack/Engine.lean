import Backtrack.Action
import Backtrack.Context

/-!
# The engine

A computation on a context yields a value, the context it leaves and the trace of what it did. It can also be given
up, for want of fuel or because the context refused a remembered place; then there is neither value nor context.
-/

namespace Backtrack

/-- Why a computation is given up. -/
inductive Halt where
  | outOfFuel
  | badSnapshot (reason : OutOfBounds)
deriving DecidableEq, Inhabited

/-- What a computation yields: a value, the context that it leaves, and the trace of what it did. -/
structure Report (σ α : Type) where
  value : α
  context : σ
  trace : Trace
deriving DecidableEq, Inhabited

/-- A computation on a context of type `σ`. -/
def Engine (σ α : Type) : Type :=
  σ → Except Halt (Report σ α)

namespace Engine

variable {σ α β : Type}

/-- Runs a computation on a context. -/
@[always_inline, inline]
def run (x : Engine σ α) (s : σ) : Except Halt (Report σ α) :=
  x s

/-- Yields a value and does nothing. -/
@[always_inline, inline]
def yield (a : α) : Engine σ α :=
  fun s => .ok ⟨a, s, .nil⟩

/-- One computation after another; the second runs on the context that the first left. -/
@[always_inline, inline]
def andThen (x : Engine σ α) (f : α → Engine σ β) : Engine σ β := fun s =>
  match x s with
  | .error reason => .error reason
  | .ok r => match f r.value r.context with
    | .error reason => .error reason
    | .ok r' => .ok ⟨r'.value, r'.context, r.trace ++ r'.trace⟩

instance : Monad (Engine σ) where
  pure := yield
  bind := andThen

/-- A computation that does nothing leaves the context and reports nothing. -/
@[simp] theorem run_pure (a : α) (s : σ) : (pure a : Engine σ α).run s = .ok ⟨a, s, .nil⟩ := rfl

/-- A sequence runs its second part where the first ended, and the traces follow one another. -/
theorem run_bind (x : Engine σ α) (f : α → Engine σ β) (s : σ) :
    (x >>= f).run s = match x.run s with
      | .error reason => .error reason
      | .ok r => match (f r.value).run r.context with
        | .error reason => .error reason
        | .ok r' => .ok ⟨r'.value, r'.context, r.trace ++ r'.trace⟩ := rfl

/-- Computations that do the same on every context are the same. -/
theorem ext {x y : Engine σ α} (h : ∀ s, x.run s = y.run s) : x = y :=
  funext h

theorem bind_pure (x : Engine σ α) : x >>= pure = x := by
  apply ext
  intro s
  rw [run_bind]
  cases x.run s <;> simp

theorem pure_bind (a : α) (f : α → Engine σ β) : pure a >>= f = f a := by
  apply ext
  intro s
  rw [run_bind]
  cases h : (f a).run s <;> simp [h]

theorem bind_assoc {γ : Type} (x : Engine σ α) (f : α → Engine σ β) (g : β → Engine σ γ) :
    x >>= f >>= g = x >>= fun a => f a >>= g := by
  apply ext
  intro s
  simp only [run_bind]
  cases x.run s with
  | error => rfl
  | ok r =>
    cases hf : (f r.value).run r.context with
    | error => simp [hf]
    | ok r' => cases hg : (g r'.value).run r'.context <;> simp [hf, hg]

instance : LawfulMonad (Engine σ) :=
  LawfulMonad.mk' (Engine σ) bind_pure pure_bind bind_assoc

/-- Gives up. -/
def halt (reason : Halt) : Engine σ α :=
  fun _ => .error reason

/-- Reports an event. -/
@[always_inline, inline]
def emit (e : Event) : Engine σ Unit :=
  fun s => .ok ⟨(), s, .one (.event e)⟩

/-- An event is recorded, and the context left alone. -/
theorem run_emit (e : Event) (s : σ) : (emit e : Engine σ Unit).run s = .ok ⟨(), s, .one (.event e)⟩ := rfl

variable [Context σ]

/-- Remembers the place. -/
@[always_inline, inline]
def backup : Engine σ (Context.Snapshot σ) :=
  fun s => .ok ⟨Context.backup s, s, .one (.call (.backup (Context.consumed s)))⟩

/-- Goes back to a remembered place. -/
@[always_inline, inline]
def restore (saved : Context.Snapshot σ) : Engine σ Unit := fun s =>
  match Context.restore s saved with
  | .error reason => .error (.badSnapshot reason)
  | .ok t => .ok ⟨(), t, .one (.call (.restore (Context.consumed t)))⟩

/-- Looks at the first item. -/
@[always_inline, inline]
def front : Engine σ (Option Value) :=
  fun s => .ok ⟨Context.front s, s, .one (.call (.front (Context.consumed s)))⟩

/-- Takes the first item. -/
@[always_inline, inline]
def popFront : Engine σ (Option Value) := fun s =>
  match Context.popFront s with
  | (item, t) =>
    .ok ⟨item, t, .ofList (.call (.popFront (Context.consumed s)) :: (Context.popEvents s).map .event)⟩

/-- Views the items not yet consumed, without a call on the context. -/
@[always_inline, inline]
def remaining : Engine σ (List Value) :=
  fun s => .ok ⟨Context.remaining s, s, .nil⟩

/-- Remembering the place is one call, which leaves the context alone. -/
theorem run_backup (s : σ) :
    (backup : Engine σ _).run s = .ok ⟨Context.backup s, s, .one (.call (.backup (Context.consumed s)))⟩ := rfl

/-- Looking at the first item is one call, which leaves the context alone. -/
theorem run_front (s : σ) :
    (front : Engine σ _).run s = .ok ⟨Context.front s, s, .one (.call (.front (Context.consumed s)))⟩ := rfl

/-- Going back to a place that the context accepts leaves that place. -/
theorem run_restore {s t : σ} {saved : Context.Snapshot σ} (h : Context.restore s saved = .ok t) :
    (restore saved).run s = .ok ⟨(), t, .one (.call (.restore (Context.consumed t)))⟩ := by
  simp [run, restore, h]

end Engine

/-- Runs an action on a context. -/
def Action.run {σ α : Type} [Context σ] : Action α → Engine σ α
  | .done a => pure a
  | .front k => do (k (← Engine.front)).run
  | .popFront k => do (k (← Engine.popFront)).run
  | .remaining k => do (k (← Engine.remaining)).run

end Backtrack
