import BuddySystem.Event
import BuddySystem.Fault

/-!
# Operations

An operation on a state `σ` answers with a value or ends in a fault.  Either way
there is a state afterwards, and a fault does not take back what was written
before it; this is why `Outcome` keeps the state beside the value and not inside
it.  The events of an operation are an output only: no operation reads them.

`Op σ` is a lawful monad (`instLawfulMonad`).  The state, the value and the
events of a composed operation come from `bind_of_ok` and `bind_of_error`, so a
proof about an operation need not unfold how they are passed along; `query_bind`,
`modify_bind` and `compute_bind_of_ok` do so for the steps that record nothing.
-/

namespace BuddySystem

/-- What an operation leaves behind. -/
structure Outcome (σ α : Type) where
  value : Except Fault α
  state : σ
  /-- What was recorded on the way, in order. -/
  events : List Event

/-- The same outcome with earlier events in front. -/
@[always_inline, inline]
def Outcome.after {σ α : Type} (outcome : Outcome σ α) (earlier : List Event) : Outcome σ α :=
  { outcome with events := earlier ++ outcome.events }

/-- An operation on a state, at a given verbosity. -/
def Op (σ α : Type) := Verbosity → σ → Outcome σ α

namespace Op

variable {σ α β : Type}

/-- Answers without touching the state. -/
@[always_inline, inline]
protected def pure (a : α) : Op σ α := fun _ s => ⟨.ok a, s, []⟩

/-- Runs one operation and, unless it ends in a fault, the next from the state it leaves. -/
@[always_inline, inline]
protected def bind (x : Op σ α) (f : α → Op σ β) : Op σ β := fun v s =>
  match x v s with
  | ⟨.ok a, s', events⟩ => (f a v s').after events
  | ⟨.error fault, s', events⟩ => ⟨.error fault, s', events⟩

instance : Monad (Op σ) where
  pure := Op.pure
  bind := Op.bind

@[always_inline, inline]
def fail (fault : Fault) : Op σ α := fun _ s => ⟨.error fault, s, []⟩

/-- Reads something off the state. -/
@[always_inline, inline]
def query (f : σ → α) : Op σ α := fun _ s => ⟨.ok (f s), s, []⟩

/-- Computes something from the state, or ends in the fault of the computation. -/
@[always_inline, inline]
def compute (f : σ → Except Fault α) : Op σ α := fun _ s => ⟨f s, s, []⟩

@[always_inline, inline]
def modify (f : σ → σ) : Op σ Unit := fun _ s => ⟨.ok (), f s, []⟩

/-- Ends in a fault unless the state passes a test. -/
@[always_inline, inline]
def ensure (p : σ → Prop) [∀ s, Decidable (p s)] (fault : σ → Fault) : Op σ Unit := fun _ s =>
  if p s then ⟨.ok (), s, []⟩ else ⟨.error (fault s), s, []⟩

/-- Records an event, if events of its level are recorded. -/
@[always_inline, inline]
def log (event : Event) : Op σ Unit := fun v s =>
  ⟨.ok (), s, if v.shows event.level then [event] else []⟩

/-- Records an event of a level whose numbers are computed only if events of that level are
recorded.  The computation can then end in a fault. -/
@[always_inline, inline]
def logComputed (level : Level) (event : Except Fault Event) : Op σ Unit := fun v s =>
  if v.shows level then
    match event with
    | .ok event => ⟨.ok (), s, [event]⟩
    | .error fault => ⟨.error fault, s, []⟩
  else ⟨.ok (), s, []⟩

/-! ### Laws -/

theorem after_nil (outcome : Outcome σ α) : outcome.after [] = outcome := rfl

theorem pure_apply (a : α) (v : Verbosity) (s : σ) : (pure a : Op σ α) v s = ⟨.ok a, s, []⟩ := rfl

theorem bind_apply (x : Op σ α) (f : α → Op σ β) (v : Verbosity) (s : σ) :
    (x >>= f) v s =
      match x v s with
      | ⟨.ok a, s', events⟩ => (f a v s').after events
      | ⟨.error fault, s', events⟩ => ⟨.error fault, s', events⟩ := rfl

/-- **After a value the next operation goes on** from the state left, and its events follow. -/
theorem bind_of_ok {x : Op σ α} {f : α → Op σ β} {v : Verbosity} {s s' : σ} {a : α}
    {events : List Event} (h : x v s = ⟨.ok a, s', events⟩) :
    (x >>= f) v s = (f a v s').after events := by
  rw [bind_apply, h]

/-- **After a fault nothing more happens**, and what was written stays written. -/
theorem bind_of_error {x : Op σ α} {f : α → Op σ β} {v : Verbosity} {s s' : σ} {fault : Fault}
    {events : List Event} (h : x v s = ⟨.error fault, s', events⟩) :
    (x >>= f) v s = ⟨.error fault, s', events⟩ := by
  rw [bind_apply, h]

theorem query_bind (f : σ → α) (g : α → Op σ β) (v : Verbosity) (s : σ) :
    (query f >>= g) v s = g (f s) v s := after_nil _

theorem modify_bind (f : σ → σ) (g : Unit → Op σ β) (v : Verbosity) (s : σ) :
    (modify f >>= g) v s = g () v (f s) := after_nil _

theorem compute_bind_of_ok {f : σ → Except Fault α} {a : α} {s : σ} (h : f s = .ok a)
    (g : α → Op σ β) (v : Verbosity) : (compute f >>= g) v s = g a v s :=
  bind_of_ok (show compute f v s = ⟨.ok a, s, []⟩ by rw [← h]; rfl)

instance instLawfulMonad : LawfulMonad (Op σ) := LawfulMonad.mk' (Op σ)
  (by
    intro α x
    funext v s
    change (x >>= fun a => pure (id a)) v s = x v s
    rw [bind_apply]
    rcases x v s with ⟨_ | _, _, _⟩ <;> simp [pure_apply, Outcome.after])
  (by
    intro α β a f
    funext v s
    exact after_nil _)
  (by
    intro α β γ x f g
    funext v s
    simp only [bind_apply]
    rcases x v s with ⟨_ | a, s', events⟩
    · rfl
    · simp only [Outcome.after]
      rcases f a v s' with ⟨_ | b, s'', later⟩ <;> simp)

end Op

end BuddySystem
