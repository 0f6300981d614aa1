import BuddySystem.Op

/-!
# What an operation ends in

An operation started in a state ends with an answer or in a fault, and leaves a
state in both cases.  `x.Ends v s Q E` says which: `Q` holds of the answer and the
state left, or, after a fault, `E` holds of the state left.

A statement about a composed operation is taken apart by `ends_bind`: what the
first operation ends in is where the second one starts, and a fault of either is
a fault of both.  `Ends.bind` is the form in which the lemmas about single steps
are put together, and `Ends.mono` weakens what they say.

An operation is still (`Op.Still`) when it leaves every state as it was.
-/

namespace BuddySystem.Op

variable {σ α β : Type} {x : Op σ α} {v : Verbosity} {s s' : σ}
  {Q Q' : α → σ → Prop} {E E' : σ → Prop}

/-- From `s` the operation answers and leaves what `Q` says, or it faults and leaves what `E`
says. -/
def Ends (x : Op σ α) (v : Verbosity) (s : σ) (Q : α → σ → Prop) (E : σ → Prop) : Prop :=
  match x v s with
  | ⟨.ok a, s', _⟩ => Q a s'
  | ⟨.error _, s', _⟩ => E s'

/-! ### Reading an outcome off -/

theorem Ends.of_ok (h : x.Ends v s Q E) {a : α} {events : List Event}
    (hx : x v s = ⟨.ok a, s', events⟩) : Q a s' := by
  unfold Ends at h
  rw [hx] at h
  exact h

theorem Ends.of_error (h : x.Ends v s Q E) {fault : Fault} {events : List Event}
    (hx : x v s = ⟨.error fault, s', events⟩) : E s' := by
  unfold Ends at h
  rw [hx] at h
  exact h

/-- An operation that cannot fault answers. -/
theorem Ends.exists_ok (h : x.Ends v s Q fun _ => False) :
    ∃ a s' events, x v s = ⟨.ok a, s', events⟩ ∧ Q a s' := by
  unfold Ends at h
  rcases hx : x v s with ⟨fault | a, s', events⟩
  · rw [hx] at h
    exact h.elim
  · rw [hx] at h
    exact ⟨a, s', events, rfl, h⟩

/-- An operation that cannot answer faults. -/
theorem Ends.exists_error (h : x.Ends v s (fun _ _ => False) E) :
    ∃ fault s' events, x v s = ⟨.error fault, s', events⟩ ∧ E s' := by
  unfold Ends at h
  rcases hx : x v s with ⟨fault | a, s', events⟩
  · rw [hx] at h
    exact ⟨fault, s', events, rfl, h⟩
  · rw [hx] at h
    exact h.elim

/-- What holds of the state after any ending holds of the state left. -/
theorem Ends.state (h : x.Ends v s (fun _ => E) E) : E (x v s).state := by
  unfold Ends at h
  rcases hx : x v s with ⟨fault | a, s', events⟩ <;> rw [hx] at h <;> exact h

theorem Ends.mono (h : x.Ends v s Q' E') (hQ : ∀ a s', Q' a s' → Q a s')
    (hE : ∀ s', E' s' → E s') : x.Ends v s Q E := by
  unfold Ends at h ⊢
  rcases hx : x v s with ⟨fault | a, s', events⟩ <;> rw [hx] at h
  · exact hE _ h
  · exact hQ _ _ h

theorem Ends.and (h : x.Ends v s Q E) (h' : x.Ends v s Q' E') :
    x.Ends v s (fun a s' => Q a s' ∧ Q' a s') fun s' => E s' ∧ E' s' := by
  unfold Ends at h h' ⊢
  rcases hx : x v s with ⟨fault | a, s', events⟩ <;> rw [hx] at h h' <;> exact ⟨h, h'⟩

theorem ends_of_forall (hQ : ∀ a s', Q a s') (hE : ∀ s', E s') : x.Ends v s Q E := by
  unfold Ends
  rcases x v s with ⟨fault | a, s', events⟩
  · exact hE s'
  · exact hQ a s'

/-! ### Single steps -/

theorem ends_pure {a : α} : (pure a : Op σ α).Ends v s Q E ↔ Q a s := Iff.rfl

theorem ends_fail {fault : Fault} : (fail fault : Op σ α).Ends v s Q E ↔ E s := Iff.rfl

theorem ends_query {f : σ → α} : (query f).Ends v s Q E ↔ Q (f s) s := Iff.rfl

theorem ends_modify {f : σ → σ} {Q : Unit → σ → Prop} :
    (modify f).Ends v s Q E ↔ Q () (f s) := Iff.rfl

theorem ends_log {event : Event} {Q : Unit → σ → Prop} :
    (log event).Ends v s Q E ↔ Q () s := Iff.rfl

theorem ends_ensure {p : σ → Prop} [∀ s, Decidable (p s)] {fault : σ → Fault}
    {Q : Unit → σ → Prop} :
    (ensure p fault).Ends v s Q E ↔ (p s → Q () s) ∧ (¬ p s → E s) := by
  unfold Ends ensure
  by_cases h : p s <;> simp [h]

theorem ends_compute {f : σ → Except Fault α} :
    (compute f).Ends v s Q E ↔
      (∀ a, f s = .ok a → Q a s) ∧ (∀ fault, f s = .error fault → E s) := by
  unfold Ends compute
  rcases h : f s with fault | a <;> simp

theorem Ends.compute {f : σ → Except Fault α} {a : α} (h : f s = .ok a) (hQ : Q a s) :
    (Op.compute f).Ends v s Q E := by
  rw [ends_compute, h]
  exact ⟨fun b hb => Except.ok.inj hb ▸ hQ, fun fault hf => nomatch hf⟩

/-! ### One after the other -/

/-- **What the first operation ends in is where the second one starts.** -/
theorem ends_bind {f : α → Op σ β} {Q : β → σ → Prop} :
    (x >>= f).Ends v s Q E ↔ x.Ends v s (fun a s' => (f a).Ends v s' Q E) E := by
  unfold Ends
  rw [bind_apply]
  rcases x v s with ⟨fault | a, s', events⟩
  · exact Iff.rfl
  · simp only [Outcome.after]
    rcases f a v s' with ⟨fault | b, s'', later⟩ <;> exact Iff.rfl

theorem ends_map {f : α → β} {Q : β → σ → Prop} :
    (f <$> x).Ends v s Q E ↔ x.Ends v s (fun a s' => Q (f a) s') E := by
  rw [map_eq_pure_bind, ends_bind]
  exact Iff.rfl

theorem Ends.bind {f : α → Op σ β} {Q : β → σ → Prop} (hx : x.Ends v s Q' E')
    (hE : ∀ s', E' s' → E s') (hf : ∀ a s', Q' a s' → (f a).Ends v s' Q E) :
    (x >>= f).Ends v s Q E :=
  ends_bind.mpr (hx.mono hf hE)

/-! ### Operations that only look -/

/-- The operation leaves every state as it was, whether it answers or faults. -/
def Still (x : Op σ α) : Prop := ∀ v s, (x v s).state = s

theorem still_pure (a : α) : (pure a : Op σ α).Still := fun _ _ => rfl

theorem still_query (f : σ → α) : (query f).Still := fun _ _ => rfl

theorem still_compute (f : σ → Except Fault α) : (compute f).Still := fun _ _ => rfl

theorem still_log (event : Event) : (log event : Op σ Unit).Still := fun _ _ => rfl

theorem still_logComputed (level : Level) (event : Except Fault Event) :
    (logComputed level event : Op σ Unit).Still := by
  intro v s
  unfold logComputed
  split
  · rcases event with fault | event <;> rfl
  · rfl

theorem still_ensure (p : σ → Prop) [∀ s, Decidable (p s)] (fault : σ → Fault) :
    (ensure p fault).Still := by
  intro v s
  unfold ensure
  split <;> rfl

theorem still_fail (fault : Fault) : (fail fault : Op σ α).Still := fun _ _ => rfl

theorem Still.ends (h : x.Still) : x.Ends v s (fun _ s' => s' = s) fun s' => s' = s := by
  have hs := h v s
  unfold Ends
  rcases hx : x v s with ⟨fault | a, s', events⟩ <;> rw [hx] at hs <;> exact hs

theorem Still.bind {f : α → Op σ β} (hx : x.Still) (hf : ∀ a, (f a).Still) :
    (x >>= f).Still := by
  intro v s
  have h : (x >>= f).Ends v s (fun _ s' => s' = s) fun s' => s' = s :=
    hx.ends.bind (fun _ he => he) fun a s' he => he ▸ (hf a).ends
  exact h.state

theorem still_forM {f : α → Op σ PUnit} (hf : ∀ a, (f a).Still) :
    ∀ xs : List α, (xs.forM f).Still := by
  intro xs
  induction xs with
  | nil => exact still_pure _
  | cons a xs ih => exact (hf a).bind fun _ => ih

end BuddySystem.Op
