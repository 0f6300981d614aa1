import BuddySystem.Op

/-!
# Two runs side by side

`Op.Alike` compares an operation with a second one, step for step.  From any two
states that `P` relates, `Alike strict P x y φ R` says, both operations answer, and
`φ` relates the answers, or both end in a fault; `R` relates the states left in
either case.  If `strict` holds, they also end in the same fault and record the same
events.

There is one rule for each way an operation is put together, so two operations of
the same shape are compared by walking through both at once.  `alike_bind` is the
rule for one operation after another: what the first two have in common is what the
next two start from.
-/

namespace BuddySystem

variable {σ α β : Type}

/-- Both are answers, and `φ` relates them, or both are faults, and they are the same one if
`strict` holds. -/
def Concur (strict : Prop) (φ : α → α → Prop) : Except Fault α → Except Fault α → Prop
  | .ok a, .ok b => φ a b
  | .error fault, .error fault' => strict → fault' = fault
  | _, _ => False

variable {strict strict' : Prop} {φ φ' : α → α → Prop} {ψ : β → β → Prop}
  {P P' R R' S : σ → σ → Prop}

theorem Concur.mono {x y : Except Fault α} (h : Concur strict φ x y)
    (hs : strict' → strict) (hφ : ∀ a b, φ a b → φ' a b) : Concur strict' φ' x y := by
  rcases x with fault | a <;> rcases y with fault' | b
  · exact fun hs' => h (hs hs')
  · exact h.elim
  · exact h.elim
  · exact hφ a b h

/-- A computation and the same one with its answer changed. -/
theorem concur_map {f : α → α} {x : Except Fault α} (h : ∀ a, x = .ok a → φ a (f a)) :
    Concur strict φ x (x.map f) := by
  rcases x with fault | a
  · exact fun _ => rfl
  · exact h a rfl

theorem concur_self {x : Except Fault α} (h : ∀ a, x = .ok a → φ a a) :
    Concur strict φ x x := by
  rcases x with fault | a
  · exact fun _ => rfl
  · exact h a rfl

/-- Answers that are the same when nothing is let differ. -/
theorem Concur.eq {x y : Except Fault α} (h : Concur True (fun a b => b = a) x y) : y = x := by
  rcases x with fault | a <;> rcases y with fault' | b
  · exact congrArg Except.error (h trivial)
  · exact h.elim
  · exact h.elim
  · exact congrArg Except.ok h

namespace Op

variable {x y : Op σ α}

/-- From states that `P` relates, the operations end alike: `φ` relates what they answer and `R`
the states they leave, and nothing differs in faults and events if `strict` holds. -/
def Alike (strict : Prop) (P : σ → σ → Prop) (x y : Op σ α) (φ : α → α → Prop)
    (R : σ → σ → Prop) : Prop :=
  ∀ v s t, P s t → Concur strict φ (x v s).value (y v t).value ∧
    R (x v s).state (y v t).state ∧ (strict → (y v t).events = (x v s).events)

theorem Alike.mono (h : Alike strict P x y φ R) (hP : ∀ s t, P' s t → P s t)
    (hφ : ∀ a b, φ a b → φ' a b) (hR : ∀ s t, R s t → R' s t) :
    Alike strict P' x y φ' R' := by
  intro v s t hst
  obtain ⟨hvalue, hstate, hevents⟩ := h v s t (hP s t hst)
  exact ⟨hvalue.mono (fun hs => hs) hφ, hR _ _ hstate, hevents⟩

/-! ### Single steps -/

theorem alike_pure {a b : α} (h : φ a b) : Alike strict R (pure a) (pure b) φ R :=
  fun _ _ _ hst => ⟨h, hst, fun _ => rfl⟩

theorem alike_fail {fault fault' : Fault} (h : strict → fault' = fault) :
    Alike strict R (fail fault) (fail fault' : Op σ α) φ R :=
  fun _ _ _ hst => ⟨h, hst, fun _ => rfl⟩

theorem alike_query {f g : σ → α} (h : ∀ s t, R s t → φ (f s) (g t)) :
    Alike strict R (query f) (query g) φ R :=
  fun _ s t hst => ⟨h s t hst, hst, fun _ => rfl⟩

theorem alike_compute {f g : σ → Except Fault α}
    (h : ∀ s t, R s t → Concur strict φ (f s) (g t)) :
    Alike strict R (compute f) (compute g) φ R :=
  fun _ s t hst => ⟨h s t hst, hst, fun _ => rfl⟩

/-- Computations that come to the same. -/
theorem alike_compute_same {f g : σ → Except Fault α} (h : ∀ s t, R s t → g t = f s) :
    Alike strict R (compute f) (compute g) (fun a b => b = a) R := by
  refine alike_compute fun s t hst => ?_
  rw [h s t hst]
  exact concur_self fun _ _ => rfl

theorem alike_modify {f g : σ → σ} (h : ∀ s t, P s t → R (f s) (g t)) :
    Alike strict P (modify f) (modify g) (fun _ _ => True) R :=
  fun _ s t hst => ⟨trivial, h s t hst, fun _ => rfl⟩

theorem alike_log {event event' : Event} (h : strict → event' = event) :
    Alike strict R (log event) (log event' : Op σ Unit) (fun _ _ => True) R := by
  refine fun v s t hst => ⟨trivial, hst, fun hs => ?_⟩
  rw [h hs]
  rfl

/-- A test that both states pass or neither does.  What the first one passes it with is known
afterwards. -/
theorem alike_ensure {p q : σ → Prop} [∀ s, Decidable (p s)] [∀ s, Decidable (q s)]
    {fault fault' : σ → Fault} {known : Prop} (hiff : ∀ s t, R s t → (q t ↔ p s))
    (hknown : ∀ s t, R s t → p s → known)
    (hfault : strict → ∀ s t, R s t → fault' t = fault s) :
    Alike strict R (ensure p fault) (ensure q fault') (fun _ _ => known) R := by
  intro v s t hst
  unfold ensure
  by_cases hp : p s
  · rw [if_pos hp, if_pos ((hiff s t hst).mpr hp)]
    exact ⟨hknown s t hst hp, hst, fun _ => rfl⟩
  · rw [if_neg hp, if_neg fun hq => hp ((hiff s t hst).mp hq)]
    exact ⟨fun hs => hfault hs s t hst, hst, fun _ => rfl⟩

theorem alike_logComputed (level : Level) (event : Except Fault Event) :
    Alike strict R (logComputed level event) (logComputed level event) (fun _ _ => True) R := by
  intro v s t hst
  unfold logComputed
  split
  · rcases event with fault | event
    · exact ⟨fun _ => rfl, hst, fun _ => rfl⟩
    · exact ⟨trivial, hst, fun _ => rfl⟩
  · exact ⟨trivial, hst, fun _ => rfl⟩

/-! ### One after the other -/

/-- **What the first operations have in common is what the next ones start from.** -/
theorem alike_bind {f g : α → Op σ β} (hxy : Alike strict P x y φ R)
    (hRS : ∀ s t, R s t → S s t) (hfg : ∀ a b, φ a b → Alike strict R (f a) (g b) ψ S) :
    Alike strict P (x >>= f) (y >>= g) ψ S := by
  intro v s t hst
  have h := hxy v s t hst
  rw [bind_apply, bind_apply]
  generalize x v s = outcome at h ⊢
  generalize y v t = outcome' at h ⊢
  rcases outcome with ⟨fault | a, s', events⟩ <;> rcases outcome' with ⟨fault' | b, t', events'⟩
  · exact ⟨h.1, hRS _ _ h.2.1, h.2.2⟩
  · exact h.1.elim
  · exact h.1.elim
  · obtain ⟨hvalue, hstate, hevents⟩ := hfg a b h.1 v s' t' h.2.1
    refine ⟨hvalue, hstate, fun hs => ?_⟩
    change events' ++ _ = events ++ _
    rw [show events' = events from h.2.2 hs, hevents hs]

/-- Both runs keep to the same relation throughout. -/
theorem Alike.bind {f g : α → Op σ β} (hxy : Alike strict R x y φ R)
    (hfg : ∀ a b, φ a b → Alike strict R (f a) (g b) ψ R) :
    Alike strict R (x >>= f) (y >>= g) ψ R :=
  alike_bind hxy (fun _ _ hst => hst) hfg

/-- Two runs take the same branch, and on the way through the first one the test is known to have
succeeded. -/
theorem alike_branch {p q : σ → Bool} {x' y' : Op σ α} (h : ∀ s t, P s t → q t = p s)
    (hyes : Alike strict (fun s t => P s t ∧ p s = true) x y φ R)
    (hno : Alike strict P x' y' φ R) :
    Alike strict P (query p >>= fun yes => if yes then x else x')
      (query q >>= fun yes => if yes then y else y') φ R := by
  intro v s t hst
  change Concur strict φ ((if p s then x else x') v s).value ((if q t then y else y') v t).value ∧
    R ((if p s then x else x') v s).state ((if q t then y else y') v t).state ∧
    (strict → ((if q t then y else y') v t).events = ((if p s then x else x') v s).events)
  rw [h s t hst]
  by_cases hp : p s = true
  · rw [if_pos hp, if_pos hp]
    exact hyes v s t ⟨hst, hp⟩
  · rw [if_neg hp, if_neg hp]
    exact hno v s t hst

theorem Alike.map {f g : α → β} (hxy : Alike strict R x y φ R)
    (hfg : ∀ a b, φ a b → ψ (f a) (g b)) : Alike strict R (f <$> x) (g <$> y) ψ R := by
  rw [map_eq_pure_bind, map_eq_pure_bind]
  exact hxy.bind fun a b hab => alike_pure (hfg a b hab)

theorem alike_forM {f : α → Op σ PUnit}
    (hf : ∀ a, Alike strict R (f a) (f a) (fun _ _ => True) R) :
    ∀ xs : List α, Alike strict R (xs.forM f) (xs.forM f) (fun _ _ => True) R := by
  intro xs
  induction xs with
  | nil => exact alike_pure trivial
  | cons a xs ih => exact (hf a).bind fun _ _ _ => ih

end Op

end BuddySystem
