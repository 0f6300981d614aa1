import BuddySystem.Proofs.Orderly

/-!
# What an operation may write

This module asks what an operation can do to the states of the frames, whatever
allocator it starts from: nothing is assumed about its lists.  `Writes states a a'`
says that on the way from `a` to `a'` no states were written but those in `states`, and
none into a frame that cannot be reached.  An operation is confined to some states
(`Op.Confined`) when it writes no others, and an operation that is put together from
confined ones is confined.

So moving blocks between the lists writes no state at all (`confined_split`,
`confined_merge`), handing over and taking back frees frames only, and handing out and
withdrawing allocates frames only.  That is `confined_perform`.
-/

namespace BuddySystem

/-- The states that a call can write. -/
def Call.writes : Call → Set PageState
  | .insert _ _ | .free _ => {.free}
  | .remove _ _ | .allocate _ _ => {.allocated}
  | _ => ∅

namespace Allocator

/-- No states but the given ones were written, and none into a frame that cannot be reached. -/
structure Writes (states : Set PageState) (a a' : Allocator) : Prop where
  hidden : a'.view.hidden = a.view.hidden
  unseen : ∀ f, a.view.hidden f = true → (f ∈ a'.view.free ↔ f ∈ a.view.free)
  /-- A free frame stays free unless frames are allocated. -/
  free : .allocated ∉ states → a.view.free ⊆ a'.view.free
  allocated : .free ∉ states → a'.view.free ⊆ a.view.free
  allocations : a.counters.allocations ≤ a'.counters.allocations

variable {states : Set PageState} {a a' a'' : Allocator}

namespace Writes

/-- What leaves the survey and the count of allocations writes nothing. -/
theorem of_survey (hs : a'.registry.survey = a.registry.survey)
    (hc : a.counters.allocations ≤ a'.counters.allocations) : Writes states a a' where
  hidden := congrArg Survey.hidden hs
  unseen := fun f _ => by rw [show a'.view.free = a.view.free from congrArg Survey.free hs]
  free := fun _ => (congrArg Survey.free hs).ge
  allocated := fun _ => (congrArg Survey.free hs).le
  allocations := hc

theorem refl (a : Allocator) : Writes states a a := of_survey rfl (Nat.le_refl _)

theorem trans (h : Writes states a a') (h' : Writes states a' a'') : Writes states a a'' where
  hidden := h'.hidden.trans h.hidden
  unseen := by
    intro f hf
    have hf' : a'.view.hidden f = true := by rw [h.hidden, hf]
    exact (h'.unseen f hf').trans (h.unseen f hf)
  free := fun hn => (h.free hn).trans (h'.free hn)
  allocated := fun hn => (h'.allocated hn).trans (h.allocated hn)
  allocations := h.allocations.trans h'.allocations

/-- Where no state was written, the same frames are free. -/
theorem free_eq (h : Writes ∅ a a') : a'.view.free = a.view.free :=
  Finset.Subset.antisymm (h.allocated (Set.notMem_empty _)) (h.free (Set.notMem_empty _))

end Writes

end Allocator

open Allocator

/-! ### Confined operations -/

/-- The operation writes no states but the given ones, from whatever allocator it starts. -/
def Op.Confined {α : Type} (states : Set PageState) (x : Op Allocator α) : Prop :=
  ∀ v a, Writes states a (x v a).state

namespace Op

variable {α β : Type} {x : Op Allocator α} {states : Set PageState}

theorem Still.confined (h : x.Still) : x.Confined states := by
  intro v a
  rw [h v a]
  exact .refl a

theorem Confined.ends (h : x.Confined states) {v : Verbosity} {a : Allocator} :
    x.Ends v a (fun _ a' => Writes states a a') fun a' => Writes states a a' := by
  have hw := h v a
  unfold Ends
  rcases hx : x v a with ⟨fault | b, a', events⟩ <;> rw [hx] at hw <;> exact hw

theorem Confined.bind {f : α → Op Allocator β} (hx : x.Confined states)
    (hf : ∀ a, (f a).Confined states) : (x >>= f).Confined states := by
  intro v a
  have h : (x >>= f).Ends v a (fun _ a' => Writes states a a') fun a' => Writes states a a' :=
    hx.ends.bind (fun _ hw => hw) fun b a' hw =>
      (hf b).ends.mono (fun _ _ => hw.trans) fun _ => hw.trans
  exact h.state

theorem Confined.map {f : α → β} (hx : x.Confined states) : (f <$> x).Confined states := by
  rw [map_eq_pure_bind]
  exact hx.bind fun a => (still_pure (f a)).confined

end Op

open Op

/-! ### Lists -/

namespace FreeList

variable {t : Threaded} {v : Verbosity} {pfn : Nat}

theorem survey_insert (pfn : Nat) :
    (insert pfn v t).state.registry.survey = t.registry.survey := by
  have h : (insert pfn).Ends v t (fun _ t' => t'.registry.survey = t.registry.survey)
      fun t' => t'.registry.survey = t.registry.survey := by
    unfold insert
    rw [ends_bind, ends_query]
    cases t.locate pfn with
    | linked _ => rfl
    | cycle => rfl
    | broken _ => rfl
    | gap prev next =>
      have hlink : (t.link pfn prev next).registry.survey = t.registry.survey :=
        (Threaded.survey_relink _ _).trans (Registry.survey_modify_setNext _ _)
      dsimp only
      rw [ends_bind, ends_query]
      split
      · rw [ends_bind, ends_modify, ends_bind, ends_compute]
        exact ⟨fun _ _ => hlink, fun _ _ => hlink⟩
      · rfl
  exact h.state

theorem survey_remove (pfn : Nat) :
    (remove pfn v t).state.registry.survey = t.registry.survey := by
  have h : (remove pfn).Ends v t (fun _ t' => t'.registry.survey = t.registry.survey)
      fun t' => t'.registry.survey = t.registry.survey := by
    unfold remove
    rw [ends_bind, ends_query]
    cases t.locate pfn with
    | gap _ _ => rfl
    | cycle => rfl
    | broken _ => rfl
    | linked prev =>
      have hunlink : (t.unlink pfn prev).registry.survey = t.registry.survey :=
        (Threaded.survey_relink _ _).trans (Registry.survey_modify_setNext _ _)
      dsimp only
      rw [ends_bind, ends_query]
      split
      · rw [ends_bind, ends_modify, ends_bind, ends_compute]
        exact ⟨fun _ _ => hunlink, fun _ _ => hunlink⟩
      · rfl
  exact h.state

theorem still_contains (pfn : Nat) : (contains pfn).Still := by
  refine (still_query _).bind fun position => ?_
  cases position with
  | linked _ => exact still_pure _
  | gap _ _ => exact still_pure _
  | broken _ => exact still_pure _
  | cycle => exact (still_log _).bind fun _ => still_pure _

end FreeList

namespace Allocator

variable {block : Block} {order pfn count : Nat}

/-! ### Parts -/

theorem confined_onList {α : Type} {op : Op Threaded α}
    (h : ∀ v t, (op v t).state.registry.survey = t.registry.survey) :
    (onList order op).Confined states := by
  intro v a
  apply Writes.of_survey
  · exact h v (a.threaded order)
  · exact Nat.le_refl _

theorem confined_addFree (pages : Nat) : (addFree pages).Confined states :=
  (still_compute _).confined.bind fun _ _ _ => .of_survey rfl (Nat.le_refl _)

theorem confined_subFree (pages : Nat) : (subFree pages).Confined states :=
  (still_compute _).confined.bind fun _ _ _ => .of_survey rfl (Nat.le_refl _)

/-- Counting writes nothing, if it does not take back an allocation. -/
theorem confined_count {get : Counters → Nat} {set : Nat → Counters → Counters}
    (h : ∀ c, c.allocations ≤ (set (get c + 1) c).allocations) :
    (Allocator.count get set).Confined states := by
  intro v a
  have hends : (Allocator.count get set).Ends v a (fun _ a' => Writes states a a')
      fun a' => Writes states a a' := by
    unfold Allocator.count
    rw [ends_bind, ends_compute]
    constructor
    · intro n hn
      obtain ⟨rfl, _⟩ := Word.add_eq_ok_iff.mp hn
      exact .of_survey rfl (h a.counters)
    · exact fun _ _ => .refl a
  exact hends.state

theorem confined_writeState (state : PageState) (count pfn : Nat) :
    (writeState state count pfn).Confined {state} := by
  intro v a
  obtain ⟨n, _, hhas, _, hsurvey, _⟩ := Registry.mark_cases state count pfn a.registry
  have hstate : (writeState state count pfn v a).state =
      { a with registry := (Registry.mark state count pfn a.registry).1 } := by
    rw [writeState_apply]
    split <;> rfl
  have hview : (writeState state count pfn v a).state.view =
      { a.view with free := state.write a.view.free (Finset.Ico pfn (pfn + n)) } := by
    rw [hstate]
    show ({ (Registry.mark state count pfn a.registry).1.survey with .. } : View) = _
    rw [hsurvey]
    rfl
  constructor
  · rw [hview]
  · intro f hf
    have hout : f ∉ Finset.Ico pfn (pfn + n) := by
      intro hm
      have hvisible := (Registry.has_iff.mp (hhas f hm)).2
      rw [show a.registry.hidden f = true from hf] at hvisible
      cases hvisible
    rw [hview]
    cases state <;> simp [PageState.write, hout]
  · intro hn
    rw [hview]
    cases state with
    | free => exact Finset.subset_union_left
    | allocated => exact absurd rfl hn
  · intro hn
    rw [hview]
    cases state with
    | free => exact absurd rfl hn
    | allocated => exact Finset.sdiff_subset
  · rw [hstate]

theorem confined_mark (state : PageState) (count pfn : Nat) :
    (mark state count pfn).Confined {state} :=
  (still_compute _).confined.bind fun _ => confined_writeState state count pfn

/-! ### Single blocks -/

theorem still_ensureFits (action : BlockAction) (block : Block) : (ensureFits action block).Still :=
  (still_ensure _ _).bind fun _ => still_ensure _ _

theorem confined_enlist (block : Block) : (enlist block).Confined states := by
  refine (still_ensureFits _ _).confined.bind fun _ =>
    (confined_onList fun v t => FreeList.survey_insert _).bind fun yes => ?_
  cases yes with
  | true => exact confined_addFree _
  | false => exact (still_fail _).confined

theorem confined_delist (block : Block) : (delist block).Confined states := by
  refine (still_ensureFits _ _).confined.bind fun _ =>
    (confined_onList fun v t => FreeList.survey_remove _).bind fun yes => ?_
  cases yes with
  | true => exact confined_subFree _
  | false => exact (still_fail _).confined

theorem confined_isListed (block : Block) : (isListed block).Confined states :=
  confined_onList fun v t => by rw [FreeList.still_contains]

theorem confined_split (block : Block) : (split block).Confined states :=
  (still_ensure _ _).confined.bind fun _ => (confined_delist _).bind fun _ =>
    (still_compute _).confined.bind fun _ => (confined_enlist _).bind fun _ =>
    (confined_enlist _).bind fun _ => (still_log _).confined.bind fun _ =>
    confined_count fun _ => Nat.le_refl _

theorem confined_merge (block : Block) : (merge block).Confined states := by
  have hbuddy : ∀ buddy, (isFreeBuddy buddy).Confined states := by
    intro buddy
    refine (still_query _).confined.bind fun yes => ?_
    cases yes with
    | true => exact confined_isListed buddy
    | false => exact (still_pure _).confined
  refine (still_ensure _ _).confined.bind fun _ => (still_compute _).confined.bind fun buddy =>
    (hbuddy buddy).bind fun yes => ?_
  cases yes with
  | true =>
    exact (confined_delist _).bind fun _ => (confined_delist _).bind fun _ =>
      (confined_enlist _).bind fun _ => (still_log _).confined.bind fun _ =>
      (confined_count fun _ => Nat.le_refl _).bind fun _ => (still_pure _).confined
  | false => exact (still_pure _).confined

/-! ### Requests and blocks given back -/

theorem confined_splitDown (pfn order : Nat) : ∀ n, (splitDown pfn order n).Confined states := by
  intro n
  induction n with
  | zero => exact (still_pure _).confined
  | succ n ih => exact (confined_split _).bind fun _ => ih

theorem confined_mergeUp : ∀ (n : Nat) (block : Block), (mergeUp n block).Confined states := by
  intro n
  induction n with
  | zero => exact fun _ => (still_pure _).confined
  | succ n ih =>
    intro block
    refine (confined_merge block).bind fun merged => ?_
    cases merged with
    | some larger => exact ih larger
    | none => exact (still_pure _).confined

/-- Refusing a request for which there is no block writes nothing. -/
theorem confined_exhausted (order : Nat) :
    (do
      let totalFree ← Op.query fun a => a.totalFree
      Op.log (.exhausted order totalFree)
      countFailure
      reportExhaustion order
      return .error .noMemory : Op Allocator (Except AllocError Grant)).Confined states :=
  (still_query _).confined.bind fun _ => (still_log _).confined.bind fun _ =>
    (confined_count fun _ => Nat.le_refl _).bind fun _ =>
    (still_reportExhaustion order).confined.bind fun _ => (still_pure _).confined

theorem confined_allocate (order : Nat) (hints : Hints) :
    (allocate order hints).Confined {.allocated} := by
  refine (still_query _).confined.bind fun lastOrder => ?_
  split
  · exact (still_log _).confined.bind fun _ => (still_pure _).confined
  · refine (still_query _).confined.bind fun source => ?_
    cases source with
    | some source =>
      refine Confined.bind ?_ fun _ => (still_pure _).confined
      exact (confined_splitDown _ _ _).bind fun _ => (confined_delist _).bind fun _ =>
        (confined_mark _ _ _).bind fun _ => (confined_count fun _ => Nat.le_succ _).bind fun _ =>
        (still_pure _).confined
    | none => exact confined_exhausted order

theorem confined_free (block : Block) : (Allocator.free block).Confined {.free} :=
  (still_ensureFits _ _).confined.bind fun _ => (still_compute _).confined.bind fun _ =>
    (still_compute _).confined.bind fun _ => (confined_mark _ _ _).bind fun _ =>
    (confined_enlist _).bind fun _ => (confined_count fun _ => Nat.le_refl _).bind fun _ =>
    (still_query _).confined.bind fun _ => confined_mergeUp _ _

/-! ### Runs -/

theorem confined_carve (stop : Nat) : ∀ budget pfn, (carve stop budget pfn).Confined states := by
  intro budget
  induction budget with
  | zero => exact fun _ => (still_pure _).confined
  | succ budget ih =>
    intro pfn
    rw [carve]
    split
    · exact (still_compute _).confined.bind fun _ => (confined_enlist _).bind fun _ =>
        (ih _).bind fun _ => (still_pure _).confined
    · exact (still_pure _).confined

theorem confined_insertRun (start count : Nat) : (insertRun start count).Confined {.free} := by
  unfold insertRun
  split
  · exact (still_log _).confined.bind fun _ => (still_pure _).confined
  · exact (still_compute _).confined.bind fun _ => (still_ensure _ _).confined.bind fun _ =>
      (still_compute _).confined.bind fun _ => (confined_mark _ _ _).bind fun _ =>
      (confined_carve _ _ _).bind fun _ => (still_query _).confined.bind fun _ =>
      (still_log _).confined.bind fun _ => (still_pure _).confined

theorem confined_headedOrderFrom? (pfn : Nat) : ∀ orders order,
    (headedOrderFrom? pfn orders order).Confined states := by
  intro orders
  induction orders with
  | zero => exact fun _ => (still_pure _).confined
  | succ orders ih =>
    intro order
    refine (confined_isListed _).bind fun yes => ?_
    cases yes with
    | true => exact (still_pure _).confined
    | false => exact ih (order + 1)

theorem confined_withdraw (stop : Nat) : ∀ budget pfn,
    (withdraw stop budget pfn).Confined {.allocated} := by
  intro budget
  induction budget with
  | zero => exact fun _ => (still_pure _).confined
  | succ budget ih =>
    intro pfn
    rw [withdraw]
    split
    · refine Confined.bind ((still_query _).confined.bind fun _ =>
        confined_headedOrderFrom? _ _ _) fun found => ?_
      cases found with
      | none => exact (still_fail _).confined
      | some order =>
        exact (still_compute _).confined.bind fun _ => (still_ensure _ _).confined.bind fun _ =>
          (confined_delist _).bind fun _ => (confined_mark _ _ _).bind fun _ =>
          (ih _).bind fun _ => (still_pure _).confined
    · exact (still_pure _).confined

theorem confined_removeRun (start count : Nat) : (removeRun start count).Confined {.allocated} := by
  unfold removeRun
  split
  · exact (still_log _).confined.bind fun _ => (still_pure _).confined
  · exact (still_compute _).confined.bind fun _ => (confined_withdraw _ _ _).bind fun _ =>
      (still_query _).confined.bind fun _ => (still_log _).confined.bind fun _ =>
      (still_pure _).confined

/-! ### Calls -/

/-- **A call writes no states but its own**, and none into a frame that cannot be reached. -/
theorem confined_perform (call : Call) : (perform call).Confined call.writes := by
  cases call with
  | insert start count => exact (confined_insertRun start count).map
  | remove start count => exact (confined_removeRun start count).map
  | allocate order hints =>
    refine (confined_allocate order hints).bind fun answer => ?_
    cases answer <;> exact (still_pure _).confined
  | free block => exact (confined_free block).bind fun _ => (still_pure _).confined
  | holds block =>
    refine Confined.map ((still_query _).confined.bind fun yes => ?_)
    cases yes with
    | true => exact confined_isListed block
    | false => exact (still_pure _).confined
  | totalFree => exact (still_query _).confined
  | lastOrder => exact (still_query _).confined
  | blockCount order => exact (still_query _).confined
  | stats => exact (still_query _).confined
  | heads order => exact (still_listedHeads order).confined.map
  | dump => exact (still_compute _).confined.map
  | logDump => exact still_logDump.confined.bind fun _ => (still_pure _).confined

end Allocator

end BuddySystem
