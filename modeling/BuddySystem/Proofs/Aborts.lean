import BuddySystem.Proofs.Rejection
import BuddySystem.Proofs.Settling

/-!
# Runs that are not taken over

A run is taken over in two steps.  All of its frames are marked as free, and then it is cut
into blocks, which are listed one after the other.  The tests before the first write look
at the two ends of the run and at the states of the frames that have descriptors.  They
let two things pass that end in a fault later on.

* A frame inside the run may have no descriptor.  Then the frames before it stay marked as
  free (`StopsAtGap`).
* The cutting tries the last order first, and the end of such a block may be beyond all
  numbers, though the run is not.  Then the whole run stays marked as free, and only the
  part that was cut up is in blocks (`StopsAtLimit`).

Frames that are free and in no block are lost: they cannot be handed out, and a run with
one of them is refused.  `aborted_of_history` says that there is no third thing, so that
in all other cases a run is taken over or nothing changes.
-/

namespace BuddySystem.Allocator

variable {B : Finset Block} {blocks : List Block} {start count mid stop lastOrder : Nat}

/-- The frames before `mid`, which has no descriptor, are free now and in no block. -/
structure StopsAtGap (a : Allocator) (start count mid : Nat) (a' : Allocator) : Prop where
  start_lt : start < mid
  lt_stop : mid < start + count
  missing : a.registry.page? mid = none
  turns : Turns a (Finset.Ico start mid) .allocated .free a'
  stray : ∀ o, ∀ p ∈ a'.heads o, Disjoint (⟨p, o⟩ : Block).frames (Finset.Ico start mid)
  links : ∀ f, a'.registry.next? f = a.registry.next? f
  /-- Nothing but the registry has changed. -/
  rest : a' = { a with registry := a'.registry }

/-- All frames of the run are free now, and those from `mid` on are in no block. -/
structure StopsAtLimit (a : Allocator) (start count mid : Nat) (blocks : List Block)
    (a' : Allocator) : Prop where
  lt_stop : mid < start + count
  limit_le : Word.limit ≤ mid + 2 ^ a.lastOrder
  turns : Turns a (Finset.Ico start (start + count)) .allocated .free a'
  stray : ∀ o, ∀ p ∈ a'.heads o,
    Disjoint (⟨p, o⟩ : Block).frames (Finset.Ico mid (start + count))
  tiles : Tiles start mid blocks
  listed : ∀ o p, p ∈ a'.heads o ↔ p ∈ a.heads o ∨ (⟨p, o⟩ : Block) ∈ blocks
  total : a'.totalFree = a.totalFree + (mid - start)
  counters : a'.counters = a.counters
  orderly : a'.Orderly

variable {stale : Set Nat} {a a₀ a' : Allocator} {log : List Exchange} {registry : Registry}
  {state : PageState} {fault : Fault}

/-! ### Marking -/

/-- Where no frame has been marked, nothing has changed. -/
theorem Marks.eq_self (hm : Marks state start start a a') : a' = a := by
  have hview := hm.view
  rw [Finset.Ico_self, PageState.write_empty] at hview
  have hregistry : a'.registry = a.registry :=
    Registry.eq_of_survey (congrArg View.toSurvey hview) hm.link
  rw [hm.rest, hregistry]

theorem Marks.next?_eq (hm : Marks state start stop a a') (f : Nat) :
    a'.registry.next? f = a.registry.next? f := by
  have hlink := hm.link f
  have hhidden : a'.registry.hidden = a.registry.hidden :=
    congrArg (fun V : View => V.hidden) hm.view
  rw [Registry.next?, Registry.next?, Registry.page?, Registry.page?, hhidden]
  cases a.registry.hidden f with
  | false => exact hlink
  | true => rfl

/-! ### The two ways to stop -/

/-- Frames that were not free are in no block of the stock. -/
theorem Keeps.disjoint_frames (h : a.Keeps stale B) {b : Block} (hb : b ∈ B) {F : Finset Nat}
    (hF : ∀ f ∈ F, f ∉ a.view.free) : Disjoint b.frames F := by
  rw [Finset.disjoint_left]
  intro f hf hfF
  exact hF f hfF (h.sound.free (frames_subset_covered hb hf))

theorem Marks.stopsAtGap (h : a.Keeps stale B) (hs : a.view.Sighted B) (h' : a'.Keeps stale B)
    (hlt : start < mid) (hmid : mid < start + count) (hreach : ¬ a.view.Reaches mid)
    (hnew : ∀ f ∈ Finset.Ico start mid, f ∉ a.view.free) (hm : Marks .free start mid a a') :
    StopsAtGap a start count mid a' := by
  constructor
  · exact hlt
  · exact hmid
  · have hnone := mt has_iff_reaches.mp hreach
    rwa [Registry.has, Option.not_isSome_iff_eq_none] at hnone
  · exact turns_of_new hm.view fun f hf => ⟨hm.reaches f hf, hnew f hf⟩
  · intro o p hp
    have hb := ((h'.heads_spells (hm.continues.sighted hs) o).2 p).mp hp
    exact h.disjoint_frames hb hnew
  · exact hm.next?_eq
  · exact hm.rest

theorem Keeps.stopsAtLimit (h : a.Keeps stale B) (hs : a.view.Sighted B)
    (hnew : ∀ f ∈ Finset.Ico start (start + count), a.view.Reaches f ∧ f ∉ a.view.free)
    (hmid : mid < start + count) (hlimit : Word.limit ≤ mid + 2 ^ a.lastOrder)
    (htiles : Tiles start mid blocks) (h' : a'.Keeps stale (B ∪ blocks.toFinset))
    (hv : a'.view =
      { a.view with free := a.view.free ∪ Finset.Ico start (start + count) }) :
    StopsAtLimit a start count mid blocks a' := by
  have hpart : Finset.Ico start mid ⊆ Finset.Ico start (start + count) :=
    Finset.Ico_subset_Ico_right (Nat.le_of_lt hmid)
  have hs' : a'.view.Sighted (B ∪ blocks.toFinset) := by
    intro f hf
    rw [covered_union, htiles.covered_eq, Finset.mem_union] at hf
    rw [hv]
    rcases hf with hold | hcut
    · exact hs f hold
    · exact (hnew f (hpart hcut)).1.2
  have hmem := fun o p => (h'.heads_spells hs' o).2 p
  constructor
  · exact hmid
  · exact hlimit
  · exact turns_of_new hv hnew
  · intro o p hp
    rcases Finset.mem_union.mp ((hmem o p).mp hp) with hold | hcut
    · apply h.disjoint_frames hold
      intro f hf
      exact (hnew f (Finset.Ico_subset_Ico_left htiles.le hf)).2
    · exact (Finset.Ico_disjoint_Ico_consecutive start mid (start + count)).mono_left
        (htiles.frames_subset (List.mem_toFinset.mp hcut))
  · exact htiles
  · intro o p
    rw [hmem, (h.heads_spells hs o).2, Finset.mem_union, List.mem_toFinset]
  · exact h.total_of_tiles h' htiles fun f hf => (hnew f (hpart hf)).2
  · exact congrArg View.counters hv
  · exact h'.orderly hs'

/-- **What a run leaves behind that is not taken over.** -/
theorem Aborted.cases (h : a.Keeps stale B) (hs : a.view.Sighted B)
    (haborted : Aborted stale a B start count a') :
    a' = a ∨ (∃ mid, StopsAtGap a start count mid a') ∨
      ∃ mid blocks, StopsAtLimit a start count mid blocks a' := by
  cases haborted with
  | rejected _ _ => exact Or.inl rfl
  | @gap mid _ hmid hreach hnew hm h' =>
    obtain ⟨hle, hlt⟩ := Finset.mem_Ico.mp hmid
    rcases Nat.eq_or_lt_of_le hle with rfl | hstart
    · -- The first frame of the run is missing, so none was marked.
      exact Or.inl hm.eq_self
    · exact Or.inr (Or.inl ⟨mid, hm.stopsAtGap h hs h' hstart hlt hreach hnew⟩)
  | @cut mid blocks _ hnew hmid hlimit htiles h' hv =>
    exact Or.inr (Or.inr ⟨mid, blocks, h.stopsAtLimit hs hnew hmid hlimit htiles h' hv⟩)

/-- **A fault changes nothing unless it comes from a gap in the run or from the end of numbers.**
This is so over any registry and after any calls and faults. -/
theorem aborted_of_history (hcreate : create registry lastOrder = .ok a₀) (h : History a₀ log a)
    (v : Verbosity) (hfault : (perform (.insert start count) v a).value = .error fault) :
    ((∀ f, start < f → f < start + count → a.registry.page? f ≠ none) →
        start + count + 2 ^ a.lastOrder ≤ Word.limit →
        (perform (.insert start count) v a).state = a) ∧
      ((perform (.insert start count) v a).state = a ∨
        (∃ mid, StopsAtGap a start count mid (perform (.insert start count) v a).state) ∨
        ∃ mid blocks,
          StopsAtLimit a start count mid blocks (perform (.insert start count) v a).state) := by
  obtain ⟨B, hB, hs⟩ := sighted_of_history hcreate h
  have hends : (perform (.insert start count)).Ends v a (fun _ _ => True)
      (Aborted Set.univ a B start count) := by
    rw [perform, Op.ends_map]
    refine (insertRun_ends hB start count).mono (fun _ _ _ => trivial) ?_
    intro a' he
    exact he.2.2 hs
  rcases hx : perform (.insert start count) v a with ⟨fault' | reply, a', events⟩
  · have hcases := (hends.of_error hx).cases hB hs
    refine ⟨fun hpages hroom => ?_, hcases⟩
    rcases hcases with he | ⟨mid, hgap⟩ | ⟨mid, blocks, hlimit⟩
    · exact he
    · exact absurd hgap.missing (hpages mid hgap.start_lt hgap.lt_stop)
    · have hlt := hlimit.lt_stop
      have hle := hlimit.limit_le
      omega
  · rw [hx] at hfault
    cases hfault

/-- The third of four frames has no descriptor. -/
theorem aborted_at_third_frame :
    ∃ table a₀, FrameTable.create 4096 0 4 = .ok table ∧
      create ((Registry.ofTable table).hide fun f => f = 2) 2 = .ok a₀ ∧ History a₀ [] a₀ ∧
      (perform (.insert 0 4) none a₀).value = .error (.missingPage 2) ∧
      (perform (.insert 0 4) none a₀).state ≠ a₀ ∧
      ∃ mid, StopsAtGap a₀ 0 4 mid (perform (.insert 0 4) none a₀).state := by
  have hrun : ∃ table a₀, FrameTable.create 4096 0 4 = .ok table ∧
      create ((Registry.ofTable table).hide fun f => f = 2) 2 = .ok a₀ ∧
      (perform (.insert 0 4) none a₀).value = .error (.missingPage 2) ∧
      (perform (.insert 0 4) none a₀).state.registry.freeFrames ≠ a₀.registry.freeFrames ∧
      a₀.lastOrder = 2 := by
    refine ⟨_, _, rfl, rfl, ?_⟩
    decide +kernel
  obtain ⟨table, a₀, htable, hcreate, hfault, hfree, hlast⟩ := hrun
  have hne : (perform (.insert 0 4) none a₀).state ≠ a₀ := fun he => hfree (by rw [he])
  obtain ⟨_, he | hgap | ⟨mid, blocks, hlimit⟩⟩ := aborted_of_history hcreate .start none hfault
  · exact absurd he hne
  · exact ⟨table, a₀, htable, hcreate, .start, hfault, hne, hgap⟩
  · have hmid := hlimit.lt_stop
    have hle := hlimit.limit_le
    have hsmall : 8 < Word.limit := by decide
    rw [hlast] at hle
    omega

/-- Lists, links, states of frames and the count of free pages are the same. -/
structure Restores (a a' : Allocator) : Prop where
  heads : ∀ o, a'.heads o = a.heads o
  links : ∀ f, a'.registry.next? f = a.registry.next? f
  states : ∀ f, (a'.registry.page? f).map Page.state = (a.registry.page? f).map Page.state
  total : a'.totalFree = a.totalFree

/-- A run of one frame is not taken over, since a block of two would end beyond all numbers, but the
frame is free afterwards. -/
theorem not_restored_near_limit :
    ¬ ∀ (a₀ a : Allocator) (log : List Exchange) (start count : Nat) (fault : Fault), a₀.Fresh →
      History a₀ log a → Answered log →
      (perform (.insert start count) none a).value = .error fault →
      Restores a (perform (.insert start count) none a).state := by
  intro hall
  have hrun : ∃ a₀, Fresh a₀ ∧
      (perform (.insert 18446744073709551614 1) none a₀).value =
        .error (.overflow .addition) ∧
      (a₀.registry.page? 18446744073709551614).map Page.state = some .allocated ∧
      ((perform (.insert 18446744073709551614 1) none a₀).state.registry.page?
        18446744073709551614).map Page.state = some .free := by
    refine ⟨_, ⟨4096, 18446744073709551614, 1, 1, _, rfl, rfl⟩, ?_⟩
    decide +kernel
  obtain ⟨a₀, hfresh, hfault, hbefore, hafter⟩ := hrun
  have hstates := (hall a₀ a₀ [] _ _ _ hfresh .start (by decide) hfault).states
  rw [hstates, hbefore] at hafter
  cases hafter

end BuddySystem.Allocator
