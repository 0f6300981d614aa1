import BuddySystem.Proofs.Orderly
import BuddySystem.Proofs.TwinCalls

/-!
# Links from before

An allocator that is built over a table leaves the descriptors as they are.  They may
have links from an earlier allocator, to frames in other lists, in circles or out of
the table, and frames that were free then are still free.

* `outcomes_alike` with nothing moved up and no links compared says that none of
  these links makes a difference: a frame is compared once it has come into a list,
  and its link has been written by then.
* `Reserves.perform`: the frames that were free are never in stock, so they are not
  handed out, and no list has them.

`same_outcomes_of_same_states` puts these together, for any calls, those that end in
a fault included.
-/

namespace BuddySystem

/-- Two outcomes that show the same: the same answer or fault, the same events, and allocators that
differ in nothing but links of frames that are in no list. -/
structure Outcome.Same (o o' : Outcome Allocator Reply) : Prop where
  value : o'.value = o.value
  events : o'.events = o.events
  lists : ∀ order, o'.state.list order = o.state.list order
  heads : ∀ order, o'.state.heads order = o.state.heads order
  states : ∀ f, (o'.state.registry.page? f).map Page.state =
    (o.state.registry.page? f).map Page.state
  totalFree : o'.state.totalFree = o.state.totalFree
  counters : o'.state.counters = o.state.counters

/-- None of the frames in `F` is in a block that is handed out or listed. -/
structure Outcome.Spares (F : Finset Nat) (o : Outcome Allocator Reply) : Prop where
  granted : ∀ grant, o.value = .ok (.granted grant) → Disjoint grant.frames F
  listed : ∀ order, ∀ p ∈ o.state.heads order, Disjoint (⟨p, order⟩ : Block).frames F

theorem Call.shift_zero (call : Call) : call.shift 0 = call := by cases call <;> rfl

theorem Reply.shift_zero (reply : Reply) : reply.shift 0 = reply := by
  cases reply with
  | moved blocks => exact congrArg Reply.moved (List.map_id blocks)
  | heads pfns => exact congrArg Reply.heads (List.map_id pfns)
  | _ => rfl

namespace Allocator

variable {F : Finset Nat} {a a' : Allocator} {t t' : FrameTable} {last lastOrder : Nat}
  {v : Verbosity}

theorem shiftCalls_zero (calls : List (Verbosity × Call)) : shiftCalls 0 calls = calls := by
  unfold shiftCalls
  rw [List.map_congr_left (g := id) fun c _ => by rw [Call.shift_zero]; rfl]
  exact List.map_id calls

/-! ### What was free before -/

/-- Nothing is hidden, and the frames in `F` are free and not in stock. -/
structure Reserves (F : Finset Nat) (a : Allocator) : Prop where
  hidden : a.view.hidden = fun _ => false
  keeps : ∃ B, a.Keeps Set.univ B ∧ F ⊆ a.view.free \ covered B

theorem Reserves.listed (h : a.Reserves F) (order : Nat) :
    ∀ p ∈ a.heads order, Disjoint (⟨p, order⟩ : Block).frames F := by
  obtain ⟨B, hB, hF⟩ := h.keeps
  have hs : a.view.Sighted B := fun f _ => by rw [h.hidden]
  intro p hp
  have hb := ((hB.heads_spells hs order).2 p).mp hp
  exact (Finset.disjoint_of_subset_right hF Finset.disjoint_sdiff).mono_left
    (frames_subset_covered hb)

/-- Only a request is answered with a grant. -/
theorem allocate_of_granted (call : Call) :
    (perform call).Ends v a
      (fun reply _ => ∀ grant, reply = .granted grant →
        ∃ order hints, call = .allocate order hints) fun _ => True := by
  have hno : ∀ {reply : Reply}, (∀ grant, reply ≠ .granted grant) → ∀ grant,
      reply = .granted grant → ∃ order hints, call = .allocate order hints :=
    fun hne grant he => absurd he (hne grant)
  cases call with
  | allocate order hints => exact Op.ends_of_forall (fun _ _ _ _ => ⟨_, _, rfl⟩) fun _ => trivial
  | insert | remove | heads | holds | dump =>
    rw [perform, Op.ends_map]
    exact Op.ends_of_forall (fun _ _ => hno fun _ => Reply.noConfusion) fun _ => trivial
  | free | logDump =>
    rw [perform, Op.ends_bind]
    exact Op.ends_of_forall (fun _ _ => hno fun _ => Reply.noConfusion) fun _ => trivial
  | totalFree | lastOrder | blockCount | stats => exact hno fun _ => Reply.noConfusion

/-- **What was free before is not handed out and not listed**, and stays so, however the call
ends. -/
theorem Reserves.perform (h : a.Reserves F) (v : Verbosity) (call : Call) :
    (perform call v a).Spares F ∧ (perform call v a).state.Reserves F := by
  obtain ⟨B, hB, hF⟩ := h.keeps
  have hs : a.view.Sighted B := fun f _ => by rw [h.hidden]
  have hreserves : ∀ {a' : Allocator} {B' : Finset Block}, a.view.Continues a'.view →
      a'.Keeps Set.univ B' → a.view.free \ covered B ⊆ a'.view.free \ covered B' →
      a'.Reserves F := by
    intro a' B' hcont hB' hsub
    refine ⟨?_, B', hB', hF.trans hsub⟩
    rw [hcont]
    exact h.hidden
  have hends : (Allocator.perform call).Ends v a
      (fun reply a' => a'.Reserves F ∧ ∀ grant, reply = .granted grant →
        Disjoint grant.frames F) fun a' => a'.Reserves F := by
    refine ((perform_ends hB call).and (allocate_of_granted call)).mono ?_ ?_
    · rintro reply a' ⟨hp, hgranted⟩
      have hr := hp.restocked hB
      obtain ⟨B', hB', hloose⟩ := hr.keeps
      refine ⟨hreserves hr.continues hB' (hloose hs).ge, ?_⟩
      rintro grant rfl
      obtain ⟨order, hints, rfl⟩ := hgranted grant rfl
      cases hp with
      | granted ha =>
        cases ha with
        | granted _ _ hsub =>
          exact (Finset.disjoint_of_subset_right hF Finset.disjoint_sdiff).mono_left hsub
      | looked hq => exact hq.elim
    · rintro a' ⟨⟨hcont, ⟨B', hB', hloose⟩, _⟩, _⟩
      exact hreserves hcont hB' (hloose hs)
  rcases hx : Allocator.perform call v a with ⟨fault | reply, a', events⟩
  · have hreserve := hends.of_error hx
    exact ⟨⟨fun _ hn => (nomatch hn), hreserve.listed⟩, hreserve⟩
  · obtain ⟨hreserve, hgranted⟩ := hends.of_ok hx
    exact ⟨⟨fun grant he => hgranted grant (Except.ok.inj he), hreserve.listed⟩, hreserve⟩

theorem Reserves.outcomes : ∀ (calls : List (Verbosity × Call)) {a : Allocator}, a.Reserves F →
    ∀ o ∈ outcomes calls a, o.Spares F := by
  intro calls
  induction calls with
  | nil =>
    intro a _ o ho
    cases ho
  | cons c calls ih =>
    intro a h o ho
    obtain ⟨hspares, hreserves⟩ := h.perform c.1 c.2
    rcases List.mem_cons.mp ho with rfl | ho
    · exact hspares
    · exact ih hreserves o ho

theorem reserves_of_create (hc : create (Registry.ofTable t) lastOrder = .ok a) :
    a.Reserves (Registry.ofTable t).freeFrames := by
  have hnew : a.Keeps Set.univ ∅ ∧ a.registry = Registry.ofTable t :=
    keeps_of_create hc fun f hf => absurd (Set.mem_univ f) hf
  obtain ⟨hkeeps, hregistry⟩ := hnew
  refine ⟨?_, ∅, hkeeps, ?_⟩
  · change a.registry.hidden = _
    rw [hregistry]
    rfl
  · change _ ⊆ a.registry.freeFrames \ covered ∅
    rw [hregistry, covered, Finset.biUnion_empty, Finset.sdiff_empty]

/-! ### What was linked before -/

theorem Twins.same {o o' : Outcome Allocator Reply}
    (hvalue : Concur (0 = 0) (fun reply reply' => reply' = reply.shift 0) o.value o'.value)
    (hstate : o.state.Twins 0 last ∅ o'.state) (hevents : o'.events = o.events) :
    o.Same o' := by
  obtain ⟨_, _, h⟩ := hstate
  refine ⟨?_, hevents, fun order => ?_, fun order => ?_, h.registry.state, h.totalFree,
    h.counters⟩
  · exact (hvalue.mono (fun _ => rfl) fun reply _ he => he.trans reply.shift_zero).eq
  · rw [h.list, FreeList.shift_zero]
  · rw [h.heads]
    exact List.map_id _

/-- Tables that agree in everything but the links. -/
theorem shifted_of_same_states (hbase : t'.base = t.base) (hcount : t'.frameCount = t.frameCount)
    (hsize : t'.pageSize = t.pageSize)
    (hstates : ∀ f, (t'.page? f).map Page.state = (t.page? f).map Page.state) :
    (Registry.ofTable t).Shifted 0 last ∅ (Registry.ofTable t') where
  base := hbase
  frameCount := hcount
  pageSize := hsize
  state := hstates
  next := fun _ hf => hf.elim
  closed := fun _ hf => hf.elim
  fits := fun _ hf => hf.elim
  room := fun _ _ => Or.inl rfl

/-- **Links that were there before make no difference.**  Over tables with the same frames in the
same states, calls end in the same way, record the same events and leave the same lists and the
same states, and no frame that was free at first is ever handed out or listed. -/
theorem same_outcomes_of_same_states {t t' : FrameTable} (hbase : t'.base = t.base)
    (hcount : t'.frameCount = t.frameCount) (hsize : t'.pageSize = t.pageSize)
    (hstates : ∀ f, (t'.page? f).map Page.state = (t.page? f).map Page.state)
    (lastOrder : Nat) (calls : List (Verbosity × Call)) :
    Concur True
      (fun a a' => List.Forall₂ Outcome.Same (outcomes calls a) (outcomes calls a') ∧
        (∀ o ∈ outcomes calls a, o.Spares (Registry.ofTable t).freeFrames) ∧
        ∀ o ∈ outcomes calls a', o.Spares (Registry.ofTable t).freeFrames)
      (create (Registry.ofTable t) lastOrder) (create (Registry.ofTable t') lastOrder) := by
  have hfree : (Registry.ofTable t').freeFrames = (Registry.ofTable t).freeFrames := by
    ext f
    rw [Registry.mem_freeFrames, Registry.mem_freeFrames]
    exact Eq.congr_left (hstates f)
  have hshifted : (Registry.ofTable t).Shifted 0 lastOrder ∅ (Registry.ofTable t') :=
    shifted_of_same_states hbase hcount hsize hstates
  have htwins := create_alike hshifted True
  cases ha : create (Registry.ofTable t) lastOrder <;>
    cases ha' : create (Registry.ofTable t') lastOrder <;> rw [ha, ha'] at htwins
  · exact htwins
  · exact htwins.elim
  · exact htwins.elim
  · rename_i a a'
    have hspares' := (reserves_of_create ha').outcomes calls
    rw [hfree] at hspares'
    refine ⟨?_, (reserves_of_create ha).outcomes calls, hspares'⟩
    have halike := outcomes_alike calls htwins fun _ _ => .inl rfl
    rw [shiftCalls_zero] at halike
    refine halike.imp ?_
    rintro o o' ⟨hvalue, hstate, hevents⟩
    exact hstate.same hvalue (hevents rfl)

/-- Links that lead in a circle and out of the table, and a frame that is free at first.  It cannot
be handed over and it cannot be taken back. -/
theorem same_outcomes_over_circle :
    ∃ (t t' : FrameTable) (calls : List (Verbosity × Call)),
      (t'.base = t.base ∧ t'.frameCount = t.frameCount ∧ t'.pageSize = t.pageSize ∧
        ∀ f, (t'.page? f).map Page.state = (t.page? f).map Page.state) ∧
      (t'.pages.map Page.nextFree = #[some 1, some 0, some 2, some 99] ∧
        t.pages.map Page.nextFree = #[none, none, none, none]) ∧
      calls.map Prod.snd = [.insert 0 2, .insert 2 2, .allocate 0 Hints.empty, .free ⟨2, 0⟩,
        .free ⟨0, 0⟩, .heads 1] ∧
      (create (Registry.ofTable t') 2).map (fun a => (outcomes calls a).map Outcome.value) =
        .ok [.ok (.moved [⟨0, 1⟩]), .error (.alreadyFree 2),
          .ok (.granted ⟨⟨0, 0⟩, Hints.empty⟩), .error (.doubleFree 2 2 0), .ok .done,
          .ok (.heads [0])] ∧
      Concur True
        (fun a a' => List.Forall₂ Outcome.Same (outcomes calls a) (outcomes calls a') ∧
          (∀ o ∈ outcomes calls a, o.Spares (Registry.ofTable t).freeFrames) ∧
          ∀ o ∈ outcomes calls a', o.Spares (Registry.ofTable t).freeFrames)
        (create (Registry.ofTable t) 2) (create (Registry.ofTable t') 2) := by
  have hrun : ∃ (t t' : FrameTable) (calls : List (Verbosity × Call)),
      (t'.base = t.base ∧ t'.frameCount = t.frameCount ∧ t'.pageSize = t.pageSize ∧
        t'.pages.map Page.state = t.pages.map Page.state) ∧
      (t'.pages.map Page.nextFree = #[some 1, some 0, some 2, some 99] ∧
        t.pages.map Page.nextFree = #[none, none, none, none]) ∧
      calls.map Prod.snd = [.insert 0 2, .insert 2 2, .allocate 0 Hints.empty, .free ⟨2, 0⟩,
        .free ⟨0, 0⟩, .heads 1] ∧
      (create (Registry.ofTable t') 2).map (fun a => (outcomes calls a).map Outcome.value) =
        .ok [.ok (.moved [⟨0, 1⟩]), .error (.alreadyFree 2),
          .ok (.granted ⟨⟨0, 0⟩, Hints.empty⟩), .error (.doubleFree 2 2 0), .ok .done,
          .ok (.heads [0])] := by
    refine ⟨⟨0, #[⟨0, .allocated, none⟩, ⟨1, .allocated, none⟩, ⟨2, .free, none⟩,
      ⟨3, .allocated, none⟩], 4096, by decide⟩, ⟨0, #[⟨0, .allocated, some 1⟩,
      ⟨1, .allocated, some 0⟩, ⟨2, .free, some 2⟩, ⟨3, .allocated, some 99⟩], 4096, by decide⟩,
      [(none, .insert 0 2), (none, .insert 2 2), (none, .allocate 0 Hints.empty),
      (none, .free ⟨2, 0⟩), (none, .free ⟨0, 0⟩), (none, .heads 1)], ?_⟩
    decide +kernel
  obtain ⟨t, t', calls, ⟨hbase, hcount, hsize, hpages⟩, hlinks, hcalls, hvalues⟩ := hrun
  have hstates : ∀ f, (t'.page? f).map Page.state = (t.page? f).map Page.state := by
    intro f
    unfold FrameTable.page?
    rw [hbase]
    split
    · rw [← Array.getElem?_map, ← Array.getElem?_map, hpages]
    · rfl
  exact ⟨t, t', calls, ⟨hbase, hcount, hsize, hstates⟩, hlinks, hcalls, hvalues,
    same_outcomes_of_same_states hbase hcount hsize hstates 2 calls⟩

end Allocator

end BuddySystem
