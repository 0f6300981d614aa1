import BuddySystem.Proofs.TwinCalls

/-!
# Where the run of frames starts

Blocks are laid out relative to the first frame of the registry, so it makes no
difference where that frame lies, as long as all numbers have room.
`outcomes_over_shift` compares two allocators over new tables, one that starts at
frame zero and one that starts at `base`, to which the same calls are made, each
about frames `base` higher in the second one: every call answers in both or faults in
both, the answers differ by `base` in the frames they name and in nothing else, and
the same holds of the allocators left (`Allocator.IsShift`).

A fault can come for different reasons, when a sum is too large in the second
allocator only.
-/

namespace BuddySystem

namespace Allocator

/-- An allocator over a new table of `count` frames from `base` on. -/
def overFrames (pageSize base count lastOrder : Nat) : Except Fault Allocator := do
  let table ← FrameTable.create pageSize base count
  create (Registry.ofTable table) lastOrder

/-- The second allocator is the first one with every frame `d` higher. -/
structure IsShift (d : Nat) (a a' : Allocator) : Prop where
  base : a'.base = a.base + d
  frameCount : a'.registry.frameCount = a.registry.frameCount
  pageSize : a'.registry.pageSize = a.registry.pageSize
  lastOrder : a'.lastOrder = a.lastOrder
  states : ∀ f, (a'.registry.page? (f + d)).map Page.state = (a.registry.page? f).map Page.state
  links : ∀ f, a'.registry.next? (f + d) = (a.registry.next? f).map (· + d)
  lists : ∀ o, a'.list o = (a.list o).shift d
  heads : ∀ o, a'.heads o = (a.heads o).map (· + d)
  totalFree : a'.totalFree = a.totalFree
  counters : a'.counters = a.counters

end Allocator

/-- A call ends in an answer in both outcomes or in a fault in both; what it answers and what it
leaves are `d` frames higher in the second one. -/
structure Outcome.IsShift (d : Nat) (o o' : Outcome Allocator Reply) : Prop where
  value : Concur False (fun reply reply' => reply' = reply.shift d) o.value o'.value
  state : o.state.IsShift d o'.state

namespace Allocator

variable {d last base count pageSize lastOrder : Nat} {K : Set Nat} {a a' : Allocator}

/-- Twins whose links are compared wherever there is room differ by the shift alone. -/
theorem Twins.isShift (h : a.Twins d last {f | Fits d last f} a') : a.IsShift d a' := by
  obtain ⟨known, hsub, h⟩ := h
  refine ⟨h.base, h.registry.frameCount, h.registry.pageSize, ?_, h.registry.state,
    fun f => ?_, h.list, h.heads, h.totalFree, h.counters⟩
  · rw [h.lastOrder, h.lastOrder_eq]
  by_cases hf : f ∈ a.registry.run
  · exact h.registry.next f (hsub (h.registry.room f hf))
  -- A frame outside of the run has no descriptor, before the shift and after it.
  have hnone : a.registry.page? f = none := by
    rw [← Option.not_isSome_iff_eq_none]
    exact fun hhas => hf (Registry.has_iff.mp hhas).1
  have hnone' : a'.registry.page? (f + d) = none := by
    have hstate := h.registry.state f
    rw [hnone] at hstate
    exact Option.map_eq_none_iff.mp hstate
  rw [Registry.next?, Registry.next?, hnone, hnone']
  rfl

/-- New tables differ by the shift alone. -/
theorem shifted_of_create {t t' : FrameTable} (hroom : base + count + 2 ^ last ≤ Word.limit)
    (ht : FrameTable.create pageSize 0 count = .ok t)
    (ht' : FrameTable.create pageSize base count = .ok t') :
    (Registry.ofTable t).Shifted base last {f | Fits base last f} (Registry.ofTable t') := by
  obtain ⟨hbase, hcount, hsize⟩ := FrameTable.run_of_create ht
  obtain ⟨hbase', hcount', hsize'⟩ := FrameTable.run_of_create ht'
  have hpage : ∀ f, (Registry.ofTable t).page? f =
      if f < count then some (Page.fresh f) else none := by
    intro f
    change t.page? f = _
    rw [FrameTable.page?_of_create ht, Nat.zero_add]
    simp only [Nat.zero_le, true_and]
  have hpage' : ∀ f, (Registry.ofTable t').page? (f + base) =
      if f < count then some (Page.fresh (f + base)) else none := by
    intro f
    change t'.page? (f + base) = _
    rw [FrameTable.page?_of_create ht']
    by_cases hf : f < count
    · rw [if_pos hf, if_pos ⟨Nat.le_add_left _ _, by omega⟩]
    · rw [if_neg hf, if_neg fun h => hf (by omega)]
  have hnext : ∀ f, (Registry.ofTable t).next? f = none := by
    intro f
    rw [Registry.next?, hpage]
    split <;> rfl
  constructor
  · change t'.base = t.base + base
    omega
  · exact hcount'.trans hcount.symm
  · exact hsize'.trans hsize.symm
  · intro f
    rw [hpage, hpage']
    split <;> rfl
  · intro f _
    rw [hnext, Registry.next?, hpage']
    split <;> rfl
  · intro f _ g hg
    rw [hnext] at hg
    cases hg
  · exact fun f hf => hf
  · intro f hf
    obtain ⟨_, hlt⟩ := Registry.mem_run.mp hf
    change f < t.base + t.frameCount at hlt
    exact Or.inr (by omega)

/-- **It makes no difference where the run of frames starts**, if there is room for a block of the
largest order after its end. -/
theorem outcomes_over_shift (pageSize base count lastOrder : Nat)
    (calls : List (Verbosity × Call)) (hroom : base + count + 2 ^ lastOrder ≤ Word.limit)
    (hcalls : ∀ c ∈ calls, c.2.Movable base) :
    Concur True
      (fun a a' => a.IsShift base a' ∧
        List.Forall₂ (Outcome.IsShift base) (outcomes calls a)
          (outcomes (shiftCalls base calls) a'))
      (overFrames pageSize 0 count lastOrder) (overFrames pageSize base count lastOrder) := by
  have hpos := Nat.two_pow_pos lastOrder
  have hlow : 0 + count < Word.limit := by omega
  have hhigh : base + count < Word.limit := by omega
  unfold overFrames
  -- Where the frames start has no part in how many of them a table has room for.
  by_cases hcount : count ≤ FrameTable.maxFrames
  swap
  · have hlarge := Nat.lt_of_not_le hcount
    rw [FrameTable.create_of_lt hlow hlarge, FrameTable.create_of_lt hhigh hlarge]
    exact fun _ => rfl
  obtain ⟨t, ht⟩ := FrameTable.exists_create pageSize hlow hcount
  obtain ⟨t', ht'⟩ := FrameTable.exists_create pageSize hhigh hcount
  have htwins := create_alike (shifted_of_create hroom ht ht') True
  rw [ht, ht']
  refine htwins.mono (fun h => h) fun a a' h => ⟨h.isShift, ?_⟩
  refine (outcomes_alike calls h fun c hc => .inr (hcalls c hc)).imp ?_
  rintro o o' ⟨hvalue, hstate, _⟩
  exact ⟨hvalue.mono (fun hf => hf.elim) fun _ _ h => h, hstate.isShift⟩

/-- Eight frames from frame 3 on, which is a multiple of no block size.  The second call ends in a
fault. -/
theorem outcomes_over_three :
    ∃ calls : List (Verbosity × Call),
      calls.map Prod.snd = [.insert 0 7, .remove 1 6, .allocate 0 Hints.empty, .free ⟨6, 0⟩,
        .heads 2] ∧
      3 + 8 + 2 ^ 2 ≤ Word.limit ∧ (∀ c ∈ calls, c.2.Movable 3) ∧
      (overFrames 4096 3 8 2).map (fun a => (outcomes (shiftCalls 3 calls) a).map Outcome.value) =
        .ok [.ok (.moved [⟨3, 2⟩, ⟨7, 1⟩, ⟨9, 0⟩]), .error (.noFreeBlock 4),
          .ok (.granted ⟨⟨9, 0⟩, Hints.empty⟩), .ok .done, .ok (.heads [3])] ∧
      Concur True
        (fun a a' => a.IsShift 3 a' ∧
          List.Forall₂ (Outcome.IsShift 3) (outcomes calls a) (outcomes (shiftCalls 3 calls) a'))
        (overFrames 4096 0 8 2) (overFrames 4096 3 8 2) := by
  have hroom : 3 + 8 + 2 ^ 2 ≤ Word.limit := by decide
  have hcalls : ∀ c ∈ ([(none, .insert 0 7), (none, .remove 1 6),
      (none, .allocate 0 Hints.empty), (none, .free ⟨6, 0⟩), (none, .heads 2)] :
      List (Verbosity × Call)), c.2.Movable 3 := by
    decide
  refine ⟨_, rfl, hroom, hcalls, ?_, outcomes_over_shift 4096 3 8 2 _ hroom hcalls⟩
  decide +kernel

end Allocator

end BuddySystem
