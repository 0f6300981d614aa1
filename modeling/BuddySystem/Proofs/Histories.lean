import BuddySystem.Call
import BuddySystem.Proofs.Runs

/-!
# Histories

A history of an allocator is the log of the calls that were made to it, the last
call first (`Allocator.History`).  An entry of the log is an `Exchange`: the
allocator as it was, the call, and what came of it.  A call that ends in a fault
leaves an allocator too, and the history goes on from there.

`perform_ends` puts together what single operations do: `Performed` has one case for
each kind of call that answers, and a fault leaves some stock that is kept.  In both
cases no free frame is lost where no frame in stock is hidden, except by a fault on
taking over a run, which can leave the run marked as free and not listed.
-/

namespace BuddySystem

/-- A call, the allocator it was made to and what came of it. -/
structure Exchange where
  before : Allocator
  call : Call
  value : Except Fault Reply

/-- The call is a question: it is not about frames or blocks that come or go. -/
def Call.IsQuestion : Call → Prop
  | .insert _ _ | .remove _ _ | .allocate _ _ | .free _ => False
  | _ => True

namespace Allocator

/-- An allocator over the frames of a new table. -/
def Fresh (a : Allocator) : Prop :=
  ∃ pageSize base count lastOrder table, FrameTable.create pageSize base count = .ok table ∧
    create (Registry.ofTable table) lastOrder = .ok a

/-- The calls in the log, the last one first, lead from `a₀` to `a`. -/
inductive History (a₀ : Allocator) : List Exchange → Allocator → Prop
  | start : History a₀ [] a₀
  | call {log : List Exchange} {a : Allocator} (v : Verbosity) (call : Call) :
      History a₀ log a →
      History a₀ (⟨a, call, (perform call v a).value⟩ :: log) (perform call v a).state

/-- All calls in the log were answered. -/
def Answered (log : List Exchange) : Prop := ∀ e ∈ log, ∃ reply, e.value = .ok reply

theorem exists_ok_iff {value : Except Fault Reply} :
    value.isOk = true ↔ ∃ reply, value = .ok reply := by
  cases value with
  | error fault => simp [Except.isOk, Except.toBool]
  | ok reply => simp [Except.isOk, Except.toBool]

instance : DecidablePred Answered := fun log =>
  decidable_of_iff (∀ e ∈ log, e.value.isOk = true) (forall₂_congr fun _ _ => exists_ok_iff)

/-- What a call that answers does to an allocator with the stock `B`. -/
inductive Performed (stale : Set Nat) (a : Allocator) (B : Finset Block) :
    Call → Reply → Allocator → Prop
  | inserted {start count : Nat} {blocks : List Block} {a' : Allocator} :
      Inserted stale a B start count blocks a' →
      Performed stale a B (.insert start count) (.moved blocks) a'
  | withdrawn {start count : Nat} {blocks : List Block} {a' : Allocator} :
      Withdrawn stale a B start (start + count) blocks a' →
      Performed stale a B (.remove start count) (.moved blocks) a'
  | granted {order : Nat} {hints : Hints} {g : Grant} {a' : Allocator} :
      Allocated stale a B order hints (.ok g) a' →
      Performed stale a B (.allocate order hints) (.granted g) a'
  | refused {order : Nat} {hints : Hints} {error : AllocError} {a' : Allocator} :
      Allocated stale a B order hints (.error error) a' →
      Performed stale a B (.allocate order hints) (.refused error) a'
  | freed {b c : Block} {k : Nat} {B' : Finset Block} {a' : Allocator} :
      Freed stale a B b k B' c a' → Performed stale a B (.free b) .done a'
  | looked {call : Call} {reply : Reply} : call.IsQuestion → Performed stale a B call reply a

variable {stale : Set Nat} {a a₀ a' : Allocator} {B : Finset Block} {v : Verbosity}
  {log log' : List Exchange} {call : Call} {reply : Reply}

/-! ### No frame gets lost -/

theorem Allocated.restocked {order : Nat} {hints : Hints} {answer : Except AllocError Grant}
    (h : a.Keeps stale B) (ha : Allocated stale a B order hints answer a') :
    Restocked stale a B a' := by
  cases ha with
  | invalid _ => exact h.restocked
  | exhausted _ _ h' hv' => exact ⟨by rw [hv']; rfl, B, h', fun _ => by rw [hv']⟩
  | granted _ _ hsub hcov h' hv' =>
    refine ⟨by rw [hv']; rfl, _, h', fun _ => ?_⟩
    rw [hv', hcov]
    exact sdiff_sdiff_of_subset hsub

theorem Freed.restocked {b c : Block} {k : Nat} {B' : Finset Block}
    (hf : Freed stale a B b k B' c a') : Restocked stale a B a' := by
  refine ⟨by rw [hf.view]; rfl, B', hf.keeps, fun _ => ?_⟩
  rw [hf.view, hf.covered]
  exact union_sdiff_of_new fun f hm => (hf.takes.allocated f hm).2

theorem Inserted.covered_eq {start count : Nat} {blocks : List Block}
    (hi : Inserted stale a B start count blocks a') :
    covered (B ∪ blocks.toFinset) = Finset.Ico start (start + count) ∪ covered B := by
  rw [covered_union, hi.tiles.covered_eq, Finset.union_comm]

theorem Inserted.restocked {start count : Nat} {blocks : List Block}
    (hi : Inserted stale a B start count blocks a') : Restocked stale a B a' := by
  refine ⟨by rw [hi.view]; rfl, _, hi.keeps, fun _ => ?_⟩
  rw [hi.view, hi.covered_eq]
  exact union_sdiff_of_new fun f hm => (hi.new f hm).2

theorem Withdrawn.covered_eq {start stop : Nat} {blocks : List Block} (h : a.Keeps stale B)
    (hw : Withdrawn stale a B start stop blocks a') :
    covered (B \ blocks.toFinset) = covered B \ Finset.Ico start stop := by
  rw [h.sound.covered_sdiff hw.subset, hw.tiles.covered_eq]

theorem Withdrawn.restocked {start stop : Nat} {blocks : List Block} (h : a.Keeps stale B)
    (hw : Withdrawn stale a B start stop blocks a') : Restocked stale a B a' := by
  refine ⟨by rw [hw.view]; rfl, _, hw.keeps, fun _ => ?_⟩
  rw [hw.view, hw.covered_eq h]
  exact sdiff_sdiff_of_subset hw.run_subset

theorem Performed.restocked (h : a.Keeps stale B) (hp : Performed stale a B call reply a') :
    Restocked stale a B a' := by
  cases hp with
  | inserted hi => exact hi.restocked
  | withdrawn hw => exact hw.restocked h
  | granted ha => exact ha.restocked h
  | refused ha => exact ha.restocked h
  | freed hf => exact hf.restocked
  | looked _ => exact h.restocked

/-! ### One call -/

theorem holds_ends (h : a.Keeps stale B) (b : Block) :
    (holds b).Ends v a (fun _ a' => a' = a) fun _ => False := by
  unfold holds
  rw [Op.ends_bind, Op.ends_query]
  split
  · exact (isListed_ends h).mono (fun _ _ he => he.1) fun _ hf => hf
  · exact rfl

theorem still_listedHeads (order : Nat) : (listedHeads order).Still := by
  intro v a
  have h : (listedHeads order).Ends v a (fun _ a' => a' = a) fun a' => a' = a := by
    unfold listedHeads
    rw [Op.ends_bind, Op.ends_ensure]
    exact ⟨fun _ => rfl, fun _ => rfl⟩
  exact h.state

theorem still_logDump : logDump.Still :=
  (Op.still_compute _).bind fun lines => Op.still_forM (fun _ => Op.still_log _) lines

/-- **What a call ends in.** -/
theorem perform_ends (h : a.Keeps stale B) (call : Call) :
    (perform call).Ends v a (Performed stale a B call)
      fun a' => a.view.Continues a'.view ∧
        (∃ B', a'.Keeps stale B' ∧
          (a.view.Sighted B → a.view.free \ covered B ⊆ a'.view.free \ covered B')) ∧
        ((∀ start count, call ≠ .insert start count) → Restocked stale a B a') := by
  have hfault : ∀ a', Restocked stale a B a' → a.view.Continues a'.view ∧
      (∃ B', a'.Keeps stale B' ∧
        (a.view.Sighted B → a.view.free \ covered B ⊆ a'.view.free \ covered B')) ∧
      ((∀ start count, call ≠ .insert start count) → Restocked stale a B a') := by
    intro a' hr
    obtain ⟨B', hkeeps, hloose⟩ := hr.keeps
    exact ⟨hr.continues, ⟨B', hkeeps, fun hs => (hloose hs).ge⟩, fun _ => hr⟩
  have hstill : ∀ {reply a'}, call.IsQuestion → a' = a → Performed stale a B call reply a' :=
    fun hq he => he ▸ .looked hq
  cases call with
  | insert start count =>
    rw [perform, Op.ends_map]
    refine (insertRun_ends h start count).mono (fun blocks a' hi => .inserted hi) ?_
    rintro a' ⟨hcont, ⟨B', _, hkeeps, hloose⟩, _⟩
    exact ⟨hcont, ⟨B', hkeeps, fun _ => hloose⟩, fun hne => absurd rfl (hne start count)⟩
  | remove start count =>
    rw [perform, Op.ends_map]
    refine (removeRun_ends h start count).mono (fun blocks a' hw => .withdrawn hw) ?_
    rintro a' (⟨_, he⟩ | ⟨_, hcont, hkeeps, hwhy⟩)
    · exact hfault a' (he ▸ h.restocked)
    · obtain ⟨B', hkeeps⟩ := hkeeps
      refine hfault a' ?_
      by_cases hs : a.view.Sighted B
      · obtain ⟨_, _, _, hw, _⟩ := hwhy hs
        exact hw.restocked h
      · exact hkeeps.restocked_blind hcont hs
  | allocate order hints =>
    rw [perform]
    refine (allocate_ends h order hints).bind (fun a' hs => hfault a' hs.toRestocked) ?_
    rintro (error | g) a' ha
    · exact .refused ha
    · exact .granted ha
  | free b =>
    rw [perform]
    refine (free_ends h b).bind ?_ ?_
    · rintro a' (⟨_, he⟩ | ⟨_, hs⟩)
      · exact hfault a' (he ▸ h.restocked)
      · exact hfault a' hs.toRestocked
    · rintro _ a' ⟨k, B', c, hf⟩
      exact .freed hf
  | totalFree => exact hstill trivial rfl
  | lastOrder => exact hstill trivial rfl
  | blockCount order => exact hstill trivial rfl
  | heads order =>
    rw [perform, Op.ends_map]
    exact (still_listedHeads order).ends.mono (fun _ _ he => hstill trivial he)
      fun a' he => hfault a' (he ▸ h.restocked)
  | holds b =>
    rw [perform, Op.ends_map]
    exact (holds_ends h b).mono (fun _ _ he => hstill trivial he) fun _ hf => hf.elim
  | stats => exact hstill trivial rfl
  | dump =>
    rw [perform, Op.ends_map]
    exact (Op.still_compute _).ends.mono (fun _ _ he => hstill trivial he)
      fun a' he => hfault a' (he ▸ h.restocked)
  | logDump =>
    rw [perform]
    exact still_logDump.ends.bind (fun a' he => hfault a' (he ▸ h.restocked))
      fun _ _ he => hstill trivial he

theorem performed_of_answer (h : a.Keeps stale B)
    (hvalue : (perform call v a).value = .ok reply) :
    Performed stale a B call reply (perform call v a).state := by
  have hends := perform_ends (v := v) h call
  rcases hx : perform call v a with ⟨value, a', events⟩
  rw [hx] at hvalue
  obtain rfl : value = .ok reply := hvalue
  exact hends.of_ok hx

end Allocator

end BuddySystem
