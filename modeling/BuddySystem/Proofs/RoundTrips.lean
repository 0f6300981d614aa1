import BuddySystem.Proofs.Cascades
import BuddySystem.Proofs.Requests

/-!
# Handing out and giving back at once

A block that is given back right after it was handed out first goes the way back that
the request came: it is merged with the halves that the splits left over, one after the
other, and comes to the block that they were split off (`settles_of_splinters`).  Up to
there everything is undone.  But the cascade does not know where it began.  If the buddy
of that block is listed, which a run handed over apart can have left so, then the
merges go on, and the lists end up with a larger block than there was before.

`RoundTrip` says both: the allocator is the same as before but for its counters
(`SameButCounters`) just when the block that was split has the last order or its buddy is
not listed, and otherwise the block that was given back lies in one of a larger order.
`roundTrip_of_history` says it of every request in a history over a new table.  Where no
two free buddies are listed, requests are always undone.
-/

namespace BuddySystem

open Block (around)

variable {base lastOrder order pfn k : Nat} {B B' C : Finset Block} {source : Block}

/-! ### The way back -/

/-- **A block goes back through the halves that were left over** when it was split off a larger one,
and from there on it settles as the larger block does.  The induction takes away the largest half,
which is the last one on the way back. -/
theorem settles_of_splinters : ∀ (n : Nat) {C : Finset Block} {k : Nat},
    (⟨pfn, order + n⟩ : Block).Aligned base → order + n ≤ lastOrder →
    Disjoint (splinters pfn order n) C →
    Settles base lastOrder (splinters pfn order n ∪ C) ⟨pfn, order⟩ k B' →
    ∃ k', k = n + k' ∧ Settles base lastOrder C ⟨pfn, order + n⟩ k' B' := by
  intro n
  induction n with
  | zero =>
    intro C k _ _ _ h
    rw [splinters_zero, Finset.empty_union] at h
    exact ⟨k, (Nat.zero_add k).symm, h⟩
  | succ n ih =>
    intro C k ha ho hdisj h
    have hpos : 0 < (⟨pfn, order + n + 1⟩ : Block).order := Nat.succ_pos _
    have hlower : (⟨pfn, order + n⟩ : Block).Aligned base := ha.lower hpos
    have hbuddy : (⟨pfn, order + n⟩ : Block).buddy base = ⟨pfn + 2 ^ (order + n), order + n⟩ :=
      ha.buddy_lower hpos
    have hparent : (⟨pfn, order + n⟩ : Block).parent base = ⟨pfn, order + n + 1⟩ :=
      ha.parent_lower hpos
    rw [splinters_succ, Finset.disjoint_insert_left] at hdisj
    rw [splinters_succ, Finset.insert_union, ← Finset.union_insert] at h
    have hhalf : (⟨pfn + 2 ^ (order + n), order + n⟩ : Block) ∉ splinters pfn order n := by
      rw [mem_splinters]
      omega
    obtain ⟨k', hk, hrest⟩ :=
      ih hlower (by omega) (Finset.disjoint_insert_right.mpr ⟨hhalf, hdisj.2⟩) h
    cases hrest with
    | stay hend =>
      rw [hbuddy] at hend
      rcases hend with hlast | hno
      · have hlast : order + n = lastOrder := hlast
        omega
      · exact absurd (Finset.mem_insert_self _ _) hno
    | @merge _ _ _ k'' _ _ hrest =>
      rw [hbuddy, hparent, Finset.erase_insert hdisj.1] at hrest
      exact ⟨k'', by omega, hrest⟩

theorem Lowest.disjoint_splinters (h : Lowest B order source) :
    Disjoint (splinters source.pfn order (source.order - order)) (B.erase source) := by
  rw [Finset.disjoint_left]
  intro b hb hm
  obtain ⟨hle, hlt, _⟩ := mem_splinters.mp hb
  have ho := h.order_le
  exact h.not_mem hle (by omega) (Finset.mem_of_mem_erase hm)

/-- A block that is merged at least once is gone afterwards, and so is its buddy. -/
theorem Settles.past (h : Settles base lastOrder C source (k + 1) B') (ha : source.Aligned base)
    (hsource : source ∉ C) :
    source ∉ B' ∧ source.buddy base ∉ B' ∧
      around base (source.order + (k + 1)) source.pfn ∈ B' := by
  have hne : source.order ≠ source.order + (k + 1) := by omega
  have hmem := fun p => h.mem_iff ha (p := p) (o := source.order)
  refine ⟨fun hm => ?_, fun hm => ?_, (h.mem_iff ha).mpr (Or.inl ⟨rfl, rfl⟩)⟩
  · rcases (hmem source.pfn).mp hm with ⟨_, he⟩ | ⟨hold, _⟩
    · exact hne he
    · exact hsource hold
  · rcases (hmem (source.buddy base).pfn).mp hm with ⟨_, he⟩ | ⟨_, hno⟩
    · exact hne he
    · refine hno ⟨Nat.le_refl _, by omega, ?_⟩
      rw [Block.buddyAround, ha.around_eq]

namespace Allocator

/-- The second allocator is the first one but for what it has counted: it has the same descriptors
with the same states and links, the same lists, and the same count of free pages. -/
def SameButCounters (a a' : Allocator) : Prop := a' = { a with counters := a'.counters }

/-- What has become of an allocator after a block was handed out from the lower end of `source` and
given back at once. -/
structure RoundTrip (a : Allocator) (source : Block) (a' : Allocator) : Prop where
  same_iff : a.SameButCounters a' ↔
    source.order = a.lastOrder ∨ (source.buddy a.base).pfn ∉ a.heads source.order
  /-- Otherwise `source` and its buddy have gone into a block of a larger order. -/
  past : source.order ≠ a.lastOrder → (source.buddy a.base).pfn ∈ a.heads source.order →
    source.pfn ∉ a'.heads source.order ∧ (source.buddy a.base).pfn ∉ a'.heads source.order ∧
      ∃ top, source.order < top ∧ (around a.base top source.pfn).pfn ∈ a'.heads top

variable {a a₀ a₁ a' : Allocator} {log : List Exchange} {g : Grant} {counters : Counters}

/-! ### The same allocator -/

theorem Keeps.sameButCounters (h : a.Keeps ∅ B) (h' : a'.Keeps ∅ B)
    (hv : a'.view = { a.view with counters := a'.counters }) : a.SameButCounters a' := by
  have hcounted : ({ a with counters := a'.counters } : Allocator).Keeps ∅ B :=
    h.congr (h.sound.congr rfl h.sound.free) (fun _ => rfl) (fun _ => rfl) rfl
  exact h'.ext hcounted hv

theorem SameButCounters.heads_eq (h : a.SameButCounters a') (o : Nat) :
    a'.heads o = a.heads o := by
  rw [show a' = { a with counters := a'.counters } from h]
  rfl

/-! ### One round trip -/

/-- **Where a round trip ends**, told from how the block that was split settles. -/
theorem roundTrip_of_settles (hB : a.Complete B) (hB' : a'.Complete B') (hsource : source ∈ B)
    (h : Settles a.base a.lastOrder (B.erase source) source k B')
    (hv : a'.view = { a.view with counters := a'.counters }) : RoundTrip a source a' := by
  have ha : source.Aligned a.base := hB.keeps.sound.aligned source hsource
  have hlisted : source.pfn ∈ a.heads source.order := hB.mem_heads_iff.mpr hsource
  have hbuddy : (source.buddy a.base).pfn ∈ a.heads source.order ↔
      source.buddy a.base ∈ B.erase source := by
    rw [Finset.mem_erase, and_iff_right ha.buddy_ne]
    exact hB.mem_heads_iff (b := source.buddy a.base)
  cases h with
  | stay hend =>
    rw [Finset.insert_erase hsource] at hB'
    rw [← hbuddy] at hend
    constructor
    · exact iff_of_true (hB.keeps.sameButCounters hB'.keeps hv) hend
    · intro hne hmem
      exact absurd hmem (hend.resolve_left hne)
  | @merge _ _ _ k ho hmem hrest =>
    obtain ⟨hout, hbuddyout, htop⟩ :=
      (Settles.merge ho hmem hrest).past ha (Finset.notMem_erase source B)
    have hout' : source.pfn ∉ a'.heads source.order := mt hB'.mem_heads_iff.mp hout
    have hbuddyout' : (source.buddy a.base).pfn ∉ a'.heads source.order :=
      mt (hB'.mem_heads_iff (b := source.buddy a.base)).mp hbuddyout
    constructor
    · refine iff_of_false (fun hsame => hout' ?_) ?_
      · rw [hsame.heads_eq]
        exact hlisted
      · rintro (hlast | hno)
        · exact Nat.ne_of_lt ho hlast
        · exact hno (hbuddy.mpr hmem)
    · exact fun _ _ => ⟨hout', hbuddyout', _, by omega, hB'.mem_heads_iff.mpr htop⟩

/-- The block that was handed out can be taken back. -/
theorem takes_of_granted (hB : a.Complete B) (hlow : Lowest B order source)
    (hsub : (⟨source.pfn, order⟩ : Block).frames ⊆ covered B)
    (hv₁ : a₁.view = { a.view with
      free := a.view.free \ (⟨source.pfn, order⟩ : Block).frames
      counters := counters }) : a₁.view.Takes ⟨source.pfn, order⟩ := by
  have hsound := hB.keeps.sound
  rw [hv₁]
  refine ⟨?_, ?_, fun f hf => ⟨?_, fun hm => ?_⟩⟩
  · exact hlow.order_le.trans (hsound.order_le source hlow.mem)
  · exact (hsound.aligned source hlow.mem).shrink hlow.order_le
  · exact has_iff_reaches.mp (reaches_of_sighted hsound hB.sighted (hsub hf))
  · exact (Finset.mem_sdiff.mp hm).2 hf

/-- **A request and the return of its block** make a round trip from the block that was split. -/
theorem roundTrip_of_freed {c : Block} (hB : a.Complete B) (hlow : Lowest B order source)
    (hsub : (⟨source.pfn, order⟩ : Block).frames ⊆ covered B)
    (h₁ : a₁.Complete (splinters source.pfn order (source.order - order) ∪ B.erase source))
    (hv₁ : a₁.view = { a.view with
      free := a.view.free \ (⟨source.pfn, order⟩ : Block).frames
      counters := counters })
    (hf : Freed ∅ a₁ (splinters source.pfn order (source.order - order) ∪ B.erase source)
      ⟨source.pfn, order⟩ k B' c a') : RoundTrip a source a' := by
  have hsource := hlow.mem
  have hdown : order + (source.order - order) = source.order := Nat.add_sub_cancel' hlow.order_le
  have hsettles := hf.settles h₁
  rw [show a₁.lastOrder = a.lastOrder from congrArg View.lastOrder hv₁,
    show a₁.base = a.base from congrArg (fun V => V.base) hv₁] at hsettles
  obtain ⟨k', _, hback⟩ := settles_of_splinters (source.order - order)
    (by rw [hdown]; exact hB.keeps.sound.aligned source hsource)
    (by rw [hdown]; exact hB.keeps.sound.order_le source hsource)
    hlow.disjoint_splinters hsettles
  rw [hdown] at hback
  have hfree : a.view.free \ (⟨source.pfn, order⟩ : Block).frames ∪
      (⟨source.pfn, order⟩ : Block).frames = a.view.free :=
    Finset.sdiff_union_of_subset (hsub.trans hB.keeps.sound.free)
  refine roundTrip_of_settles hB (h₁.of_keeps hf.restocked hf.keeps) hsource hback ?_
  rw [show a'.counters = _ from congrArg View.counters hf.view, hf.view, hv₁]
  dsimp only
  rw [hfree]

/-- The block that was handed out is taken back, unless a counter might become full. -/
theorem roundTrip_of_granted (hB : a.Complete B) (hlow : Lowest B order source)
    (hsub : (⟨source.pfn, order⟩ : Block).frames ⊆ covered B)
    (h₁ : a₁.Complete (splinters source.pfn order (source.order - order) ∪ B.erase source))
    (hv₁ : a₁.view = { a.view with
      free := a.view.free \ (⟨source.pfn, order⟩ : Block).frames
      counters := counters })
    (hfrees : counters.frees + 1 < Word.limit)
    (hmerges : counters.merges + (a.lastOrder - order) < Word.limit) (v : Verbosity) :
    (perform (.free ⟨source.pfn, order⟩) v a₁).value = .ok .done ∧
      RoundTrip a source (perform (.free ⟨source.pfn, order⟩) v a₁).state := by
  have hcounters : a₁.counters = counters := congrArg View.counters hv₁
  have hlast : a₁.lastOrder = a.lastOrder := congrArg View.lastOrder hv₁
  obtain ⟨reply, hreply⟩ := free_answers h₁.keeps h₁.sighted
    (takes_of_granted hB hlow hsub hv₁) (by rw [hcounters]; exact hfrees)
    (by rw [hcounters, hlast]; exact hmerges) v
  have hp := performed_of_answer h₁.keeps hreply
  generalize (perform (.free ⟨source.pfn, order⟩) v a₁).state = a' at hp ⊢
  cases hp with
  | looked hq => exact hq.elim
  | freed hf => exact ⟨hreply, roundTrip_of_freed hB hlow hsub h₁ hv₁ hf⟩

/-- **A block that is given back as soon as it was handed out is taken**, unless a counter might
become full.  Everything is as before but for the counters just when the block that was split has
the last order or its buddy is not listed; so it is where no two free buddies are listed. -/
theorem roundTrip_of_history (hfresh : a₀.Fresh) (h : History a₀ log a) (hanswered : Answered log)
    (order : Nat) (hints : Hints) (v v' : Verbosity)
    (hgranted : (perform (.allocate order hints) v a).value = .ok (.granted g)) :
    ∃ source, a.FirstFrom order source ∧ g = { toBlock := ⟨source.pfn, order⟩, hints } ∧
      (a.counters.frees + 1 < Word.limit →
        a.counters.merges + (a.lastOrder - order) < Word.limit →
        (perform (.free g.toBlock) v' (perform (.allocate order hints) v a).state).value =
            .ok .done ∧
          RoundTrip a source
            (perform (.free g.toBlock) v' (perform (.allocate order hints) v a).state).state ∧
          ((∀ o < a.lastOrder, ∀ p ∈ a.heads o,
              ((⟨p, o⟩ : Block).buddy a.base).pfn ∉ a.heads o) →
            a.SameButCounters
              (perform (.free g.toBlock) v' (perform (.allocate order hints) v a).state).state)) := by
  obtain ⟨B, hB⟩ := complete_of_history hfresh h fun e he _ _ _ => hanswered e he
  have hp := performed_of_answer hB.keeps hgranted
  have hr := hp.restocked hB.keeps
  generalize (perform (.allocate order hints) v a).state = a₁ at hp hr ⊢
  cases hp with
  | looked hq => exact hq.elim
  | granted hg =>
    cases hg with
    | @granted _ source _ hlow hsub _ h₁ hv₁ =>
      refine ⟨source, hB.firstFrom hlow, rfl, fun hfrees hmerges => ?_⟩
      obtain ⟨hdone, htrip⟩ :=
        roundTrip_of_granted hB hlow hsub (hB.of_keeps hr h₁) hv₁ hfrees hmerges v'
      refine ⟨hdone, htrip, fun hapart => htrip.same_iff.mpr ?_⟩
      rcases Nat.lt_or_eq_of_le (hB.keeps.sound.order_le source hlow.mem) with ho | ho
      · exact Or.inr (hapart source.order ho source.pfn (hB.mem_heads_iff.mpr hlow.mem))
      · exact Or.inl ho

/-- A page that goes back into the pair it was split off, and a block whose buddy was handed over
apart, so that the two are merged. -/
theorem roundTrip_after_runs_apart :
    ∃ a₀ log a g g', a₀.Fresh ∧ History a₀ log a ∧ Answered log ∧
      a.heads 1 = [11] ∧ a.heads 2 = [3, 7] ∧ a.heads 3 = [] ∧
      (perform (.allocate 0 Hints.empty) none a).value = .ok (.granted g) ∧
      (perform (.allocate 2 Hints.empty) none a).value = .ok (.granted g') ∧
      a.SameButCounters (perform (.free g.toBlock) none
        (perform (.allocate 0 Hints.empty) none a).state).state ∧
      ¬ a.SameButCounters (perform (.free g'.toBlock) none
        (perform (.allocate 2 Hints.empty) none a).state).state ∧
      (perform (.free g'.toBlock) none
        (perform (.allocate 2 Hints.empty) none a).state).state.heads 3 = [3] := by
  have hrun : ∃ a₀ log a g g', Fresh a₀ ∧ History a₀ log a ∧ Answered log ∧
      a.heads 1 = [11] ∧ a.heads 2 = [3, 7] ∧ a.heads 3 = [] ∧
      (perform (.allocate 0 Hints.empty) none a).value = .ok (.granted g) ∧
      (perform (.allocate 2 Hints.empty) none a).value = .ok (.granted g') ∧
      a.heads 0 = [] ∧ a.base = 3 ∧ a.lastOrder = 3 ∧
      a.counters.frees + 1 < Word.limit ∧ a.counters.merges + 3 < Word.limit ∧
      (perform (.free g'.toBlock) none
        (perform (.allocate 2 Hints.empty) none a).state).state.heads 3 = [3] := by
    refine ⟨_, _, _, _, _, ⟨4096, 3, 12, 3, _, rfl, rfl⟩,
      .call none (.insert 11 2) (.call none (.insert 7 4) (.call none (.insert 3 4) .start)),
      ?_, ?_, ?_, ?_, rfl, rfl, ?_⟩ <;> decide +kernel
  obtain ⟨a₀, log, a, g, g', hfresh, h, hanswered, h₁, h₂, h₃, hg, hg', h₀, hbase, hlast, hfrees,
    hmerges, hmerged⟩ := hrun
  obtain ⟨source, hfirst, _, htrip⟩ :=
    roundTrip_of_history hfresh h hanswered 0 Hints.empty none none hg
  obtain ⟨source', hfirst', _, htrip'⟩ :=
    roundTrip_of_history hfresh h hanswered 2 Hints.empty none none hg'
  obtain rfl : source = ⟨11, 1⟩ := hfirst.unique {
    order_le := by decide
    le_last := by rw [hlast]; decide
    empty := fun o _ ho => by rw [Nat.lt_one_iff.mp ho, h₀]
    mem := by rw [h₁]; decide
    least := by rw [h₁]; decide }
  obtain rfl : source' = ⟨3, 2⟩ := hfirst'.unique {
    order_le := by decide
    le_last := by rw [hlast]; decide
    empty := fun o hle ho => absurd ho (Nat.not_lt.mpr hle)
    mem := by rw [h₂]; decide
    least := by rw [h₂]; decide }
  have hsame := (htrip hfrees (by rw [hlast]; exact hmerges)).2.1.same_iff
  have hsame' := (htrip' hfrees (by rw [hlast]; omega)).2.1.same_iff
  rw [hbase, hlast, h₁] at hsame
  rw [hbase, hlast, h₂] at hsame'
  exact ⟨a₀, log, a, g, g', hfresh, h, hanswered, h₁, h₂, h₃, hg, hg', hsame.mpr (by decide),
    fun hs => absurd (hsame'.mp hs) (by decide), hmerged⟩

end Allocator

end BuddySystem
